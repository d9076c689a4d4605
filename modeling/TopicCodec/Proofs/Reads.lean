import TopicCodec.Proofs.MinSize
import TopicCodec.Proofs.Utf8

/-!
# Reading back what was written

`Reads walk position bytes read value` says all that a read does where `bytes` were
written at `position`: followed by anything it consumes exactly them and gives `value`,
and cut short anywhere it reports that the input ended. What is remembered of lower
bounds stays true on the way. Such reads compose, and every item of the wire format is
read back so.
-/
namespace TopicCodec.Marshal

variable {α β : Type}

/-- The outcome is that the input, which ended at `stop`, was too short. -/
def FallsShort (stop : Nat) (outcome : Except CodecError α) : Prop :=
  ∃ path offset needed available,
    outcome = .error (.truncatedInput path offset needed available) ∧
      offset + available = stop ∧ available < needed

def Reads (walk : DecodeWalk) (position : Nat) (bytes : List UInt8)
    (read : Reading → Except CodecError (α × Reading)) (value : α) : Prop :=
  ∀ known, Sound walk known → ∃ known', Sound walk known' ∧
    (∀ tail, read ⟨⟨position, bytes ++ tail⟩, known⟩ =
      .ok (value, ⟨⟨position + bytes.length, tail⟩, known'⟩)) ∧
    ∀ k < bytes.length, FallsShort (position + k) (read ⟨⟨position, bytes.take k⟩, known⟩)

variable {walk : DecodeWalk} {position : Nat}

theorem FallsShort.bind {stop : Nat} {outcome : Except CodecError α}
    (h : FallsShort stop outcome) (next : α → Except CodecError β) :
    FallsShort stop (outcome >>= next) := by
  obtain ⟨path, offset, needed, available, rfl, hs, hn⟩ := h
  exact ⟨path, offset, needed, available, rfl, hs, hn⟩

namespace Reads

theorem pure (value : α) : Reads walk position [] (fun reading => .ok (value, reading)) value := by
  intro known hk
  refine ⟨known, hk, fun tail => rfl, ?_⟩
  intro k h
  cases h

theorem congr {bytes : List UInt8} {read read' : Reading → Except CodecError (α × Reading)}
    {value : α} (h : Reads walk position bytes read value)
    (he : ∀ reading, reading.cursor.offset = position → read' reading = read reading) :
    Reads walk position bytes read' value := by
  intro known hk
  obtain ⟨known', hk', hr, hs⟩ := h known hk
  refine ⟨known', hk', fun tail => ?_, fun k hl => ?_⟩
  · rw [he _ rfl, hr]
  · rw [he _ rfl]
    exact hs k hl

theorem bind {bytes rest : List UInt8} {read : Reading → Except CodecError (α × Reading)}
    {a : α} {b : β} (h : Reads walk position bytes read a)
    (next : α × Reading → Except CodecError (β × Reading))
    (hn : Reads walk (position + bytes.length) rest (fun reading => next (a, reading)) b) :
    Reads walk position (bytes ++ rest) (fun reading => read reading >>= next) b := by
  intro known hk
  obtain ⟨known₁, hk₁, hr, hs⟩ := h known hk
  obtain ⟨known₂, hk₂, hr', hs'⟩ := hn known₁ hk₁
  refine ⟨known₂, hk₂, fun tail => ?_, fun k hl => ?_⟩
  · dsimp only
    rw [List.append_assoc, hr, List.length_append, ← Nat.add_assoc]
    exact hr' tail
  · by_cases hb : k < bytes.length
    · rw [List.take_append_of_le_length (Nat.le_of_lt hb)]
      exact (hs k hb).bind next
    · rw [List.length_append] at hl
      have hk : position + k = position + bytes.length + (k - bytes.length) := by omega
      dsimp only
      rw [List.take_append, List.take_of_length_le (Nat.le_of_not_lt hb), hr, hk]
      exact hs' (k - bytes.length) (by omega)

theorem after {bytes : List UInt8} {read : Reading → Except CodecError (α × Reading)} {a : α}
    {b : β} (h : Reads walk position bytes read a)
    (next : α × Reading → Except CodecError (β × Reading))
    (hn : ∀ reading, next (a, reading) = .ok (b, reading)) :
    Reads walk position bytes (fun reading => read reading >>= next) b := by
  rw [← List.append_nil bytes]
  exact h.bind next ((Reads.pure b).congr fun reading _ => hn reading)

/-- As much is written as any read of it must consume. -/
theorem length_ge {bytes : List UInt8} {read : Reading → Except CodecError (α × Reading)} {a : α}
    (h : Reads walk position bytes read a) {size : Nat} (hs : Advances size read) :
    size ≤ bytes.length := by
  obtain ⟨known, _, hr, _⟩ := h [] (sound_nil walk)
  have ho := hs _ _ _ (hr [])
  simp only at ho
  omega

end Reads

/-! ## Items -/

/-- A read of the cursor, given what it does with enough bytes and with too few. -/
theorem reads_cursor (path : Path) {read : Cursor → Except Shortfall α × Cursor}
    {bytes : List UInt8} {value : α}
    (hr : ∀ tail, read ⟨position, bytes ++ tail⟩ =
      (.ok value, ⟨position + bytes.length, tail⟩))
    (hs : ∀ rest, rest.length < bytes.length → ∃ short next,
      read ⟨position, rest⟩ = (.error short, next) ∧ Cursor.EndsShort ⟨position, rest⟩ short) :
    Reads walk position bytes (fun reading => reading.read path read) value := by
  intro known hk
  refine ⟨known, hk, fun tail => ?_, fun k hl => ?_⟩
  · exact Reading.read_eq_ok.mpr ⟨hr tail, rfl⟩
  · have hn : (bytes.take k).length = k := List.length_take_of_le (Nat.le_of_lt hl)
    obtain ⟨short, next, hf, ho, ha⟩ := hs (bytes.take k) (by omega)
    refine ⟨path, short.offset, short.needed, short.available, ?_, ?_, ha⟩
    · simp only [Reading.read, hf]
    · simpa only [hn] using ho

theorem reads_take (path : Path) (bytes : List UInt8) :
    Reads walk position bytes (fun reading => reading.read path (Cursor.take bytes.length))
      bytes := by
  refine reads_cursor path (fun tail => Cursor.take_eq_ok.mpr ⟨rfl, rfl, rfl⟩) ?_
  intro rest hl
  exact ⟨_, _, Cursor.take_of_short hl, rfl, hl⟩

theorem number_emitNumber (wire : WireFormat) (position : Nat) {width n : Nat} (h : n < 256 ^ width)
    (tail : List UInt8) :
    Cursor.number wire width ⟨position, Item.emitNumber wire position width n ++ tail⟩ =
      (.ok n, ⟨position + (Item.emitNumber (σ := List UInt8) wire position width n).length,
        tail⟩) := by
  refine Cursor.number_eq_ok.mpr ⟨_, _, rfl, List.length_replicate,
    ByteOrder.length_toBytes _ _ _, (ByteOrder.ofBytes_toBytes_of_lt _ h).symm, ?_⟩
  simp only [Item.length_emitNumber]
  omega

theorem reads_number (path : Path) (width : Nat) {n : Nat} (h : n < 256 ^ width) :
    Reads walk position (Item.emitNumber walk.wire position width n)
      (fun reading => reading.read path (Cursor.number walk.wire width)) n := by
  refine reads_cursor path (number_emitNumber walk.wire position h) ?_
  intro rest hl
  rw [Item.length_emitNumber] at hl
  exact Cursor.number_of_short hl

theorem reads_scalar (path : Path) (kind : ScalarKind) (bits : kind.Bits) :
    Reads walk position (Item.emit walk.wire position (.scalar (.number kind bits)))
      (fun reading => reading.read path (Cursor.scalar walk.wire kind)) bits := by
  refine reads_cursor path (fun tail => Cursor.scalar_eq_ok.mpr
    (number_emitNumber walk.wire position (kind.bits_lt bits) tail)) ?_
  intro rest hl
  simp only [Item.emit, Item.length_emitNumber] at hl
  exact Cursor.scalar_of_short hl

theorem reads_length (path : Path) {n : Nat} (h : n < UInt32.size) :
    Reads walk position (Item.emit walk.wire position (.length n))
      (fun reading => reading.read path (Cursor.length walk.wire)) n := by
  have hn : (BitVec.ofNat (8 * ScalarKind.width .u32) n).toNat = n := by
    rw [BitVec.toNat_ofNat]
    exact Nat.mod_eq_of_lt h
  simp only [Item.length, Item.emit, hn]
  exact reads_number path lengthWidth h

theorem reads_bool (path : Path) (flag : Bool) :
    Reads walk position (Item.emit walk.wire position (.scalar (.bool flag))) (decodeBool path)
      flag := by
  intro known hk
  obtain ⟨known', hk', hr, hs⟩ := reads_take path [if flag then 1 else 0] known hk
  refine ⟨known', hk', fun tail => ?_, fun k hl => (hs k hl).bind _⟩
  have hr := hr tail
  simp only [List.length_singleton] at hr
  simp only [decodeBool, Item.emit, Sink.ofBytes, hr]
  cases flag <;> rfl

theorem checkText_encode {text : String} (h : (Utf8.encode text).contains 0 = false) (path : Path)
    (start : Nat) : checkText (Utf8.encode text ++ [0]) path start = .ok text := by
  refine checkText_eq_ok.mpr ⟨List.getLast?_concat, ?_, ?_⟩
  · rw [List.dropLast_concat, List.findIdx?_eq_none_iff]
    intro byte hb
    rw [beq_eq_false_iff_ne]
    rintro rfl
    rw [List.contains_iff_mem.mpr hb] at h
    cases h
  · rw [List.dropLast_concat]
    exact Utf8.decode_encode text

theorem reads_text (path : Path) {bound : Option UInt32} {text : String}
    (hz : (Utf8.encode text).contains 0 = false)
    (hb : bound.any (·.toNat < Utf8.size text) = false)
    (hl : Utf8.size text < walk.wire.maxStringLen.toNat) :
    Reads walk position (Item.emit walk.wire position (.text text))
      (decodeText walk.wire bound path) text := by
  have hm : (Utf8.encode text).length + 1 < UInt32.size :=
    Nat.lt_of_le_of_lt hl walk.wire.maxStringLen.toNat_lt
  have hc (offset : Nat) : checkTextLength walk.wire bound ((Utf8.encode text).length + 1) path
      offset = .ok () :=
    checkTextLength_eq_ok.mpr ⟨Nat.succ_ne_zero _, hl, hb⟩
  let offset := position + walk.wire.padding position lengthWidth
  have ht : Reads walk (position + (Item.emitNumber (σ := List UInt8) walk.wire position
      lengthWidth ((Utf8.encode text).length + 1)).length) (Utf8.encode text ++ [0])
      (fun reading => reading.read path (Cursor.take (Utf8.encode text ++ [0]).length) >>= fun p =>
        checkText p.1 path (offset + lengthWidth) >>= fun text => .ok (text, p.2)) text :=
    (reads_take path (Utf8.encode text ++ [0])).after _ fun reading => by
      simp only [checkText_encode hz]
      rfl
  refine ((reads_number path lengthWidth hm).bind (fun p =>
    checkTextLength walk.wire bound p.1 path offset >>= fun _ =>
      p.2.read path (Cursor.take p.1) >>= fun p =>
        checkText p.1 path (offset + lengthWidth) >>= fun text => .ok (text, p.2))
    (ht.congr fun reading _ => ?_)).congr fun reading h => ?_
  · simp only [hc, List.length_append, List.length_singleton]
    rfl
  · subst h
    rfl

/-! ## Counts -/

theorem decodeCount_of_read {leaf : Leaf} {path : Path} {before middle : Reading} {count : Nat}
    (h : before.read path (Cursor.length walk.wire) = .ok (count, middle))
    (hc : count ≤ walk.wire.maxSequenceLen.toNat) :
    decodeCount walk leaf path before =
      let least := minElement walk.desc.program leaf middle.known
      let needed := saturate (count * least.1)
      if walk.checkRoom && middle.cursor.remaining < needed then
        .error (.truncatedInput path middle.cursor.offset needed middle.cursor.remaining)
      else .ok (count, ⟨middle.cursor, least.2⟩) := by
  unfold decodeCount
  simp only [h, bind, Except.bind, Nat.not_lt.mpr hc, if_false]
  split_ifs <;> rfl

/-- A count and what it announces: with all of it there is room, and without there is either no
room or no end. -/
theorem reads_count (path : Path) {leaf : Leaf} {count : Nat} {body : List UInt8}
    (next : Nat × Reading → Except CodecError (β × Reading)) {b : β}
    (hc : count ≤ walk.wire.maxSequenceLen.toNat)
    (hb : ∀ known, Sound walk known →
      count * (minElement walk.desc.program leaf known).1 ≤ body.length)
    (hn : Reads walk (position + (Item.emit (σ := List UInt8) walk.wire position
      (.length count)).length) body (fun reading => next (count, reading)) b) :
    Reads walk position (Item.emit walk.wire position (.length count) ++ body)
      (fun reading => decodeCount walk leaf path reading >>= next) b := by
  have hh : Reads walk position (Item.emit walk.wire position (.length count))
      (fun reading => reading.read path (Cursor.length walk.wire)) count :=
    reads_length path (Nat.lt_of_le_of_lt hc walk.wire.maxSequenceLen.toNat_lt)
  generalize Item.emit (σ := List UInt8) walk.wire position (.length count) = head at hh hn ⊢
  intro known hk
  obtain ⟨known₁, hk₁, hr, hs⟩ := hh known hk
  have hroom := hb known₁ hk₁
  obtain ⟨known₂, hk₂, hr', hs'⟩ := hn _ (minElement_bound leaf hk₁).2
  refine ⟨known₂, hk₂, fun tail => ?_, fun k hl => ?_⟩
  · have hn : ¬ (body ++ tail).length < saturate (count *
        (minElement walk.desc.program leaf known₁).1) := by
      have hsat := saturate_le (count * (minElement walk.desc.program leaf known₁).1)
      rw [List.length_append]
      omega
    dsimp only
    rw [List.append_assoc, decodeCount_of_read (hr (body ++ tail)) hc, List.length_append,
      ← Nat.add_assoc]
    simp only [Cursor.remaining, hn, decide_false, Bool.and_false, Bool.false_eq_true, if_false]
    exact hr' tail
  · by_cases hh : k < head.length
    · rw [List.take_append_of_le_length (Nat.le_of_lt hh)]
      obtain ⟨path', offset, needed, available, hf, ho, ha⟩ := hs k hh
      refine FallsShort.bind ⟨path', offset, needed, available, ?_, ho, ha⟩ next
      simp only [decodeCount, hf]
      rfl
    · rw [List.length_append] at hl
      have hk : position + k = position + head.length + (k - head.length) := by omega
      have hlen : (body.take (k - head.length)).length = k - head.length :=
        List.length_take_of_le (by omega)
      dsimp only
      rw [List.take_append, List.take_of_length_le (Nat.le_of_not_lt hh), hk,
        decodeCount_of_read (hr _) hc]
      dsimp only
      split_ifs with hr
      · exact ⟨path, _, _, _, rfl, congrArg _ hlen,
          of_decide_eq_true (Bool.and_eq_true _ _ ▸ hr).2⟩
      · exact hs' (k - head.length) (by omega)

end TopicCodec.Marshal
