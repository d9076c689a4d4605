import TopicCodec.Marshal
import TopicCodec.Proofs.Cursor
import TopicCodec.Proofs.CycleSkipping
import TopicCodec.Proofs.Sink
import TopicCodec.Proofs.Walk

/-!
# Sizes agree with encodings

The size of an instance is the number of bytes it is encoded to, whether it is counted by
walking the instance or answered from the program alone. Where the encoder succeeds, the
unlimited walk over the program passes the same positions, as far as it gets, so that
nothing is aligned past the limit and a position it ends with is the one of the encoder.
The checked walk can still be cut off over the table of remainders.

The sizes of arrays of numbers are added up without looking at each element. They are
right because the alignment of a number divides its width, which an alignment cap that is
zero or a power of two ensures.
-/
namespace TopicCodec

namespace Marshal

variable {walk : Walk} {enter : EncodeNested (List UInt8)} {plain : UInt32 → Nat → Option Nat}
  {clear : UInt32 → Nat → Prop}

/-! ## Passing the positions of the encoder -/

/-- Sizes follow a program without any string counted. -/
def Walk.extent (walk : Walk) : Extent := ⟨walk.desc.program, walk.wire, false⟩

/-- The unlimited walk over a nested structure ends where the encoder does, if it ends, and nothing
on its way is aligned past the limit. -/
def TracksNested (walk : Walk) (enter : EncodeNested (List UInt8))
    (plain : UInt32 → Nat → Option Nat) (clear : UInt32 → Nat → Prop) : Prop :=
  ∀ target words value path q chunk, walk.desc.program.stream? target = some words →
    enter target words value path q = .ok chunk → q + chunk.length < Extent.limit →
    (∀ last, plain target q = some last → last = q + chunk.length) ∧ clear target q

theorem leaf_tracks (he : TracksNested walk enter plain clear) {stream : UInt32} {pc : Nat}
    {leaf : Leaf} {value : Value} {path : Path} {q : Nat} {chunk : List UInt8}
    (h : encodeLeaf walk enter stream pc leaf value path q = .ok chunk)
    (hs : q + chunk.length < Extent.limit) :
    (∀ last, walk.extent.exactLeaf plain q leaf = some last → last = q + chunk.length) ∧
      walk.extent.LeafClear clear q leaf := by
  cases leafWritten h with
  | number kind bits =>
      simp only [Item.emit, Item.length_emitNumber, ← Nat.add_assoc] at hs ⊢
      exact ⟨fun last hl => (Option.some.inj hl).symm, Extent.alignsBelow_of_lt hs⟩
  | bool flag => exact ⟨fun last hl => (Option.some.inj hl).symm, trivial⟩
  | @text bound text _ _ _ =>
      cases bound with
      | none => exact ⟨fun last hl => (by cases hl), trivial⟩
      | some bound => exact ⟨fun last hl => (by cases hl), fun hb => (by cases hb)⟩
  | struct hw hr => exact he _ _ _ _ q chunk hw hr hs

theorem elements_track (he : TracksNested walk enter plain clear) {stream : UInt32} {pc : Nat}
    {leaf : Leaf} {items : List Value} {path : Path} {q : Nat} {chunk : List UInt8}
    (h : encodeElements walk enter stream pc leaf items path q = .ok chunk)
    (hs : q + chunk.length < Extent.limit) :
    (∀ last, Extent.iterate (walk.extent.exactLeaf plain · leaf) items.length q = some last →
      last = q + chunk.length) ∧
      ∀ i < items.length, ∀ p, Extent.iterate (walk.extent.exactLeaf plain · leaf) i q = some p →
        walk.extent.LeafClear clear p leaf := by
  unfold encodeElements at h
  generalize 0 = first at h
  induction items generalizing q chunk first with
  | nil =>
      cases h
      exact ⟨fun last hl => (Option.some.inj hl).symm, fun i hi => by cases hi⟩
  | cons item rest ih =>
      obtain ⟨head, tail, hh, ht, rfl⟩ := emitAll_zipIdx_cons_eq_ok.mp h
      change q + (head ++ tail).length < _ at hs
      change emitAll _ _ (q + head.length) = .ok tail at ht
      rw [List.length_append] at hs
      obtain ⟨hend, hclear⟩ := leaf_tracks he hh (by omega)
      obtain ⟨hrest, hclears⟩ := ih (by omega) _ ht
      constructor
      · intro last hl
        obtain ⟨next, hn, hl⟩ := Option.bind_eq_some_iff.mp hl
        obtain rfl := hend next hn
        change last = q + (head ++ tail).length
        rw [hrest last hl, List.length_append, Nat.add_assoc]
      · intro i hi p hp
        cases i with
        | zero =>
            cases hp
            exact hclear
        | succ i =>
            obtain ⟨next, hn, hp⟩ := Option.bind_eq_some_iff.mp hp
            obtain rfl := hend next hn
            exact hclears i (Nat.lt_of_succ_lt_succ hi) p hp

theorem array_tracks (he : TracksNested walk enter plain clear) {stream : UInt32} {pc : Nat}
    {leaf : Leaf} {count : UInt32} {items : List Value} {path : Path} {q : Nat}
    {chunk : List UInt8} (hc : items.length = count.toNat)
    (h : encodeElements walk enter stream pc leaf items path q = .ok chunk)
    (hs : q + chunk.length < Extent.limit) :
    (∀ last, walk.extent.exactShape plain q (.array leaf count) = some last →
      last = q + chunk.length) ∧ walk.extent.ShapeClear plain clear q (.array leaf count) := by
  obtain ⟨hend, hclear⟩ := elements_track he h hs
  rw [hc] at hend hclear
  refine ⟨hend, ?_⟩
  cases leaf with
  | number kind =>
      intro hzero
      have hpos : 0 < count.toNat := Nat.pos_of_ne_zero fun h => hzero (UInt32.toNat_inj.mp h)
      exact hclear 0 hpos q rfl
  | _ => exact hclear

theorem shape_tracks (he : TracksNested walk enter plain clear) (hw : walk.wire.CapIsPower)
    {stream : UInt32} {pc : Nat} {shape : Shape} {value : Value} {path : Path} {q : Nat}
    {chunk : List UInt8} (h : encodeShape walk enter stream pc shape value path q = .ok chunk)
    (hs : q + chunk.length < Extent.limit) :
    (∀ last, walk.extent.rowShape plain q shape = some last → last = q + chunk.length) ∧
      walk.extent.ShapeClear plain clear q shape := by
  rw [Extent.rowShape_eq_exactShape hw]
  cases shapeWritten h with
  | single hleaf => exact leaf_tracks he hleaf hs
  | sequence _ _ => exact ⟨fun last hl => (by cases hl), trivial⟩
  | array hc helems => exact array_tracks he hc helems hs

theorem fields_track (he : TracksNested walk enter plain clear) (hw : walk.wire.CapIsPower)
    {stream : UInt32} {insns : List Instruction} {value : Value} {path : Path} {q : Nat}
    {chunk : List UInt8}
    (h : emitAll (encodeField walk enter stream value path) insns q = .ok chunk)
    (hs : q + chunk.length < Extent.limit) :
    (∀ last, insns.foldlM (fun p insn => walk.extent.rowShape plain p insn.shape) q = some last →
      last = q + chunk.length) ∧
      ∀ front insn rest, insns = front ++ insn :: rest → ∀ p,
        front.foldlM (fun p insn => walk.extent.rowShape plain p insn.shape) q = some p →
        walk.extent.ShapeClear plain clear p insn.shape := by
  induction insns generalizing q chunk with
  | nil =>
      cases h
      exact ⟨fun last hl => (Option.some.inj hl).symm, fun front insn rest hsplit => by simp at hsplit⟩
  | cons first others ih =>
      obtain ⟨head, tail, hh, ht, rfl⟩ := emitAll_cons_eq_ok.mp h
      change q + (head ++ tail).length < _ at hs
      change emitAll _ _ (q + head.length) = .ok tail at ht
      rw [List.length_append] at hs
      obtain ⟨_, _, hh⟩ := encodeField_eq_ok hh
      obtain ⟨hend, hclear⟩ := shape_tracks he hw hh (by omega)
      obtain ⟨hrest, hclears⟩ := ih ht (by omega)
      constructor
      · intro last hl
        obtain ⟨next, hn, hl⟩ := Option.bind_eq_some_iff.mp hl
        obtain rfl := hend next hn
        change last = q + (head ++ tail).length
        rw [hrest last hl, List.length_append, Nat.add_assoc]
      · intro front insn rest hsplit p hp
        cases front with
        | nil =>
            cases hsplit
            cases hp
            exact hclear
        | cons other front =>
            cases hsplit
            obtain ⟨next, hn, hp⟩ := Option.bind_eq_some_iff.mp hp
            obtain rfl := hend next hn
            exact hclears front insn rest rfl p hp

/-- A program followed to any depth tracks an encoder that may go as deep as it will. -/
theorem stream_tracks (depth fuel : Nat) (hw : walk.wire.CapIsPower) :
    TracksNested walk (encodeStruct walk fuel) (walk.extent.rowStream depth)
      (walk.extent.StreamClear depth) := by
  induction depth generalizing fuel with
  | zero => exact fun _ _ _ _ _ _ _ _ _ => ⟨fun last hl => (by cases hl), trivial⟩
  | succ depth ih =>
      intro target words value path q chunk hwords h hs
      cases fuel with
      | zero => cases h
      | succ fuel =>
          have h := (encodeStruct_succ_eq_ok.mp h).1
          rw [← Scan.instructions_readAll] at h
          obtain ⟨hend, hclear⟩ := fields_track (ih fuel) hw h hs
          constructor
          · intro last hl
            obtain ⟨found, hfound, hl⟩ := Option.bind_eq_some_iff.mp hl
            cases hwords.symm.trans hfound
            obtain ⟨insns, hinsns, hl⟩ := Option.bind_eq_some_iff.mp hl
            rw [(Extent.toOption_instructions hinsns).1] at hl
            exact hend last hl
          · intro found hfound
            cases hwords.symm.trans hfound
            exact hclear

end Marshal

namespace WireFormat

open Marshal

variable {desc : Descriptor} {wire : WireFormat} {value : Value} {bytes : List UInt8}

/-! ## Sizes of instances -/

theorem checkField_of_encodeShape {walk : Walk} {enter : EncodeNested (List UInt8)}
    {stream : UInt32} {insn : Instruction} {path here : Path} {q : Nat} {chunk : List UInt8}
    (h : encodeShape walk enter stream insn.pc insn.shape value path q = .ok chunk) :
    checkField insn here value = .ok () := by
  unfold checkField
  generalize insn.shape = shape at h ⊢
  cases shapeWritten h with
  | single hl =>
      cases leafWritten hl with
      | number kind bits => exact if_pos rfl
      | _ => rfl
  | sequence _ _ => rfl
  | array hc _ => exact if_pos hc

theorem forM_eq_ok {α : Type} {check : α → Except Defect Unit} {items : List α}
    (h : ∀ item ∈ items, check item = .ok ()) : items.forM check = .ok () := by
  induction items with
  | nil => rfl
  | cons item rest ih =>
      rw [List.forM, h item (by simp)]
      exact ih fun item hm => h item (by simp [hm])

theorem exists_emit_of_mem {α : Type} {emit : α → Nat → Except CodecError (List UInt8)}
    {items : List α} {q : Nat} {chunk : List UInt8} (h : emitAll emit items q = .ok chunk)
    {item : α} (hm : item ∈ items) : ∃ p part, emit item p = .ok part := by
  induction items generalizing q chunk with
  | nil => cases hm
  | cons first rest ih =>
      obtain ⟨head, tail, hh, ht, rfl⟩ := emitAll_cons_eq_ok.mp h
      rcases List.mem_cons.mp hm with rfl | hm
      · exact ⟨q, head, hh⟩
      · exact ih ht hm

theorem checkLayout_of_emitAll {walk : Walk} {enter : EncodeNested (List UInt8)} {words : Stream}
    {q pc : Nat} {chunk : List UInt8} (hw : walk.desc.program.root? = some words)
    (h : emitAll (encodeField walk enter 0 value .root) (Scan.read 0 words).instructions q =
      .ok chunk)
    (hend : (Scan.readAll 0 words).ending = .ok pc) :
    checkLayout walk.desc.program value = .ok () := by
  unfold checkLayout
  simp only [hw, Scan.instructions_readAll, hend]
  rw [forM_eq_ok]
  · rfl
  · intro insn hm
    obtain ⟨p, part, hpart⟩ := exists_emit_of_mem h hm
    obtain ⟨found, hf, hshape⟩ := encodeField_eq_ok hpart
    simp only [hf]
    exact checkField_of_encodeShape hshape

/-- Of an instance that can be encoded, the program gives the size or none, unless the walk is cut
off over the table of remainders. -/
theorem fixedSize?_of_serialize (hw : wire.CapIsPower) (h : wire.serialize desc value = .ok bytes)
    (hs : bytes.length < Extent.limit) :
    desc.fixedSize? wire = .ok none ∨
      (desc.fixedSize? wire = .ok (some bytes.length) ∧ checkLayout desc.program value = .ok ()) ∨
      ¬Extent.TableFits wire ∧ desc.fixedSize? wire = .error .table := by
  obtain ⟨words, hroot, h⟩ := bind_eq_ok.mp h
  have hwords := Walk.root_eq_ok.mp hroot
  obtain ⟨hend, hclear⟩ := stream_tracks (desc.program.length + 1) (maxNesting + 1) hw 0 words
    value .root 0 bytes hwords h (by omega)
  have hanswers := (Walk.extent ⟨desc, wire⟩).stream_answers (desc.program.length + 1) 0
    (Nat.zero_lt_of_lt hs)
  rcases hanswers with hwalk | ⟨abort, hcut, hwalk⟩
  · cases hrow : (Walk.extent ⟨desc, wire⟩).rowStream (desc.program.length + 1) 0 0 with
    | none =>
        rw [hrow] at hwalk
        exact .inl (congrArg Extent.answer hwalk)
    | some last =>
        obtain rfl := hend last hrow
        rw [hrow, Nat.zero_add, Extent.limited_of_lt hs] at hwalk
        refine .inr (.inl ⟨congrArg Extent.answer hwalk, ?_⟩)
        obtain ⟨found, hfound, hrow⟩ := Option.bind_eq_some_iff.mp hrow
        cases hwords.symm.trans hfound
        obtain ⟨insns, hinsns, _⟩ := Option.bind_eq_some_iff.mp hrow
        obtain ⟨_, pc, hpc⟩ := Extent.toOption_instructions hinsns
        exact checkLayout_of_emitAll hwords (encodeStruct_succ_eq_ok.mp h).1 hpc
  · cases abort with
    | product => exact absurd hclear hcut
    | table => exact .inr (.inr ⟨hcut, congrArg Extent.answer hwalk⟩)

/-- Walking an instance counts the bytes that encoding it would write, failures included. -/
theorem encode_tally : (encode (σ := Tally) ⟨desc, wire⟩ value).map Tally.count =
    (wire.serialize desc value).map List.length := by
  unfold serialize
  rw [encode_map Tally.ofBytes_hom]
  cases encode (σ := List UInt8) ⟨desc, wire⟩ value <;> rfl

/-- The size of an instance is the number of bytes it is encoded to. Only where the table of
remainders does not fit, and that is under a cap of 2⁵⁹ or a larger power of two, may asking for the
size be cut off instead. Where the size is not known from the program, it also fails as encoding
does. -/
theorem sizeOf_eq_length_serialize (hw : wire.CapIsPower) :
    (∀ bytes, wire.serialize desc value = .ok bytes → bytes.length < Extent.limit →
      wire.sizeOf desc value = .ok bytes.length ∨
        ¬Extent.TableFits wire ∧ wire.sizeOf desc value = .error (.aborted .table)) ∧
      (desc.flags.contains .variableSize = true ∨ desc.fixedSize? wire = .ok none →
        wire.sizeOf desc value = (wire.serialize desc value).map List.length) := by
  have hwalk (h : desc.flags.contains .variableSize = true ∨ desc.fixedSize? wire = .ok none) :
      wire.sizeOf desc value = (wire.serialize desc value).map List.length := by
    unfold sizeOf
    split_ifs with hflag
    · exact encode_tally
    · rw [h.resolve_left hflag]
      exact encode_tally
  refine ⟨fun bytes h hs => ?_, hwalk⟩
  by_cases hflag : desc.flags.contains .variableSize = true
  · left
    rw [hwalk (.inl hflag), h]
    rfl
  · rcases fixedSize?_of_serialize hw h hs with hnone | ⟨hsome, hlayout⟩ | ⟨ht, haborted⟩
    · left
      rw [hwalk (.inr hnone), h]
      rfl
    · left
      unfold sizeOf
      rw [if_neg hflag, hsome]
      change ((checkLayout desc.program value).mapError _).map _ = _
      rw [hlayout]
      rfl
    · right
      unfold sizeOf
      rw [if_neg hflag, haborted]
      exact ⟨ht, rfl⟩

/-- A flag and a row of structures whose remainders repeat after the second one. -/
def grid (flags : Flags) : Descriptor where
  typeName := "Grid"
  flags := flags
  program := ⟨[
    Stream.assemble [(0, .single .bool, false), (1, .array (.struct 1) 5, false)],
    Stream.assemble [(0, .single (.number .u32), false), (1, .single .bool, false)]]⟩

def gridSample : Value :=
  .struct [(0, .scalar (.bool true)),
    (1, .array (List.replicate 5
      (.struct [(0, .scalar (.number .u32 7)), (1, .scalar (.bool false))])))]

def gridBytes : List UInt8 := 1 :: (List.replicate 5 [0, 0, 0, 0, 0, 0, 7, 0]).flatten

theorem sizeOf_gridSample :
    bigEndian.CapIsPower ∧
      Extent.TableFits bigEndian ∧
      (grid .empty).fixedSize? bigEndian = .ok (some 41) ∧
      bigEndian.serialize (grid .empty) gridSample = .ok gridBytes ∧
      bigEndian.sizeOf (grid .empty) gridSample = .ok gridBytes.length ∧
      bigEndian.sizeOf (grid .variableSize) (.struct []) =
        (bigEndian.serialize (grid .variableSize) (.struct [])).map List.length := by
  have hw : bigEndian.CapIsPower := .inr ⟨3, rfl⟩
  have h : bigEndian.serialize (grid .empty) gridSample = .ok gridBytes := by with_unfolding_all rfl
  have ht : Extent.TableFits bigEndian := by decide
  refine ⟨hw, ht, by with_unfolding_all rfl, h, ?_, ?_⟩
  · exact ((sizeOf_eq_length_serialize hw).1 gridBytes h (by decide)).resolve_right fun h => h.1 ht
  · exact (sizeOf_eq_length_serialize hw).2 (.inl (by decide))

/-- Two structures of an octet and a number. -/
def tile : Descriptor where
  typeName := "Tile"
  program := ⟨[
    Stream.assemble [(0, .array (.struct 1) 2, false)],
    Stream.assemble [(0, .single (.number .u8), false), (1, .single (.number .u64), false)]]⟩

def tileSample : Value :=
  .struct [(0, .array (List.replicate 2
    (.struct [(0, .scalar (.number .u8 0)), (1, .scalar (.number .u64 0))])))]

/-- The smallest cap whose table does not fit. -/
theorem sizeOf_tile_cut_off :
    (WireFormat.CapIsPower { maxAlign := 2 ^ 59 }) ∧
      WireFormat.serialize { maxAlign := 2 ^ 59 } tile tileSample = .ok (List.replicate 32 0) ∧
      WireFormat.sizeOf { maxAlign := 2 ^ 59 } tile tileSample = .error (.aborted .table) := by
  have hcut : tile.fixedSize? { maxAlign := 2 ^ 59 } = .error .table := by with_unfolding_all rfl
  refine ⟨.inr ⟨59, rfl⟩, by with_unfolding_all rfl, ?_⟩
  rw [sizeOf, if_neg (by decide), hcut]
  rfl

end WireFormat
end TopicCodec
