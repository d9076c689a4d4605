import Mathlib.Tactic.SplitIfs
import Mathlib.Tactic.Tauto
import TopicCodec.Marshal.Decode

/-!
# What a successful walk did

Every step of the encoder and of the decoder fails or goes through one of a few cases.
The relations of this module list these cases, one constructor each, with everything
that was checked on the way; a proof about successful walks takes them apart and never
unfolds a step.
-/
namespace TopicCodec

theorem bind_eq_ok {ε α β : Type} {x : Except ε α} {f : α → Except ε β} {b : β} :
    x >>= f = .ok b ↔ ∃ a, x = .ok a ∧ f a = .ok b := by
  cases x with
  | error e => simp [bind, Except.bind]
  | ok a => simp [bind, Except.bind]

theorem bind_eq_error {ε α β : Type} {x : Except ε α} {f : α → Except ε β} {error : ε}
    (h : x >>= f = .error error) : x = .error error ∨ ∃ a, x = .ok a ∧ f a = .error error := by
  cases x with
  | error found =>
      cases h
      exact .inl rfl
  | ok a => exact .inr ⟨a, rfl, h⟩

theorem mapError_eq_ok {ε ε' α : Type} {x : Except ε α} {f : ε → ε'} {a : α} :
    x.mapError f = .ok a ↔ x = .ok a := by
  cases x <;> simp [Except.mapError]

theorem map_eq_ok {ε α β : Type} {x : Except ε α} {f : α → β} {b : β} :
    x.map f = .ok b ↔ ∃ a, x = .ok a ∧ f a = b := by
  cases x <;> simp [Except.map]

theorem eq_ok_of_toOption {ε α : Type} {x : Except ε α} {a : α} (h : x.toOption = some a) :
    x = .ok a := by
  cases x with
  | error e => cases h
  | ok b =>
      cases h
      rfl

theorem check_eq_ok {ε α β : Type} {c : Prop} [Decidable c] {e : ε} {f : α → Except ε β}
    {x : Except ε β} {b : β} :
    (if c then Except.error e >>= f else x) = .ok b ↔ ¬c ∧ x = .ok b := by
  split_ifs with h
  · simp [h, bind, Except.bind]
  · simp [h]

/-! An action on a state that may fail, and what comes after it. -/

theorem run_bind_ok {ε τ α β : Type} {first : ExceptT ε (StateM τ) α}
    {next : α → ExceptT ε (StateM τ) β} {state state' : τ} {a : α}
    (h : first.run.run state = (.ok a, state')) :
    (first >>= next).run.run state = (next a).run.run state' := by
  rw [ExceptT.run_bind, StateT.run_bind, h]
  rfl

theorem run_bind_error {ε τ α β : Type} {first : ExceptT ε (StateM τ) α}
    {next : α → ExceptT ε (StateM τ) β} {state state' : τ} {error : ε}
    (h : first.run.run state = (.error error, state')) :
    (first >>= next).run.run state = (.error error, state') := by
  rw [ExceptT.run_bind, StateT.run_bind, h]
  rfl

theorem Program.getElem?_numbered {program : Program} {a : Nat} {words : Stream}
    (hw : program.streams[a]? = some words) :
    program.numbered[a]? = some (UInt32.ofNat a, words) := by
  simp [numbered, hw]

theorem Program.numbered_of_stream? {program : Program} {id : UInt32} {words : Stream}
    (hw : program.stream? id = some words) : program.numbered[id.toNat]? = some (id, words) := by
  rw [getElem?_numbered hw, UInt32.ofNat_toNat]

theorem Scan.instructions_readAll (stream : UInt32) (words : Stream) :
    (Scan.readAll stream words).instructions = (Scan.read stream words).instructions := by
  unfold Scan.readAll
  dsimp only
  split
  · rfl
  · split_ifs <;> rfl

theorem Stream.instructions_eq_ok {id : UInt32} {words : Stream} {insns : List Instruction} :
    Stream.instructions id words = .ok insns ↔
      (∃ pc, (Scan.readAll id words).ending = .ok pc) ∧
        (Scan.readAll id words).instructions = insns := by
  unfold Stream.instructions Scan.complete
  rw [map_eq_ok]
  constructor
  · rintro ⟨pc, hpc, hinsns⟩
    exact ⟨⟨pc, hpc⟩, hinsns⟩
  · rintro ⟨⟨pc, hpc⟩, hinsns⟩
    exact ⟨pc, hpc, hinsns⟩

namespace Marshal

theorem Walk.root_eq_ok {walk : Walk} {words : Stream} :
    walk.root = .ok words ↔ walk.desc.program.root? = some words := by
  unfold root
  split <;> simp_all

/-! ## Writing -/

section Writing
variable {σ : Type} [Sink σ] (walk : Walk) (enter : EncodeNested σ)

inductive LeafWritten (path : Path) (position : Nat) : Leaf → Value → σ → Prop
  | number (kind : ScalarKind) (bits : kind.Bits) :
      LeafWritten path position (.number kind) (.scalar (.number kind bits))
        (Item.emit walk.wire position (.scalar (.number kind bits)))
  | bool (flag : Bool) :
      LeafWritten path position .bool (.scalar (.bool flag))
        (Item.emit walk.wire position (.scalar (.bool flag)))
  | text {bound : Option UInt32} {text : String} :
      (Utf8.encode text).contains 0 = false → bound.any (·.toNat < Utf8.size text) = false →
      Utf8.size text < walk.wire.maxStringLen.toNat →
      LeafWritten path position (.string bound) (.text text)
        (Item.emit walk.wire position (.text text))
  | struct {target : UInt32} {words : Stream} {fields : List (UInt32 × Value)} {chunk : σ} :
      walk.desc.program.stream? target = some words →
      enter target words (.struct fields) path position = .ok chunk →
      LeafWritten path position (.struct target) (.struct fields) chunk

variable {walk enter}

theorem leafWritten {stream : UInt32} {pc : Nat} {leaf : Leaf} {value : Value} {path : Path}
    {position : Nat} {chunk : σ}
    (h : encodeLeaf walk enter stream pc leaf value path position = .ok chunk) :
    LeafWritten walk enter path position leaf value chunk := by
  unfold encodeLeaf at h
  dsimp only at h
  split at h
  · rename_i kind found bits
    split_ifs at h with hk
    subst hk
    cases h
    exact .number kind bits
  · cases h
    exact .bool _
  · unfold encodeText at h
    dsimp only at h
    split_ifs at h with h₁ h₂ h₃
    cases h
    exact .text (by simpa using h₁) (by simpa using h₂) (by omega)
  · unfold Walk.nested at h
    split at h
    · rename_i words hw
      split at hw
      · rename_i found hs
        cases hw
        exact .struct hs h
      · cases hw
    · cases h
  · cases h

theorem LeafWritten.encodeLeaf_eq {leaf : Leaf} {value : Value} {path : Path} {position : Nat}
    {chunk : σ} (h : LeafWritten walk enter path position leaf value chunk) (stream : UInt32)
    (pc : Nat) : encodeLeaf walk enter stream pc leaf value path position = .ok chunk := by
  cases h with
  | number kind bits => exact if_pos rfl
  | bool flag => rfl
  | text hz hb hl =>
      simp only [encodeLeaf, encodeText, hz, hb, Nat.not_le.mpr hl, Bool.false_eq_true, if_false]
  | struct hw he => simp only [encodeLeaf, Walk.nested, hw, he]

/-- An absent element is written by neither. -/
theorem encodeElement_eq_ok {stream : UInt32} {pc : Nat} {leaf : Leaf} {path : Path}
    {item : Value} {i position : Nat} {chunk : σ} :
    encodeElement walk enter stream pc leaf path (item, i) position = .ok chunk ↔
      encodeLeaf walk enter stream pc leaf item (path.element i) position = .ok chunk := by
  cases item with
  | absent => cases leaf <;> simp [encodeElement, encodeLeaf]
  | _ => exact Iff.rfl

variable (walk enter)

inductive ShapeWritten (stream : UInt32) (pc : Nat) (path : Path) (position : Nat) :
    Shape → Value → σ → Prop
  | single {leaf : Leaf} {value : Value} {chunk : σ} :
      encodeLeaf walk enter stream pc leaf value path position = .ok chunk →
      ShapeWritten stream pc path position (.single leaf) value chunk
  | sequence {leaf : Leaf} {supply : Supply} {items : List Value} {body : σ} :
      items.length ≤ walk.wire.maxSequenceLen.toNat →
      encodeElements walk enter stream pc leaf items path
        (position + Sink.size (Item.emit (σ := σ) walk.wire position (.length items.length))) =
          .ok body →
      ShapeWritten stream pc path position (.sequence leaf) (.sequence supply items)
        (Sink.append (Item.emit walk.wire position (.length items.length)) body)
  | array {leaf : Leaf} {count : UInt32} {items : List Value} {chunk : σ} :
      (Value.flattenItems items).length = count.toNat →
      encodeElements walk enter stream pc leaf (Value.flattenItems items) path position =
        .ok chunk →
      ShapeWritten stream pc path position (.array leaf count) (.array items) chunk

variable {walk enter}

theorem shapeWritten {stream : UInt32} {pc : Nat} {shape : Shape} {value : Value} {path : Path}
    {position : Nat} {chunk : σ}
    (h : encodeShape walk enter stream pc shape value path position = .ok chunk) :
    ShapeWritten walk enter stream pc path position shape value chunk := by
  unfold encodeShape at h
  split at h
  · exact .single h
  · split_ifs at h with hl
    obtain ⟨body, hb, hc⟩ := bind_eq_ok.mp h
    cases hc
    exact .sequence (by omega) hb
  · dsimp only at h
    split_ifs at h with hl
    exact .array (not_not.mp hl) h
  · cases h

theorem ShapeWritten.encodeShape_eq {stream : UInt32} {pc : Nat} {shape : Shape} {value : Value}
    {path : Path} {position : Nat} {chunk : σ}
    (h : ShapeWritten walk enter stream pc path position shape value chunk) :
    encodeShape walk enter stream pc shape value path position = .ok chunk := by
  cases h with
  | single hl => exact hl
  | sequence hc hb =>
      simp only [encodeShape, Nat.not_lt.mpr hc, if_false, hb]
      rfl
  | array hc hb =>
      simp only [encodeShape, hc, ne_eq, not_true_eq_false, if_false, hb]

theorem encodeField_eq_ok {stream : UInt32} {value : Value} {path : Path} {insn : Instruction}
    {position : Nat} {chunk : σ}
    (h : encodeField walk enter stream value path insn position = .ok chunk) :
    ∃ found, value.field? insn.field = some found ∧
      encodeShape walk enter stream insn.pc insn.shape found (path.field insn.field) position =
        .ok chunk := by
  unfold encodeField at h
  dsimp only at h
  split at h
  · cases h
  · exact ⟨_, ‹_›, h⟩

theorem emitAll_cons_eq_ok {α : Type} {emit : α → Nat → Except CodecError σ} {first : α}
    {rest : List α} {position : Nat} {chunk : σ} :
    emitAll emit (first :: rest) position = .ok chunk ↔
      ∃ head tail, emit first position = .ok head ∧
        emitAll emit rest (position + Sink.size head) = .ok tail ∧
        chunk = Sink.append head tail := by
  simp only [emitAll, bind_eq_ok, pure, Except.pure, Except.ok.injEq]
  constructor
  · rintro ⟨head, hh, tail, ht, rfl⟩
    exact ⟨head, tail, hh, ht, rfl⟩
  · rintro ⟨head, tail, hh, ht, rfl⟩
    exact ⟨head, hh, tail, ht, rfl⟩

/-- The elements of a collection from the one with number `first` on. -/
theorem emitAll_zipIdx_cons_eq_ok {stream : UInt32} {pc : Nat} {leaf : Leaf} {path : Path}
    {item : Value} {rest : List Value} {first position : Nat} {chunk : σ} :
    emitAll (encodeElement walk enter stream pc leaf path) ((item :: rest).zipIdx first) position =
        .ok chunk ↔
      ∃ head tail,
        encodeLeaf walk enter stream pc leaf item (path.element first) position = .ok head ∧
        emitAll (encodeElement walk enter stream pc leaf path) (rest.zipIdx (first + 1))
          (position + Sink.size head) = .ok tail ∧
        chunk = Sink.append head tail := by
  rw [List.zipIdx_cons, emitAll_cons_eq_ok]
  simp only [encodeElement_eq_ok]

theorem encodeStruct_succ_eq_ok {fuel : Nat} {stream : UInt32} {words : Stream} {value : Value}
    {path : Path} {position : Nat} {chunk : σ} :
    encodeStruct walk (fuel + 1) stream words value path position = .ok chunk ↔
      emitAll (encodeField walk (encodeStruct walk fuel) stream value path)
          (Scan.read stream words).instructions position = .ok chunk ∧
        ∃ pc, (Scan.read stream words).ending = .ok pc := by
  simp only [encodeStruct, bind_eq_ok]
  cases (Scan.read stream words).ending with
  | error defect => simp
  | ok pc => simp [pure, Except.pure]

end Writing

/-! ## Reading -/

section Reading

theorem Reading.read_eq_ok {α : Type} {before after : Reading} {path : Path}
    {read : Cursor → Except Shortfall α × Cursor} {value : α} :
    before.read path read = .ok (value, after) ↔
      read before.cursor = (.ok value, after.cursor) ∧ after.known = before.known := by
  unfold Reading.read
  obtain ⟨cursor, known⟩ := before
  obtain ⟨cursor', known'⟩ := after
  rcases read cursor with ⟨_ | found, next⟩
  · simp
  · simp only [Except.ok.injEq, Prod.mk.injEq, Reading.mk.injEq]
    tauto

theorem checkTextLength_eq_ok {wire : WireFormat} {bound : Option UInt32} {length : Nat}
    {path : Path} {offset : Nat} {done : Unit} :
    checkTextLength wire bound length path offset = .ok done ↔
      length ≠ 0 ∧ length ≤ wire.maxStringLen.toNat ∧ bound.any (·.toNat < length - 1) = false := by
  unfold checkTextLength
  split_ifs with h₁ h₂ h₃
  · simp [h₁]
  · simp
    omega
  · simp [h₃]
  · simp [h₁, Bool.not_eq_true _ ▸ h₃]
    omega

theorem checkText_eq_ok {bytes : List UInt8} {path : Path} {start : Nat} {text : String} :
    checkText bytes path start = .ok text ↔
      bytes.getLast? = some 0 ∧ bytes.dropLast.findIdx? (· == 0) = none ∧
        Utf8.decode bytes.dropLast = .ok text := by
  unfold checkText
  dsimp only
  split_ifs with h₁
  · simp [h₁]
  · split
    · simp [*]
    · rename_i h₂
      split
      · rename_i found h₃
        simp_all
      · rename_i fault h₃
        simp [h₃]

/-- How a text is read: a length, checked, then as many bytes, checked. -/
theorem decodeText_eq_ok {wire : WireFormat} {bound : Option UInt32} {path : Path}
    {before after : Reading} {text : String}
    (h : decodeText wire bound path before = .ok (text, after)) :
    ∃ length middle bytes, before.read path (Cursor.length wire) = .ok (length, middle) ∧
      (length ≠ 0 ∧ length ≤ wire.maxStringLen.toNat ∧
        bound.any (·.toNat < length - 1) = false) ∧
      middle.read path (Cursor.take length) = .ok (bytes, after) ∧
      (bytes.getLast? = some 0 ∧ bytes.dropLast.findIdx? (· == 0) = none ∧
        Utf8.decode bytes.dropLast = .ok text) := by
  unfold decodeText at h
  obtain ⟨⟨length, middle⟩, hl, h⟩ := bind_eq_ok.mp h
  obtain ⟨_, hc, h⟩ := bind_eq_ok.mp h
  obtain ⟨⟨bytes, last⟩, hb, h⟩ := bind_eq_ok.mp h
  obtain ⟨_, ht, h⟩ := bind_eq_ok.mp h
  cases h
  exact ⟨length, middle, bytes, hl, checkTextLength_eq_ok.mp hc, hb, checkText_eq_ok.mp ht⟩

theorem decodeBool_eq_ok {path : Path} {before after : Reading} {flag : Bool}
    (h : decodeBool path before = .ok (flag, after)) :
    before.read path (Cursor.take 1) = .ok ([if flag then 1 else 0], after) := by
  unfold decodeBool at h
  obtain ⟨⟨bytes, last⟩, hb, h⟩ := bind_eq_ok.mp h
  dsimp only at h
  split at h
  · cases h
    exact hb
  · cases h
    exact hb
  · cases h

variable (walk : DecodeWalk) (enter : DecodeNested)

inductive LeafRead (path : Path) (before after : Reading) : Leaf → Value → Value → Prop
  | number {kind : ScalarKind} (old bits : kind.Bits) :
      before.read path (Cursor.scalar walk.wire kind) = .ok (bits, after) →
      LeafRead path before after (.number kind) (.scalar (.number kind old))
        (.scalar (.number kind bits))
  | bool (old flag : Bool) :
      decodeBool path before = .ok (flag, after) →
      LeafRead path before after .bool (.scalar (.bool old)) (.scalar (.bool flag))
  | text {bound : Option UInt32} (old text : String) :
      decodeText walk.wire bound path before = .ok (text, after) →
      LeafRead path before after (.string bound) (.text old) (.text text)
  | struct {target : UInt32} {words : Stream} {fields : List (UInt32 × Value)} {value : Value} :
      walk.desc.program.stream? target = some words →
      enter target words (.struct fields) path before = .ok (value, after) →
      LeafRead path before after (.struct target) (.struct fields) value

variable {walk enter}

theorem leafRead {stream : UInt32} {pc : Nat} {leaf : Leaf} {value value' : Value} {path : Path}
    {before after : Reading}
    (h : decodeLeaf walk enter stream pc leaf value path before = .ok (value', after)) :
    LeafRead walk enter path before after leaf value value' := by
  unfold decodeLeaf at h
  dsimp only at h
  split at h
  · rename_i kind found old
    split_ifs at h with hk
    subst hk
    obtain ⟨⟨bits, last⟩, hb, h⟩ := bind_eq_ok.mp h
    cases h
    exact .number old bits hb
  · obtain ⟨⟨flag, last⟩, hb, h⟩ := bind_eq_ok.mp h
    cases h
    exact .bool _ flag hb
  · obtain ⟨⟨text, last⟩, hb, h⟩ := bind_eq_ok.mp h
    cases h
    exact .text _ text hb
  · unfold Walk.nested at h
    split at h
    · rename_i words hw
      split at hw
      · rename_i found hs
        cases hw
        exact .struct hs h
      · cases hw
    · cases h
  · cases h

theorem LeafRead.decodeLeaf_eq {leaf : Leaf} {value value' : Value} {path : Path}
    {before after : Reading} (h : LeafRead walk enter path before after leaf value value')
    (stream : UInt32) (pc : Nat) :
    decodeLeaf walk enter stream pc leaf value path before = .ok (value', after) := by
  cases h with
  | number old bits hb =>
      simp only [decodeLeaf, if_true, hb]
      rfl
  | bool old flag hb =>
      simp only [decodeLeaf, hb]
      rfl
  | text old text ht =>
      simp only [decodeLeaf, ht]
      rfl
  | struct hw he => simp only [decodeLeaf, Walk.nested, hw, he]

theorem decodeElement_eq_ok {stream : UInt32} {pc : Nat} {leaf : Leaf} {path : Path}
    {item value : Value} {i : Nat} {before after : Reading} :
    decodeElement walk enter stream pc leaf path (item, i) before = .ok (value, after) ↔
      decodeLeaf walk enter stream pc leaf item (path.element i) before = .ok (value, after) := by
  cases item with
  | absent => cases leaf <;> simp [decodeElement, decodeLeaf]
  | _ => exact Iff.rfl

/-- The count of a sequence was read, is within the limit and, where that is looked at, the bytes
left can hold as many elements. -/
theorem decodeCount_eq_ok {leaf : Leaf} {path : Path} {before after : Reading} {count : Nat}
    (h : decodeCount walk leaf path before = .ok (count, after)) :
    ∃ middle, before.read path (Cursor.length walk.wire) = .ok (count, middle) ∧
      count ≤ walk.wire.maxSequenceLen.toNat ∧
      (walk.checkRoom = true →
        saturate (count * (minElement walk.desc.program leaf middle.known).1) ≤
          middle.cursor.remaining) ∧
      after = ⟨middle.cursor, (minElement walk.desc.program leaf middle.known).2⟩ := by
  unfold decodeCount at h
  obtain ⟨⟨found, middle⟩, hl, h⟩ := bind_eq_ok.mp h
  dsimp only at h
  split at h
  · obtain ⟨_, h, _⟩ := bind_eq_ok.mp h
    cases h
  · rename_i hlimit
    split at h
    · obtain ⟨_, h, _⟩ := bind_eq_ok.mp h
      cases h
    · rename_i hroom
      cases h
      refine ⟨middle, hl, by omega, ?_, rfl⟩
      intro hc
      simp only [hc, Bool.true_and, decide_eq_true_eq] at hroom
      omega

variable (walk enter)

inductive ShapeRead (stream : UInt32) (pc : Nat) (path : Path) (before after : Reading) :
    Shape → Value → Value → Prop
  | single {leaf : Leaf} {value value' : Value} :
      decodeLeaf walk enter stream pc leaf value path before = .ok (value', after) →
      ShapeRead stream pc path before after (.single leaf) value value'
  | sequence {leaf : Leaf} {supply supply' : Supply} {items grown items' : List Value}
      {count : Nat} {middle : Reading} :
      decodeCount walk leaf path before = .ok (count, middle) →
      supply.resize items count = .ok (supply', grown) →
      decodeElements walk enter stream pc leaf grown path middle = .ok (items', after) →
      ShapeRead stream pc path before after (.sequence leaf) (.sequence supply items)
        (.sequence supply' items')
  | array {leaf : Leaf} {count : UInt32} {items elements : List Value} :
      (Value.flattenItems items).length = count.toNat →
      decodeElements walk enter stream pc leaf (Value.flattenItems items) path before =
        .ok (elements, after) →
      ShapeRead stream pc path before after (.array leaf count) (.array items)
        (.array (Value.refillItems items elements).1)

variable {walk enter}

theorem shapeRead {stream : UInt32} {pc : Nat} {shape : Shape} {value value' : Value}
    {path : Path} {before after : Reading}
    (h : decodeShape walk enter stream pc shape value path before = .ok (value', after)) :
    ShapeRead walk enter stream pc path before after shape value value' := by
  unfold decodeShape at h
  split at h
  · exact .single h
  · obtain ⟨⟨count, middle⟩, hc, h⟩ := bind_eq_ok.mp h
    obtain ⟨⟨supply', grown⟩, hs, h⟩ := bind_eq_ok.mp h
    obtain ⟨⟨items', last⟩, hi, h⟩ := bind_eq_ok.mp h
    cases h
    exact .sequence hc (mapError_eq_ok.mp hs) hi
  · dsimp only at h
    split_ifs at h with hl
    obtain ⟨⟨elements, last⟩, he, h⟩ := bind_eq_ok.mp h
    cases h
    exact .array (not_not.mp hl) he
  · cases h

theorem ShapeRead.decodeShape_eq {stream : UInt32} {pc : Nat} {shape : Shape}
    {value value' : Value} {path : Path} {before after : Reading}
    (h : ShapeRead walk enter stream pc path before after shape value value') :
    decodeShape walk enter stream pc shape value path before = .ok (value', after) := by
  cases h with
  | single hl => exact hl
  | sequence hc hr hi =>
      simp only [decodeShape, hc, bind, Except.bind, hr, Except.mapError, hi]
      rfl
  | array hc he =>
      simp only [decodeShape, hc, ne_eq, not_true_eq_false, if_false, he]
      rfl

theorem decodeField_eq_ok {stream : UInt32} {path : Path} {insn : Instruction}
    {value value' : Value} {before after : Reading}
    (h : decodeField walk enter stream path insn value before = .ok (value', after)) :
    ∃ found found', value.field? insn.field = some found ∧
      decodeShape walk enter stream insn.pc insn.shape found (path.field insn.field) before =
        .ok (found', after) ∧
      value' = value.setField insn.field found' := by
  unfold decodeField at h
  dsimp only at h
  split at h
  · cases h
  · rename_i found hf
    obtain ⟨⟨found', last⟩, hd, h⟩ := bind_eq_ok.mp h
    cases h
    exact ⟨found, found', hf, hd, rfl⟩

theorem readAll_cons_eq_ok {α β : Type} {read : α → Reading → Except CodecError (β × Reading)}
    {first : α} {rest : List α} {values : List β} {before after : Reading} :
    readAll read (first :: rest) before = .ok (values, after) ↔
      ∃ value middle tail, read first before = .ok (value, middle) ∧
        readAll read rest middle = .ok (tail, after) ∧ values = value :: tail := by
  simp only [readAll, bind_eq_ok, pure, Except.pure, Except.ok.injEq, Prod.exists, Prod.mk.injEq]
  constructor
  · rintro ⟨value, middle, hv, tail, last, ht, rfl, rfl⟩
    exact ⟨value, middle, tail, hv, ht, rfl⟩
  · rintro ⟨value, middle, tail, hv, ht, rfl⟩
    exact ⟨value, middle, hv, tail, after, ht, rfl, rfl⟩

theorem readAll_zipIdx_cons_eq_ok {stream : UInt32} {pc : Nat} {leaf : Leaf} {path : Path}
    {item : Value} {rest values : List Value} {first : Nat} {before after : Reading} :
    readAll (decodeElement walk enter stream pc leaf path) ((item :: rest).zipIdx first) before =
        .ok (values, after) ↔
      ∃ value middle tail,
        decodeLeaf walk enter stream pc leaf item (path.element first) before =
          .ok (value, middle) ∧
        readAll (decodeElement walk enter stream pc leaf path) (rest.zipIdx (first + 1)) middle =
          .ok (tail, after) ∧
        values = value :: tail := by
  rw [List.zipIdx_cons, readAll_cons_eq_ok]
  simp only [decodeElement_eq_ok]

theorem decodeFields_cons_eq_ok
    {decode : Instruction → Value → Reading → Except CodecError (Value × Reading)}
    {insn : Instruction} {rest : List Instruction} {value value' : Value}
    {before after : Reading} :
    decodeFields decode (insn :: rest) value before = .ok (value', after) ↔
      ∃ next middle, decode insn value before = .ok (next, middle) ∧
        decodeFields decode rest next middle = .ok (value', after) := by
  simp only [decodeFields, bind_eq_ok, Prod.exists]

theorem decodeStruct_succ_eq_ok {fuel : Nat} {stream : UInt32} {words : Stream}
    {value value' : Value} {path : Path} {before after : Reading} :
    decodeStruct walk (fuel + 1) stream words value path before = .ok (value', after) ↔
      decodeFields (decodeField walk (decodeStruct walk fuel) stream path)
          (Scan.read stream words).instructions value before = .ok (value', after) ∧
        ∃ pc, (Scan.read stream words).ending = .ok pc := by
  simp only [decodeStruct, bind_eq_ok]
  cases (Scan.read stream words).ending with
  | error defect => simp
  | ok pc => simp [pure, Except.pure]

end Reading

end Marshal
end TopicCodec
