import TopicCodec.Proofs.Walk

/-!
# Encoding in lockstep

Two encoding walks may differ in the limits of their wire formats and in the numbers of the
streams they go through. As long as neither matters they write the same. What the second walk
has to provide for that is collected in `Lockstep`. It speaks of some streams of the first
program only, a set that no reference leads out of. The statements go by the functions of the
walk, and say that an outcome of the first walk is one of the second: each success, and each
failure of a kind that is `kept`.
-/
namespace TopicCodec

/-! ## Streams under other numbers -/

/-- The leaf with its stream under another number. -/
def Leaf.renumber (number : UInt32 → UInt32) : Leaf → Leaf
  | .struct target => .struct (number target)
  | leaf => leaf

def Shape.renumber (number : UInt32 → UInt32) : Shape → Shape
  | .single leaf => .single (leaf.renumber number)
  | .sequence leaf => .sequence (leaf.renumber number)
  | .array leaf count => .array (leaf.renumber number) count

def Instruction.renumber (number : UInt32 → UInt32) (insn : Instruction) : Instruction :=
  { insn with shape := insn.shape.renumber number }

@[simp] theorem Leaf.renumber_id (leaf : Leaf) : leaf.renumber id = leaf := by
  cases leaf <;> rfl

@[simp] theorem Shape.renumber_id (shape : Shape) : shape.renumber id = shape := by
  cases shape <;> simp [renumber]

@[simp] theorem Shape.leaf_renumber (number : UInt32 → UInt32) (shape : Shape) :
    (shape.renumber number).leaf = shape.leaf.renumber number := by
  cases shape <;> rfl

@[simp] theorem Shape.isSequence_renumber (number : UInt32 → UInt32) (shape : Shape) :
    (shape.renumber number).isSequence = shape.isSequence := by
  cases shape <;> rfl

@[simp] theorem Instruction.renumber_id : renumber id = id := by
  funext insn
  simp [renumber]

/-- What is written depends on the byte order and the alignment only. -/
theorem Item.emit_congr {σ : Type} [Sink σ] {wire wire' : WireFormat}
    (horder : wire'.byteOrder = wire.byteOrder) (halign : wire'.maxAlign = wire.maxAlign)
    (position : Nat) (item : Item) :
    item.emit (σ := σ) wire' position = item.emit wire position := by
  have hpadding (width : Nat) : wire'.padding position width = wire.padding position width := by
    simp only [WireFormat.padding, WireFormat.alignFor, halign]
  have hnumber (width n : Nat) :
      emitNumber (σ := σ) wire' position width n = emitNumber wire position width n := by
    simp only [emitNumber, hpadding, horder]
  cases item with
  | scalar value => cases value <;> simp only [emit, hnumber]
  | padding width => simp only [emit, hpadding]
  | bytes raw => rfl
  | text value => simp only [emit, hnumber]

namespace Marshal

/-! ## Outcomes -/

section Outcomes

variable {α β : Type} {kept : CodecError → Prop}

/-- The second outcome is the first, where that is a success or a failure that is kept. -/
def Keeps (kept : CodecError → Prop) (first second : Except CodecError α) : Prop :=
  (∀ error, first = .error error → kept error) → second = first

theorem Keeps.refl (outcome : Except CodecError α) : Keeps kept outcome outcome := fun _ => rfl

theorem Keeps.of_not {error : CodecError} (h : ¬kept error) (second : Except CodecError α) :
    Keeps kept (.error error) second :=
  fun hk => absurd (hk error rfl) h

theorem Keeps.ok {first second : Except CodecError α} (h : Keeps kept first second) {a : α}
    (ha : first = .ok a) : second = .ok a := by
  rw [← ha]
  apply h
  intro error herror
  rw [ha] at herror
  cases herror

theorem Keeps.bind {first second : Except CodecError α} (h : Keeps kept first second)
    {next next' : α → Except CodecError β} (hn : ∀ a, Keeps kept (next a) (next' a)) :
    Keeps kept (first >>= next) (second >>= next') := by
  intro hk
  cases first with
  | error error =>
      have hsame : second = .error error := h fun other ho => hk other (by rw [ho]; rfl)
      rw [hsame]
      rfl
  | ok a =>
      rw [h.ok rfl]
      exact hn a hk

theorem Keeps.eq_iff {first second : Except CodecError α} (h : Keeps kept first second)
    (h' : Keeps kept second first) {outcome : Except CodecError α}
    (hk : ∀ error, outcome = .error error → kept error) : first = outcome ↔ second = outcome := by
  constructor
  · intro hfirst
    rw [← hfirst] at hk ⊢
    exact h hk
  · intro hsecond
    rw [← hsecond] at hk ⊢
    exact h' hk

end Outcomes

/-! ## Two walks -/

/-- The second reading has the instructions of the first under other numbers, with all their
references inside, and ends well if the first does. -/
structure Tracks (inside : UInt32 → Prop) (number : UInt32 → UInt32) (first second : Scan) :
    Prop where
  instructions : second.instructions = first.instructions.map (Instruction.renumber number)
  targets : ∀ insn ∈ first.instructions, ∀ target, insn.leaf = .struct target → inside target
  ending : ∀ pc, first.ending = .ok pc → ∃ pc', second.ending = .ok pc'

/-- The second walk goes along with the first one through the streams that are inside. -/
structure Lockstep (kept : CodecError → Prop) (inside : UInt32 → Prop)
    (number : UInt32 → UInt32) (walk walk' : Walk) : Prop where
  /-- Defects name types and streams, which differ. -/
  recoverable : ∀ error, kept error → error.isRecoverable = true
  byteOrder : walk'.wire.byteOrder = walk.wire.byteOrder
  maxAlign : walk'.wire.maxAlign = walk.wire.maxAlign
  strings : walk.wire.maxStringLen.toNat ≤ walk'.wire.maxStringLen.toNat
  sequences : walk.wire.maxSequenceLen.toNat ≤ walk'.wire.maxSequenceLen.toNat
  /-- Where a refused length is kept, the limits are the same. -/
  lengths : ∀ path position length fault, kept (.malformedLength path position length fault) →
    walk'.wire = walk.wire
  streams : ∀ target words, inside target → walk.desc.program.stream? target = some words →
    ∃ words', walk'.desc.program.stream? (number target) = some words' ∧
      Tracks inside number (Scan.read target words) (Scan.read (number target) words')

variable {σ : Type} [Sink σ] {kept : CodecError → Prop} {inside : UInt32 → Prop}
  {number : UInt32 → UInt32} {walk walk' : Walk} {enter enter' : EncodeNested σ}

/-- Two ways to write nested structures go along with each other. -/
def NestedKeeps (kept : CodecError → Prop) (inside : UInt32 → Prop) (number : UInt32 → UInt32)
    (walk walk' : Walk) (enter enter' : EncodeNested σ) : Prop :=
  ∀ target words words', inside target → walk.desc.program.stream? target = some words →
    walk'.desc.program.stream? (number target) = some words' →
    ∀ value path position, Keeps kept (enter target words value path position)
      (enter' (number target) words' value path position)

theorem emitAll_keeps {α β : Type} {emit : α → Nat → Except CodecError σ}
    {emit' : β → Nat → Except CodecError σ} {f : α → β} {items : List α}
    (h : ∀ item ∈ items, ∀ position, Keeps kept (emit item position) (emit' (f item) position))
    (position : Nat) :
    Keeps kept (emitAll emit items position) (emitAll emit' (items.map f) position) := by
  induction items generalizing position with
  | nil => exact .refl _
  | cons first rest ih =>
      simp only [List.map_cons, emitAll]
      apply (h first List.mem_cons_self position).bind
      intro chunk
      apply Keeps.bind
      · apply ih
        intro item hi
        exact h item (List.mem_cons_of_mem _ hi)
      · intro tail
        exact .refl _

namespace Lockstep

theorem not_kept_defect (h : Lockstep kept inside number walk walk') (defect : Defect) :
    ¬kept (walk.defect defect) := by
  intro hk
  have := h.recoverable _ hk
  cases this

theorem emit_eq (h : Lockstep kept inside number walk walk') (position : Nat) (item : Item) :
    item.emit (σ := σ) walk'.wire position = item.emit walk.wire position :=
  Item.emit_congr h.byteOrder h.maxAlign position item

theorem encodeText (h : Lockstep kept inside number walk walk') (bound : Option UInt32)
    (text : String) (path : Path) (position : Nat) :
    Keeps kept (encodeText (σ := σ) walk.wire bound text path position)
      (encodeText walk'.wire bound text path position) := by
  unfold Marshal.encodeText
  dsimp only
  rw [h.emit_eq]
  by_cases hzero : (Utf8.encode text).contains 0 = true
  · simp only [hzero, if_true]
    exact .refl _
  by_cases hbound : bound.any (·.toNat < Utf8.size text) = true
  · simp only [hzero, hbound, if_true]
    exact .refl _
  simp only [hzero, hbound]
  by_cases hlimit : walk.wire.maxStringLen.toNat ≤ Utf8.size text
  · intro hk
    rw [if_pos hlimit] at hk ⊢
    rw [h.lengths _ _ _ _ (hk _ rfl), if_pos hlimit]
  · have hlimit' : ¬walk'.wire.maxStringLen.toNat ≤ Utf8.size text := by
      have := h.strings
      omega
    rw [if_neg hlimit, if_neg hlimit']
    exact .refl _

theorem encodeLeaf (h : Lockstep kept inside number walk walk')
    (he : NestedKeeps kept inside number walk walk' enter enter') (stream stream' : UInt32)
    (pc : Nat) {leaf : Leaf} (hi : ∀ target, leaf = .struct target → inside target)
    (value : Value) (path : Path) (position : Nat) :
    Keeps kept (encodeLeaf walk enter stream pc leaf value path position)
      (encodeLeaf walk' enter' stream' pc (leaf.renumber number) value path position) := by
  unfold Marshal.encodeLeaf
  dsimp only
  split
  · rename_i kind found bits
    simp only [Leaf.renumber]
    split_ifs
    · rw [h.emit_eq]
      exact .refl _
    · exact .of_not (h.not_kept_defect _) _
  · simp only [Leaf.renumber]
    rw [h.emit_eq]
    exact .refl _
  · exact h.encodeText _ _ path position
  · rename_i target fields
    simp only [Leaf.renumber, Walk.nested]
    cases hw : walk.desc.program.stream? target with
    | none => exact .of_not (h.not_kept_defect _) _
    | some words =>
        have hinside := hi target rfl
        obtain ⟨words', hw', _⟩ := h.streams target words hinside hw
        simp only [hw']
        exact he target words words' hinside hw hw' _ path position
  · exact .of_not (h.not_kept_defect _) _

theorem encodeElements (h : Lockstep kept inside number walk walk')
    (he : NestedKeeps kept inside number walk walk' enter enter') (stream stream' : UInt32)
    (pc : Nat) {leaf : Leaf} (hi : ∀ target, leaf = .struct target → inside target)
    (items : List Value) (path : Path) (position : Nat) :
    Keeps kept (encodeElements walk enter stream pc leaf items path position)
      (encodeElements walk' enter' stream' pc (leaf.renumber number) items path position) := by
  have helement : ∀ place ∈ items.zipIdx, ∀ position,
      Keeps kept (encodeElement walk enter stream pc leaf path place position)
        (encodeElement walk' enter' stream' pc (leaf.renumber number) path (id place) position) := by
    rintro ⟨item, i⟩ _ position
    have hleaf := h.encodeLeaf he stream stream' pc hi item (path.element i) position
    cases item with
    | absent => exact .of_not (h.not_kept_defect _) _
    | _ => exact hleaf
  unfold Marshal.encodeElements
  simpa only [List.map_id] using emitAll_keeps helement position

theorem encodeShape (h : Lockstep kept inside number walk walk')
    (he : NestedKeeps kept inside number walk walk' enter enter') (stream stream' : UInt32)
    (pc : Nat) {shape : Shape} (hi : ∀ target, shape.leaf = .struct target → inside target)
    (value : Value) (path : Path) (position : Nat) :
    Keeps kept (encodeShape walk enter stream pc shape value path position)
      (encodeShape walk' enter' stream' pc (shape.renumber number) value path position) := by
  unfold Marshal.encodeShape
  split
  · exact h.encodeLeaf he stream stream' pc hi value path position
  · rename_i leaf supply items
    simp only [Shape.renumber]
    by_cases hlimit : walk.wire.maxSequenceLen.toNat < items.length
    · intro hk
      rw [if_pos hlimit] at hk ⊢
      rw [h.lengths _ _ _ _ (hk _ rfl), if_pos hlimit]
    · have hlimit' : ¬walk'.wire.maxSequenceLen.toNat < items.length := by
        have := h.sequences
        omega
      rw [if_neg hlimit, if_neg hlimit', h.emit_eq]
      apply (h.encodeElements he stream stream' pc hi items path _).bind
      intro body
      exact .refl _
  · rename_i leaf count items
    simp only [Shape.renumber]
    split_ifs
    · exact .of_not (h.not_kept_defect _) _
    · exact h.encodeElements he stream stream' pc hi _ path position
  · exact .of_not (h.not_kept_defect _) _

theorem encodeField (h : Lockstep kept inside number walk walk')
    (he : NestedKeeps kept inside number walk walk' enter enter') (stream stream' : UInt32)
    (value : Value) (path : Path) {insn : Instruction}
    (hi : ∀ target, insn.leaf = .struct target → inside target) (position : Nat) :
    Keeps kept (encodeField walk enter stream value path insn position)
      (encodeField walk' enter' stream' value path (insn.renumber number) position) := by
  unfold Marshal.encodeField
  simp only [Instruction.renumber]
  cases value.field? insn.field with
  | none => exact .of_not (h.not_kept_defect _) _
  | some found => exact h.encodeShape he stream stream' insn.pc hi found _ position

/-- What the first walk makes of a structure, the second makes of it under the other numbers. -/
theorem encodeStruct (h : Lockstep kept inside number walk walk') (fuel : Nat) :
    NestedKeeps (σ := σ) kept inside number walk walk' (encodeStruct walk fuel)
      (encodeStruct walk' fuel) := by
  induction fuel with
  | zero =>
      intro target words words' _ _ _ value path position
      exact .refl _
  | succ fuel ih =>
      intro target words words' hinside hw hw' value path position
      obtain ⟨found, hfound, htracks⟩ := h.streams target words hinside hw
      cases hw'.symm.trans hfound
      simp only [Marshal.encodeStruct, htracks.instructions]
      apply Keeps.bind
      · apply emitAll_keeps
        intro insn hm position
        exact h.encodeField ih target (number target) value path (htracks.targets insn hm) position
      · intro chunk
        cases hending : (Scan.read target words).ending with
        | error defect => exact .of_not (h.not_kept_defect _) _
        | ok pc =>
            obtain ⟨pc', hpc'⟩ := htracks.ending pc hending
            rw [hpc']
            exact .refl _

end Lockstep
end Marshal
end TopicCodec
