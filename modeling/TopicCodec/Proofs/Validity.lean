import Mathlib.Tactic.ByContra
import TopicCodec.Descriptor.Validate
import TopicCodec.Proofs.Walk

/-!
# What validation establishes

A descriptor is valid if it passes all the checks, each of which is named here once. The check
of a description compares the number of each field with its place, and places do not wrap
around as numbers do.
-/
namespace TopicCodec

/-! ## Agreement with a description -/

namespace Markup

theorem Check.fields_numbered {document : Document}
    {enter : UInt32 → List String → Struct → String → Except MarkupError Unit}
    {scope : List String} {path : String} {total seen count : Nat} {insns : List Instruction}
    {members : List Member}
    (h : Check.fields document enter scope path total seen insns members = .ok count) {i : Nat}
    {insn : Instruction} (hi : insns[i]? = some insn) : insn.field.toNat = seen + i := by
  induction insns generalizing seen members i with
  | nil => cases hi
  | cons first rest ih =>
      cases members with
      | nil => cases h
      | cons member members =>
          rw [fields] at h
          dsimp only at h
          obtain ⟨hfirst, h⟩ := check_eq_ok.mp h
          obtain ⟨_, _, h⟩ := bind_eq_ok.mp h
          cases i with
          | zero =>
              cases hi
              exact not_not.mp hfirst
          | succ i =>
              rw [ih h hi]
              omega

theorem Document.check_numbered {document : Document} {typeName : String} {program : Program}
    {words : Stream} (h : document.check typeName program = .ok ())
    (hw : program.stream? 0 = some words) {i : Nat} {insn : Instruction}
    (hi : (Scan.read 0 words).instructions[i]? = some insn) : insn.field.toNat = i := by
  unfold Document.check Document.checkBy at h
  split at h
  · cases h
  · rw [checkStruct, checkLevel, if_neg List.not_mem_nil] at h
    simp only [hw] at h
    obtain ⟨count, hfields, _⟩ := bind_eq_ok.mp h
    rw [← Scan.instructions_readAll] at hi
    rw [Check.fields_numbered hfields hi, Nat.zero_add]

end Markup

namespace Descriptor

variable {desc : Descriptor} {words : Stream}

/-! ## Valid descriptors -/

structure Valid (desc : Descriptor) (insns : List Instruction) : Prop where
  program : desc.program.validate = .ok ()
  keyCount : desc.keyCount.toNat = desc.keys.length
  keyInstructions : desc.keyInstructions = .ok insns
  keys : checkKeys [] (desc.keys.zip insns) = .ok ()
  fixedSize : desc.flags.contains .variableSize = false → ∃ size,
    desc.fixedSize? {} = .ok (some size)
  fixedKey : desc.flags.contains .fixedKey = true → desc.keyFits = .ok true
  markup : desc.markup ≠ "" → desc.checkMarkup = .ok ()

theorem checkSize_eq_ok_iff : desc.checkSize = .ok () ↔
    (desc.flags.contains .variableSize = false → ∃ size, desc.fixedSize? {} = .ok (some size)) := by
  unfold checkSize
  cases desc.flags.contains .variableSize with
  | true => simp [pure, Except.pure]
  | false =>
      cases desc.fixedSize? {} with
      | error abort => simp [bind, Except.bind, Except.mapError]
      | ok size => cases size <;> simp [bind, Except.bind, Except.mapError, pure, Except.pure]

theorem checkKeySize_eq_ok_iff : desc.checkKeySize = .ok () ↔
    (desc.flags.contains .fixedKey = true → desc.keyFits = .ok true) := by
  unfold checkKeySize
  cases desc.flags.contains .fixedKey with
  | false => simp [pure, Except.pure]
  | true =>
      cases desc.keyFits with
      | error abort => simp [bind, Except.bind, Except.mapError]
      | ok fits => cases fits <;> simp [bind, Except.bind, Except.mapError, pure, Except.pure]

theorem valid_of_validate (h : desc.validate = .ok ()) : ∃ insns, desc.Valid insns := by
  obtain ⟨_, hp, h⟩ := bind_eq_ok.mp h
  obtain ⟨hc, h⟩ := check_eq_ok.mp h
  obtain ⟨insns, hi, h⟩ := bind_eq_ok.mp h
  obtain ⟨_, hk, h⟩ := bind_eq_ok.mp h
  obtain ⟨_, hs, h⟩ := bind_eq_ok.mp h
  obtain ⟨_, hf, h⟩ := bind_eq_ok.mp h
  refine ⟨insns, hp, not_not.mp hc, hi, hk, checkSize_eq_ok_iff.mp hs,
    checkKeySize_eq_ok_iff.mp hf, ?_⟩
  intro hm
  rw [if_pos hm] at h
  exact mapError_eq_ok.mp h

/-- In the root stream of a valid descriptor with a description, each field has the number of its
place. -/
theorem root_numbered (h : desc.validate = .ok ()) (hm : desc.markup ≠ "")
    (hw : desc.program.stream? 0 = some words) {i : Nat} {insn : Instruction}
    (hi : (Scan.read 0 words).instructions[i]? = some insn) : insn.field.toNat = i := by
  obtain ⟨_, hvalid⟩ := valid_of_validate h
  obtain ⟨_, _, hcheck⟩ := bind_eq_ok.mp (hvalid.markup hm)
  exact Markup.Document.check_numbered hcheck hw hi

/-- No number comes twice there, since the check compares it with a place that does not wrap. -/
theorem length_root_le (h : desc.validate = .ok ()) (hm : desc.markup ≠ "")
    (hw : desc.program.stream? 0 = some words) :
    (Scan.read 0 words).instructions.length ≤ UInt32.size := by
  by_contra hlarge
  have hi := List.getElem?_eq_getElem (Nat.lt_of_not_le hlarge)
  have hnumber := root_numbered h hm hw hi
  exact absurd hnumber (Nat.ne_of_lt (UInt32.toNat_lt _))

end Descriptor
end TopicCodec
