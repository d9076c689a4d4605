import Mathlib.Data.List.GetD
import TopicCodec.Proofs.Grammar
import TopicCodec.Proofs.Lockstep

/-!
# References moved in place

A stream is moved by changing single words of it: those that its instructions say hold a
reference. Since the words of instructions do not overlap and the last word of an instruction with
a reference is the reference, this is the same as reading the instructions, counting their
references from another number and writing them again.
-/
namespace TopicCodec

/-! ## Instructions at their places -/

theorem Shape.length_renumber (number : UInt32 → UInt32) (shape : Shape) :
    (shape.renumber number).length = shape.length := by
  cases shape with
  | single leaf | sequence leaf | array leaf count => cases leaf <;> rfl

namespace Instruction

theorem renumber_comp (f g : UInt32 → UInt32) :
    renumber g ∘ renumber f = renumber (g ∘ f) := by
  have hleaf (leaf : Leaf) : (leaf.renumber f).renumber g = leaf.renumber (g ∘ f) := by
    cases leaf <;> rfl
  funext insn
  obtain ⟨pc, field, key, shape⟩ := insn
  cases shape <;> simp only [Function.comp_apply, renumber, Shape.renumber, hleaf]

theorem leaf_renumber_eq_struct {number : UInt32 → UInt32} {insn : Instruction} {target : UInt32}
    (h : (insn.renumber number).leaf = .struct target) :
    ∃ inner, insn.leaf = .struct inner ∧ number inner = target := by
  have h : (insn.shape.renumber number).leaf = .struct target := h
  rw [Shape.leaf_renumber] at h
  cases hleaf : insn.shape.leaf with
  | struct inner =>
      rw [hleaf] at h
      cases h
      exact ⟨inner, hleaf, rfl⟩
  | _ =>
      rw [hleaf] at h
      cases h

theorem placed_renumber (number : UInt32 → UInt32) {pc : Nat} {insns : List Instruction}
    (h : placed pc (insns.map content) = insns) :
    placed pc ((insns.map (renumber number)).map content) = insns.map (renumber number) := by
  induction insns generalizing pc with
  | nil => rfl
  | cons insn rest ih =>
      simp only [List.map_cons, content, placed, List.cons.injEq] at h
      obtain ⟨hinsn, hrest⟩ := h
      have hpc : insn.pc = pc := by rw [← hinsn]
      simp only [List.map_cons, content, placed, renumber, Shape.length_renumber, List.cons.injEq]
      exact ⟨by rw [hpc], ih hrest⟩

end Instruction

/-! ## One reference -/

namespace Instruction

variable {insn : Instruction} {target : UInt32}

/-- The last word of an instruction that refers to a stream is the number of the stream. -/
theorem encode_eq_append (h : insn.leaf = .struct target) (number : UInt32 → UInt32) :
    ∃ front, insn.encode = front ++ [target] ∧
      (insn.renumber number).encode = front ++ [number target] := by
  obtain ⟨pc, field, key, shape⟩ := insn
  cases shape with
  | single leaf | sequence leaf =>
      cases h
      exact ⟨[_, field], rfl, rfl⟩
  | array leaf count =>
      cases h
      exact ⟨[_, field, count], rfl, rfl⟩

theorem referencePc?_of_struct (h : insn.leaf = .struct target) :
    insn.referencePc? = some (insn.pc + insn.length - 1) := by
  rw [referencePc?, h]
  rfl

theorem referencePc?_eq_none (h : ∀ target, insn.leaf ≠ .struct target) :
    insn.referencePc? = none := by
  unfold referencePc?
  cases hleaf : insn.leaf with
  | struct target => exact absurd hleaf (h target)
  | _ => rfl

theorem renumber_eq_self (h : ∀ target, insn.leaf ≠ .struct target) (number : UInt32 → UInt32) :
    insn.renumber number = insn := by
  obtain ⟨pc, field, key, shape⟩ := insn
  cases shape with
  | single leaf | sequence leaf | array leaf count =>
      cases leaf with
      | struct target => exact absurd rfl (h target)
      | _ => rfl

end Instruction

namespace Program

variable {base id : UInt32}

/-- The instruction with its reference, if it has one, counted from `base`. -/
def rebase (base id : UInt32) (insn : Instruction) : Except Defect Instruction :=
  match insn.leaf with
  | .struct target =>
      if target.toNat + base.toNat < UInt32.size then .ok (insn.renumber (· + base))
      else .error (.streamOutOfRange id insn.pc target)
  | _ => .ok insn

theorem rebase_eq_ok {insn moved : Instruction} :
    rebase base id insn = .ok moved ↔ insn.renumber (· + base) = moved ∧
      ∀ target, insn.leaf = .struct target → target.toNat + base.toNat < UInt32.size := by
  unfold rebase
  cases hleaf : insn.leaf with
  | struct target =>
      by_cases hlt : target.toNat + base.toNat < UInt32.size <;> simp [hlt]
  | _ => simp [Instruction.renumber_eq_self, hleaf]

/-- Changing the reference in the words of an instruction writes the changed instruction. -/
theorem patch_eq {insn : Instruction} {front behind : List UInt32}
    (h : insn.pc = front.length) :
    patch base id (front ++ insn.encode ++ behind) insn =
      (rebase base id insn).map fun moved => front ++ moved.encode ++ behind := by
  by_cases hstruct : ∃ target, insn.leaf = .struct target
  · obtain ⟨target, hleaf⟩ := hstruct
    obtain ⟨head, hold, hnew⟩ := Instruction.encode_eq_append hleaf (· + base)
    have hlength := insn.encode_length
    have hplace : insn.pc + insn.length - 1 = (front ++ head).length := by
      rw [← hlength, hold, h]
      simp only [List.length_append, List.length_singleton]
      omega
    have hwords (word : UInt32) : front ++ (head ++ [word]) ++ behind =
        (front ++ head) ++ word :: behind := by simp
    have hread : ((front ++ head) ++ target :: behind).getD (front ++ head).length 0 = target := by
      rw [List.getD_append_right _ _ _ _ le_rfl, Nat.sub_self, List.getD_cons_zero]
    have hset (word : UInt32) : ((front ++ head) ++ target :: behind).set (front ++ head).length
        word = (front ++ head) ++ word :: behind := by
      rw [List.set_append_right _ _ le_rfl, Nat.sub_self, List.set_cons_zero]
    rw [patch, Instruction.referencePc?_of_struct hleaf, hplace, hold, hwords]
    simp only [hread, hset, rebase, hleaf, shift?]
    split_ifs
    · simp only [Except.map, hnew, hwords]
    · rfl
  · have hnone : ∀ target, insn.leaf ≠ .struct target := fun target h => hstruct ⟨target, h⟩
    have hsame : rebase base id insn = .ok insn :=
      rebase_eq_ok.mpr ⟨Instruction.renumber_eq_self hnone _,
        fun target ht => absurd ht (hnone target)⟩
    rw [patch, Instruction.referencePc?_eq_none hnone, hsame]
    rfl

/-! ## All references of a stream -/

/-- The words of the instructions after one that is changed are where they were. -/
theorem foldlM_patch {insns : List Instruction} {front behind : List UInt32}
    (h : Instruction.placed front.length (insns.map Instruction.content) = insns) :
    insns.foldlM (patch base id) (front ++ insns.flatMap Instruction.encode ++ behind) =
      (insns.mapM (rebase base id)).map fun moved =>
        front ++ moved.flatMap Instruction.encode ++ behind := by
  induction insns generalizing front with
  | nil => rfl
  | cons insn rest ih =>
      simp only [List.map_cons, Instruction.content, Instruction.placed, List.cons.injEq] at h
      obtain ⟨hinsn, hrest⟩ := h
      have hpc : insn.pc = front.length := by rw [← hinsn]
      have hstep : patch base id
          (front ++ insn.encode ++ (rest.flatMap Instruction.encode ++ behind)) insn = _ :=
        patch_eq hpc
      rw [List.foldlM_cons, List.mapM_cons, List.flatMap_cons]
      simp only [List.append_assoc] at hstep ⊢
      rw [hstep]
      cases hmoved : rebase base id insn with
      | error defect => rfl
      | ok moved =>
          have hlength : front.length + insn.shape.length = (front ++ moved.encode).length := by
            rw [List.length_append, ← (rebase_eq_ok.mp hmoved).1, Instruction.encode_length]
            exact congrArg _ (Shape.length_renumber _ _).symm
          rw [hlength] at hrest
          have hfold := ih hrest
          simp only [List.append_assoc] at hfold
          simp only [Except.map, bind, Except.bind] at hfold ⊢
          rw [hfold]
          cases rest.mapM (rebase base id) with
          | error defect => rfl
          | ok others =>
              simp only [pure, Except.pure, List.flatMap_cons, List.append_assoc]

/-- Moving the references of a stream in place is reading its instructions, moving their references
and writing them again. -/
theorem rebaseStream_eq (base id : UInt32) (words : Stream) :
    rebaseStream base id words = do
      let insns ← (Scan.readAll id words).instructions.mapM (rebase base id)
      let _ ← (Scan.readAll id words).ending
      return Stream.ofInstructions insns := by
  obtain ⟨behind, hwords, hbehind⟩ := Scan.words_of_readAll id words
  have hfold : (Scan.readAll id words).instructions.foldlM (patch base id)
      ([] ++ (Scan.readAll id words).instructions.flatMap Instruction.encode ++ behind) = _ :=
    foldlM_patch (Scan.placed_readAll id words)
  rw [List.nil_append, ← hwords] at hfold
  unfold rebaseStream
  dsimp only
  rw [hfold]
  cases (Scan.readAll id words).instructions.mapM (rebase base id) with
  | error defect => rfl
  | ok insns =>
      cases hending : (Scan.readAll id words).ending with
      | error defect => rfl
      | ok pc =>
          rw [hbehind pc hending]
          rfl

/-- A stream with its references moved has the same instructions at the same places, whatever
its own number is. -/
theorem instructions_rebaseStream {words moved : Stream}
    (h : rebaseStream base id words = .ok moved) :
    ∃ insns, Stream.instructions id words = .ok insns ∧ ∀ id',
      Stream.instructions id' moved = .ok (insns.map (Instruction.renumber (· + base))) := by
  rw [rebaseStream_eq] at h
  obtain ⟨rebased, hrebased, h⟩ := bind_eq_ok.mp h
  obtain ⟨pc, hpc, h⟩ := bind_eq_ok.mp h
  cases h
  refine ⟨_, Stream.instructions_eq_ok.mpr ⟨⟨pc, hpc⟩, rfl⟩, fun id' => ?_⟩
  have hmoved : rebased =
      (Scan.readAll id words).instructions.map (Instruction.renumber (· + base)) := by
    have hall := (forall₂_of_mapM hrebased).imp fun _ _ h => (rebase_eq_ok.mp h).1
    exact (List.forall₂_eq_eq_eq ▸ List.forall₂_map_left_iff.mpr hall : _ = _).symm
  have hplaced : Instruction.placed 0 (rebased.map Instruction.content) = rebased := by
    rw [hmoved]
    exact Instruction.placed_renumber _ (Scan.placed_readAll id words)
  rw [Stream.ofInstructions_eq_assemble, Scan.instructions_assemble, hplaced, hmoved]

end Program
end TopicCodec
