import Mathlib.Logic.Function.Iterate
import TopicCodec.Proofs.Agreement
import TopicCodec.Proofs.Assembling

/-!
# The check of a description ends, and finds no fault where there is none

The check of a stream is one level of a recursion (`checkLevel`), which goes on to the streams
that the stream refers to. What bounds it is neither the program nor the description, in both of
which references may lead in circles, but the streams that are being checked: they are different
streams of the program. So unrolling the recursion once more often than the program has streams
is enough, and what would be answered further down is never asked for.

The check passes if all pairs agree that references lead to, since it gets to no others.
-/
namespace TopicCodec.Markup

variable {document : Document} {program : Program}

/-! ## The recursion ends -/

theorem checkStruct_eq_iterate (fuel : Nat) :
    checkStruct document program fuel =
      (checkLevel document program)^[fuel] fun _ _ _ _ _ => .ok () := by
  induction fuel with
  | zero => rfl
  | succ fuel ih =>
      rw [Function.iterate_succ_apply', ← ih]
      rfl

/-- Nothing depends on how often the recursion is unrolled, nor on what would be answered below, if
it is unrolled more often than there are streams that are not being checked. -/
theorem iterate_checkLevel (depth depth' : Nat) (active : List UInt32) (hnodup : active.Nodup)
    (hexist : ∀ stream ∈ active, (program.stream? stream).isSome)
    (hdepth : program.length < depth + active.length)
    (hdepth' : program.length < depth' + active.length) (deeper deeper' : StructCheck) :
    (checkLevel document program)^[depth] deeper active =
      (checkLevel document program)^[depth'] deeper' active := by
  have hactive := length_active_le hnodup hexist
  induction depth generalizing depth' active with
  | zero => omega
  | succ depth ih =>
      cases depth' with
      | zero => omega
      | succ depth' =>
          rw [Function.iterate_succ_apply', Function.iterate_succ_apply']
          funext stream scope struct path
          unfold checkLevel
          split_ifs with hmem
          · rfl
          · cases hw : program.stream? stream with
            | none => rfl
            | some words =>
                have hexist' : ∀ other ∈ stream :: active, (program.stream? other).isSome := by
                  intro other ho
                  rcases List.mem_cons.mp ho with rfl | ho
                  · rw [hw]
                    rfl
                  · exact hexist other ho
                have hnodup' := hnodup.cons hmem
                have hinner := ih depth' (stream :: active) hnodup' hexist'
                  (by rw [List.length_cons]; omega) (by rw [List.length_cons]; omega)
                  (length_active_le hnodup' hexist')
                unfold checkLevel at hinner
                simp only [hinner]

/-- However the recursion goes on below, a level for each stream and one more decide the check. -/
theorem Document.checkBy_iterate (typeName : String) {depth : Nat}
    (hdepth : program.length < depth) (deeper : StructCheck) :
    document.checkBy typeName ((checkLevel document program)^[depth] deeper) =
      document.check typeName program := by
  have hsame : (checkLevel document program)^[depth] deeper [] =
      checkStruct document program (program.length + 1) [] := by
    rw [checkStruct_eq_iterate]
    exact iterate_checkLevel depth (program.length + 1) [] List.nodup_nil
      (fun _ h => absurd h List.not_mem_nil) hdepth (Nat.lt_succ_self _) deeper _
  unfold Document.check Document.checkBy
  cases document.find? typeName with
  | none => rfl
  | some found => exact congrFun (congrFun (congrFun (congrFun hsame 0) _) _) _

/-! ## Agreement is enough -/

theorem Pairing.Chain.reaches {pair last : Pairing} {visited : List UInt32}
    (h : pair.Chain document program visited last) :
    Relation.ReflTransGen (Pairing.Refers document program) pair last := by
  induction h with
  | here _ => exact .refl
  | step _ hrefers _ ih => exact .head hrefers ih

/-- The check is complete and ends. It passes if the structure exists and all pairs of a stream and
a structure agree that references lead to. Whatever the program and the description are, its answer
is that of the recursion unrolled any number of times greater than the number of streams, whatever
further levels would answer. -/
theorem Document.check_complete (document : Document) (typeName : String) (program : Program) :
    (∀ start, Starts document typeName start →
      (∀ pair, Reached document program typeName pair → pair.Agrees document program) →
        document.check typeName program = .ok ()) ∧
    ∀ depth, program.length < depth → ∀ deeper : StructCheck,
      document.checkBy typeName ((checkLevel document program)^[depth] deeper) =
        document.check typeName program := by
  refine ⟨fun start hstart hagree => ?_, fun depth hdepth deeper => ?_⟩
  · refine Document.check_eq_ok_iff.mpr ⟨start, hstart, fun last hchain => ?_⟩
    exact hagree last ⟨start, hstart, hchain.reaches⟩
  · exact Document.checkBy_iterate typeName hdepth deeper

theorem branch_agrees : branch.Agrees branchDocument branchProgram := by
  refine ⟨branchWords, _, rfl, Scan.instructions_assemble 0 _, rfl, ?_⟩
  intro i insn member hi hm
  match i with
  | 0 =>
      cases hi
      cases hm
      have hdims : MemberType.DimsFit 1 [2, 3] := by
        rw [MemberType.dimsFit_cons, MemberType.dimsFit_cons, MemberType.dimsFit_nil]
        decide
      exact ⟨rfl, .array (List.cons_ne_nil 2 [3]) hdims rfl (.number .u16)⟩
  | 1 =>
      cases hi
      cases hm
      have hfound : branchDocument.resolve? branch.scope "Branch" =
          some (branch.scope, branch.struct) := rfl
      exact ⟨rfl, .sequence (.struct 0 hfound)⟩
  | i + 2 => cases hi

/-- Branches whose twigs are branches: a stream that refers to itself. Two levels decide, even if
every further level would complain. -/
theorem check_branch_complete :
    (∀ pair, Reached branchDocument branchProgram "Wood.Branch" pair →
      pair.Agrees branchDocument branchProgram) ∧
    branchDocument.check "Wood.Branch" branchProgram = .ok () ∧
    branchDocument.checkBy "Wood.Branch" ((checkLevel branchDocument branchProgram)^[2]
      fun _ _ _ _ path => Check.mismatch path "too deep") = .ok () := by
  have hstart : Starts branchDocument "Wood.Branch" branch := ⟨rfl, rfl⟩
  have hagree : ∀ pair, Reached branchDocument branchProgram "Wood.Branch" pair →
      pair.Agrees branchDocument branchProgram := by
    rintro pair ⟨⟨stream, scope, struct⟩, ⟨hroot, hfind⟩, hreach⟩
    cases hroot
    cases hstart.2.symm.trans hfind
    have hsame : pair = branch := by
      induction hreach with
      | refl => rfl
      | tail _ hrefers ih =>
          rw [ih] at hrefers
          exact branch_refers hrefers
    rw [hsame]
    exact branch_agrees
  obtain ⟨hcomplete, hends⟩ := Document.check_complete branchDocument "Wood.Branch" branchProgram
  have hcheck := hcomplete branch hstart hagree
  exact ⟨hagree, hcheck, (hends 2 (by decide) _).trans hcheck⟩

end TopicCodec.Markup
