import Mathlib.Algebra.Group.Nat.Defs
import Mathlib.Data.List.Nodup
import Mathlib.Data.List.Perm.Subperm
import Mathlib.Data.Nat.Basic
import Mathlib.Order.Basic
import TopicCodec.Proofs.Validity

/-!
# What the check of a description establishes

The check pairs streams with structures: the root stream with the structure that is named,
and the streams that instructions refer to with the structures that the members at their
places name. It passes exactly if every pair agrees that such references lead to without
coming through a stream twice (`Document.check_eq_ok_iff`). A stream that recurs is not looked
at again, also when it comes back with another structure. So the check speaks of all pairs
that references lead to if streams recur only with the structures they had before, and else it
may pass a structure that no stream describes.
-/
namespace TopicCodec

namespace Markup

/-! ## Pairs that agree -/

namespace MemberType

/-- The name of the structure that a type is of, or is a collection of. -/
def reference? : MemberType → Option String
  | named name => some name
  | sequence elem => elem.reference?
  | array _ elem => elem.reference?
  | _ => none

/-- Nested arrays, the outermost dimension first. -/
def arrays (dims : List UInt32) (elem : MemberType) : MemberType := dims.foldr array elem

@[simp] theorem arrays_cons (size : UInt32) (dims : List UInt32) (elem : MemberType) :
    arrays (size :: dims) elem = .array size (arrays dims elem) := rfl

@[simp] theorem reference?_arrays (dims : List UInt32) (elem : MemberType) :
    (arrays dims elem).reference? = elem.reference? := by
  induction dims with
  | nil => rfl
  | cons size dims ih => exact ih

/-- Neither the product of these dimensions nor one of the first of them takes more than 64 bits,
`total` elements being there before. -/
def DimsFit (total : Nat) (dims : List UInt32) : Prop :=
  ∀ first, first <+: dims → total * (first.map UInt32.toNat).prod < UInt64.size

theorem dimsFit_nil {total : Nat} : DimsFit total [] ↔ total < UInt64.size := by
  simp [DimsFit]

theorem dimsFit_cons {total : Nat} {size : UInt32} {dims : List UInt32} :
    DimsFit total (size :: dims) ↔
      total < UInt64.size ∧ DimsFit (total * size.toNat) dims := by
  constructor
  · intro h
    constructor
    · simpa using h [] List.nil_prefix
    · intro first hfirst
      have := h (size :: first) (List.cons_prefix_cons.mpr ⟨rfl, hfirst⟩)
      simpa [Nat.mul_assoc] using this
  · rintro ⟨htotal, hrest⟩ first hfirst
    rcases List.prefix_cons_iff.mp hfirst with rfl | ⟨inner, rfl, hinner⟩
    · simpa using htotal
    · simpa [Nat.mul_assoc] using hrest inner hinner

theorem flatten_eq_some {type inner : MemberType} {total count : Nat}
    (htotal : total < UInt64.size) :
    type.flatten total = some (count, inner) ↔
      ∃ dims, type = arrays dims inner ∧ (∀ size elem, inner ≠ .array size elem) ∧
        DimsFit total dims ∧ total * (dims.map UInt32.toNat).prod = count := by
  induction type generalizing total with
  | array size elem ih =>
      rw [flatten]
      constructor
      · intro h
        split_ifs at h with hfits
        obtain ⟨dims, htype, hinner, hdims, hcount⟩ := (ih hfits).mp h
        refine ⟨size :: dims, by rw [arrays_cons, htype], hinner, ?_, ?_⟩
        · exact dimsFit_cons.mpr ⟨htotal, hdims⟩
        · simpa [Nat.mul_assoc] using hcount
      · rintro ⟨dims, htype, hinner, hdims, hcount⟩
        cases dims with
        | nil => exact absurd htype.symm (hinner size elem)
        | cons first dims =>
            obtain ⟨rfl, helem⟩ := MemberType.array.inj htype
            have hrest := (dimsFit_cons.mp hdims).2
            have hfits : total * size.toNat < UInt64.size := by
              simpa using hrest [] List.nil_prefix
            rw [if_pos hfits]
            refine (ih hfits).mpr ⟨dims, helem, hinner, hrest, ?_⟩
            simpa [Nat.mul_assoc] using hcount
  | _ =>
      simp only [flatten, Option.some.injEq, Prod.mk.injEq]
      constructor
      · rintro ⟨rfl, rfl⟩
        refine ⟨[], rfl, ?_, dimsFit_nil.mpr htotal, by simp⟩
        intro size elem h
        cases h
      · rintro ⟨dims, htype, hinner, _, hcount⟩
        cases dims with
        | nil => exact ⟨by simpa using hcount, htype⟩
        | cons size dims => cases htype

end MemberType

inductive LeafAgrees (document : Document) (scope : List String) : Leaf → MemberType → Prop
  | number (kind : ScalarKind) : LeafAgrees document scope (.number kind) (.number kind)
  | bool : LeafAgrees document scope .bool .boolean
  | string (bound : Option UInt32) : LeafAgrees document scope (.string bound) (.string bound)
  | struct (stream : UInt32) {name : String} {found : List String × Struct} :
      document.resolve? scope name = some found →
      LeafAgrees document scope (.struct stream) (.named name)

inductive ShapeAgrees (document : Document) (scope : List String) : Shape → MemberType → Prop
  | single {leaf : Leaf} {type : MemberType} :
      LeafAgrees document scope leaf type → ShapeAgrees document scope (.single leaf) type
  | sequence {leaf : Leaf} {type : MemberType} :
      LeafAgrees document scope leaf type →
      ShapeAgrees document scope (.sequence leaf) (.sequence type)
  | array {leaf : Leaf} {count : UInt32} {dims : List UInt32} {elem : MemberType} :
      dims ≠ [] → MemberType.DimsFit 1 dims → (dims.map UInt32.toNat).prod = count.toNat →
      LeafAgrees document scope leaf elem →
      ShapeAgrees document scope (.array leaf count) (.arrays dims elem)

/-- A stream, and the structure in the module at `scope` that is to describe it. -/
structure Pairing where
  stream : UInt32
  scope : List String
  struct : Struct

namespace Pairing

variable (document : Document) (program : Program)

/-- The stream exists and has one instruction for each member, with the number of its place and
of the type of the member. -/
def Agrees (pair : Pairing) : Prop :=
  ∃ words insns, program.stream? pair.stream = some words ∧
    Stream.instructions pair.stream words = .ok insns ∧
    insns.length = pair.struct.members.length ∧
    ∀ (i : Nat) (insn : Instruction) (member : Member), insns[i]? = some insn →
      pair.struct.members[i]? = some member →
      insn.field.toNat = i ∧ ShapeAgrees document pair.scope insn.shape member.type

/-- An instruction refers to the stream of the next pair, and the member at its place to the
structure of the next pair. -/
def Refers (pair next : Pairing) : Prop :=
  ∃ (words : Stream) (i : Nat) (insn : Instruction) (member : Member) (name : String),
    program.stream? pair.stream = some words ∧
    (Scan.readAll pair.stream words).instructions[i]? = some insn ∧
    pair.struct.members[i]? = some member ∧ insn.leaf = .struct next.stream ∧
    member.type.reference? = some name ∧
    document.resolve? pair.scope name = some (next.scope, next.struct)

/-- References lead from one pair to another, and go neither through a stream of `visited` nor
through one stream twice. -/
inductive Chain : (visited : List UInt32) → Pairing → Pairing → Prop
  | here {visited : List UInt32} {pair : Pairing} :
      pair.stream ∉ visited → Chain visited pair pair
  | step {visited : List UInt32} {pair next last : Pairing} :
      pair.stream ∉ visited → Refers document program pair next →
      Chain (pair.stream :: visited) next last → Chain visited pair last

end Pairing

/-! ## One check -/

section Steps

variable {document : Document}
  {enter : UInt32 → List String → Struct → String → Except MarkupError Unit}
  {scope : List String} {path : String}

/-- The check of what a reference leads to passes. -/
def Entered (document : Document)
    (enter : UInt32 → List String → Struct → String → Except MarkupError Unit)
    (scope : List String) (path : String) (leaf : Leaf) (type : MemberType) : Prop :=
  ∀ stream name inner struct, leaf = .struct stream → type.reference? = some name →
    document.resolve? scope name = some (inner, struct) → enter stream inner struct path = .ok ()

theorem Check.leaf_eq_ok {leaf : Leaf} {type : MemberType} :
    Check.leaf document enter scope path leaf type = .ok () ↔
      LeafAgrees document scope leaf type ∧ Entered document enter scope path leaf type := by
  constructor
  · intro h
    unfold Check.leaf at h
    split at h
    · split_ifs at h with hkind
      · subst hkind
        exact ⟨.number _, fun _ _ _ _ hl => by cases hl⟩
      · cases h
    · exact ⟨.bool, fun _ _ _ _ hl => by cases hl⟩
    · split_ifs at h with hbound
      · subst hbound
        exact ⟨.string _, fun _ _ _ _ hl => by cases hl⟩
      · cases h
    · split at h
      · rename_i inner struct hfound
        refine ⟨.struct _ hfound, ?_⟩
        intro stream name inner' struct' hl hn hresolve
        cases hl
        cases hn
        cases hfound.symm.trans hresolve
        exact h
      · cases h
    · cases h
  · rintro ⟨hagrees, hentered⟩
    cases hagrees with
    | number kind => simp only [Check.leaf, if_true]
    | bool => rfl
    | string bound => simp only [Check.leaf, if_true]
    | @struct stream name found hfound =>
        simp only [Check.leaf, hfound]
        exact hentered stream name found.1 found.2 rfl rfl hfound

theorem Check.shape_eq_ok {shape : Shape} {type : MemberType} :
    Check.shape document enter scope path shape type = .ok () ↔
      ShapeAgrees document scope shape type ∧
        Entered document enter scope path shape.leaf type := by
  constructor
  · intro h
    unfold Check.shape at h
    split at h
    · obtain ⟨hagrees, hentered⟩ := Check.leaf_eq_ok.mp h
      exact ⟨.single hagrees, hentered⟩
    · obtain ⟨hagrees, hentered⟩ := Check.leaf_eq_ok.mp h
      exact ⟨.sequence hagrees, hentered⟩
    · split at h
      · cases h
      · rename_i leaf count size elem _ total inner hflat
        split_ifs at h with hcount
        · cases h
        · obtain ⟨dims, htype, hinner, hfits, htotal⟩ :=
            (MemberType.flatten_eq_some (by decide)).mp hflat
          obtain ⟨hagrees, hentered⟩ := Check.leaf_eq_ok.mp h
          have hne : dims ≠ [] := by
            rintro rfl
            exact hinner size elem htype.symm
          rw [Nat.one_mul] at htotal
          rw [htype]
          refine ⟨.array hne hfits (htotal.trans (not_not.mp hcount)) hagrees, ?_⟩
          intro stream name inner' struct hl hn
          rw [MemberType.reference?_arrays] at hn
          exact hentered stream name inner' struct hl hn
    · cases h
  · rintro ⟨hagrees, hentered⟩
    cases hagrees with
    | single hleaf => exact Check.leaf_eq_ok.mpr ⟨hleaf, hentered⟩
    | sequence hleaf => exact Check.leaf_eq_ok.mpr ⟨hleaf, hentered⟩
    | @array leaf count dims elem hne hfits hcount hleaf =>
        have hflat : (MemberType.arrays dims elem).flatten 1 = some (count.toNat, elem) := by
          apply (MemberType.flatten_eq_some (by decide)).mpr
          refine ⟨dims, rfl, ?_, hfits, by rw [Nat.one_mul, hcount]⟩
          intro size inner helem
          subst helem
          cases hleaf
        have hinner : Entered document enter scope path leaf elem := by
          intro stream name inner struct hl hn
          apply hentered stream name inner struct hl
          rw [MemberType.reference?_arrays]
          exact hn
        cases dims with
        | nil => exact absurd rfl hne
        | cons size dims =>
            rw [MemberType.arrays_cons] at hflat ⊢
            simp only [Check.shape, hflat, ne_eq, not_true_eq_false, if_false]
            exact Check.leaf_eq_ok.mpr ⟨hleaf, hinner⟩

theorem Check.fields_eq_ok {total seen count : Nat} {insns : List Instruction}
    {members : List Member} :
    Check.fields document enter scope path total seen insns members = .ok count ↔
      insns.length ≤ members.length ∧ count = seen + insns.length ∧
        ∀ (i : Nat) (insn : Instruction) (member : Member), insns[i]? = some insn →
          members[i]? = some member →
          insn.field.toNat = seen + i ∧ ShapeAgrees document scope insn.shape member.type ∧
            Entered document enter scope (path ++ "." ++ member.name) insn.leaf member.type := by
  induction insns generalizing seen members with
  | nil => simp [Check.fields, eq_comm]
  | cons insn insns ih =>
      cases members with
      | nil => simp [Check.fields, Check.mismatch]
      | cons member members =>
          have hstep : Check.fields document enter scope path total seen (insn :: insns)
                (member :: members) = .ok count ↔
              insn.field.toNat = seen ∧
                Check.shape document enter scope (path ++ "." ++ member.name) insn.shape
                  member.type = .ok () ∧
                Check.fields document enter scope path total (seen + 1) insns members =
                  .ok count := by
            rw [Check.fields]
            dsimp only [Check.mismatch]
            rw [check_eq_ok, not_not, bind_eq_ok]
            constructor
            · rintro ⟨hfield, ⟨⟩, hrest⟩
              exact ⟨hfield, hrest⟩
            · rintro ⟨hfield, hrest⟩
              exact ⟨hfield, (), hrest⟩
          rw [hstep, ih, Check.shape_eq_ok]
          constructor
          · rintro ⟨hfield, ⟨hshape, hentered⟩, hlength, hcount, hrest⟩
            refine ⟨by simpa using hlength, by simp only [List.length_cons]; omega, ?_⟩
            intro i insn' member' hi hm
            cases i with
            | zero =>
                cases hi
                cases hm
                exact ⟨hfield, hshape, hentered⟩
            | succ i =>
                obtain ⟨hnumber, hagrees⟩ := hrest i insn' member' hi hm
                exact ⟨by omega, hagrees⟩
          · rintro ⟨hlength, hcount, hall⟩
            obtain ⟨hfield, hshape, hentered⟩ := hall 0 insn member rfl rfl
            refine ⟨hfield, ⟨hshape, hentered⟩, by simpa using hlength,
              by simp only [List.length_cons] at hcount; omega, ?_⟩
            intro i insn' member' hi hm
            obtain ⟨hnumber, hagrees⟩ := hall (i + 1) insn' member' hi hm
            exact ⟨by omega, hagrees⟩

end Steps

/-! ## The whole check -/

variable {document : Document} {program : Program}

theorem checkStruct_succ_eq_ok {fuel : Nat} {active : List UInt32} {pair : Pairing}
    {passes : Pairing → Prop} {words : Stream} {path : String}
    (hpasses : ∀ next path, checkStruct document program fuel (pair.stream :: active) next.stream
      next.scope next.struct path = .ok () ↔ passes next)
    (hactive : pair.stream ∉ active) (hw : program.stream? pair.stream = some words) :
    checkStruct document program (fuel + 1) active pair.stream pair.scope pair.struct path =
        .ok () ↔
      pair.Agrees document program ∧ ∀ next, pair.Refers document program next → passes next := by
  have hentered (leaf : Leaf) (type : MemberType) (here : String) :
      Entered document (checkStruct document program fuel (pair.stream :: active)) pair.scope here
          leaf type ↔
        ∀ next name, leaf = .struct next.stream → type.reference? = some name →
          document.resolve? pair.scope name = some (next.scope, next.struct) → passes next := by
    constructor
    · intro h next name hl hn hresolve
      exact (hpasses next here).mp (h next.stream name next.scope next.struct hl hn hresolve)
    · intro h stream name inner struct hl hn hresolve
      exact (hpasses ⟨stream, inner, struct⟩ here).mpr
        (h ⟨stream, inner, struct⟩ name hl hn hresolve)
  have hinsns (insns : List Instruction) : Stream.instructions pair.stream words = .ok insns ↔
      (∃ pc, (Scan.readAll pair.stream words).ending = .ok pc) ∧
        (Scan.readAll pair.stream words).instructions = insns := Stream.instructions_eq_ok
  rw [checkStruct, checkLevel, if_neg hactive]
  simp only [hw, bind_eq_ok, Check.fields_eq_ok, hentered, Nat.zero_add]
  cases hending : (Scan.readAll pair.stream words).ending with
  | error defect =>
      simp only [Check.mismatch, reduceCtorEq, and_false, exists_false, false_iff, not_and]
      rintro ⟨words', insns, hw', hfound, _⟩
      cases hw.symm.trans hw'
      obtain ⟨pc, hpc⟩ := ((hinsns insns).mp hfound).1
      cases hending.symm.trans hpc
  | ok pc =>
      have hend (count : Nat) : (if count ≠ pair.struct.members.length then
            Check.mismatch path
              s!"{pair.struct.members.length} members described, stream has {count}"
          else .ok ()) = .ok () ↔ count = pair.struct.members.length := by
        simp [Check.mismatch]
      constructor
      · rintro ⟨count, ⟨_, hcount, hall⟩, hlast⟩
        have htotal := (hend count).mp hlast
        constructor
        · refine ⟨words, _, hw, (hinsns _).mpr ⟨⟨pc, hending⟩, rfl⟩, hcount.symm.trans htotal, ?_⟩
          intro i insn member hi hm
          obtain ⟨hfield, hshape, _⟩ := hall i insn member hi hm
          exact ⟨hfield, hshape⟩
        · rintro next ⟨words', i, insn, member, name, hw', hi, hm, hleaf, hname, hresolve⟩
          cases hw.symm.trans hw'
          obtain ⟨_, _, hrefers⟩ := hall i insn member hi hm
          exact hrefers next name hleaf hname hresolve
      · rintro ⟨⟨words', insns, hw', hfound, hlength, hall⟩, hrefers⟩
        cases hw.symm.trans hw'
        obtain ⟨_, rfl⟩ := (hinsns insns).mp hfound
        refine ⟨_, ⟨hlength.le, rfl, ?_⟩, (hend _).mpr hlength⟩
        intro i insn member hi hm
        obtain ⟨hfield, hshape⟩ := hall i insn member hi hm
        refine ⟨hfield, hshape, ?_⟩
        intro next name hleaf hname hresolve
        exact hrefers next ⟨words, i, insn, member, name, hw, hi, hm, hleaf, hname, hresolve⟩

theorem length_active_le {active : List UInt32} (hnodup : active.Nodup)
    (hexist : ∀ stream ∈ active, (program.stream? stream).isSome) :
    active.length ≤ program.length := by
  have hinjective : Function.Injective UInt32.toNat := fun a b h => UInt32.toNat_inj.mp h
  have hsubset : active.map UInt32.toNat ⊆ List.range program.length := by
    intro n hn
    obtain ⟨stream, hs, rfl⟩ := List.mem_map.mp hn
    obtain ⟨words, hw⟩ := Option.isSome_iff_exists.mp (hexist stream hs)
    exact List.mem_range.mpr (List.getElem?_eq_some_iff.mp hw).1
  have hle := ((hnodup.map hinjective).subperm hsubset).length_le
  rwa [List.length_map, List.length_range] at hle

/-- The check passes from a pair on exactly if all pairs agree that it gets to. The fuel is enough,
since active streams are different streams of the program. -/
theorem checkStruct_eq_ok_iff {fuel : Nat} {active : List UInt32} (pair : Pairing) (path : String)
    (hnodup : active.Nodup) (hexist : ∀ stream ∈ active, (program.stream? stream).isSome)
    (hfuel : program.length < fuel + active.length) :
    checkStruct document program fuel active pair.stream pair.scope pair.struct path = .ok () ↔
      ∀ last, pair.Chain document program active last → last.Agrees document program := by
  induction fuel generalizing active pair path with
  | zero =>
      have := length_active_le hnodup hexist
      omega
  | succ fuel ih =>
      by_cases hactive : pair.stream ∈ active
      · rw [checkStruct, checkLevel, if_pos hactive]
        simp only [true_iff]
        intro last hchain
        cases hchain with
        | here hnew => exact absurd hactive hnew
        | step hnew _ _ => exact absurd hactive hnew
      · cases hw : program.stream? pair.stream with
        | none =>
            rw [checkStruct, checkLevel, if_neg hactive]
            simp only [hw, Check.mismatch]
            constructor
            · intro h
              cases h
            · intro h
              obtain ⟨words, _, hwords, _⟩ := h pair (.here hactive)
              cases hw.symm.trans hwords
        | some words =>
            have hpasses (next : Pairing) (path : String) :
                checkStruct document program fuel (pair.stream :: active) next.stream next.scope
                    next.struct path = .ok () ↔
                  ∀ last, next.Chain document program (pair.stream :: active) last →
                    last.Agrees document program := by
              apply ih next path (hnodup.cons hactive)
              · intro stream hs
                rcases List.mem_cons.mp hs with rfl | hs
                · rw [hw]
                  rfl
                · exact hexist stream hs
              · simp only [List.length_cons]
                omega
            rw [checkStruct_succ_eq_ok hpasses hactive hw]
            constructor
            · rintro ⟨hagrees, hrest⟩ last hchain
              cases hchain with
              | here _ => exact hagrees
              | step _ hrefers hchain => exact hrest _ hrefers last hchain
            · intro h
              refine ⟨h pair (.here hactive), ?_⟩
              intro next hrefers last hchain
              exact h last (.step hactive hrefers hchain)

/-- What the check starts from: the root stream and the structure with this name. -/
def Starts (document : Document) (typeName : String) (pair : Pairing) : Prop :=
  pair.stream = 0 ∧ document.find? typeName = some (pair.scope, pair.struct)

/-- The check passes exactly if the structure exists and all pairs agree that references lead to
without coming through a stream twice. -/
theorem Document.check_eq_ok_iff {typeName : String} :
    document.check typeName program = .ok () ↔
      ∃ start, Starts document typeName start ∧
        ∀ last, start.Chain document program [] last → last.Agrees document program := by
  unfold Document.check Document.checkBy
  cases hfind : document.find? typeName with
  | none => simp only [Starts, hfind, reduceCtorEq, and_false, false_and, exists_false]
  | some found =>
      obtain ⟨scope, struct⟩ := found
      have hstart : Starts document typeName ⟨0, scope, struct⟩ := ⟨rfl, hfind⟩
      have hunique : ∀ start, Starts document typeName start → start = ⟨0, scope, struct⟩ := by
        rintro ⟨stream, scope', struct'⟩ ⟨hroot, hfound⟩
        cases hroot
        cases hfind.symm.trans hfound
        rfl
      refine (checkStruct_eq_ok_iff ⟨0, scope, struct⟩ (Name.canonical typeName) List.nodup_nil
        (fun _ h => absurd h List.not_mem_nil) (Nat.lt_succ_self program.length)).trans ?_
      constructor
      · intro h
        exact ⟨_, hstart, h⟩
      · rintro ⟨start, hs, h⟩
        rwa [hunique start hs] at h

/-! ## Streams that recur -/

namespace Pairing

variable {pair next last : Pairing} {visited visited' : List UInt32}

theorem Chain.mono (h : pair.Chain document program visited last) (hs : visited' ⊆ visited) :
    pair.Chain document program visited' last := by
  induction h generalizing visited' with
  | here hnew => exact .here fun hm => hnew (hs hm)
  | step hnew hrefers _ ih =>
      refine .step (fun hm => hnew (hs hm)) hrefers (ih ?_)
      exact List.cons_subset_cons _ hs

theorem Chain.avoids_or_meets (h : pair.Chain document program visited last) (stream : UInt32) :
    pair.Chain document program (stream :: visited) last ∨
      ∃ middle, Relation.ReflTransGen (Refers document program) pair middle ∧
        middle.stream = stream ∧ middle.Chain document program [] last := by
  induction h with
  | @here visited pair hnew =>
      by_cases hstream : pair.stream = stream
      · exact .inr ⟨pair, .refl, hstream, .here List.not_mem_nil⟩
      · refine .inl (.here ?_)
        simpa [hstream] using hnew
  | @step visited pair next last hnew hrefers hchain ih =>
      by_cases hstream : pair.stream = stream
      · refine .inr ⟨pair, .refl, hstream, ?_⟩
        exact (Chain.step hnew hrefers hchain).mono (List.nil_subset _)
      · rcases ih with ih | ⟨middle, hreach, hmiddle, hrest⟩
        · refine .inl (.step ?_ hrefers (ih.mono ?_))
          · simpa [hstream] using hnew
          · intro other ho
            simp only [List.mem_cons] at ho ⊢
            tauto
        · exact .inr ⟨middle, hreach.head hrefers, hmiddle, hrest⟩

end Pairing

/-- References lead from what the check starts from to a pair. -/
def Reached (document : Document) (program : Program) (typeName : String) (pair : Pairing) : Prop :=
  ∃ start, Starts document typeName start ∧
    Relation.ReflTransGen (Pairing.Refers document program) start pair

/-- A stream that recurs where references lead does so with the structure it had before. -/
def RecursAlike (document : Document) (program : Program) (typeName : String) : Prop :=
  ∀ pair next, Reached document program typeName pair →
    Relation.TransGen (Pairing.Refers document program) pair next → next.stream = pair.stream →
    next = pair

/-- If streams recur with their own structures, a way through a stream twice can be cut short. -/
theorem chain_of_reached {typeName : String} (hrecurs : RecursAlike document program typeName)
    {pair last : Pairing} (hpair : Reached document program typeName pair)
    (h : Relation.ReflTransGen (Pairing.Refers document program) pair last) :
    pair.Chain document program [] last := by
  induction h using Relation.ReflTransGen.head_induction_on with
  | refl => exact .here List.not_mem_nil
  | @head pair next hrefers hrest ih =>
      obtain ⟨start, hstart, hreach⟩ := id hpair
      have hchain := ih ⟨start, hstart, hreach.tail hrefers⟩
      rcases hchain.avoids_or_meets pair.stream with hnew | ⟨middle, hmiddle, hstream, hchain⟩
      · exact .step List.not_mem_nil hrefers hnew
      · have hsame := hrecurs pair middle hpair (.head' hrefers hmiddle) hstream
        rwa [hsame] at hchain

/-- What a passed check establishes: agreement of all pairs that references lead to without coming
through a stream twice, and of all pairs that they lead to at all if streams recur only with the
structures they had before. -/
theorem Document.check_eq_ok_iff_reached_agree {typeName : String} :
    (document.check typeName program = .ok () ↔
      ∃ start, Starts document typeName start ∧
        ∀ last, start.Chain document program [] last → last.Agrees document program) ∧
    (RecursAlike document program typeName → document.check typeName program = .ok () →
      ∀ pair, Reached document program typeName pair → pair.Agrees document program) := by
  refine ⟨Document.check_eq_ok_iff, ?_⟩
  rintro hrecurs hcheck pair ⟨start, hstart, hreach⟩
  obtain ⟨start', hstart', hagree⟩ := Document.check_eq_ok_iff.mp hcheck
  have hsame : start = start' := by
    obtain ⟨stream, scope, struct⟩ := start
    obtain ⟨stream', scope', struct'⟩ := start'
    obtain ⟨rfl, hfind⟩ := hstart
    obtain ⟨rfl, hfind'⟩ := hstart'
    cases hfind.symm.trans hfind'
    rfl
  subst hsame
  exact hagree pair (chain_of_reached hrecurs ⟨start, hstart, .refl⟩ hreach)

/-! Branches have twigs, which are branches again. -/

def branch : Pairing where
  stream := 0
  scope := ["Wood"]
  struct := ⟨"Branch", [⟨"grid", .array 2 (.array 3 (.number .u16))⟩,
    ⟨"twigs", .sequence (.named "Branch")⟩]⟩

def branchDocument : Document := ⟨.mk "" [] [.mk "Wood" [branch.struct] []]⟩

def branchWords : Stream :=
  Stream.assemble [(0, .array (.number .u16) 6, false), (1, .sequence (.struct 0), false)]

def branchProgram : Program := ⟨[branchWords]⟩

theorem branch_refers {next : Pairing} (h : branch.Refers branchDocument branchProgram next) :
    next = branch := by
  obtain ⟨words, i, insn, member, name, hw, hi, hm, hleaf, hname, hresolve⟩ := h
  have hwords : words = branchWords := (Option.some.inj hw).symm
  have hinsns : (Scan.readAll branch.stream branchWords).instructions =
      [⟨0, 0, false, .array (.number .u16) 6⟩, ⟨3, 1, false, .sequence (.struct 0)⟩] := by
    with_unfolding_all rfl
  subst hwords
  rw [hinsns] at hi
  match i with
  | 0 =>
      cases hi
      cases hleaf
  | 1 =>
      cases hi
      cases hm
      cases hname
      have hfound : branchDocument.resolve? branch.scope "Branch" =
          some (branch.scope, branch.struct) := rfl
      obtain ⟨stream, scope, struct⟩ := next
      cases hleaf
      cases hfound.symm.trans hresolve
      rfl
  | i + 2 => cases hi

theorem check_branchDocument :
    branchDocument.check "Wood.Branch" branchProgram = .ok () ∧
      RecursAlike branchDocument branchProgram "Wood.Branch" ∧
      Reached branchDocument branchProgram "Wood.Branch" branch ∧
      branch.Agrees branchDocument branchProgram := by
  have hcheck : branchDocument.check "Wood.Branch" branchProgram = .ok () :=
    eq_ok_of_toOption (by with_unfolding_all rfl)
  have hstarts : Starts branchDocument "Wood.Branch" branch := ⟨rfl, rfl⟩
  have hreached : ∀ pair, Reached branchDocument branchProgram "Wood.Branch" pair →
      pair = branch := by
    rintro pair ⟨start, ⟨hroot, hfind⟩, hreach⟩
    induction hreach with
    | refl =>
        obtain ⟨stream, scope, struct⟩ := start
        cases hroot
        cases hstarts.2.symm.trans hfind
        rfl
    | tail _ hrefers ih =>
        rw [ih] at hrefers
        exact branch_refers hrefers
  have hrecurs : RecursAlike branchDocument branchProgram "Wood.Branch" := by
    rintro pair next hpair hnext _
    obtain ⟨start, hstart, hreach⟩ := id hpair
    rw [hreached pair hpair]
    exact hreached next ⟨start, hstart, hreach.trans hnext.to_reflTransGen⟩
  exact ⟨hcheck, hrecurs, ⟨branch, hstarts, .refl⟩,
    Document.check_eq_ok_iff_reached_agree.2 hrecurs hcheck branch ⟨branch, hstarts, .refl⟩⟩

/-! A structure of sequences of another structure, which the same stream has to describe. -/

def looseDocument : Document := ⟨.mk "" [
  ⟨"A", [⟨"kids", .sequence (.named "B")⟩]⟩,
  ⟨"B", [⟨"x", .number .u8⟩, ⟨"y", .number .u8⟩]⟩] []⟩

def looseProgram : Program := ⟨[Stream.assemble [(0, .sequence (.struct 0), false)]]⟩

/-- The check passes, although the structure that it gets to has two members and the stream one
instruction. -/
theorem check_looseDocument :
    looseDocument.check "A" looseProgram = .ok () ∧
      ∃ pair, Reached looseDocument looseProgram "A" pair ∧
        ¬pair.Agrees looseDocument looseProgram := by
  have hinsns : Stream.instructions 0 (Stream.assemble [(0, .sequence (.struct 0), false)]) =
      .ok [⟨0, 0, false, .sequence (.struct 0)⟩] := by
    with_unfolding_all rfl
  refine ⟨eq_ok_of_toOption (by with_unfolding_all rfl),
    ⟨0, [], ⟨"B", [⟨"x", .number .u8⟩, ⟨"y", .number .u8⟩]⟩⟩, ?_, ?_⟩
  · refine ⟨⟨0, [], ⟨"A", [⟨"kids", .sequence (.named "B")⟩]⟩⟩,
      ⟨rfl, by with_unfolding_all rfl⟩, .single ?_⟩
    exact ⟨_, 0, _, _, "B", rfl, by rw [(Stream.instructions_eq_ok.mp hinsns).2]; rfl, rfl, rfl,
      rfl, rfl⟩
  · rintro ⟨words, insns, hw, hread, hlength, _⟩
    cases hw
    cases hinsns.symm.trans hread
    cases hlength

end Markup
end TopicCodec
