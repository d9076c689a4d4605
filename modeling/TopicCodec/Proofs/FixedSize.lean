import TopicCodec.Proofs.Nesting
import TopicCodec.Proofs.SizeLimits

/-!
# Which types have a fixed size

A type has no fixed size exactly if one of its structures has a field whose size differs
between instances: a sequence, a text, or an array with texts in it. The structures of a
type are those that the root structure holds in fields and in arrays that are not empty;
what an empty array or a sequence would hold does not count.

Sizes are worked out with a bound on the nesting. A valid program has no stream that nests
itself, so a chain of nested structures passes no stream twice and is no longer than the
program. Two walks whose bounds are both longer than that agree (`Program.nested_induction`
is the induction behind this), hence the bound is never met.
-/
namespace TopicCodec

open Relation

namespace Shape

/-- Whether such a field can have different sizes in different instances. -/
def varies : Shape → Bool
  | single (.string _) => true
  | sequence _ => true
  | array (.string _) count => count != 0
  | _ => false

/-- The stream of the structures that such a field always holds one or more of. -/
def held? : Shape → Option UInt32
  | single (.struct target) => some target
  | array (.struct target) count => if count = 0 then none else some target
  | _ => none

theorem nested_of_held? {shape : Shape} {target : UInt32} (h : shape.held? = some target) :
    shape.isSequence = false ∧ shape.leaf = .struct target := by
  cases shape with
  | single leaf =>
      cases leaf <;> cases h
      exact ⟨rfl, rfl⟩
  | sequence leaf => cases h
  | array leaf count =>
      cases leaf <;> try cases h
      simp only [held?] at h
      split_ifs at h
      cases h
      exact ⟨rfl, rfl⟩

end Shape

/-! ## Nesting in a valid program -/

namespace Program

variable {program : Program}

/-- Structures of the stream have a field of this shape. -/
def HasField (program : Program) (id : UInt32) (shape : Shape) : Prop :=
  ∃ words insn, program.stream? id = some words ∧
    insn ∈ (Scan.read id words).instructions ∧ insn.shape = shape

/-- Every structure of one stream holds structures of another, in a field or in an array. -/
def Includes (program : Program) (id target : UInt32) : Prop :=
  ∃ shape, program.HasField id shape ∧ shape.held? = some target

/-- A structure of the stream, or one that it holds, has a field of varying size. -/
def Varies (program : Program) (id : UInt32) : Prop :=
  ∃ inner shape, ReflTransGen program.Includes id inner ∧ program.HasField inner shape ∧
    shape.varies = true

theorem Varies.of_includes {id target : UInt32} (h : program.Includes id target)
    (ht : program.Varies target) : program.Varies id := by
  obtain ⟨inner, shape, hreach, hfield⟩ := ht
  exact ⟨inner, shape, .head h hreach, hfield⟩

/-- Induction along the nesting of structures, with a bound that decreases on the way: if the bound
is larger than the number of streams, it is not zero anywhere. -/
theorem nested_induction (h : program.validate = .ok ()) {motive : Nat → UInt32 → Prop}
    (step : ∀ fuel id words insns, program.stream? id = some words →
      Stream.instructions id words = .ok insns →
      (∀ insn ∈ insns, ∀ target, insn.shape.isSequence = false → insn.leaf = .struct target →
        motive fuel target) → motive (fuel + 1) id)
    {fuel : Nat} (hfuel : program.length < fuel) {id : UInt32} (hid : id.toNat < program.length) :
    motive fuel id := by
  obtain ⟨_, hreadable, hacyclic⟩ := validate_eq_ok_iff.mp h
  obtain ⟨edges, hedges⟩ := hreadable.exists_edges
  have hlength := length_checkedEdges hedges
  have hedge := edge_eq_nests hedges
  suffices hway : ∀ path, Way edges path id.toNat → program.length < fuel + path.length →
      motive fuel id from
    hway [] ⟨by simp, List.nodup_nil, by simp⟩ (by simpa using hfuel)
  clear hfuel
  induction fuel generalizing id with
  | zero =>
      intro path hway hlong
      have := hway.length_le
      omega
  | succ fuel ih =>
      intro path hway hlong
      obtain ⟨words, hw⟩ : ∃ words, program.stream? id = some words :=
        ⟨_, List.getElem?_eq_getElem hid⟩
      obtain ⟨insns, hinsns, htargets⟩ := hreadable.instructions hw
      refine step fuel id words insns hw hinsns fun insn hi target hshape htarget => ?_
      have hnests : program.Nests id.toNat target.toNat :=
        (nests_iff hw hinsns).mpr (mem_containedIn.mpr ⟨insn, hi, target, htarget, hshape, rfl⟩)
      have hnew : id.toNat ∉ path := by
        intro hmem
        have hcycle := hway.leads _ hmem
        rw [hedge] at hcycle
        exact hacyclic _ hcycle
      apply ih (htargets insn hi target htarget) (id.toNat :: path)
      · exact hway.step hnew (hlength ▸ hid) (hedge ▸ hnests)
      · rw [List.length_cons]
        omega

end Program

namespace Extent

variable {extent : Extent} {enter enter' : UInt32 → Nat → Except Stop Nat}
  {plain : UInt32 → Nat → Option Nat}

/-! ## Bounds on the nesting -/

theorem shape_congr {shape : Shape}
    (h : ∀ target, shape.isSequence = false → shape.leaf = .struct target →
      enter target = enter' target) (p : Nat) :
    extent.shape enter p shape = extent.shape enter' p shape := by
  have hleaf {leaf : Leaf} (hl : ∀ target, leaf = .struct target → enter target = enter' target)
      (p : Nat) : extent.leaf enter p leaf = extent.leaf enter' p leaf := by
    cases leaf with
    | struct target => exact congrFun (hl target rfl) p
    | string bound => cases bound <;> rfl
    | _ => rfl
  cases shape with
  | single leaf => exact hleaf (fun target ht => h target rfl ht) p
  | sequence leaf => rfl
  | array leaf count =>
      have hstep : (extent.leaf enter · leaf) = (extent.leaf enter' · leaf) :=
        funext (hleaf fun target ht => h target rfl ht)
      cases leaf <;> simp only [shape, hstep]

theorem foldlM_congr {α : Type} {step step' : Nat → α → Except Stop Nat} {items : List α}
    (h : ∀ item ∈ items, ∀ p, step p item = step' p item) (p : Nat) :
    items.foldlM step p = items.foldlM step' p := by
  induction items generalizing p with
  | nil => rfl
  | cons item rest ih =>
      rw [List.foldlM_cons, List.foldlM_cons, h item List.mem_cons_self]
      have hrest := ih fun item hi => h item (List.mem_cons_of_mem _ hi)
      exact congrArg _ (funext hrest)

/-- Bounds larger than the number of streams make no difference. -/
theorem stream_add (hv : extent.program.validate = .ok ()) {fuel : Nat}
    (hfuel : extent.program.length < fuel) (more : Nat) {id : UInt32}
    (hid : id.toNat < extent.program.length) :
    extent.stream (fuel + more) id = extent.stream fuel id := by
  refine Program.nested_induction hv
    (motive := fun fuel id => extent.stream (fuel + more) id = extent.stream fuel id) ?_ hfuel hid
  intro fuel id words insns hw hinsns ih
  funext p
  obtain ⟨rfl, _, _⟩ := toOption_instructions (congrArg Except.toOption hinsns)
  have hfields : ∀ insn ∈ (Scan.readAll id words).instructions, ∀ p,
      extent.shape (extent.stream (fuel + more)) p insn.shape =
        extent.shape (extent.stream fuel) p insn.shape :=
    fun insn hi p => shape_congr (ih insn hi) p
  rw [Nat.add_right_comm, stream, stream]
  simp only [hw, foldlM_congr hfields]

/-! ## Fields of varying size -/

theorem rowShape_eq_none_of_varies (hb : extent.boundedStrings = false) {shape : Shape}
    (h : shape.varies = true) (p : Nat) : extent.rowShape plain p shape = none := by
  have htext (bound : Option UInt32) (p : Nat) :
      extent.exactLeaf plain p (.string bound) = none := by
    cases bound <;> simp [exactLeaf, hb]
  cases shape with
  | single leaf =>
      cases leaf with
      | string bound => exact htext bound p
      | _ => cases h
  | sequence leaf => rfl
  | array leaf count =>
      cases leaf with
      | string bound =>
          have hcount : count.toNat ≠ 0 := fun hc => bne_iff_ne.mp h (UInt32.toNat_inj.mp hc)
          obtain ⟨n, hn⟩ := Nat.exists_eq_succ_of_ne_zero hcount
          simp only [rowShape, exactShape, hn, iterate, htext, Option.bind_eq_bind,
            Option.bind_none]
      | _ => cases h

theorem rowShape_eq_none_of_held {shape : Shape} {target : UInt32} (h : shape.held? = some target)
    (he : ∀ p, plain target p = none) (p : Nat) : extent.rowShape plain p shape = none := by
  cases shape with
  | single leaf =>
      cases leaf <;> cases h
      exact he p
  | sequence leaf => cases h
  | array leaf count =>
      cases leaf <;> try cases h
      simp only [Shape.held?] at h
      split_ifs at h with hzero
      cases h
      obtain ⟨n, hn⟩ := Nat.exists_eq_succ_of_ne_zero fun hc => hzero (UInt32.toNat_inj.mp hc)
      simp only [rowShape, exactShape, exactLeaf, hn, iterate, he, Option.bind_eq_bind,
        Option.bind_none]

theorem rowStream_succ_eq_none {fuel : Nat} {id : UInt32} {shape : Shape}
    (hf : extent.program.HasField id shape)
    (h : ∀ p, extent.rowShape (extent.rowStream fuel) p shape = none) (p : Nat) :
    extent.rowStream (fuel + 1) id p = none := by
  obtain ⟨words, insn, hw, hi, rfl⟩ := hf
  simp only [rowStream, hw, Option.bind_eq_bind, Option.bind_some]
  cases hinsns : Stream.instructions id words with
  | error defect => rfl
  | ok insns =>
      rw [(Scan.read_of_instructions hinsns).1] at hi
      obtain ⟨front, rest, rfl⟩ := List.append_of_mem hi
      simp only [Except.toOption, Option.bind_some, List.foldlM_append, List.foldlM_cons, h,
        Option.bind_eq_bind, Option.bind_none, Option.bind_fun_none]

/-- A structure with a field of varying size somewhere in it has no size. -/
theorem rowStream_eq_none_of_varies (extent : Extent) (hb : extent.boundedStrings = false)
    {id : UInt32} (h : extent.program.Varies id) (fuel p : Nat) :
    extent.rowStream fuel id p = none := by
  obtain ⟨inner, shape, hreach, hfield, hvaries⟩ := h
  induction hreach using ReflTransGen.head_induction_on generalizing fuel p with
  | refl =>
      cases fuel with
      | zero => rfl
      | succ fuel =>
          exact rowStream_succ_eq_none hfield (rowShape_eq_none_of_varies hb hvaries) p
  | head hstep _ ih =>
      obtain ⟨outer, houter, hheld⟩ := hstep
      cases fuel with
      | zero => rfl
      | succ fuel =>
          exact rowStream_succ_eq_none houter (rowShape_eq_none_of_held hheld (ih fuel)) p

/-! ## Fields of one size -/

theorem exists_iterate {step : Nat → Option Nat} (h : ∀ p, ∃ n, step p = some n) (count p : Nat) :
    ∃ n, iterate step count p = some n := by
  induction count generalizing p with
  | zero => exact ⟨p, rfl⟩
  | succ count ih =>
      obtain ⟨next, hnext⟩ := h p
      obtain ⟨n, hn⟩ := ih next
      exact ⟨n, by rw [iterate_succ hnext, hn]⟩

theorem exists_foldlM {α : Type} {step : Nat → α → Option Nat} {items : List α}
    (h : ∀ item ∈ items, ∀ p, ∃ n, step p item = some n) (p : Nat) :
    ∃ n, items.foldlM step p = some n := by
  induction items generalizing p with
  | nil => exact ⟨p, rfl⟩
  | cons item rest ih =>
      obtain ⟨next, hnext⟩ := h item List.mem_cons_self p
      obtain ⟨n, hn⟩ := ih (fun item hi => h item (List.mem_cons_of_mem _ hi)) next
      exact ⟨n, by rw [List.foldlM_cons, hnext, Option.bind_eq_bind, Option.bind_some, hn]⟩

theorem exists_rowShape {shape : Shape} (h : shape.varies = false)
    (he : ∀ target, shape.held? = some target → ∀ p, ∃ n, plain target p = some n) (p : Nat) :
    ∃ n, extent.rowShape plain p shape = some n := by
  cases shape with
  | single leaf =>
      cases leaf with
      | number kind => exact ⟨_, rfl⟩
      | bool => exact ⟨_, rfl⟩
      | string bound => cases h
      | struct target => exact he target rfl p
  | sequence leaf => cases h
  | array leaf count =>
      by_cases hzero : count = 0
      · subst hzero
        cases leaf <;> exact ⟨p, rfl⟩
      · cases leaf with
        | number kind => exact ⟨_, if_neg hzero⟩
        | bool => exact exists_iterate (fun p => ⟨p + 1, rfl⟩) count.toNat p
        | string bound => exact absurd (bne_eq_false_iff_eq.mp h) hzero
        | struct target => exact exists_iterate (he target (if_neg hzero)) count.toNat p

/-- In a valid program, structures without a field of varying size have a size. -/
theorem exists_rowStream (extent : Extent) (hv : extent.program.validate = .ok ()) {fuel : Nat}
    (hfuel : extent.program.length < fuel) {id : UInt32} (hid : id.toNat < extent.program.length)
    (h : ¬extent.program.Varies id) (p : Nat) : ∃ n, extent.rowStream fuel id p = some n := by
  refine Program.nested_induction hv (motive := fun fuel id => ¬extent.program.Varies id →
    ∀ p, ∃ n, extent.rowStream fuel id p = some n) ?_ hfuel hid h p
  intro fuel id words insns hw hinsns ih hfixed p
  simp only [rowStream, hw, hinsns, Except.toOption, Option.bind_eq_bind, Option.bind_some]
  refine exists_foldlM (fun insn hi => exists_rowShape ?_ fun target htarget => ?_) p
  all_goals have hfield : extent.program.HasField id insn.shape :=
    ⟨words, insn, hw, (Scan.read_of_instructions hinsns).1 ▸ hi, rfl⟩
  · rw [← Bool.not_eq_true]
    exact fun hvaries => hfixed ⟨id, insn.shape, .refl, hfield, hvaries⟩
  · obtain ⟨hshape, hleaf⟩ := Shape.nested_of_held? htarget
    apply ih insn hi target hshape hleaf
    exact fun hvaries => hfixed (.of_includes ⟨insn.shape, hfield, htarget⟩ hvaries)

end Extent

namespace Descriptor

open Extent

variable {desc : Descriptor} {wire : WireFormat}

/-- The position at which the walk over the program would end if positions had no limit. -/
def unlimitedSize? (desc : Descriptor) (wire : WireFormat) : Option Nat :=
  Extent.rowStream ⟨desc.program, wire, false⟩ (desc.program.length + 1) 0 0

/-- Which types have a fixed size. In a valid program, and as long as positions stay below the
limit, a type has no fixed size if and only if a structure that it holds, through fields and
arrays that are not empty, has a sequence, a text, or an array with texts in it. The walk is cut off
only over a table of remainders that does not fit, or over a number that is aligned past the limit
in a type without a size. The bound on the nesting plays no part: every larger bound gives the same
answer, in every case. -/
theorem fixedSize?_eq_none_iff_varies (hv : desc.program.validate = .ok ())
    (h : ∀ size, desc.unlimitedSize? wire = some size → size < limit) :
    (∀ size?, desc.fixedSize? wire = .ok size? → (size? = none ↔
      ∃ id shape, ReflTransGen desc.program.Includes 0 id ∧ desc.program.HasField id shape ∧
        shape.varies = true)) ∧
    (∀ abort, desc.fixedSize? wire = .error abort →
      abort = .table ∧ ¬TableFits wire ∨
        abort = .product ∧ ¬desc.AlignsWithinLimit wire ∧ desc.unlimitedSize? wire = none) ∧
    ∀ bound, desc.program.length < bound →
      answer (Extent.stream ⟨desc.program, wire, false⟩ bound 0 0) = desc.fixedSize? wire := by
  have hroot : (0 : UInt32).toNat < desc.program.length := by
    obtain ⟨hstreams, _⟩ := Program.validate_eq_ok_iff.mp hv
    exact List.length_pos_iff.mpr hstreams
  have hanswers := stream_answers ⟨desc.program, wire, false⟩ (desc.program.length + 1) 0 limit_pos
  refine ⟨fun size? hsize? => ⟨fun hnone => ?_, fun hvaries => ?_⟩, fun abort hcut => ?_,
    fun bound hbound => ?_⟩
  · by_contra hfixed
    obtain ⟨size, hsize⟩ :=
      exists_rowStream ⟨desc.program, wire, false⟩ hv (Nat.lt_succ_self _) hroot hfixed 0
    rw [hnone] at hsize?
    rw [hsize, answer_eq_none.mp hsize?] at hanswers
    exact hanswers.ne_unsized (h size hsize) rfl
  · rw [rowStream_eq_none_of_varies ⟨desc.program, wire, false⟩ rfl hvaries] at hanswers
    cases size? with
    | none => rfl
    | some size =>
        rw [answer_eq_some.mp hsize?] at hanswers
        cases hanswers.eq_some.1
  · rw [answer_eq_error.mp hcut] at hanswers
    have hreason := hanswers.of_aborted
    cases abort with
    | table => exact .inl ⟨rfl, hreason⟩
    | product =>
        refine .inr ⟨rfl, hreason, Option.eq_none_iff_forall_ne_some.mpr fun size hsize => ?_⟩
        exact hreason (streamClear_of_lt _ hsize (h size hsize))
  · obtain ⟨more, rfl⟩ := Nat.exists_eq_add_of_lt hbound
    rw [Nat.add_right_comm]
    exact congrArg answer (congrFun (stream_add hv (Nat.lt_succ_self _) more hroot) 0)

/-- Boxes in a row and alone; the texts and the sequence in it are those of empty arrays. -/
def crate : Descriptor where
  typeName := "Crate"
  program := ⟨[
    Stream.assemble [(0, .array (.struct 1) 3, false), (1, .array (.struct 2) 0, false),
      (2, .single (.struct 1), false)],
    Stream.assemble [(0, .single (.number .u64), false), (1, .array (.string none) 0, false),
      (2, .single .bool, false)],
    Stream.assemble [(0, .sequence (.struct 1), false)]]⟩

theorem crate_does_not_vary :
    crate.program.validate = .ok () ∧ crate.unlimitedSize? .bigEndian = some 57 ∧
      crate.fixedSize? .bigEndian = .ok (some 57) ∧
      ¬∃ id shape, ReflTransGen crate.program.Includes 0 id ∧ crate.program.HasField id shape ∧
        shape.varies = true := by
  have hv : crate.program.validate = .ok () := by with_unfolding_all rfl
  have hsize : crate.unlimitedSize? .bigEndian = some 57 := by with_unfolding_all rfl
  have hfixed : crate.fixedSize? .bigEndian = .ok (some 57) := by with_unfolding_all rfl
  have hiff := (fixedSize?_eq_none_iff_varies hv fun size hs => by
    rw [hsize] at hs
    cases hs
    decide).1 (some 57) hfixed
  refine ⟨hv, hsize, hfixed, fun hvaries => ?_⟩
  cases hiff.mpr hvaries

/-- Under the smallest cap whose table does not fit, the type has a size as well, but asking for it
is cut off. -/
theorem crate_cut_off :
    crate.program.validate = .ok () ∧ crate.unlimitedSize? { maxAlign := 2 ^ 59 } = some 57 ∧
      crate.fixedSize? { maxAlign := 2 ^ 59 } = .error .table :=
  ⟨by with_unfolding_all rfl, by with_unfolding_all rfl, by with_unfolding_all rfl⟩

end Descriptor
end TopicCodec
