import Mathlib.Data.List.Nodup
import Mathlib.Data.List.Perm.Subperm
import TopicCodec.Proofs.Blame
import TopicCodec.Proofs.Grammar

/-!
# What the check of a program establishes

The streams of a program are the nodes of a graph: one leads to another if each of its structures
holds structures of the other, in a field or in an array (`Program.Nests`). The check of a program
searches this graph for a cycle. What it has finished is in an order in which every node leads to
earlier ones only (`Finished`), and every node on its way leads to the one it is at; so it finds a
cycle if and only if there is one. With the grammar of streams this says exactly which programs
pass the check.
-/
namespace TopicCodec.Program

open Relation

/-! ## The search -/

section Search

variable {edges : List (List Nat)} {done done' nodes : List Nat} {node : Nat}

/-- One node leads to another. -/
def Edge (edges : List (List Nat)) (a b : Nat) : Prop := ∃ out, edges[a]? = some out ∧ b ∈ out

/-- Finished nodes, the last one first: each leads to nodes finished before it. -/
inductive Finished (edges : List (List Nat)) : List Nat → Prop
  | nil : Finished edges []
  | cons {node : Nat} {done : List Nat} :
      (∀ next, Edge edges node next → next ∈ done) → Finished edges done →
      Finished edges (node :: done)

theorem Finished.next (h : Finished edges done) {a b : Nat} (ha : a ∈ done) (hab : Edge edges a b) :
    b ∈ done := by
  induction h with
  | nil => cases ha
  | cons hnext _ ih =>
      rcases List.mem_cons.mp ha with rfl | ha
      · exact List.mem_cons_of_mem _ (hnext b hab)
      · exact List.mem_cons_of_mem _ (ih ha)

theorem Finished.reached (h : Finished edges done) {a b : Nat} (ha : a ∈ done)
    (hab : ReflTransGen (Edge edges) a b) : b ∈ done := by
  induction hab with
  | refl => exact ha
  | tail _ hstep ih => exact h.next ih hstep

/-- A finished node is on no cycle: the cycle would come back to it from earlier nodes. -/
theorem Finished.acyclic (h : Finished edges done) (hn : node ∈ done) :
    ¬TransGen (Edge edges) node node := by
  induction h generalizing node with
  | nil => cases hn
  | cons hnext hdone ih =>
      rcases List.mem_cons.mp hn with rfl | hn
      · intro hcycle
        obtain ⟨next, hstep, hback⟩ := TransGen.head'_iff.mp hcycle
        exact ih (hdone.reached (hnext next hstep) hback) hcycle
      · exact ih hn

inductive Searched (edges : List (List Nat)) (done nodes : List Nat) :
    Except Nat (List Nat) → Prop
  | cycle {node : Nat} : TransGen (Edge edges) node node → Searched edges done nodes (.error node)
  | finished {done' : List Nat} : Finished edges done' → done ⊆ done' → nodes ⊆ done' →
      Searched edges done nodes (.ok done')

theorem Searched.foldlM {visit : List Nat → Nat → Except Nat (List Nat)}
    (h : ∀ node ∈ nodes, ∀ done, Finished edges done →
      Searched edges done [node] (visit done node))
    (hdone : Finished edges done) : Searched edges done nodes (nodes.foldlM visit done) := by
  induction nodes generalizing done with
  | nil => exact .finished hdone (List.Subset.refl done) (List.nil_subset done)
  | cons node rest ih =>
      rw [List.foldlM_cons]
      have hfirst := h node List.mem_cons_self done hdone
      generalize visit done node = outcome at hfirst
      cases hfirst with
      | cycle hcycle => exact .cycle hcycle
      | @finished middle hmiddle hkept hnode =>
          have hrest := ih (fun other ho => h other (List.mem_cons_of_mem _ ho)) hmiddle
          change Searched edges done (node :: rest) (rest.foldlM visit middle)
          generalize rest.foldlM visit middle = outcome at hrest
          cases hrest with
          | cycle hcycle => exact .cycle hcycle
          | finished hlast hkept' hrest =>
              refine .finished hlast (List.Subset.trans hkept hkept')
                (List.cons_subset.mpr ⟨?_, hrest⟩)
              exact hkept' (hnode List.mem_cons_self)

/-- A way through the graph that the search went: different nodes, each of which leads to the
node that the search is at. -/
structure Way (edges : List (List Nat)) (path : List Nat) (node : Nat) : Prop where
  leads : ∀ other ∈ path, TransGen (Edge edges) other node
  nodup : path.Nodup
  within : ∀ other ∈ path, other < edges.length

theorem Way.length_le {path : List Nat} (h : Way edges path node) :
    path.length ≤ edges.length := by
  have hsubset : path ⊆ List.range edges.length := by
    intro other ho
    exact List.mem_range.mpr (h.within other ho)
  simpa using (h.nodup.subperm hsubset).length_le

theorem Way.step {path : List Nat} {next : Nat} (h : Way edges path node) (hnew : node ∉ path)
    (hnode : node < edges.length) (hstep : Edge edges node next) :
    Way edges (node :: path) next where
  leads other ho := by
    rcases List.mem_cons.mp ho with rfl | ho
    · exact .single hstep
    · exact (h.leads other ho).tail hstep
  nodup := h.nodup.cons hnew
  within other ho := by
    rcases List.mem_cons.mp ho with rfl | ho
    · exact hnode
    · exact h.within other ho

/-- The search from a node that a way leads to. Its fuel is enough, since the way has no more
nodes than the graph. -/
theorem search_searched (hclosed : ∀ a b, Edge edges a b → b < edges.length) {fuel : Nat}
    {path : List Nat} (hway : Way edges path node) (hnode : node < edges.length)
    (hfuel : edges.length < fuel + path.length) (hdone : Finished edges done) :
    Searched edges done [node] (search edges fuel path done node) := by
  induction fuel generalizing path done node with
  | zero =>
      have := hway.length_le
      omega
  | succ fuel ih =>
      rw [search]
      split_ifs with hfinished hactive
      · exact .finished hdone (List.Subset.refl done) (by simpa using hfinished)
      · exact .cycle (hway.leads node hactive)
      · obtain ⟨out, hout⟩ : ∃ out, edges[node]? = some out := ⟨_, List.getElem?_eq_getElem hnode⟩
        have hnext : ∀ next ∈ out, Edge edges node next := fun next hn => ⟨out, hout, hn⟩
        have hsearch : Searched edges done out
            (out.foldlM (search edges fuel (node :: path)) done) := by
          apply Searched.foldlM _ hdone
          intro next hn done hdone
          have hstep := hnext next hn
          apply ih (hway.step hactive hnode hstep) (hclosed _ _ hstep) _ hdone
          simp only [List.length_cons]
          omega
        simp only [hout, Option.getD_some]
        generalize out.foldlM (search edges fuel (node :: path)) done = outcome at hsearch
        cases hsearch with
        | cycle hcycle => exact .cycle hcycle
        | @finished last hlast hkept hout' =>
            refine .finished (.cons ?_ hlast)
              (List.Subset.trans hkept (List.subset_cons_self node last)) (by simp)
            rintro next ⟨found, hfound, hn⟩
            cases hout.symm.trans hfound
            exact hout' hn

theorem cycle?_searched (hclosed : ∀ a b, Edge edges a b → b < edges.length) :
    Searched edges [] (List.range edges.length)
      ((List.range edges.length).foldlM (search edges (edges.length + 1) []) []) := by
  apply Searched.foldlM _ .nil
  intro node hn done hdone
  have hway : Way edges [] node := ⟨by simp, List.nodup_nil, by simp⟩
  exact search_searched hclosed hway (List.mem_range.mp hn) (by simp) hdone

theorem cycle_of_cycle? (hclosed : ∀ a b, Edge edges a b → b < edges.length)
    (h : cycle? edges = some node) : TransGen (Edge edges) node node := by
  have hsearched := cycle?_searched hclosed
  unfold cycle? at h
  generalize (List.range edges.length).foldlM (search edges (edges.length + 1) []) [] =
    outcome at h hsearched
  cases hsearched with
  | cycle hcycle =>
      cases h
      exact hcycle
  | finished hfinished _ _ => cases h

theorem cycle?_eq_none_iff (hclosed : ∀ a b, Edge edges a b → b < edges.length) :
    cycle? edges = none ↔ ∀ node, ¬TransGen (Edge edges) node node := by
  have hsearched := cycle?_searched hclosed
  unfold cycle?
  generalize (List.range edges.length).foldlM (search edges (edges.length + 1) []) [] =
    outcome at hsearched
  cases hsearched with
  | @cycle node hcycle => simpa using ⟨node, hcycle⟩
  | finished hfinished _ hall =>
      simp only [true_iff]
      intro node hcycle
      obtain ⟨next, ⟨out, hout, _⟩, _⟩ := TransGen.head'_iff.mp hcycle
      have hnode : node < edges.length := (List.getElem?_eq_some_iff.mp hout).1
      exact hfinished.acyclic (hall (List.mem_range.mpr hnode)) hcycle

end Search

/-! ## One stream -/

variable {program : Program} {id : UInt32} {words : Stream} {insns : List Instruction}

theorem danglingReference?_eq_none_iff {streams : Nat} :
    danglingReference? streams insns = none ↔
      ∀ insn ∈ insns, ∀ target, insn.leaf = .struct target → target.toNat < streams := by
  unfold danglingReference?
  rw [List.findSome?_eq_none_iff]
  refine forall₂_congr fun insn _ => ?_
  cases hleaf : insn.leaf <;> simp [Leaf.stream?]

theorem mem_containedIn {b : Nat} :
    b ∈ containedIn insns ↔ ∃ insn ∈ insns, ∃ target, insn.leaf = .struct target ∧
      insn.shape.isSequence = false ∧ target.toNat = b := by
  induction insns with
  | nil => simp [containedIn]
  | cons insn rest ih =>
      have hstep : b ∈ containedIn (insn :: rest) ↔
          (∃ target, insn.leaf = .struct target ∧ insn.shape.isSequence = false ∧
            target.toNat = b) ∨ b ∈ containedIn rest := by
        rw [containedIn]
        cases insn.leaf <;> cases insn.shape.isSequence <;> simp [Leaf.stream?, eq_comm]
      rw [hstep, ih]
      simp only [List.mem_cons, exists_eq_or_imp]

theorem validateStream_eq_ok_iff {streams : Nat} {out : List Nat} :
    validateStream streams id words = .ok out ↔
      ∃ insns, Stream.instructions id words = .ok insns ∧
        (∀ insn ∈ insns, ∀ target, insn.leaf = .struct target → target.toNat < streams) ∧
        out = containedIn insns := by
  have hread : ∀ insns, Stream.instructions id words = .ok insns →
      (Scan.readAll id words).instructions = insns :=
    fun insns h => (Stream.instructions_eq_ok.mp h).2
  unfold validateStream
  dsimp only
  split
  · rename_i pc target hfound
    constructor
    · intro h
      cases h
    · rintro ⟨insns, hinsns, htargets, _⟩
      rw [hread insns hinsns, danglingReference?_eq_none_iff.mpr htargets] at hfound
      cases hfound
  · rename_i hnone
    rw [danglingReference?_eq_none_iff] at hnone
    rw [map_eq_ok]
    constructor
    · rintro ⟨insns, hinsns, rfl⟩
      refine ⟨insns, hinsns, ?_, rfl⟩
      rwa [hread insns hinsns] at hnone
    · rintro ⟨insns, hinsns, _, rfl⟩
      exact ⟨insns, hinsns, rfl⟩

/-! ## The whole program -/

/-- Structures that one stream describes hold structures that another one describes: in a field,
or in an array. A sequence need not hold any. -/
def Nests (program : Program) (a b : Nat) : Prop :=
  ∃ fields field shape key target, program.streams[a]? = some (Stream.assemble fields) ∧
    (field, shape, key) ∈ fields ∧ shape.isSequence = false ∧ shape.leaf = .struct target ∧
    target.toNat = b

structure Readable (program : Program) : Prop where
  assembled : ∀ words ∈ program.streams, ∃ fields, words = Stream.assemble fields
  targets : ∀ fields, Stream.assemble fields ∈ program.streams → ∀ field shape key target,
    (field, shape, key) ∈ fields → shape.leaf = .struct target → target.toNat < program.length

theorem readable_iff :
    program.Readable ↔ ∀ words ∈ program.streams, ∃ insns,
      Stream.instructions 0 words = .ok insns ∧
      ∀ insn ∈ insns, ∀ target, insn.leaf = .struct target → target.toNat < program.length := by
  constructor
  · intro h words hm
    obtain ⟨fields, rfl⟩ := h.assembled words hm
    refine ⟨_, Scan.instructions_assemble 0 fields, ?_⟩
    intro insn hinsn target hleaf
    exact h.targets fields hm insn.field insn.shape insn.key target
      (Instruction.mem_placed.mpr ⟨insn, hinsn, rfl⟩) hleaf
  · intro h
    constructor
    · intro words hm
      obtain ⟨insns, hinsns, _⟩ := h words hm
      obtain ⟨fields, hfields, _⟩ := Stream.instructions_eq_ok_iff.mp hinsns
      exact ⟨fields, hfields⟩
    · intro fields hm field shape key target hfield hleaf
      obtain ⟨insns, hinsns, htargets⟩ := h _ hm
      rw [Scan.instructions_assemble] at hinsns
      cases hinsns
      obtain ⟨insn, hinsn, hcontent⟩ := Instruction.mem_placed.mp hfield
      cases hcontent
      exact htargets insn hinsn target hleaf

theorem Readable.instructions (h : program.Readable) {id : UInt32}
    (hw : program.stream? id = some words) :
    ∃ insns, Stream.instructions id words = .ok insns ∧
      ∀ insn ∈ insns, ∀ target, insn.leaf = .struct target → target.toNat < program.length := by
  obtain ⟨insns, hinsns, htargets⟩ := readable_iff.mp h words (List.mem_of_getElem? hw)
  exact ⟨insns, Stream.instructions_of_other hinsns, htargets⟩

theorem nests_iff {a b : Nat} (hw : program.streams[a]? = some words)
    (hinsns : Stream.instructions id words = .ok insns) :
    program.Nests a b ↔ b ∈ containedIn insns := by
  obtain ⟨fields, rfl, rfl⟩ := Stream.instructions_eq_ok_iff.mp hinsns
  rw [mem_containedIn]
  constructor
  · rintro ⟨fields', field, shape, key, target, hfound, hmem, hshape, hleaf, htarget⟩
    cases Stream.assemble_injective (Option.some.inj (hw.symm.trans hfound))
    obtain ⟨insn, hinsn, hcontent⟩ := Instruction.mem_placed.mp hmem
    cases hcontent
    exact ⟨insn, hinsn, target, hleaf, hshape, htarget⟩
  · rintro ⟨insn, hinsn, target, hleaf, hshape, htarget⟩
    have hfield := Instruction.mem_placed.mpr ⟨insn, hinsn, rfl⟩
    exact ⟨fields, _, _, _, target, hw, hfield, hshape, hleaf, htarget⟩

theorem Nests.lt_length {a b : Nat} (h : program.Nests a b) : a < program.length := by
  obtain ⟨fields, _, _, _, _, hw, _⟩ := h
  exact (List.getElem?_eq_some_iff.mp hw).1

theorem Readable.nests_lt (h : program.Readable) {a b : Nat} (hab : program.Nests a b) :
    b < program.length := by
  obtain ⟨fields, field, shape, key, target, hw, hfield, _, hleaf, rfl⟩ := hab
  exact h.targets fields (List.mem_of_getElem? hw) field shape key target hfield hleaf

/-- What the check finds the streams to lead to. -/
def checkedEdges (program : Program) : Except Defect (List (List Nat)) :=
  program.numbered.mapM fun entry => validateStream program.length entry.1 entry.2

variable {edges : List (List Nat)}

theorem instructions_of_checkedEdges (h : program.checkedEdges = .ok edges) {a : Nat}
    (hw : program.streams[a]? = some words) :
    ∃ insns, Stream.instructions (UInt32.ofNat a) words = .ok insns ∧
      (∀ insn ∈ insns, ∀ target, insn.leaf = .struct target → target.toNat < program.length) ∧
      edges[a]? = some (containedIn insns) := by
  obtain ⟨out, hout, hstream⟩ :=
    getElem?_of_forall₂ (forall₂_of_mapM h) (getElem?_numbered hw)
  obtain ⟨insns, hinsns, htargets, rfl⟩ := validateStream_eq_ok_iff.mp hstream
  exact ⟨insns, hinsns, htargets, hout⟩

theorem length_checkedEdges (h : program.checkedEdges = .ok edges) :
    edges.length = program.length := by
  rw [← (forall₂_of_mapM h).length_eq, numbered, List.length_mapIdx]
  rfl

theorem edge_iff_nests (h : program.checkedEdges = .ok edges) (a b : Nat) :
    Edge edges a b ↔ program.Nests a b := by
  by_cases ha : a < program.streams.length
  · have hw := List.getElem?_eq_getElem ha
    obtain ⟨insns, hinsns, _, hout⟩ := instructions_of_checkedEdges h hw
    rw [nests_iff hw hinsns]
    simp [Edge, hout]
  · have hedges : edges[a]? = none := by
      rw [List.getElem?_eq_none_iff, length_checkedEdges h]
      exact Nat.le_of_not_lt ha
    have hstreams : program.streams[a]? = none := by
      rw [List.getElem?_eq_none_iff]
      exact Nat.le_of_not_lt ha
    simp [Edge, Nests, hedges, hstreams]

theorem edge_eq_nests (h : program.checkedEdges = .ok edges) : Edge edges = program.Nests := by
  funext a b
  exact propext (edge_iff_nests h a b)

theorem edge_lt (h : program.checkedEdges = .ok edges) (a b : Nat) (hab : Edge edges a b) :
    b < edges.length := by
  obtain ⟨out, hout, hb⟩ := hab
  have ha : a < program.streams.length := by
    have := (List.getElem?_eq_some_iff.mp hout).1
    rwa [length_checkedEdges h] at this
  obtain ⟨insns, _, htargets, hfound⟩ :=
    instructions_of_checkedEdges h (List.getElem?_eq_getElem ha)
  cases hout.symm.trans hfound
  obtain ⟨insn, hinsn, target, hleaf, _, rfl⟩ := mem_containedIn.mp hb
  rw [length_checkedEdges h]
  exact htargets insn hinsn target hleaf

theorem readable_of_checkedEdges (h : program.checkedEdges = .ok edges) : program.Readable := by
  rw [readable_iff]
  intro words hm
  obtain ⟨a, hw⟩ := List.mem_iff_getElem?.mp hm
  obtain ⟨insns, hinsns, htargets, _⟩ := instructions_of_checkedEdges h hw
  exact ⟨insns, Stream.instructions_of_other hinsns, htargets⟩

theorem mem_streams_of_numbered {entry : UInt32 × Stream} (h : entry ∈ program.numbered) :
    entry.2 ∈ program.streams := by
  simp only [numbered, List.mem_mapIdx] at h
  obtain ⟨i, hi, rfl⟩ := h
  exact List.getElem_mem hi

theorem Readable.exists_edges (h : program.Readable) :
    ∃ edges, program.checkedEdges = .ok edges := by
  apply exists_mapM
  intro entry hentry
  obtain ⟨insns, hinsns, htargets⟩ := readable_iff.mp h entry.2 (mem_streams_of_numbered hentry)
  have hread : Stream.instructions entry.1 entry.2 = .ok insns :=
    Stream.instructions_of_other hinsns
  exact ⟨_, validateStream_eq_ok_iff.mpr ⟨insns, hread, htargets, rfl⟩⟩

/-- A program passes the check if and only if it has a stream, all of its streams are put together
from instructions and refer to its streams, and no stream nests itself. -/
theorem validate_eq_ok_iff :
    program.validate = .ok () ↔
      program.streams ≠ [] ∧ program.Readable ∧ ∀ node, ¬TransGen program.Nests node node := by
  have hnests {edges : List (List Nat)} (h : program.checkedEdges = .ok edges) :
      cycle? edges = none ↔ ∀ node, ¬TransGen program.Nests node node := by
    rw [cycle?_eq_none_iff (edge_lt h), edge_eq_nests h]
  have hsteps : program.validate = .ok () ↔ ¬program.isEmpty = true ∧
      ∃ edges, program.checkedEdges = .ok edges ∧ cycle? edges = none := by
    unfold validate
    rw [check_eq_ok, bind_eq_ok]
    refine and_congr Iff.rfl (exists_congr fun edges => and_congr Iff.rfl ?_)
    cases cycle? edges <;> simp [pure, Except.pure]
  rw [hsteps, isEmpty, List.isEmpty_iff]
  refine and_congr Iff.rfl ⟨?_, ?_⟩
  · rintro ⟨edges, hedges, hnone⟩
    exact ⟨readable_of_checkedEdges hedges, (hnests hedges).mp hnone⟩
  · rintro ⟨hreadable, hacyclic⟩
    obtain ⟨edges, hedges⟩ := hreadable.exists_edges
    exact ⟨edges, hedges, (hnests hedges).mpr hacyclic⟩

theorem checkedEdges_ne_recursive (program : Program) (id : UInt32) :
    program.checkedEdges ≠ .error (.recursiveStream id) := by
  intro h
  obtain ⟨⟨stream, words⟩, _, herror⟩ := exists_of_mapM_error h
  dsimp only at herror
  unfold validateStream at herror
  dsimp only at herror
  split at herror
  · cases herror
  · have hblames := ((Scan.readAll_blamesWords stream words).map
      fun _ => (Scan.readAll stream words).instructions).map containedIn
    cases hblames _ herror

/-- The stream that the check names as recursive is on a cycle. -/
theorem nests_of_validate (h : program.validate = .error (.recursiveStream id)) :
    TransGen program.Nests id.toNat id.toNat := by
  unfold validate at h
  split_ifs at h with hempty
  · cases h
  obtain hfirst | ⟨edges, hedges, hlast⟩ := bind_eq_error h
  · exact absurd hfirst (program.checkedEdges_ne_recursive id)
  have hedges : program.checkedEdges = .ok edges := hedges
  cases hcycle : cycle? edges with
  | none =>
      rw [hcycle] at hlast
      cases hlast
  | some node =>
      rw [hcycle] at hlast
      cases hlast
      have hnode := cycle_of_cycle? (edge_lt hedges) hcycle
      rw [edge_eq_nests hedges] at hnode
      obtain ⟨_, _, hback⟩ := TransGen.tail'_iff.mp hnode
      obtain ⟨_, _, _, _, target, _, _, _, _, htarget⟩ := hback
      rw [← htarget, UInt32.ofNat_toNat, htarget]
      exact hnode

/-- The check is exact. It lets a program pass if and only if there is a stream, each stream is put
together from instructions with one end behind them all, each structure is described by a stream
that exists, and no stream nests itself through fields and arrays; a stream that it names as
recursive does nest itself. -/
theorem validate_exact (program : Program) :
    (program.validate = .ok () ↔
      program.streams ≠ [] ∧
      (∀ words ∈ program.streams, ∃ fields, words = Stream.assemble fields) ∧
      (∀ fields, Stream.assemble fields ∈ program.streams → ∀ field shape key target,
        (field, shape, key) ∈ fields → shape.leaf = .struct target →
          target.toNat < program.streams.length) ∧
      ∀ node, ¬TransGen program.Nests node node) ∧
    ∀ id, program.validate = .error (.recursiveStream id) →
      TransGen program.Nests id.toNat id.toNat := by
  refine ⟨?_, fun id h => nests_of_validate h⟩
  rw [validate_eq_ok_iff]
  constructor
  · rintro ⟨hstreams, hreadable, hacyclic⟩
    exact ⟨hstreams, hreadable.assembled, hreadable.targets, hacyclic⟩
  · rintro ⟨hstreams, hassembled, htargets, hacyclic⟩
    exact ⟨hstreams, ⟨hassembled, htargets⟩, hacyclic⟩

/-- Streams 1 and 2 nest each other, the one in an array; stream 0 only leads there. -/
def knot : Program := ⟨[
    Stream.assemble [(0, .single (.struct 1), false), (1, .sequence (.struct 0), false)],
    Stream.assemble [(0, .array (.struct 2) 3, false)],
    Stream.assemble [(4, .single (.struct 1), true)]]⟩

theorem knot_nests_itself :
    knot.validate = .error (.recursiveStream 1) ∧ TransGen knot.Nests 1 1 := by
  have hknot : knot.validate = .error (.recursiveStream 1) := by with_unfolding_all rfl
  exact ⟨hknot, (validate_exact knot).2 1 hknot⟩

end TopicCodec.Program
