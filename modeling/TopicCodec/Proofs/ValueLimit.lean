import Mathlib.Tactic.Ring
import TopicCodec.Proofs.Canonical
import TopicCodec.Proofs.Nesting

/-!
# How many values a default instance holds

A default instance is made against a budget, from which every scalar, text and structure takes
one and every array its copies. Counted without end, the values that a structure takes are its
demand (`Program.demand`). The budget itself stops at zero, and a value made then costs nothing.
So what is left of it tells the demand only while there is something left, and an instance is
refused exactly if an array of two or more elements begins below the limit and ends above it
(`Program.oversteps`).
-/
namespace TopicCodec

open Relation

namespace Value

mutual

/-- Scalars, texts and structures of a value, itself included. -/
def count : Value → Nat
  | scalar _ | text _ => 1
  | struct fields => countFields fields + 1
  | array items | sequence _ items => countItems items
  | absent => 0

def countFields : List (UInt32 × Value) → Nat
  | [] => 0
  | (_, value) :: rest => count value + countFields rest

def countItems : List Value → Nat
  | [] => 0
  | item :: rest => count item + countItems rest

end

theorem countItems_replicate (n : Nat) (item : Value) :
    countItems (List.replicate n item) = item.count * n := by
  induction n with
  | zero => rfl
  | succ n ih => rw [List.replicate_succ, countItems, ih, Nat.mul_succ, Nat.add_comm]

theorem countFields_insertField (index : UInt32) (value : Value) (fields : List (UInt32 × Value)) :
    countFields (insertField index value fields) ≤ countFields fields + value.count ∧
      (fields.lookup index = none →
        countFields (insertField index value fields) = countFields fields + value.count) := by
  induction fields with
  | nil => simp [insertField, countFields]
  | cons field rest ih =>
      obtain ⟨other, kept⟩ := field
      rw [insertField, lookup_cons]
      split_ifs with hsame hbefore
      · simp [countFields]
        omega
      · simp [countFields, Nat.add_comm]
      · simp only [countFields]
        exact ⟨by omega, fun hnew => by have := ih.2 hnew; omega⟩

end Value

namespace Program

/-! ## Demand -/

/-- Values that the default of a leaf takes; `inner` gives those inside a structure. -/
def leafDemand (inner : UInt32 → Nat) : Leaf → Nat
  | .struct stream => inner stream + 1
  | _ => 1

/-- An array takes one element even if it has none, since the one that is copied is made first. -/
def shapeDemand (inner : UInt32 → Nat) : Shape → Nat
  | .single leaf => leafDemand inner leaf
  | .sequence _ => 0
  | .array leaf count => leafDemand inner leaf * max count.toNat 1

/-- Values inside the structure that `stream` describes. The fuel bounds the nesting. -/
def structDemand (program : Program) : (fuel : Nat) → (stream : UInt32) → Nat
  | 0, _ => 0
  | fuel + 1, stream =>
      match program.stream? stream with
      | none => 0
      | some words =>
          ((Scan.read stream words).instructions.map fun insn =>
            shapeDemand (structDemand program fuel) insn.shape).sum

/-- Values that are made for the default of a structure, itself apart. -/
def demand (program : Program) (stream : UInt32) : Nat :=
  program.structDemand (program.length + 1) stream

/-- Values that are made for one element of a sequence. -/
def elementDemand (program : Program) (leaf : Leaf) : Nat := leafDemand program.demand leaf

/-! ## Arrays over the limit -/

/-- Whether an array over the limit is met in a leaf, after `made` values; `enter` looks into a
structure. -/
def leafOversteps (enter : UInt32 → Nat → Bool) (made : Nat) : Leaf → Bool
  | .struct stream => enter stream (made + 1)
  | _ => false

def shapeOversteps (inner : UInt32 → Nat) (enter : UInt32 → Nat → Bool) (made : Nat) :
    Shape → Bool
  | .single leaf => leafOversteps enter made leaf
  | .sequence _ => false
  | .array leaf count =>
      leafOversteps enter made leaf ||
        decide (2 ≤ count.toNat ∧ made < maxDefaultValues ∧
          maxDefaultValues < made + shapeDemand inner (.array leaf count))

def fieldsOverstep (inner : UInt32 → Nat) (enter : UInt32 → Nat → Bool) :
    List Instruction → (made : Nat) → Bool
  | [], _ => false
  | insn :: rest, made =>
      shapeOversteps inner enter made insn.shape ||
        fieldsOverstep inner enter rest (made + shapeDemand inner insn.shape)

def structOversteps (program : Program) : (fuel : Nat) → (stream : UInt32) → (made : Nat) → Bool
  | 0, _, _ => false
  | fuel + 1, stream, made =>
      match program.stream? stream with
      | none => false
      | some words =>
          fieldsOverstep (structDemand program fuel) (structOversteps program fuel)
            (Scan.read stream words).instructions made

/-- An array of two or more elements begins below the limit and ends above it, in the order in
which the default of a structure is made. -/
def oversteps (program : Program) (stream : UInt32) : Bool :=
  program.structOversteps (program.length + 1) stream 0

/-- An array oversteps the limit while one element of a sequence is made. -/
def elementOversteps (program : Program) (leaf : Leaf) : Bool :=
  leafOversteps (program.structOversteps (program.length + 1)) 0 leaf

section Overstepping

variable {inner : UInt32 → Nat} {enter : UInt32 → Nat → Bool} {made : Nat}

theorem lt_of_leafOversteps
    (he : ∀ stream made, enter stream made = true → maxDefaultValues < made + inner stream)
    {leaf : Leaf} (h : leafOversteps enter made leaf = true) :
    maxDefaultValues < made + leafDemand inner leaf := by
  cases leaf with
  | struct stream =>
      have := he stream (made + 1) h
      simp only [leafDemand]
      omega
  | _ => cases h

theorem lt_of_shapeOversteps
    (he : ∀ stream made, enter stream made = true → maxDefaultValues < made + inner stream)
    {shape : Shape} (h : shapeOversteps inner enter made shape = true) :
    maxDefaultValues < made + shapeDemand inner shape := by
  cases shape with
  | single leaf => exact lt_of_leafOversteps he h
  | sequence leaf => cases h
  | array leaf count =>
      rw [shapeOversteps, Bool.or_eq_true, decide_eq_true_eq] at h
      rcases h with h | h
      · apply (lt_of_leafOversteps he h).trans_le
        exact Nat.add_le_add_left (Nat.le_mul_of_pos_right _ (by omega)) made
      · exact h.2.2

theorem lt_of_fieldsOverstep
    (he : ∀ stream made, enter stream made = true → maxDefaultValues < made + inner stream)
    {insns : List Instruction} (h : fieldsOverstep inner enter insns made = true) :
    maxDefaultValues < made + (insns.map fun insn => shapeDemand inner insn.shape).sum := by
  induction insns generalizing made with
  | nil => cases h
  | cons insn rest ih =>
      rw [fieldsOverstep, Bool.or_eq_true] at h
      rw [List.map_cons, List.sum_cons]
      rcases h with h | h
      · have := lt_of_shapeOversteps he h
        omega
      · have := ih h
        omega

theorem lt_of_structOversteps {program : Program} {fuel : Nat} {stream : UInt32} {made : Nat}
    (h : program.structOversteps fuel stream made = true) :
    maxDefaultValues < made + program.structDemand fuel stream := by
  induction fuel generalizing stream made with
  | zero => cases h
  | succ fuel ih =>
      rw [structOversteps] at h
      rw [structDemand]
      cases hw : program.stream? stream with
      | none => simp [hw] at h
      | some words =>
          simp only [hw] at h ⊢
          exact lt_of_fieldsOverstep (fun _ _ he => ih he) h

theorem lt_elementDemand {program : Program} {leaf : Leaf}
    (h : program.elementOversteps leaf = true) :
    maxDefaultValues < program.elementDemand leaf := by
  have hlt : maxDefaultValues < 0 + leafDemand program.demand leaf :=
    lt_of_leafOversteps (fun _ _ h => lt_of_structOversteps h) h
  rwa [Nat.zero_add] at hlt

end Overstepping

/-! ## Making a default -/

section Making

variable {α β : Type}

/-- How making something ends that takes `demand` values after `made` others. -/
inductive Made (good : α → Prop) (made demand : Nat) (exceeds : Bool) :
    Except Defect (α × Nat) → Prop
  | fits (a : α) : exceeds = false → good a →
      Made good made demand exceeds (.ok (a, maxDefaultValues - (made + demand)))
  | refused (stream : UInt32) (pc : Nat) (count : UInt32) : exceeds = true →
      Made good made demand exceeds (.error (.arrayTooLarge stream pc count maxDefaultValues))

variable {good : α → Prop} {good' : β → Prop} {made demand demand' : Nat} {exceeds exceeds' : Bool}
  {outcome : Except Defect (α × Nat)}

theorem Made.imp {more : α → Prop} (h : Made good made demand exceeds outcome)
    (himp : ∀ a, good a → more a) : Made more made demand exceeds outcome := by
  cases h with
  | fits a hover ha => exact .fits a hover (himp a ha)
  | refused stream pc count hover => exact .refused stream pc count hover

theorem Made.bind {next : α × Nat → Except Defect (β × Nat)}
    (h : Made good made demand exceeds outcome)
    (hn : ∀ a, good a → Made good' (made + demand) demand' exceeds'
      (next (a, maxDefaultValues - (made + demand)))) :
    Made good' made (demand + demand') (exceeds || exceeds') (outcome >>= next) := by
  cases h with
  | refused stream pc count hover => exact .refused stream pc count (by rw [hover, Bool.true_or])
  | fits a hover ha =>
      have hnext := hn a ha
      change Made _ _ _ _ (next (a, maxDefaultValues - (made + demand)))
      generalize next (a, maxDefaultValues - (made + demand)) = last at hnext
      cases hnext with
      | refused stream pc count hover' =>
          exact .refused stream pc count (by rw [hover', Bool.or_true])
      | fits b hover' hb =>
          rw [Nat.add_assoc]
          exact .fits b (by rw [hover, hover', Bool.or_false]) hb

/-- The copies of an element fit what is left exactly if the array does not overstep the limit. -/
theorem copies_le_iff (made n : Nat) {demand : Nat} (hd : 0 < demand) :
    ((maxDefaultValues - made - (maxDefaultValues - (made + demand))) * (n - 1) ≤
        maxDefaultValues - (made + demand) ↔
      ¬(2 ≤ n ∧ made < maxDefaultValues ∧ maxDefaultValues < made + demand * max n 1)) ∧
    (¬(2 ≤ n ∧ made < maxDefaultValues ∧ maxDefaultValues < made + demand * max n 1) →
      maxDefaultValues - (made + demand) -
          (maxDefaultValues - made - (maxDefaultValues - (made + demand))) * (n - 1) =
        maxDefaultValues - (made + demand * max n 1)) := by
  generalize maxDefaultValues = limit
  obtain hn | ⟨m, rfl⟩ : n ≤ 1 ∨ ∃ m, n = m + 2 := by
    rcases Nat.lt_or_ge n 2 with h | h
    · exact .inl (by omega)
    · exact .inr ⟨n - 2, by omega⟩
  · rw [Nat.sub_eq_zero_of_le hn, max_eq_right hn]
    omega
  · have hcopies : demand * (m + 2) = demand * (m + 1) + demand := by ring
    have hmax : max (m + 2) 1 = m + 2 := by omega
    have hle : demand ≤ demand * (m + 1) := Nat.le_mul_of_pos_right _ (by omega)
    rw [hmax, hcopies, show m + 2 - 1 = m + 1 by omega]
    rcases Nat.lt_or_ge limit (made + demand) with hover | hfits
    · have hleft : limit - (made + demand) = 0 := by omega
      rw [hleft, Nat.sub_zero]
      rcases Nat.lt_or_ge made limit with hbelow | hout
      · have : limit - made ≤ (limit - made) * (m + 1) := Nat.le_mul_of_pos_right _ (by omega)
        omega
      · rw [Nat.sub_eq_zero_of_le hout, Nat.zero_mul]
        omega
    · rw [show limit - made - (limit - (made + demand)) = demand by omega]
      omega

end Making

/-- No array has zero elements. -/
def arraysFilled (program : Program) : Bool :=
  program.numbered.all fun entry =>
    (Scan.read entry.1 entry.2).instructions.all fun insn =>
      match insn.shape with
      | .array _ count => count != 0
      | _ => true

theorem count_ne_zero_of_arraysFilled {program : Program} (h : program.arraysFilled = true)
    {id : UInt32} {words : Stream} (hw : program.stream? id = some words) {insn : Instruction}
    (hi : insn ∈ (Scan.read id words).instructions) {leaf : Leaf} {count : UInt32}
    (hshape : insn.shape = .array leaf count) : count.toNat ≠ 0 := by
  have hm := List.mem_of_getElem? (numbered_of_stream? hw)
  have hinsn := List.all_eq_true.mp (List.all_eq_true.mp h (id, words) hm) insn hi
  simp only [hshape, bne_iff_ne] at hinsn
  exact fun hzero => hinsn (UInt32.toNat_inj.mp hzero)

/-- What is made for a demand has no more values than it, and just as many if nothing that is made
is left out. -/
def Meets (exact : Prop) (demand count : Nat) : Prop := count ≤ demand ∧ (exact → count = demand)

section Defaults

variable {program : Program} {enter : UInt32 → Nat → Except Defect (Value × Nat)}
  {inner : UInt32 → Nat} {oversteps : UInt32 → Nat → Bool} {exact : Prop}

/-- The structures of one stream are made as their demand says. -/
def EntersWithin (exact : Prop) (inner : UInt32 → Nat) (oversteps : UInt32 → Nat → Bool)
    (enter : UInt32 → Nat → Except Defect (Value × Nat)) (stream : UInt32) : Prop :=
  ∀ made, Made (fun value => Meets exact (inner stream + 1) value.count) made (inner stream)
    (oversteps stream made) (enter stream (maxDefaultValues - made))

theorem defaultLeaf_made {leaf : Leaf}
    (he : ∀ target, leaf = .struct target → EntersWithin exact inner oversteps enter target)
    (made : Nat) :
    Made (fun value => Meets exact (leafDemand inner leaf) value.count) made
      (leafDemand inner leaf) (leafOversteps oversteps made leaf)
      (defaultLeaf enter leaf (maxDefaultValues - made)) := by
  have hone (value : Value) (hv : value.count = 1) :
      Made (fun value => Meets exact 1 value.count) made 1 false
        (.ok (value, maxDefaultValues - made - 1)) := by
    rw [Nat.sub_sub]
    exact .fits value rfl ⟨hv.le, fun _ => hv⟩
  cases leaf with
  | number kind => exact hone _ rfl
  | bool => exact hone _ rfl
  | string bound => exact hone _ rfl
  | struct target =>
      have hinside := he target rfl (made + 1)
      simp only [defaultLeaf, leafDemand, leafOversteps]
      rw [Nat.sub_sub]
      generalize enter target (maxDefaultValues - (made + 1)) = outcome at hinside
      cases hinside with
      | refused stream pc count hover => exact .refused stream pc count hover
      | fits value hover hmeets =>
          rw [show made + 1 + inner target = made + (inner target + 1) by omega]
          exact .fits value hover hmeets

theorem defaultField_made (program : Program) (stream : UInt32) {insn : Instruction}
    (he : insn.shape.isSequence = false → ∀ target, insn.leaf = .struct target →
      EntersWithin exact inner oversteps enter target)
    (hfilled : exact → ∀ leaf count, insn.shape = .array leaf count → count.toNat ≠ 0)
    (made : Nat) :
    Made (fun value => Meets exact (shapeDemand inner insn.shape) value.count) made
      (shapeDemand inner insn.shape) (shapeOversteps inner oversteps made insn.shape)
      (defaultField program enter stream insn (maxDefaultValues - made)) := by
  unfold Instruction.leaf at he
  unfold defaultField
  cases hshape : insn.shape with
  | single leaf =>
      rw [hshape] at he
      exact defaultLeaf_made (he rfl) made
  | sequence leaf => exact .fits _ rfl ⟨Nat.le_refl 0, fun _ => rfl⟩
  | array leaf count =>
      rw [hshape] at he
      have htarget : ∀ target, leaf = .struct target →
          EntersWithin exact inner oversteps enter target := he rfl
      have hfirst := defaultLeaf_made htarget made
      have hpos : 0 < leafDemand inner leaf := by cases leaf <;> simp [leafDemand]
      dsimp only
      generalize defaultLeaf enter leaf (maxDefaultValues - made) = outcome at hfirst
      cases hfirst with
      | refused other pc n hover =>
          exact .refused other pc n (by rw [shapeOversteps, hover, Bool.true_or])
      | fits first hover hmeets =>
          obtain ⟨hiff, hleft⟩ := copies_le_iff made count.toNat hpos
          simp only [bind, Except.bind]
          split_ifs with hcopies
          · have hwithin := hiff.mp hcopies
            rw [hleft hwithin]
            refine .fits _ ?_ ?_
            · rw [shapeOversteps, hover, Bool.false_or]
              exact decide_eq_false hwithin
            · rw [shapeDemand, Value.count, Value.countItems_replicate]
              refine ⟨Nat.mul_le_mul hmeets.1 (Nat.le_max_left _ 1), fun hx => ?_⟩
              have hsome := Nat.one_le_iff_ne_zero.mpr (hfilled hx leaf count hshape)
              rw [hmeets.2 hx, Nat.max_eq_left hsome]
          · refine .refused stream insn.pc count ?_
            rw [shapeOversteps, Bool.or_eq_true, decide_eq_true_eq]
            exact .inr (not_not.mp fun hwithin => hcopies (hiff.mpr hwithin))

theorem defaultFields_made (program : Program) (stream : UInt32) {rest : List Instruction}
    (he : ∀ insn ∈ rest, insn.shape.isSequence = false → ∀ target, insn.leaf = .struct target →
      EntersWithin exact inner oversteps enter target)
    (hfilled : exact → ∀ insn ∈ rest, ∀ leaf count, insn.shape = .array leaf count →
      count.toNat ≠ 0)
    (hnodup : exact → (rest.map Instruction.field).Nodup) (fields : List (UInt32 × Value))
    (hnew : exact → ∀ insn ∈ rest, fields.lookup insn.field = none) (made : Nat) :
    Made (fun fields' => Meets exact
        (Value.countFields fields + (rest.map fun insn => shapeDemand inner insn.shape).sum)
        (Value.countFields fields'))
      made (rest.map fun insn => shapeDemand inner insn.shape).sum
      (fieldsOverstep inner oversteps rest made)
      (defaultFields program enter stream rest fields (maxDefaultValues - made)) := by
  induction rest generalizing fields made with
  | nil => exact .fits fields rfl ⟨Nat.le_refl _, fun _ => rfl⟩
  | cons insn rest ih =>
      have hfirst := defaultField_made program stream (he insn List.mem_cons_self)
        (fun hx => hfilled hx insn List.mem_cons_self) made
      rw [List.map_cons, List.sum_cons, fieldsOverstep]
      apply hfirst.bind
      intro value hvalue
      obtain ⟨hle, heq⟩ := Value.countFields_insertField insn.field value fields
      have hrest := ih (fun other ho => he other (List.mem_cons_of_mem _ ho))
        (fun hx other ho => hfilled hx other (List.mem_cons_of_mem _ ho))
        (fun hx => (List.nodup_cons.mp (hnodup hx)).2) (Value.insertField insn.field value fields)
        ?_ (made + shapeDemand inner insn.shape)
      · apply hrest.imp
        intro fields' hmeets
        refine ⟨?_, fun hx => ?_⟩
        · have := hmeets.1
          have := hvalue.1
          omega
        · have := hmeets.2 hx
          have := hvalue.2 hx
          have := heq (hnew hx insn List.mem_cons_self)
          omega
      · intro hx other ho
        have hother : other.field ≠ insn.field := by
          intro hsame
          apply (List.nodup_cons.mp (hnodup hx)).1
          rw [← hsame]
          exact List.mem_map_of_mem ho
        rw [Value.lookup_insertField, if_neg hother]
        exact hnew hx other (List.mem_cons_of_mem _ ho)

/-- The default of a structure that a way of the search leads to. No stream nests itself, so the
fuel lasts. -/
theorem defaultStruct_made {edges : List (List Nat)} (hedges : program.checkedEdges = .ok edges)
    (hacyclic : ∀ node, ¬TransGen program.Nests node node)
    (hexact : exact → program.fieldsDistinct = true ∧ program.arraysFilled = true) {fuel : Nat}
    {path : List Nat} {stream : UInt32} (hway : Way edges path stream.toNat)
    (hstream : stream.toNat < program.length) (hfuel : program.length < fuel + path.length) :
    EntersWithin exact (program.structDemand fuel) (program.structOversteps fuel)
      (program.defaultStruct fuel) stream := by
  have hlength := length_checkedEdges hedges
  induction fuel generalizing path stream with
  | zero =>
      have := hway.length_le
      omega
  | succ fuel ih =>
      intro made
      obtain ⟨words, hw⟩ : ∃ words, program.stream? stream = some words :=
        ⟨_, List.getElem?_eq_getElem hstream⟩
      obtain ⟨insns, hinsns, htargets⟩ := (readable_of_checkedEdges hedges).instructions hw
      obtain ⟨⟨pc, hending⟩, hall⟩ := Stream.instructions_eq_ok.mp hinsns
      have hread := Scan.instructions_readAll stream words
      have hnew : stream.toNat ∉ path := by
        intro hm
        have hcycle := hway.leads _ hm
        rw [edge_eq_nests hedges] at hcycle
        exact hacyclic _ hcycle
      have henter : ∀ insn ∈ insns, insn.shape.isSequence = false →
          ∀ target, insn.leaf = .struct target →
            EntersWithin exact (program.structDemand fuel) (program.structOversteps fuel)
              (program.defaultStruct fuel) target := by
        intro insn hi hshape target hleaf
        have hedge : Edge edges stream.toNat target.toNat := by
          rw [edge_eq_nests hedges, nests_iff hw hinsns]
          exact mem_containedIn.mpr ⟨insn, hi, target, hleaf, hshape, rfl⟩
        refine ih (hway.step hnew (by omega) hedge) (htargets insn hi target hleaf) ?_
        simp only [List.length_cons]
        omega
      have hnodup (hx : exact) : (insns.map Instruction.field).Nodup := by
        rw [← hall, hread]
        exact nodup_of_fieldsDistinct (hexact hx).1 hw
      have hfilled (hx : exact) : ∀ insn ∈ insns, ∀ leaf count, insn.shape = .array leaf count →
          count.toNat ≠ 0 := by
        rw [← hall, hread]
        exact fun insn hi leaf count => count_ne_zero_of_arraysFilled (hexact hx).2 hw hi
      have hfields := defaultFields_made program stream henter hfilled hnodup [] (by simp) made
      simp only [defaultStruct, structDemand, structOversteps, hw, hread.symm.trans hall, hall,
        hending]
      generalize defaultFields program (program.defaultStruct fuel) stream insns []
        (maxDefaultValues - made) = outcome at hfields
      cases hfields with
      | refused other pc count hover => exact .refused other pc count hover
      | fits fields hover hmeets =>
          refine .fits (Value.struct fields) hover ?_
          rw [Value.countFields, Nat.zero_add] at hmeets
          rw [Value.count]
          exact ⟨Nat.succ_le_succ hmeets.1, fun hx => congrArg (· + 1) (hmeets.2 hx)⟩

/-- What making a default inside a valid program comes to, whatever was made before. -/
theorem entersWithin_of_validate (hv : program.validate = .ok ()) {stream : UInt32}
    (hstream : stream.toNat < program.length) :
    EntersWithin (program.fieldsDistinct = true ∧ program.arraysFilled = true)
      (program.structDemand (program.length + 1)) (program.structOversteps (program.length + 1))
      (program.defaultStruct (program.length + 1)) stream := by
  obtain ⟨_, hreadable, hacyclic⟩ := validate_eq_ok_iff.mp hv
  obtain ⟨edges, hedges⟩ := hreadable.exists_edges
  have hway : Way edges [] stream.toNat := ⟨by simp, List.nodup_nil, by simp⟩
  exact defaultStruct_made hedges hacyclic id hway hstream (by simp)

theorem default_cases (hv : program.validate = .ok ()) (stream : UInt32)
    (hstream : stream.toNat < program.length) :
    (program.oversteps stream = false ∧ ∃ value, program.default stream = .ok value ∧
      Meets (program.fieldsDistinct = true ∧ program.arraysFilled = true)
        (program.demand stream + 1) value.count) ∨
    (program.oversteps stream = true ∧ ∃ id pc count,
      program.default stream = .error (.arrayTooLarge id pc count maxDefaultValues)) := by
  have hmade := entersWithin_of_validate hv hstream 0
  simp only [default, hv]
  rw [Nat.sub_zero] at hmade
  generalize program.defaultStruct (program.length + 1) stream maxDefaultValues = outcome at hmade
  cases hmade with
  | fits value hover hmeets => exact .inl ⟨hover, value, rfl, hmeets⟩
  | refused id pc count hover => exact .inr ⟨hover, id, pc, count, rfl⟩

theorem target_lt_of_validate (hv : program.validate = .ok ()) {id : UInt32} {words : Stream}
    (hw : program.stream? id = some words) {insn : Instruction}
    (hi : insn ∈ (Scan.read id words).instructions) {target : UInt32}
    (ht : insn.leaf = .struct target) : target.toNat < program.length := by
  obtain ⟨_, hreadable, _⟩ := validate_eq_ok_iff.mp hv
  obtain ⟨insns, hinsns, htargets⟩ := hreadable.instructions hw
  rw [(Scan.read_of_instructions hinsns).1] at hi
  exact htargets insn hi target ht

theorem defaultElement_cases (hv : program.validate = .ok ()) {leaf : Leaf}
    (htarget : ∀ target, leaf = .struct target → target.toNat < program.length) :
    (program.elementOversteps leaf = false ∧ ∃ value, program.defaultElement leaf = .ok value) ∨
    (program.elementOversteps leaf = true ∧ ∃ id pc count, program.defaultElement leaf =
      .error (.arrayTooLarge id pc count maxDefaultValues)) := by
  have hmade := defaultLeaf_made
    (fun target ht => entersWithin_of_validate hv (htarget target ht)) 0
  unfold defaultElement
  rw [Nat.sub_zero] at hmade
  generalize defaultLeaf (program.defaultStruct (program.length + 1)) leaf maxDefaultValues =
    outcome at hmade
  cases hmade with
  | fits value hover _ => exact .inl ⟨hover, value, rfl⟩
  | refused id pc count hover => exact .inr ⟨hover, id, pc, count, rfl⟩

theorem lt_length_of_default {stream : UInt32} {value : Value}
    (h : program.default stream = .ok value) : stream.toNat < program.length := by
  cases default_blank h with
  | struct hw _ _ => exact (List.getElem?_eq_some_iff.mp hw).1

end Defaults

/-- The limit on default instances, exactly. A structure of a valid program has a default unless an
array of two or more elements begins below the limit and ends above it, which no structure with a
demand within the limit does. Itself apart, the default holds no more values than are demanded, and
just as many where no field is made twice and no array is empty. So a demand within the limit keeps
it, but of a greater one only an array that passes the limit is refused: whatever is made once the
budget has just run out is let through. -/
theorem default_limit_exact (program : Program) (stream : UInt32) :
    ((∃ value, program.default stream = .ok value) ↔
      program.validate = .ok () ∧ stream.toNat < program.length ∧
        program.oversteps stream = false) ∧
    (program.demand stream ≤ maxDefaultValues → program.oversteps stream = false) ∧
    ∀ value, program.default stream = .ok value →
      value.count ≤ program.demand stream + 1 ∧
      (program.fieldsDistinct = true → program.arraysFilled = true →
        value.count = program.demand stream + 1) := by
  refine ⟨⟨?_, ?_⟩, ?_, ?_⟩
  · rintro ⟨value, h⟩
    obtain ⟨_, hv, _⟩ := bind_eq_ok.mp h
    have hstream := lt_length_of_default h
    refine ⟨hv, hstream, ?_⟩
    obtain ⟨hover, _⟩ | ⟨_, _, _, _, hrefused⟩ := default_cases hv stream hstream
    · exact hover
    · cases h.symm.trans hrefused
  · rintro ⟨hv, hstream, hover⟩
    obtain ⟨_, value, h, _⟩ | ⟨hover', _⟩ := default_cases hv stream hstream
    · exact ⟨value, h⟩
    · cases hover.symm.trans hover'
  · intro hdemand
    rw [← Bool.not_eq_true]
    intro hover
    have := lt_of_structOversteps hover
    rw [Nat.zero_add] at this
    exact absurd hdemand this.not_ge
  · intro value h
    obtain ⟨_, hv, _⟩ := bind_eq_ok.mp h
    obtain ⟨_, other, hother, hmeets⟩ | ⟨_, _, _, _, hrefused⟩ :=
      default_cases hv stream (lt_length_of_default h)
    · cases h.symm.trans hother
      exact ⟨hmeets.1, fun hdistinct hfilled => hmeets.2 ⟨hdistinct, hfilled⟩⟩
    · cases h.symm.trans hrefused

/-- One array that takes the whole budget, and another one behind it. -/
def overfull : Program :=
  ⟨[Stream.assemble [(0, .array (.number .u8) 16777216, false),
    (1, .array (.number .u8) 2, false)]]⟩

/-- A default instance that holds more values than the limit, even without itself. -/
theorem default_overfull : ∃ value, overfull.default 0 = .ok value ∧
    maxDefaultValues + 1 < value.count := by
  have hv : overfull.validate = .ok () := by with_unfolding_all rfl
  have hdemand : overfull.demand 0 = 16777218 := by with_unfolding_all rfl
  obtain ⟨_, value, h, hmeets⟩ | ⟨hover, _⟩ := default_cases hv 0 (by decide)
  · have hcount := hmeets.2 ⟨by with_unfolding_all rfl, by with_unfolding_all rfl⟩
    refine ⟨value, h, ?_⟩
    rw [hcount, hdemand]
    decide
  · exact absurd hover (by decide +kernel)

end Program
end TopicCodec
