import Mathlib.Tactic.ByContra
import TopicCodec.Proofs.Rows
import TopicCodec.Proofs.Walk

/-!
# Samples of a program

`Shaped program shape value` says that a value is a sample of what a shape describes:
every field that the stream of a structure addresses is there and nothing else, sequences
grow by the default of their leaf, and an element can be made wherever there is one. Where
a stream addresses an index more than once, the last instruction decides. Default
instances are such samples, without anything in them (`Blank`).
-/
namespace TopicCodec

theorem lookup_eq_some_iff_mem {κ β : Type} [BEq κ] [LawfulBEq κ] {entries : List (κ × β)}
    (h : entries.Pairwise fun a b => a.1 ≠ b.1) {key : κ} {value : β} :
    entries.lookup key = some value ↔ (key, value) ∈ entries := by
  induction entries with
  | nil => simp
  | cons entry rest ih =>
      obtain ⟨hfirst, hrest⟩ := List.pairwise_cons.mp h
      rw [List.lookup_cons, List.mem_cons]
      by_cases hkey : key = entry.1
      · have hlater : (entry.1, value) ∉ rest := fun hmem => hfirst (entry.1, value) hmem rfl
        simp [hkey, hlater, Prod.ext_iff, eq_comm]
      · have hother : (key, value) ≠ entry := fun h => hkey (congrArg Prod.fst h)
        simp [beq_false_of_ne hkey, hother, ih hrest]

namespace Value

/-! ## Fields in ascending order -/

/-- Fields stand in the order of their indices, each index once. -/
def Ascending (fields : List (UInt32 × Value)) : Prop := fields.Pairwise fun a b => a.1 < b.1

theorem lookup_cons (index : UInt32) (value : Value) (fields : List (UInt32 × Value))
    (other : UInt32) :
    ((index, value) :: fields).lookup other =
      if other = index then some value else fields.lookup other := by
  rw [List.lookup_cons]
  by_cases h : other = index
  · simp [h]
  · simp [h, beq_false_of_ne h]

theorem lookup_insertField (index : UInt32) (value : Value) (fields : List (UInt32 × Value))
    (other : UInt32) :
    (insertField index value fields).lookup other =
      if other = index then some value else fields.lookup other := by
  induction fields with
  | nil => exact lookup_cons index value [] other
  | cons field rest ih =>
      obtain ⟨head, kept⟩ := field
      unfold insertField
      split
      · rename_i h₁
        simp only [lookup_cons, h₁]
        split_ifs <;> rfl
      · rename_i h₁
        split
        · simp only [lookup_cons]
        · simp only [lookup_cons, ih]
          split_ifs with h₂ h₃
          · exact absurd (h₃.symm.trans h₂) h₁
          · rfl
          · rfl
          · rfl

theorem mem_insertField {index : UInt32} {value : Value} {fields : List (UInt32 × Value)}
    {field : UInt32 × Value} (h : field ∈ insertField index value fields) :
    field = (index, value) ∨ field ∈ fields := by
  induction fields with
  | nil => exact .inl (List.mem_singleton.mp h)
  | cons first rest ih =>
      unfold insertField at h
      split_ifs at h <;> grind

theorem Ascending.insertField {fields : List (UInt32 × Value)} (h : Ascending fields)
    (index : UInt32) (value : Value) : Ascending (insertField index value fields) := by
  induction fields with
  | nil => exact List.pairwise_singleton _ _
  | cons field rest ih =>
      obtain ⟨head, kept⟩ := field
      obtain ⟨hh, hr⟩ := List.pairwise_cons.mp h
      unfold Value.insertField
      split_ifs with h₁ h₂
      · subst h₁
        exact List.pairwise_cons.mpr ⟨hh, hr⟩
      · refine List.pairwise_cons.mpr ⟨?_, h⟩
        intro other ho
        rcases List.mem_cons.mp ho with rfl | ho
        · exact h₂
        · exact UInt32.lt_trans h₂ (hh other ho)
      · refine List.pairwise_cons.mpr ⟨?_, ih hr⟩
        intro other ho
        rcases mem_insertField ho with rfl | ho
        · exact UInt32.lt_of_le_of_ne (UInt32.not_lt.mp h₂) (Ne.symm h₁)
        · exact hh other ho

theorem lookup_eq_none_of_lt {index : UInt32} {fields : List (UInt32 × Value)}
    (h : ∀ field ∈ fields, index < field.1) : fields.lookup index = none := by
  rw [List.lookup_eq_none_iff]
  intro field hf
  exact bne_iff_ne.mpr (UInt32.ne_of_lt (h field hf))

theorem Ascending.first_le {index other : UInt32} {value found : Value}
    {fields : List (UInt32 × Value)} (h : Ascending ((index, value) :: fields))
    (ho : ((index, value) :: fields).lookup other = some found) : index ≤ other := by
  by_contra hlt
  rw [lookup_eq_none_of_lt] at ho
  · cases ho
  · intro field hf
    rcases List.mem_cons.mp hf with rfl | hf
    · exact UInt32.not_le.mp hlt
    · exact UInt32.lt_trans (UInt32.not_le.mp hlt) ((List.pairwise_cons.mp h).1 field hf)

/-- Fields in ascending order are determined by their lookups. -/
theorem Ascending.ext {as bs : List (UInt32 × Value)} (ha : Ascending as) (hb : Ascending bs)
    (h : ∀ index, as.lookup index = bs.lookup index) : as = bs := by
  induction as generalizing bs with
  | nil =>
      cases bs with
      | nil => rfl
      | cons b bs => simpa [lookup_cons b.1 b.2] using h b.1
  | cons a as ih =>
      cases bs with
      | nil => simpa using h a.1
      | cons b bs =>
          obtain ⟨i, a⟩ := a
          obtain ⟨j, b⟩ := b
          have hi : ((i, a) :: as).lookup i = some a := by simp
          have hj : ((j, b) :: bs).lookup j = some b := by simp
          obtain rfl : i = j :=
            UInt32.le_antisymm (ha.first_le (h j ▸ hj)) (hb.first_le (h i ▸ hi))
          obtain rfl : a = b := Option.some.inj (hi.symm.trans ((h i).trans hj))
          obtain ⟨hai, has⟩ := List.pairwise_cons.mp ha
          obtain ⟨hbi, hbs⟩ := List.pairwise_cons.mp hb
          congr 1
          refine ih has hbs fun index => ?_
          by_cases hi : index = i
          · subst hi
            rw [lookup_eq_none_of_lt hai, lookup_eq_none_of_lt hbi]
          · simpa only [lookup_cons, hi, if_false] using h index

end Value

/-! ## Samples -/

/-- The shape of a field: the last instruction for its index gives it. -/
def fieldShape? : List Instruction → UInt32 → Option Shape
  | [], _ => none
  | insn :: rest, index =>
      (fieldShape? rest index).or (if insn.field = index then some insn.shape else none)

theorem fieldShape?_append (insns rest : List Instruction) (index : UInt32) :
    fieldShape? (insns ++ rest) index = (fieldShape? rest index).or (fieldShape? insns index) := by
  induction insns with
  | nil => simp [fieldShape?]
  | cons insn insns ih => rw [List.cons_append, fieldShape?, ih, fieldShape?, Option.or_assoc]

theorem mem_of_fieldShape? {insns : List Instruction} {index : UInt32} {shape : Shape}
    (h : fieldShape? insns index = some shape) :
    ∃ insn ∈ insns, insn.field = index ∧ insn.shape = shape := by
  induction insns with
  | nil => cases h
  | cons insn rest ih =>
      rw [fieldShape?, Option.or_eq_some_iff] at h
      rcases h with h | ⟨_, h⟩
      · obtain ⟨found, hm, hf⟩ := ih h
        exact ⟨found, List.mem_cons_of_mem _ hm, hf⟩
      · split_ifs at h with hf
        exact ⟨insn, List.mem_cons_self, hf, Option.some.inj h⟩

theorem exists_fieldShape? {insns : List Instruction} {insn : Instruction} (h : insn ∈ insns) :
    ∃ shape, fieldShape? insns insn.field = some shape := by
  induction insns with
  | nil => cases h
  | cons first rest ih =>
      rw [fieldShape?]
      rcases List.mem_cons.mp h with rfl | h
      · cases fieldShape? rest insn.field with
        | none => exact ⟨insn.shape, if_pos rfl⟩
        | some shape => exact ⟨shape, rfl⟩
      · obtain ⟨shape, hs⟩ := ih h
        exact ⟨shape, by rw [hs, Option.some_or]⟩

structure Addressed (insns : List Instruction) (fields : List (UInt32 × Value)) : Prop where
  ascending : Value.Ascending fields
  isSome_lookup : ∀ index, (fields.lookup index).isSome = (fieldShape? insns index).isSome

namespace Addressed

variable {insns : List Instruction} {fields : List (UInt32 × Value)}

theorem exists_value (h : Addressed insns fields) {index : UInt32} {shape : Shape}
    (hs : fieldShape? insns index = some shape) : ∃ value, fields.lookup index = some value := by
  rw [← Option.isSome_iff_exists, h.isSome_lookup, hs]
  rfl

theorem exists_shape (h : Addressed insns fields) {index : UInt32} {value : Value}
    (hl : fields.lookup index = some value) : ∃ shape, fieldShape? insns index = some shape := by
  rw [← Option.isSome_iff_exists, ← h.isSome_lookup, hl]
  rfl

theorem lookup_of_mem (h : Addressed insns fields) {field : UInt32 × Value} (hf : field ∈ fields) :
    fields.lookup field.1 = some field.2 :=
  (lookup_eq_some_iff_mem (h.ascending.imp UInt32.ne_of_lt)).mpr hf

theorem insert (h : Addressed insns fields) (insn : Instruction) (value : Value) :
    Addressed (insns ++ [insn]) (Value.insertField insn.field value fields) where
  ascending := h.ascending.insertField insn.field value
  isSome_lookup index := by
    rw [Value.lookup_insertField, fieldShape?_append]
    have hl := h.isSome_lookup index
    by_cases hi : insn.field = index
    · simp [fieldShape?, hi]
    · simp [fieldShape?, hi, Ne.symm hi, hl]

theorem lookup_eq_none (h : Addressed insns fields) {index : UInt32}
    (hi : index ∉ insns.map Instruction.field) : fields.lookup index = none := by
  have hshape : fieldShape? insns index = none := by
    rw [Option.eq_none_iff_forall_ne_some]
    intro shape hsome
    obtain ⟨insn, hm, hfield, _⟩ := mem_of_fieldShape? hsome
    exact hi (hfield ▸ List.mem_map_of_mem hm)
  rw [← Option.isNone_iff_eq_none, ← Option.isSome_eq_false_iff, h.isSome_lookup, hshape]
  rfl

theorem exists_insn (h : Addressed insns fields) {field : UInt32 × Value} (hf : field ∈ fields) :
    ∃ insn ∈ insns, insn.field = field.1 := by
  rw [← List.mem_map]
  by_contra hunused
  simpa using List.lookup_eq_none_iff.mp (h.lookup_eq_none hunused) field hf

theorem replace (h : Addressed insns fields) {index : UInt32} {old : Value}
    (ho : fields.lookup index = some old) (value : Value) :
    Addressed insns (Value.insertField index value fields) where
  ascending := h.ascending.insertField index value
  isSome_lookup other := by
    rw [← h.isSome_lookup, Value.lookup_insertField]
    split_ifs with hi
    · rw [hi, ho]
      rfl
    · rfl

end Addressed

inductive Shaped (program : Program) : Shape → Value → Prop
  | number (kind : ScalarKind) (bits : kind.Bits) :
      Shaped program (.single (.number kind)) (.scalar (.number kind bits))
  | bool (flag : Bool) : Shaped program (.single .bool) (.scalar (.bool flag))
  | text (bound : Option UInt32) (text : String) :
      Shaped program (.single (.string bound)) (.text text)
  | struct {target : UInt32} {words : Stream} {fields : List (UInt32 × Value)} :
      program.stream? target = some words →
      Addressed (Scan.read target words).instructions fields →
      (∀ index shape value, fieldShape? (Scan.read target words).instructions index = some shape →
        fields.lookup index = some value → Shaped program shape value) →
      Shaped program (.single (.struct target)) (.struct fields)
  | sequence {leaf : Leaf} {items : List Value} :
      (∀ item ∈ items, Shaped program (.single leaf) item) →
      (items ≠ [] → ∃ first, program.defaultElement leaf = .ok first) →
      Shaped program (.sequence leaf) (.sequence (.leaf program leaf) items)
  | array {leaf : Leaf} {count : UInt32} {items : List Value} :
      (∀ item ∈ items, Shaped program (.single leaf) item) → items.length = count.toNat →
      Shaped program (.array leaf count) (.array items)

theorem Shaped.isArray_eq_false {program : Program} {leaf : Leaf} {value : Value}
    (h : Shaped program (.single leaf) value) : value.isArray = false := by
  cases h <;> rfl

/-! ## Defaults -/

/-- The samples with zeros, empty texts and empty sequences only, and with arrays of copies. -/
inductive Blank (program : Program) : Shape → Value → Prop
  | number (kind : ScalarKind) : Blank program (.single (.number kind)) (.scalar (.zero kind))
  | bool : Blank program (.single .bool) (.scalar (.bool false))
  | text (bound : Option UInt32) : Blank program (.single (.string bound)) (.text "")
  | struct {target : UInt32} {words : Stream} {fields : List (UInt32 × Value)} :
      program.stream? target = some words →
      Addressed (Scan.read target words).instructions fields →
      (∀ index shape value, fieldShape? (Scan.read target words).instructions index = some shape →
        fields.lookup index = some value → Blank program shape value) →
      Blank program (.single (.struct target)) (.struct fields)
  | sequence (leaf : Leaf) : Blank program (.sequence leaf) (.sequence (.leaf program leaf) [])
  | array {leaf : Leaf} (count : UInt32) {item : Value} :
      Blank program (.single leaf) item →
      Blank program (.array leaf count) (.array (List.replicate count.toNat item))

theorem Blank.shaped {program : Program} {shape : Shape} {value : Value}
    (h : Blank program shape value) : Shaped program shape value := by
  induction h with
  | number kind => exact .number kind 0
  | bool => exact .bool false
  | text bound => exact .text bound ""
  | struct hw ha _ ih => exact .struct hw ha ih
  | sequence leaf => exact .sequence (fun item hi => by cases hi) fun hn => absurd rfl hn
  | array count _ ih =>
      refine .array (fun item hi => ?_) List.length_replicate
      rw [List.eq_of_mem_replicate hi]
      exact ih

namespace Program

variable {program : Program}

/-- Every structure that `enter` makes is blank. -/
def MakesBlanks (program : Program) (enter : UInt32 → Nat → Except Defect (Value × Nat)) : Prop :=
  ∀ stream budget value left, enter stream budget = .ok (value, left) →
    Blank program (.single (.struct stream)) value

variable {enter : UInt32 → Nat → Except Defect (Value × Nat)}

theorem defaultLeaf_blank (he : MakesBlanks program enter) {leaf : Leaf} {budget left : Nat}
    {value : Value} (h : defaultLeaf enter leaf budget = .ok (value, left)) :
    Blank program (.single leaf) value := by
  cases leaf with
  | number kind =>
      cases h
      exact .number kind
  | bool =>
      cases h
      exact .bool
  | string bound =>
      cases h
      exact .text bound
  | struct stream => exact he stream (budget - 1) value left h

theorem defaultField_blank (he : MakesBlanks program enter) {stream : UInt32}
    {insn : Instruction} {budget left : Nat} {value : Value}
    (h : defaultField program enter stream insn budget = .ok (value, left)) :
    Blank program insn.shape value := by
  unfold defaultField at h
  split at h
  · rename_i leaf hs
    rw [hs]
    exact defaultLeaf_blank he h
  · rename_i leaf hs
    cases h
    rw [hs]
    exact .sequence leaf
  · rename_i leaf count hs
    obtain ⟨⟨first, rest⟩, hl, h⟩ := bind_eq_ok.mp h
    dsimp only at h
    split_ifs at h with hb
    cases h
    rw [hs]
    exact .array count (defaultLeaf_blank he hl)

/-- Adding the defaults of further instructions to fields that are blank. -/
theorem defaultFields_blank (he : MakesBlanks program enter) {stream : UInt32}
    {done rest : List Instruction} {fields fields' : List (UInt32 × Value)} {budget left : Nat}
    (ha : Addressed done fields)
    (hs : ∀ index shape value, fieldShape? done index = some shape →
      fields.lookup index = some value → Blank program shape value)
    (h : defaultFields program enter stream rest fields budget = .ok (fields', left)) :
    Addressed (done ++ rest) fields' ∧
      ∀ index shape value, fieldShape? (done ++ rest) index = some shape →
        fields'.lookup index = some value → Blank program shape value := by
  induction rest generalizing done fields budget with
  | nil =>
      cases h
      rw [List.append_nil]
      exact ⟨ha, hs⟩
  | cons insn rest ih =>
      obtain ⟨⟨made, next⟩, hf, h⟩ := bind_eq_ok.mp h
      have ha' := ha.insert insn made
      rw [List.append_cons]
      refine ih ha' ?_ h
      intro index shape value hi hl
      rw [Value.lookup_insertField] at hl
      rw [fieldShape?_append] at hi
      by_cases hx : insn.field = index
      · simp only [fieldShape?, hx, if_true, Option.none_or, Option.some_or,
          Option.some.injEq] at hi hl
        subst hi hl
        exact defaultField_blank he hf
      · simp only [fieldShape?, hx, Ne.symm hx, if_false, Option.none_or] at hi hl
        exact hs index shape value hi hl

theorem defaultStruct_blank (fuel : Nat) : MakesBlanks program (program.defaultStruct fuel) := by
  induction fuel with
  | zero =>
      intro stream budget value left h
      cases h
  | succ fuel ih =>
      intro stream budget value left h
      unfold defaultStruct at h
      split at h
      · cases h
      · rename_i words hw
        obtain ⟨⟨fields, rest⟩, hf, h⟩ := bind_eq_ok.mp h
        obtain ⟨_, _, h⟩ := bind_eq_ok.mp h
        cases h
        have hd : Addressed [] [] := ⟨List.Pairwise.nil, fun _ => rfl⟩
        obtain ⟨ha, hs⟩ := defaultFields_blank ih hd (fun _ _ _ h => by cases h) hf
        rw [List.nil_append, Scan.instructions_readAll] at ha hs
        exact .struct hw ha hs

theorem default_blank {stream : UInt32} {value : Value} (h : program.default stream = .ok value) :
    Blank program (.single (.struct stream)) value := by
  obtain ⟨_, _, h⟩ := bind_eq_ok.mp h
  obtain ⟨⟨made, left⟩, hm, h⟩ := bind_eq_ok.mp h
  cases h
  exact defaultStruct_blank (program.length + 1) stream maxDefaultValues value left hm

theorem default_shaped {stream : UInt32} {value : Value} (h : program.default stream = .ok value) :
    Shaped program (.single (.struct stream)) value := (default_blank h).shaped

theorem defaultElement_blank {leaf : Leaf} {value : Value}
    (h : program.defaultElement leaf = .ok value) : Blank program (.single leaf) value := by
  obtain ⟨⟨made, left⟩, hm, h⟩ := bind_eq_ok.mp h
  cases h
  exact defaultLeaf_blank (defaultStruct_blank (program.length + 1)) hm

theorem defaultElement_shaped {leaf : Leaf} {value : Value}
    (h : program.defaultElement leaf = .ok value) : Shaped program (.single leaf) value :=
  (defaultElement_blank h).shaped

end Program
end TopicCodec
