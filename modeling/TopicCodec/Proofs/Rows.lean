import TopicCodec.Value

/-!
# Rows of nested arrays

Flattening lists the elements of nested arrays; refilling puts elements back without
touching the rows. The two are inverse to each other as long as no element is itself an
array, and what refilling makes depends only on the rows of the value refilled
(`sameRows`), never on the elements it held before.
-/
namespace TopicCodec.Value

def isArray : Value → Bool
  | array _ => true
  | _ => false

mutual

/-- The arrays of two values nest in the same way. -/
def sameRows : Value → Value → Bool
  | array a, array b => sameRowsItems a b
  | a, b => !a.isArray && !b.isArray

def sameRowsItems : List Value → List Value → Bool
  | [], [] => true
  | a :: as, b :: bs => sameRows a b && sameRowsItems as bs
  | _, _ => false

end

theorem flatten_of_not_isArray {value : Value} (h : value.isArray = false) :
    flatten value = [value] := by
  cases value <;> first | rfl | cases h

theorem refill_of_not_isArray {value : Value} (h : value.isArray = false) (element : Value)
    (left : List Value) : refill value (element :: left) = (element, left) := by
  cases value <;> first | rfl | cases h

theorem flattenItems_of_not_isArray {items : List Value}
    (h : ∀ item ∈ items, item.isArray = false) : flattenItems items = items := by
  induction items with
  | nil => rfl
  | cons item rest ih =>
      rw [flattenItems, flatten_of_not_isArray (h item (by simp)),
        ih fun item hi => h item (by simp [hi])]
      rfl

theorem sameRows_of_not_isArray {a b : Value} (ha : a.isArray = false) (hb : b.isArray = false) :
    sameRows a b = true := by
  cases a <;> cases b <;> simp_all [sameRows, isArray]

theorem sameRowsItems_of_not_isArray {as bs : List Value} (hl : as.length = bs.length)
    (ha : ∀ a ∈ as, a.isArray = false) (hb : ∀ b ∈ bs, b.isArray = false) :
    sameRowsItems as bs = true := by
  induction as generalizing bs with
  | nil => cases bs <;> first | rfl | cases hl
  | cons a as ih =>
      cases bs with
      | nil => cases hl
      | cons b bs =>
          rw [sameRowsItems, sameRows_of_not_isArray (ha a (by simp)) (hb b (by simp)),
            ih (by simpa using hl) (fun a h => ha a (by simp [h])) fun b h => hb b (by simp [h])]
          rfl

theorem sameRows_cases {a b : Value} (h : sameRows a b = true) :
    (∃ as bs, a = array as ∧ b = array bs ∧ sameRowsItems as bs = true) ∨
      (a.isArray = false ∧ b.isArray = false) := by
  cases a <;> cases b <;>
    first
      | exact .inl ⟨_, _, rfl, rfl, h⟩
      | exact .inr ⟨rfl, rfl⟩
      | cases h

mutual

theorem length_flatten_of_sameRows : (a b : Value) → sameRows a b = true →
    (flatten a).length = (flatten b).length
  | a, b, h => by
      rcases sameRows_cases h with ⟨as, bs, rfl, rfl, hs⟩ | ⟨ha, hb⟩
      · exact length_flattenItems_of_sameRows as bs hs
      · rw [flatten_of_not_isArray ha, flatten_of_not_isArray hb]
        rfl

theorem length_flattenItems_of_sameRows : (as bs : List Value) → sameRowsItems as bs = true →
    (flattenItems as).length = (flattenItems bs).length
  | [], [], _ => rfl
  | a :: as, b :: bs, h => by
      simp only [sameRowsItems, Bool.and_eq_true] at h
      simp only [flattenItems, List.length_append]
      rw [length_flatten_of_sameRows a b h.1, length_flattenItems_of_sameRows as bs h.2]
  | [], _ :: _, h => by cases h
  | _ :: _, [], h => by cases h

end

mutual

theorem length_refill : (value : Value) → (elements : List Value) →
    (flatten value).length ≤ elements.length →
    (refill value elements).2.length + (flatten value).length = elements.length
  | .array items, elements, h => length_refillItems items elements h
  | .scalar _, _ :: _, _ | .text _, _ :: _, _ | .struct _, _ :: _, _
  | .sequence _ _, _ :: _, _ | .absent, _ :: _, _ => rfl
  | .scalar _, [], h | .text _, [], h | .struct _, [], h
  | .sequence _ _, [], h | .absent, [], h => by simp [flatten] at h

theorem length_refillItems : (items : List Value) → (elements : List Value) →
    (flattenItems items).length ≤ elements.length →
    (refillItems items elements).2.length + (flattenItems items).length = elements.length
  | [], _, _ => rfl
  | item :: rest, elements, h => by
      simp only [flattenItems, List.length_append] at h ⊢
      have hi := length_refill item elements (by omega)
      have hr := length_refillItems rest (refill item elements).2 (by omega)
      simp only [refillItems]
      omega

end

mutual

/-- A value refilled with its own elements stays as it was. -/
theorem refill_flatten : (value : Value) → (left : List Value) →
    refill value (flatten value ++ left) = (value, left)
  | .array items, left => by
      rw [refill, flatten, refillItems_flattenItems items left]
  | .scalar _, _ | .text _, _ | .struct _, _ | .sequence _ _, _ | .absent, _ => rfl

theorem refillItems_flattenItems : (items : List Value) → (left : List Value) →
    refillItems items (flattenItems items ++ left) = (items, left)
  | [], _ => rfl
  | item :: rest, left => by
      rw [flattenItems, List.append_assoc]
      simp only [refillItems, refill_flatten item, refillItems_flattenItems rest left]

end

mutual

/-- A refilled value lists the elements it was filled with. -/
theorem flatten_refill : (value : Value) → (elements : List Value) →
    (∀ element ∈ elements, element.isArray = false) → (flatten value).length ≤ elements.length →
    flatten (refill value elements).1 ++ (refill value elements).2 = elements
  | .array items, elements, he, h => flattenItems_refillItems items elements he h
  | .scalar _, element :: _, he, _ | .text _, element :: _, he, _ | .struct _, element :: _, he, _
  | .sequence _ _, element :: _, he, _ | .absent, element :: _, he, _ => by
      rw [refill, flatten_of_not_isArray (he element (by simp))]
      · rfl
      · exact fun _ h => by cases h
  | .scalar _, [], _, h | .text _, [], _, h | .struct _, [], _, h
  | .sequence _ _, [], _, h | .absent, [], _, h => by simp [flatten] at h

theorem flattenItems_refillItems : (items : List Value) → (elements : List Value) →
    (∀ element ∈ elements, element.isArray = false) →
    (flattenItems items).length ≤ elements.length →
    flattenItems (refillItems items elements).1 ++ (refillItems items elements).2 = elements
  | [], _, _, _ => rfl
  | item :: rest, elements, he, h => by
      simp only [flattenItems, List.length_append] at h
      have hf := flatten_refill item elements he (by omega)
      have hl := length_refill item elements (by omega)
      have hr := flattenItems_refillItems rest (refill item elements).2
        (fun element hm => he element (by rw [← hf]; exact List.mem_append_right _ hm)) (by omega)
      simp only [refillItems, flattenItems]
      rw [List.append_assoc, hr, hf]

end

theorem flattenItems_refillItems_of_length {items elements : List Value}
    (hl : elements.length = (flattenItems items).length)
    (he : ∀ element ∈ elements, element.isArray = false) :
    flattenItems (refillItems items elements).1 = elements := by
  have hf := flattenItems_refillItems items elements he (Nat.le_of_eq hl.symm)
  have hr := length_refillItems items elements (Nat.le_of_eq hl.symm)
  have hnil : (refillItems items elements).2 = [] := List.length_eq_zero_iff.mp (by omega)
  rwa [hnil, List.append_nil] at hf

mutual

theorem refill_eq_of_sameRows : (a b : Value) → sameRows a b = true → (elements : List Value) →
    (flatten b).length ≤ elements.length → refill a elements = refill b elements
  | a, b, h, elements, hl => by
      rcases sameRows_cases h with ⟨as, bs, rfl, rfl, hs⟩ | ⟨ha, hb⟩
      · rw [refill, refill, refillItems_eq_of_sameRows as bs hs elements hl]
      · rw [flatten_of_not_isArray hb] at hl
        cases elements with
        | nil => simp at hl
        | cons element left => rw [refill_of_not_isArray ha, refill_of_not_isArray hb]

theorem refillItems_eq_of_sameRows : (as bs : List Value) → sameRowsItems as bs = true →
    (elements : List Value) → (flattenItems bs).length ≤ elements.length →
    refillItems as elements = refillItems bs elements
  | [], [], _, _, _ => rfl
  | a :: as, b :: bs, h, elements, hl => by
      simp only [sameRowsItems, Bool.and_eq_true] at h
      simp only [flattenItems, List.length_append] at hl
      have hb := length_refill b elements (by omega)
      have hr := refillItems_eq_of_sameRows as bs h.2 (refill b elements).2 (by omega)
      simp only [refillItems, refill_eq_of_sameRows a b h.1 elements (by omega), hr]
  | [], _ :: _, h, _, _ => by cases h
  | _ :: _, [], h, _, _ => by cases h

end

/-- Elements that are no arrays are replaced one by one. -/
theorem refillItems_of_not_isArray {items values : List Value} (hl : values.length = items.length)
    (hi : ∀ item ∈ items, item.isArray = false) (hv : ∀ value ∈ values, value.isArray = false) :
    (refillItems items values).1 = values := by
  have hf := flattenItems_of_not_isArray hv
  have hr := refillItems_flattenItems values []
  rw [hf, List.append_nil] at hr
  rw [refillItems_eq_of_sameRows items values
    (sameRowsItems_of_not_isArray hl.symm hi hv) values (Nat.le_of_eq (by rw [hf])), hr]

mutual

theorem sameRows_refill : (a b : Value) → sameRows a b = true → (elements : List Value) →
    (∀ element ∈ elements, element.isArray = false) → (flatten a).length ≤ elements.length →
    sameRows (refill a elements).1 b = true
  | a, b, h, elements, he, hl => by
      rcases sameRows_cases h with ⟨as, bs, rfl, rfl, hs⟩ | ⟨ha, hb⟩
      · exact sameRowsItems_refillItems as bs hs elements he hl
      · rw [flatten_of_not_isArray ha] at hl
        cases elements with
        | nil => simp at hl
        | cons element left =>
            rw [refill_of_not_isArray ha]
            exact sameRows_of_not_isArray (he element (by simp)) hb

theorem sameRowsItems_refillItems : (as bs : List Value) → sameRowsItems as bs = true →
    (elements : List Value) → (∀ element ∈ elements, element.isArray = false) →
    (flattenItems as).length ≤ elements.length →
    sameRowsItems (refillItems as elements).1 bs = true
  | [], [], _, _, _, _ => rfl
  | a :: as, b :: bs, h, elements, he, hl => by
      simp only [sameRowsItems, Bool.and_eq_true] at h
      simp only [flattenItems, List.length_append] at hl
      have hf := flatten_refill a elements he (by omega)
      have ha := length_refill a elements (by omega)
      simp only [refillItems, sameRowsItems, Bool.and_eq_true]
      refine ⟨sameRows_refill a b h.1 elements he (by omega),
        sameRowsItems_refillItems as bs h.2 _ (fun element hm => he element ?_) (by omega)⟩
      rw [← hf]
      exact List.mem_append_right _ hm
  | [], _ :: _, h, _, _, _ => by cases h
  | _ :: _, [], h, _, _, _ => by cases h

end

end TopicCodec.Value
