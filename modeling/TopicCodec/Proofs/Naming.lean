import TopicCodec.Name

/-!
# Names put together

Parts that hold no separator are found again in the name they are joined to. Such a name does not
start at the root, so it is searched for.
-/
namespace TopicCodec.Name

structure Solid (part : String) : Prop where
  ne_empty : part ≠ ""
  no_dot : '.' ∉ part.toList
  no_colon : ':' ∉ part.toList

theorem splitFrom_append {chars : List Char} (hdot : '.' ∉ chars) (hcolon : ':' ∉ chars)
    (acc rest : List Char) :
    splitFrom acc (chars ++ rest) = splitFrom (chars.reverse ++ acc) rest := by
  induction chars generalizing acc with
  | nil => rfl
  | cons c chars ih =>
      simp only [List.mem_cons, not_or] at hdot hcolon
      have hstep : splitFrom acc (c :: (chars ++ rest)) = splitFrom (c :: acc) (chars ++ rest) := by
        rw [splitFrom]
        · intro rest' hc
          exact absurd hc.symm hcolon.1
        · exact fun hc => absurd hc.symm hdot.1
      rw [List.cons_append, hstep, ih hdot.2 hcolon.2, List.reverse_cons, List.append_assoc]
      rfl

theorem splitFrom_intercalate (first : String) (rest : List String)
    (h : ∀ part ∈ first :: rest, Solid part) :
    splitFrom [] ("::".toList.intercalate ((first :: rest).map String.toList)) =
      (first :: rest).map String.toList := by
  induction rest generalizing first with
  | nil =>
      obtain ⟨_, hdot, hcolon⟩ := h first List.mem_cons_self
      have hsplit := splitFrom_append hdot hcolon [] []
      simp only [List.append_nil] at hsplit
      simp [hsplit, splitFrom]
  | cons second rest ih =>
      obtain ⟨_, hdot, hcolon⟩ := h first List.mem_cons_self
      have htail := ih second fun part hp => h part (List.mem_cons_of_mem _ hp)
      rw [List.map_cons, List.map_cons, List.intercalate_cons_cons, List.append_assoc,
        splitFrom_append hdot hcolon]
      change splitFrom _ (':' :: ':' :: ("::".toList.intercalate _)) = _
      rw [splitFrom, ← List.map_cons, htail, List.append_nil, List.reverse_reverse]

/-- Parts that hold no separator are the parts of the name they are joined to. -/
theorem parts_join {names : List String} (h : ∀ part ∈ names, Solid part) :
    parts (join names) = names := by
  cases names with
  | nil => decide
  | cons first rest =>
      have hkept : ((first :: rest).map String.toList).filter (!·.isEmpty) =
          (first :: rest).map String.toList := by
        apply List.filter_eq_self.mpr
        simp only [List.forall_mem_map, Bool.not_eq_true', List.isEmpty_eq_false_iff, ne_eq,
          String.toList_eq_nil_iff]
        exact fun part hp => (h part hp).ne_empty
      rw [parts, join, String.toList_intercalate, splitFrom_intercalate first rest h, hkept,
        List.map_map]
      simp [Function.comp_def]

theorem isAnchored_join {names : List String} (h : ∀ part ∈ names, Solid part) :
    isAnchored (join names) = false := by
  cases names with
  | nil => decide
  | cons first rest =>
      obtain ⟨hne, _, hcolon⟩ := h first List.mem_cons_self
      cases hchars : first.toList with
      | nil => exact absurd (String.toList_eq_nil_iff.mp hchars) hne
      | cons c chars =>
          have hc : c ≠ ':' := by
            rintro rfl
            rw [hchars] at hcolon
            exact hcolon List.mem_cons_self
          have hstart : ∃ tail, (join (first :: rest)).toList = c :: tail := by
            rw [join, String.toList_intercalate, List.map_cons, hchars]
            cases rest with
            | nil => exact ⟨_, List.intercalate_singleton⟩
            | cons second rest =>
                rw [List.map_cons, List.intercalate_cons_cons]
                exact ⟨_, rfl⟩
          obtain ⟨tail, htail⟩ := hstart
          unfold isAnchored
          rw [htail]
          split
          · rename_i heq
            cases heq
            exact absurd rfl hc
          · rfl

end TopicCodec.Name
