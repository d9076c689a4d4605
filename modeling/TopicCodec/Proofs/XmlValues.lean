import TopicCodec.Proofs.XmlText

/-!
# Attribute values that are read

The attribute values of a document that is read hold only characters that a document may hold
(`legible_of_read?`): they stand in the document or are referred to, and a reference to a
forbidden character is refused. A reference may bring in a tab or a line break, though, that would
not be read as such if it stood in the value as it is.
-/
namespace TopicCodec.Xml

namespace Reader

/-! ## References -/

theorem isChar_of_charOfCode? {code : Nat} {c : Char} (h : charOfCode? code = some c) :
    isChar c = true := by
  simp only [charOfCode?] at h
  split_ifs at h <;> cases h <;> assumption

theorem isChar_of_predefined? {entity : List Char} {c : Char} (h : predefined? entity = some c) :
    isChar c = true := by
  unfold predefined? at h
  split at h <;> cases h <;> decide

theorem codeReference_spec {base : Nat} {input rest : List Char} {c : Char}
    (h : codeReference base input = some (c, rest)) : isChar c = true ∧ rest <:+ input := by
  simp only [codeReference] at h
  split at h
  · rename_i hdigits
    split_ifs at h
    obtain ⟨_, hcode, heq⟩ := Option.map_eq_some_iff.mp h
    cases heq
    have hafter : ';' :: rest <:+ input := hdigits ▸ List.dropWhile_suffix _
    exact ⟨isChar_of_charOfCode? hcode, (List.suffix_cons _ _).trans hafter⟩
  · cases h

theorem suffix_of_name {input chars rest : List Char} (h : name input = some (chars, rest)) :
    rest <:+ input := by
  cases input with
  | nil => cases h
  | cons c input =>
      simp only [name] at h
      split_ifs at h
      cases h
      exact (List.dropWhile_suffix _).trans (List.suffix_cons _ _)

/-- A reference stands for a character that a document may hold. -/
theorem reference_spec {input rest : List Char} {c : Char}
    (h : reference input = some (c, rest)) : isChar c = true ∧ rest <:+ input := by
  unfold reference at h
  split at h
  · obtain ⟨hchar, hsuffix⟩ := codeReference_spec h
    exact ⟨hchar, hsuffix.trans (List.suffix_append ['#', 'x'] _)⟩
  · obtain ⟨hchar, hsuffix⟩ := codeReference_spec h
    exact ⟨hchar, hsuffix.trans (List.suffix_append ['#'] _)⟩
  · split at h
    · rename_i hname
      obtain ⟨_, hentity, heq⟩ := Option.map_eq_some_iff.mp h
      cases heq
      exact ⟨isChar_of_predefined? hentity, (List.suffix_cons _ _).trans (suffix_of_name hname)⟩
    · cases h

/-! ## Values -/

theorem all_isChar_of_suffix {text rest : List Char} (hsuffix : rest <:+ text)
    (h : text.all isChar = true) : rest.all isChar = true :=
  List.all_eq_true.mpr fun c hc => List.all_eq_true.mp h c (hsuffix.subset hc)

theorem all_isChar_normalize {fuel : Nat} {raw value : List Char}
    (h : normalize fuel raw = some value) (hraw : raw.all isChar = true) :
    value.all isChar = true := by
  fun_induction normalize fuel raw generalizing value with
  | case1 => cases h; rfl
  | case2 => cases h
  | case3 fuel rest c rest' href ih =>
      obtain ⟨hchar, hsuffix⟩ := reference_spec href
      obtain ⟨value, hvalue, rfl⟩ := Option.map_eq_some_iff.mp h
      have hrest := all_isChar_of_suffix (hsuffix.trans (List.suffix_cons _ _)) hraw
      rw [List.all_cons, hchar, ih hvalue hrest]
      rfl
  | case4 => cases h
  | case5 fuel rest ih => exact ih h (all_isChar_of_suffix (List.suffix_cons _ _) hraw)
  | case6 fuel c rest _ _ ih =>
      obtain ⟨value, hvalue, rfl⟩ := Option.map_eq_some_iff.mp h
      rw [List.all_cons, Bool.and_eq_true] at hraw
      rw [List.all_cons, ih hvalue hraw.2, Bool.and_true]
      split_ifs
      · decide
      · exact hraw.1

theorem all_isChar_of_charsUntil {stop : List Char → Bool} {input chars rest : List Char}
    (h : charsUntil stop input = some (chars, rest)) : chars.all isChar = true := by
  induction input generalizing chars with
  | nil => simp_all [charsUntil]
  | cons c input ih =>
      simp only [charsUntil] at h
      split_ifs at h with hchar hstop
      · cases h
        rfl
      · obtain ⟨_, hinput, heq⟩ := Option.map_eq_some_iff.mp h
        cases heq
        simpa [ih hinput] using hchar

theorem all_isChar_of_quoted {input value rest : List Char}
    (h : quoted input = some (value, rest)) : value.all isChar = true := by
  unfold quoted at h
  split at h
  · split_ifs at h
    split at h
    · rename_i hchars
      split_ifs at h
      cases h
      exact all_isChar_of_charsUntil hchars
    · cases h
  · cases h

theorem all_isChar_of_rawAttribute {input rest : List Char} {attr : RawAttribute}
    (h : rawAttribute input = some (attr, rest)) : attr.value.all isChar = true := by
  unfold rawAttribute at h
  split at h
  · cases h
  · split at h
    · obtain ⟨_, hquoted, heq⟩ := Option.map_eq_some_iff.mp h
      cases heq
      exact all_isChar_of_quoted hquoted
    · cases h

theorem all_isChar_of_tagRest {fuel : Nat} {input rest : List Char}
    {attributes : List RawAttribute} {empty : Bool}
    (h : tagRest fuel input = some ((attributes, empty), rest)) :
    ∀ attr ∈ attributes, attr.value.all isChar = true := by
  induction fuel generalizing input attributes with
  | zero => cases h
  | succ fuel ih =>
      unfold tagRest at h
      split at h
      · cases h
        exact List.forall_mem_nil _
      · cases h
        exact List.forall_mem_nil _
      · split_ifs at h
        split at h
        · cases h
        · rename_i hraw
          split at h
          · rename_i hvalue hrest
            cases h
            exact List.forall_mem_cons.mpr
              ⟨all_isChar_normalize hvalue (all_isChar_of_rawAttribute hraw), ih hrest⟩
          · cases h

/-! ## Namespaces -/

theorem declarations_subset {bound bound' : Bindings} {raw kept : List RawAttribute}
    (h : declarations bound raw = some (bound', kept)) : kept ⊆ raw := by
  induction raw generalizing bound kept with
  | nil =>
      cases h
      exact List.Subset.refl _
  | cons attr raw ih =>
      simp only [declarations] at h
      split_ifs at h
      · split at h
        · exact List.subset_cons_of_subset _ (ih h)
        · cases h
      · exact List.subset_cons_of_subset _ (ih h)
      · obtain ⟨_, hothers, heq⟩ := Option.map_eq_some_iff.mp h
        cases heq
        exact List.cons_subset_cons _ (ih hothers)

theorem legal_of_resolve {bindings : Bindings} {seen : List (Option (List Char) × List Char)}
    {raw : List RawAttribute} {attributes : List Attribute}
    (h : resolve bindings seen raw = some attributes)
    (hraw : ∀ attr ∈ raw, attr.value.all isChar = true) :
    ∀ attr ∈ attributes, Legal attr.value := by
  induction raw generalizing seen attributes with
  | nil =>
      cases h
      exact List.forall_mem_nil _
  | cons attr raw ih =>
      rw [List.forall_mem_cons] at hraw
      simp only [resolve] at h
      split at h
      · cases h
      · split_ifs at h
        · obtain ⟨kept, hkept, rfl⟩ := Option.map_eq_some_iff.mp h
          have hlegal : Legal (String.ofList attr.value) := by
            rw [Legal, String.toList_ofList]
            exact hraw.1
          exact List.forall_mem_cons.mpr ⟨hlegal, ih hkept hraw.2⟩
        · obtain ⟨kept, hkept, rfl⟩ := Option.map_eq_some_iff.mp h
          exact ih hkept hraw.2

end Reader

/-! ## Elements -/

inductive Element.Legible : Element → Prop
  | mk {name : String} {attributes : List Attribute} {children : List Element} :
      (∀ attr ∈ attributes, Legal attr.value) → (∀ child ∈ children, child.Legible) →
      Element.Legible (.mk name attributes children)

theorem Element.Legible.children {element : Element} (h : element.Legible) :
    ∀ child ∈ element.children, child.Legible := by
  cases h with
  | mk _ hchildren => exact hchildren

namespace Reader

structure ReadsLegible (fuel : Nat) : Prop where
  element : ∀ {bindings : Bindings} {input rest : List Char} {found : Element},
    Reader.element fuel bindings input = some (found, rest) → found.Legible
  content : ∀ {bindings : Bindings} {parent : QName} {acc children : List Element}
    {input rest : List Char},
    Reader.content fuel bindings parent acc input = some (children, rest) →
      (∀ child ∈ acc, child.Legible) → ∀ child ∈ children, child.Legible

namespace ReadsLegible

variable {fuel : Nat} {bindings : Bindings} {input rest : List Char}

theorem zero : ReadsLegible 0 where
  element h := nomatch h
  content h := nomatch h

theorem element_succ (ih : ReadsLegible fuel) {found : Element}
    (h : Reader.element (fuel + 1) bindings input = some (found, rest)) : found.Legible := by
  simp only [Reader.element] at h
  split at h
  · cases h
  · split at h
    · cases h
    · rename_i htag
      split at h
      · cases h
      · rename_i hdeclared
        split at h
        · cases h
        · rename_i attributes hresolved
          have hlegal : ∀ attr ∈ attributes, Legal attr.value :=
            legal_of_resolve hresolved fun attr ha =>
              all_isChar_of_tagRest htag attr (declarations_subset hdeclared ha)
          split_ifs at h
          · cases h
            exact .mk hlegal (List.forall_mem_nil _)
          · split at h
            · rename_i hcontent
              cases h
              exact .mk hlegal (ih.content hcontent (List.forall_mem_nil _))
            · cases h

theorem content_succ (ih : ReadsLegible fuel) {parent : QName} {acc children : List Element}
    (h : Reader.content (fuel + 1) bindings parent acc input = some (children, rest))
    (hacc : ∀ child ∈ acc, child.Legible) : ∀ child ∈ children, child.Legible := by
  unfold Reader.content at h
  split at h
  case h_1 | h_2 | h_4 | h_8 =>
    split at h
    · exact ih.content h hacc
    · cases h
  case h_3 | h_7 => cases h
  case h_5 =>
    split at h
    · split_ifs at h
      cases h
      simpa using hacc
    · cases h
  case h_6 =>
    split at h
    · rename_i hchild
      exact ih.content h (List.forall_mem_cons.mpr ⟨ih.element hchild, hacc⟩)
    · cases h

end ReadsLegible

theorem readsLegible (fuel : Nat) : ReadsLegible fuel := by
  induction fuel with
  | zero => exact .zero
  | succ fuel ih => exact ⟨ih.element_succ, ih.content_succ⟩

end Reader

/-- What is read of a document holds no character that a document may not hold. -/
theorem legible_of_read? {document : String} {root : Element} (h : read? document = some root) :
    root.Legible := by
  unfold read? at h
  split at h
  · split at h
    · rename_i helement
      split at h
      · cases h
        exact (Reader.readsLegible _).element helement
      · cases h
    · cases h
  · cases h

end TopicCodec.Xml
