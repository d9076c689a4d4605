import Mathlib.Algebra.GroupWithZero.Nat
import Mathlib.Data.List.Chain
import Mathlib.Tactic.Push
import Mathlib.Tactic.Tauto
import TopicCodec.Proofs.Naming

/-!
# Canonical spellings

The canonical spelling of a name need not be its own canonical spelling. A part may start or end
with a single colon, and between two parts that colon stands next to the separator. The spelling
stays as it is if and only if no part but the last is a lone colon and no part that ends with a
colon is followed by one that starts with a colon (`canonical_canonical_iff`).
-/
namespace TopicCodec.Name

/-! ## Dividing a name -/

/-- The parts of a name, empty ones included. -/
def pieces : List Char → List (List Char)
  | [] => [[]]
  | ':' :: ':' :: rest => [] :: pieces rest
  | '.' :: rest => [] :: pieces rest
  | c :: rest => (pieces rest).modifyHead (c :: ·)

theorem pieces_cons {c : Char} {rest : List Char} (hdot : c ≠ '.')
    (hcolon : c = ':' → rest.head? ≠ some ':') :
    pieces (c :: rest) = (pieces rest).modifyHead (c :: ·) := by
  rw [pieces]
  · rintro tail rfl rfl
    exact hcolon rfl rfl
  · exact hdot

theorem exists_pieces (chars : List Char) : ∃ first others, pieces chars = first :: others := by
  apply List.exists_cons_of_ne_nil
  fun_induction pieces chars <;> simp_all

theorem modifyHead_nil_append (parts : List (List Char)) : parts.modifyHead ([] ++ ·) = parts := by
  cases parts <;> rfl

theorem splitFrom_eq_pieces (acc chars : List Char) :
    splitFrom acc chars = (pieces chars).modifyHead (acc.reverse ++ ·) := by
  fun_induction splitFrom acc chars with
  | case1 acc => simp [pieces]
  | case2 acc rest ih =>
      rw [ih, List.reverse_nil, modifyHead_nil_append]
      simp [pieces]
  | case3 acc rest ih =>
      rw [ih, List.reverse_nil, modifyHead_nil_append]
      simp [pieces]
  | case4 acc c rest hcolon hdot ih =>
      rw [ih, pieces]
      · simp [List.modifyHead_modifyHead, Function.comp_def]
      · exact hcolon
      · exact hdot

theorem parts_eq_pieces (name : String) :
    (parts name).map String.toList = (pieces name.toList).filter (!·.isEmpty) := by
  rw [parts, splitFrom_eq_pieces, List.reverse_nil, modifyHead_nil_append, List.map_map]
  simp [Function.comp_def]

/-- A name without dots is put together again from its pieces. -/
theorem intercalate_pieces {chars : List Char} (h : '.' ∉ chars) :
    "::".toList.intercalate (pieces chars) = chars := by
  fun_induction pieces chars with
  | case1 => rfl
  | case2 rest ih =>
      simp only [List.mem_cons, not_or] at h
      obtain ⟨first, others, hrest⟩ := exists_pieces rest
      rw [hrest] at ih ⊢
      rw [List.intercalate_cons_cons, ih h.2.2]
      rfl
  | case3 rest ih => exact absurd List.mem_cons_self h
  | case4 c rest _ _ ih =>
      simp only [List.mem_cons, not_or] at h
      obtain ⟨first, others, hrest⟩ := exists_pieces rest
      have hjoined := ih h.2
      rw [hrest] at hjoined ⊢
      cases others with
      | nil => simpa using hjoined
      | cons second others =>
          rw [List.intercalate_cons_cons] at hjoined
          rw [List.modifyHead_cons, List.intercalate_cons_cons, ← hjoined]
          rfl

/-! ## Parts -/

/-- A part that is not divided further. -/
def Whole (part : List Char) : Prop := pieces part = [part]

theorem whole_nil : Whole [] := rfl

theorem whole_cons_iff {c : Char} {part : List Char} :
    Whole (c :: part) ↔ c ≠ '.' ∧ (c = ':' → part.head? ≠ some ':') ∧ Whole part := by
  by_cases hdot : c = '.'
  · simp [hdot, Whole, pieces]
  by_cases hcolon : c = ':' → part.head? ≠ some ':'
  · obtain ⟨first, others, h⟩ := exists_pieces part
    simp only [Whole, pieces_cons hdot hcolon, h, List.modifyHead_cons, List.cons.injEq, true_and]
    exact ⟨fun hpart => ⟨hdot, hcolon, hpart⟩, fun hpart => hpart.2.2⟩
  · obtain ⟨rfl, tail, rfl⟩ : c = ':' ∧ ∃ tail, part = ':' :: tail := by
      push Not at hcolon
      exact ⟨hcolon.1, List.head?_eq_some_iff.mp hcolon.2⟩
    simp [Whole, pieces]

theorem whole_append_iff {part part' : List Char} :
    Whole (part ++ part') ↔ Whole part ∧ Whole part' ∧
      ¬(part.getLast? = some ':' ∧ part'.head? = some ':') := by
  induction part with
  | nil => simp [whole_nil]
  | cons c part ih =>
      rw [List.cons_append, whole_cons_iff, whole_cons_iff, ih]
      cases part with
      | nil =>
          simp [whole_nil]
          tauto
      | cons d part =>
          simp only [List.cons_append, List.head?_cons, List.getLast?_cons_cons]
          tauto

theorem not_mem_of_whole {part : List Char} (h : Whole part) : '.' ∉ part := by
  induction part with
  | nil => simp
  | cons c part ih =>
      rw [whole_cons_iff] at h
      simp only [List.mem_cons, not_or]
      exact ⟨h.1.symm, ih h.2.2⟩

theorem pieces_append {part rest : List Char} (h : Whole part)
    (hjoint : ¬(part.getLast? = some ':' ∧ rest.head? = some ':')) :
    pieces (part ++ rest) = (pieces rest).modifyHead (part ++ ·) := by
  induction part with
  | nil => rw [List.nil_append, modifyHead_nil_append]
  | cons c part ih =>
      rw [whole_cons_iff] at h
      rw [List.cons_append, pieces_cons h.1]
      · rw [ih h.2.2, List.modifyHead_modifyHead]
        · rfl
        · cases part with
          | nil => simp
          | cons d part => simpa using hjoint
      · cases part with
        | nil => simpa using hjoint
        | cons d part => simpa using h.2.1

/-- The first piece of a name starts as the name does, unless it is empty. -/
theorem head?_of_pieces {chars first : List Char} {others : List (List Char)} {c : Char}
    (h : pieces chars = first :: others) (hfirst : first.head? = some c) :
    chars.head? = some c := by
  fun_induction pieces chars with
  | case1 | case2 | case3 =>
      cases h
      cases hfirst
  | case4 d rest _ _ _ =>
      obtain ⟨first', others', hrest⟩ := exists_pieces rest
      rw [hrest] at h
      cases h
      exact hfirst

theorem whole_of_mem_pieces {chars : List Char} : ∀ piece ∈ pieces chars, Whole piece := by
  fun_induction pieces chars with
  | case1 => exact List.forall_mem_singleton.mpr whole_nil
  | case2 rest ih | case3 rest ih => exact List.forall_mem_cons.mpr ⟨whole_nil, ih⟩
  | case4 c rest hcolon hdot ih =>
      obtain ⟨first, others, hrest⟩ := exists_pieces rest
      rw [hrest, List.forall_mem_cons] at ih
      rw [hrest, List.modifyHead_cons, List.forall_mem_cons, whole_cons_iff]
      refine ⟨⟨hdot, fun hc hfirst => ?_, ih.1⟩, ih.2⟩
      obtain ⟨tail, htail⟩ := List.head?_eq_some_iff.mp (head?_of_pieces hrest hfirst)
      exact hcolon tail hc htail

/-! ## Parts put together -/

/-- Two parts, one after the other, that keep the separator between them apart. -/
def Clear (part next : List Char) : Prop :=
  part ≠ [':'] ∧ ¬(part.getLast? = some ':' ∧ next.head? = some ':')

instance : DecidableRel Clear := fun _ _ => inferInstanceAs (Decidable (_ ∧ _))

theorem pieces_separated {part : List Char} (h : Whole part) (hlast : part.getLast? ≠ some ':')
    (rest : List Char) : pieces (part ++ "::".toList ++ rest) = part :: pieces rest := by
  have hseparator : pieces ("::".toList ++ rest) = [] :: pieces rest := rfl
  rw [List.append_assoc, pieces_append h fun hjoint => hlast hjoint.1, hseparator,
    List.modifyHead_cons, List.append_nil]

theorem intercalate_colon_cons (part : List Char) (rest : List (List Char)) :
    "::".toList.intercalate ((':' :: part) :: rest) =
      ':' :: "::".toList.intercalate (part :: rest) := by
  cases rest with
  | nil => rfl
  | cons next rest => simp only [List.intercalate_cons_cons, List.cons_append]

/-- A colon in front of a part that starts with another character changes nothing for the parts
behind. -/
theorem isChain_colon_cons {part : List Char} (hne : part ≠ []) (hhead : part.head? ≠ some ':')
    (rest : List (List Char)) :
    ((':' :: part) :: rest).IsChain Clear ↔ (part :: rest).IsChain Clear := by
  obtain ⟨c, tail, rfl⟩ := List.exists_cons_of_ne_nil hne
  cases rest with
  | nil => simp
  | cons next rest =>
      have hc : c ≠ ':' := by simpa using hhead
      simp only [List.isChain_cons_cons, Clear, List.getLast?_cons_cons, ne_eq, List.cons.injEq,
        reduceCtorEq, and_false, not_false_eq_true, hc, false_and, true_and]

/-- No piece of a joined name is empty if and only if its parts are clear of each other. -/
theorem nil_notMem_pieces_iff {first : List Char} {rest : List (List Char)}
    (h : ∀ part ∈ first :: rest, part ≠ [] ∧ Whole part) :
    [] ∉ pieces ("::".toList.intercalate (first :: rest)) ↔ (first :: rest).IsChain Clear := by
  induction rest generalizing first with
  | nil =>
      obtain ⟨hne, hwhole⟩ := h first List.mem_cons_self
      rw [List.intercalate_singleton, hwhole]
      simpa using hne.symm
  | cons second rest ih =>
      rw [List.forall_mem_cons, List.forall_mem_cons] at h
      obtain ⟨⟨hne, hwhole⟩, ⟨hne', hwhole'⟩, hrest⟩ := h
      rw [List.intercalate_cons_cons, List.isChain_cons_cons]
      by_cases hlast : first.getLast? = some ':'
      · obtain ⟨front, rfl⟩ := List.getLast?_eq_some_iff.mp hlast
        obtain ⟨hfront, _, hend⟩ := whole_append_iff.mp hwhole
        have hshift (tail : List Char) :
            front ++ [':'] ++ "::".toList ++ tail = front ++ "::".toList ++ ':' :: tail := by
          simp
        rw [hshift, pieces_separated hfront (by simpa using hend), List.mem_cons, not_or]
        by_cases hhead : second.head? = some ':'
        · obtain ⟨tail, rfl⟩ := List.head?_eq_some_iff.mp hhead
          rw [intercalate_colon_cons]
          simp [pieces, Clear]
        · have hcolon : Whole (':' :: second) :=
            whole_cons_iff.mpr ⟨by decide, fun _ => hhead, hwhole'⟩
          rw [← intercalate_colon_cons,
            ih (List.forall_mem_cons.mpr ⟨⟨List.cons_ne_nil _ _, hcolon⟩, hrest⟩),
            isChain_colon_cons hne' hhead]
          simp [Clear, hhead, eq_comm]
      · rw [pieces_separated hwhole hlast, List.mem_cons, not_or,
          ih (List.forall_mem_cons.mpr ⟨⟨hne', hwhole'⟩, hrest⟩)]
        have hclear : Clear first second :=
          ⟨fun h => hlast (by rw [h]; rfl), fun h => hlast h.1⟩
        simp [hne.symm, hclear]

/-! ## Spellings -/

theorem length_intercalate (first : List Char) (rest : List (List Char)) :
    ("::".toList.intercalate (first :: rest)).length + 2 =
      ((first :: rest).map fun part => part.length + 2).sum := by
  induction rest generalizing first with
  | nil => simp
  | cons second rest ih =>
      rw [List.intercalate_cons_cons, List.map_cons, List.sum_cons, ← ih]
      simp
      omega

/-- Each empty part that is dropped takes a separator with it. -/
theorem sum_filter_add_count (parts : List (List Char)) :
    ((parts.filter (!·.isEmpty)).map fun part => part.length + 2).sum + 2 * parts.count [] =
      (parts.map fun part => part.length + 2).sum := by
  induction parts with
  | nil => rfl
  | cons part parts ih =>
      cases part with
      | nil =>
          have hfilter : ([] :: parts).filter (!·.isEmpty) = parts.filter (!·.isEmpty) := rfl
          rw [hfilter, List.count_cons_self, List.map_cons, List.sum_cons, ← ih, List.length_nil]
          omega
      | cons c part =>
          have hfilter : ((c :: part) :: parts).filter (!·.isEmpty) =
              (c :: part) :: parts.filter (!·.isEmpty) := rfl
          rw [hfilter, List.count_cons_of_ne (List.cons_ne_nil c part), List.map_cons,
            List.map_cons, List.sum_cons, List.sum_cons, ← ih]
          omega

theorem toList_canonical (name : String) :
    (canonical name).toList =
      "::".toList.intercalate ((pieces name.toList).filter (!·.isEmpty)) := by
  rw [canonical, join, String.toList_intercalate, parts_eq_pieces]

theorem canonical_eq_self_iff {name : String} (hdot : '.' ∉ name.toList) (hne : name ≠ "") :
    canonical name = name ↔ [] ∉ pieces name.toList := by
  rw [← String.toList_inj, toList_canonical]
  constructor
  · intro h hempty
    have hcount : 0 < (pieces name.toList).count [] := List.count_pos_iff.mpr hempty
    have hsum := sum_filter_add_count (pieces name.toList)
    have hlength := congrArg List.length (intercalate_pieces hdot)
    obtain ⟨first, others, hpieces⟩ := exists_pieces name.toList
    cases hkept : (pieces name.toList).filter (!·.isEmpty) with
    | nil =>
        rw [hkept] at h
        exact hne (String.toList_eq_nil_iff.mp h.symm)
    | cons kept rest =>
        have hshort := length_intercalate kept rest
        have hlong := length_intercalate first others
        rw [hkept] at h hsum
        rw [hpieces] at hsum hlength hcount
        rw [h] at hshort
        omega
  · intro h
    have hkept : (pieces name.toList).filter (!·.isEmpty) = pieces name.toList := by
      apply List.filter_eq_self.mpr
      intro piece hp
      cases piece with
      | nil => exact absurd hp h
      | cons c piece => rfl
    rw [hkept, intercalate_pieces hdot]

theorem dot_notMem_intercalate {parts : List (List Char)} (h : ∀ part ∈ parts, '.' ∉ part) :
    '.' ∉ "::".toList.intercalate parts := by
  induction parts with
  | nil => simp
  | cons first rest ih =>
      rw [List.forall_mem_cons] at h
      cases rest with
      | nil => simpa using h.1
      | cons second rest =>
          simp only [List.intercalate_cons_cons, List.mem_append, not_or]
          exact ⟨⟨h.1, by decide⟩, ih h.2⟩

/-- Spelling a canonical name again changes nothing if and only if its parts are clear of each
other. -/
theorem canonical_canonical_iff (name : String) :
    canonical (canonical name) = canonical name ↔
      ((parts name).map String.toList).IsChain Clear := by
  have hparts : ∀ part ∈ (parts name).map String.toList, part ≠ [] ∧ Whole part := by
    rw [parts_eq_pieces]
    intro part hp
    obtain ⟨hpiece, hne⟩ := List.mem_filter.mp hp
    exact ⟨by simpa using hne, whole_of_mem_pieces part hpiece⟩
  have hspelt := toList_canonical name
  rw [← parts_eq_pieces] at hspelt
  cases hall : (parts name).map String.toList with
  | nil =>
      have hempty : canonical name = "" := by
        rw [hall] at hspelt
        exact String.toList_eq_nil_iff.mp hspelt
      rw [hempty]
      exact ⟨fun _ => .nil, fun _ => by decide⟩
  | cons first rest =>
      rw [hall] at hparts hspelt
      have hdot : '.' ∉ (canonical name).toList := by
        rw [hspelt]
        exact dot_notMem_intercalate fun part hp => not_mem_of_whole (hparts part hp).2
      have hne : canonical name ≠ "" := by
        intro hempty
        have hlength := length_intercalate first rest
        rw [← hspelt, hempty, List.map_cons, List.sum_cons] at hlength
        have hfirst : first.length = 0 := by
          simp only [String.toList_empty, List.length_nil] at hlength
          omega
        exact (hparts first List.mem_cons_self).1 (List.length_eq_zero_iff.mp hfirst)
      rw [canonical_eq_self_iff hdot hne, hspelt, nil_notMem_pieces_iff hparts]

end TopicCodec.Name
