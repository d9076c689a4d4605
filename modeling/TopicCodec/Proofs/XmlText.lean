import Mathlib.Data.List.TakeWhile
import TopicCodec.Markup.Writer

/-!
# Elements read back

How elements are spelled is said without a reader: `Opens` for the rest of a start tag, `Lists` for
elements one after the other. A reader is `Faithful` if it takes a text that spells one element for
this element, and that is all that is assumed of it where a description is read back. The reader at
hand is faithful. What is shown of how it takes pieces of a text holds whatever comes behind them.
-/
namespace TopicCodec.Xml

/-- Text that a document may hold. -/
def Legal (text : String) : Prop := text.toList.all isChar = true

/-- Characters that an attribute value can hold as they are. -/
def isPlain (c : Char) : Bool := isChar c && c != '\t' && c != '\n' && c != '\r'

/-- Text that an attribute value can hold. -/
def Plain (text : String) : Prop := text.toList.all isPlain = true

instance (text : String) : Decidable (Legal text) :=
  inferInstanceAs (Decidable (text.toList.all isChar = true))

instance (text : String) : Decidable (Plain text) :=
  inferInstanceAs (Decidable (text.toList.all isPlain = true))

/-- Blanks made spaces, a line break of two characters being one. -/
def spaceBlanks : List Char → List Char
  | [] => []
  | '\r' :: '\n' :: rest => ' ' :: spaceBlanks rest
  | c :: rest => (if isBlank c then ' ' else c) :: spaceBlanks rest

/-- What is read of a text that stands in an attribute value as it is. -/
def spaced (text : String) : String := String.ofList (spaceBlanks text.toList)

theorem eq_space_of_mem_spaceBlanks {text : List Char} {c : Char} (h : c ∈ spaceBlanks text)
    (hc : isBlank c = true) : c = ' ' := by
  fun_induction spaceBlanks text with
  | case1 => simp at h
  | case2 rest ih => simpa using fun hne => (List.mem_cons.mp h).resolve_left hne |> ih
  | case3 d rest _ ih =>
      rcases List.mem_cons.mp h with rfl | h
      · split_ifs at hc ⊢ <;> simp_all
      · exact ih h

theorem spaceBlanks_eq_self_iff {text : List Char} :
    spaceBlanks text = text ↔ ∀ c ∈ text, c ≠ '\t' ∧ c ≠ '\n' ∧ c ≠ '\r' := by
  constructor
  · intro h c hc
    rw [← h] at hc
    have hspace := eq_space_of_mem_spaceBlanks hc
    refine ⟨?_, ?_, ?_⟩ <;> rintro rfl <;> exact absurd (hspace rfl) (by decide)
  · intro h
    fun_induction spaceBlanks text with
    | case1 => rfl
    | case2 rest _ => simp at h
    | case3 c rest _ ih =>
        rw [List.forall_mem_cons] at h
        have hkept : (if isBlank c then ' ' else c) = c := by
          split_ifs with hblank
          · simp [isBlank, h.1] at hblank
            exact hblank.symm
          · rfl
        rw [ih h.2, hkept]

theorem spaced_eq_self_iff {text : String} :
    spaced text = text ↔ ∀ c ∈ text.toList, c ≠ '\t' ∧ c ≠ '\n' ∧ c ≠ '\r' := by
  rw [spaced, ← String.toList_inj, String.toList_ofList, spaceBlanks_eq_self_iff]

theorem plain_iff {text : String} :
    Plain text ↔ Legal text ∧ ∀ c ∈ text.toList, c ≠ '\t' ∧ c ≠ '\n' ∧ c ≠ '\r' := by
  simp only [Plain, Legal, isPlain, List.all_eq_true, Bool.and_eq_true, bne_iff_ne, ne_eq]
  grind

/-! ## Spelling -/

open Markup.Writer (escape)
open Reader (startsName xmlnsName)

/-- A name without a prefix. -/
def isTag (tag : List Char) : Bool := startsName tag && tag.all isNameChar && !tag.contains ':'

/-- An attribute in a tag, with a value as it is written. -/
def attributeText (name raw : List Char) : List Char :=
  ' ' :: (name ++ ('=' :: '"' :: (raw ++ ['"'])))

/-- How a start tag ends, an empty element with a slash. -/
def tagEnd : Bool → List Char
  | true => ['/', '>']
  | false => ['>']

/-- The end tag of an element. -/
def endText (tag : List Char) : List Char := '<' :: '/' :: (tag ++ ['>'])

inductive Opens : List Char → List Attribute → Bool → Prop
  | bare (empty : Bool) : Opens (tagEnd empty) [] empty
  | attr {name text : List Char} (hname : isTag name = true) (hxmlns : name ≠ xmlnsName)
      (htext : text.all isChar = true) (empty : Bool) :
      Opens (attributeText name (text.flatMap escape) ++ tagEnd empty)
        [⟨String.ofList name, String.ofList (spaceBlanks text)⟩] empty

/-- The text stands for elements one after the other. -/
inductive Lists : List Char → List Element → Prop
  | nil : Lists [] []
  | empty {tag text rest : List Char} {attributes : List Attribute} {elements : List Element}
      (htag : isTag tag = true) (hopens : Opens text attributes true)
      (hrest : Lists rest elements) :
      Lists ('<' :: (tag ++ text) ++ rest) (.mk (String.ofList tag) attributes [] :: elements)
  | nest {tag text inner rest : List Char} {attributes : List Attribute}
      {children elements : List Element} (htag : isTag tag = true)
      (hopens : Opens text attributes false) (hinner : Lists inner children)
      (hrest : Lists rest elements) :
      Lists ('<' :: (tag ++ text ++ (inner ++ endText tag)) ++ rest)
        (.mk (String.ofList tag) attributes children :: elements)

theorem Lists.append {text text' : List Char} {elements elements' : List Element}
    (h : Lists text elements) (h' : Lists text' elements') :
    Lists (text ++ text') (elements ++ elements') := by
  induction h with
  | nil => exact h'
  | empty htag hopens _ ih =>
      rw [List.append_assoc]
      exact .empty htag hopens ih
  | nest htag hopens hinner _ _ ih =>
      rw [List.append_assoc]
      exact .nest htag hopens hinner ih

/-- A reader of XML that takes a text which spells an element for this element. -/
def Faithful (xml : String → Option Element) : Prop :=
  ∀ text root, Lists text [root] → xml (String.ofList text) = some root

namespace Reader

/-! ## Attribute values -/

/-- Characters that may stand between double quotes. -/
def isQuotable (c : Char) : Bool := isChar c && c != '"' && c != '<'

theorem escape_cases (c : Char) :
    (escape c = [c] ∧ c ≠ '&' ∧ (isChar c = true → isQuotable c = true)) ∨
      ∃ body, escape c = '&' :: body ∧ (∀ rest, reference (body ++ rest) = some (c, rest)) ∧
        body.all isQuotable = true ∧ isBlank c = false := by
  unfold escape
  split
  · exact .inr ⟨"amp;".toList, rfl, fun rest => rfl, by decide, by decide⟩
  · exact .inr ⟨"lt;".toList, rfl, fun rest => rfl, by decide, by decide⟩
  · exact .inr ⟨"gt;".toList, rfl, fun rest => rfl, by decide, by decide⟩
  · exact .inr ⟨"quot;".toList, rfl, fun rest => rfl, by decide, by decide⟩
  · rename_i hand hlt _ hquot
    refine .inl ⟨rfl, hand, fun hchar => ?_⟩
    simp only [isQuotable, hchar, Bool.true_and, Bool.and_eq_true, bne_iff_ne]
    exact ⟨hquot, hlt⟩

theorem quotable_escape {text : List Char} (h : text.all isChar = true) :
    (text.flatMap escape).all isQuotable = true := by
  rw [List.all_eq_true] at h
  rw [List.all_flatMap, List.all_eq_true]
  intro c hc
  rcases escape_cases c with ⟨hsame, _, hquot⟩ | ⟨body, hbody, _, hquot, _⟩
  · rw [hsame, List.all_cons, hquot (h c hc)]
    rfl
  · rw [hbody, List.all_cons, hquot]
    rfl

theorem exists_of_flatMap_escape {text rest : List Char} (h : text.flatMap escape = '\n' :: rest) :
    ∃ text', text = '\n' :: text' := by
  cases text with
  | nil => simp at h
  | cons c text =>
      rw [List.flatMap_cons] at h
      rcases escape_cases c with ⟨hsame, _⟩ | ⟨body, hbody, _⟩
      · rw [hsame] at h
        exact ⟨text, by rw [(List.cons.inj h).1]⟩
      · rw [hbody] at h
        exact absurd (List.cons.inj h).1 (by decide)

/-- Escaped text is normalized to the text, but for its blanks. -/
theorem normalize_escape {text : List Char} {fuel : Nat} (hfuel : text.length ≤ fuel) :
    normalize fuel (text.flatMap escape) = some (spaceBlanks text) := by
  fun_induction spaceBlanks text generalizing fuel with
  | case1 => cases fuel <;> rfl
  | case2 rest ih =>
      obtain ⟨fuel, rfl⟩ : ∃ n, fuel = n + 2 := ⟨fuel - 2, by simp at hfuel; omega⟩
      have hrest := ih (by simp at hfuel; omega : rest.length ≤ fuel)
      have hbreak : ('\r' :: '\n' :: rest).flatMap escape =
          '\r' :: '\n' :: rest.flatMap escape := rfl
      have hfeed : normalize (fuel + 1) ('\n' :: rest.flatMap escape) =
          (normalize fuel (rest.flatMap escape)).map (' ' :: ·) := by
        rw [normalize]
        · rfl
        · exact fun h => absurd h (by decide)
        · exact fun _ h => absurd h (by decide)
      rw [hbreak, normalize, hfeed, hrest]
      rfl
  | case3 c rest hbreak ih =>
      obtain ⟨fuel, rfl⟩ : ∃ n, fuel = n + 1 := ⟨fuel - 1, by simp at hfuel; omega⟩
      have hrest := ih (Nat.le_of_succ_le_succ hfuel)
      rw [List.flatMap_cons]
      rcases escape_cases c with ⟨hsame, hand, _⟩ | ⟨body, hbody, href, _, hblank⟩
      · rw [hsame, List.singleton_append, normalize]
        · rw [hrest]
          rfl
        · exact hand
        · intro tail hc htail
          obtain ⟨rest', hrest'⟩ := exists_of_flatMap_escape htail
          exact hbreak rest' hc hrest'
      · rw [hbody, List.cons_append, normalize, href]
        simp only [hrest, hblank, Option.map_some, Bool.false_eq_true, if_false]

theorem length_le_flatMap_escape (text : List Char) :
    text.length ≤ (text.flatMap escape).length := by
  induction text with
  | nil => rfl
  | cons c text ih =>
      have hpos : 1 ≤ (escape c).length := by
        rcases escape_cases c with ⟨hsame, _⟩ | ⟨body, hbody, _⟩
        · rw [hsame]
          rfl
        · rw [hbody]
          exact Nat.succ_le_succ (Nat.zero_le _)
      simp only [List.length_cons, List.flatMap_cons, List.length_append]
      omega

theorem charsUntil_quote {raw : List Char} (h : raw.all isQuotable = true) (rest : List Char) :
    charsUntil (fun input => input.head? == some '"' || input.head? == some '<')
      (raw ++ '"' :: rest) = some (raw, '"' :: rest) := by
  induction raw with
  | nil => rfl
  | cons c raw ih =>
      simp only [List.all_cons, isQuotable, Bool.and_eq_true, bne_iff_ne, ne_eq] at h
      obtain ⟨⟨⟨hchar, hquot⟩, hlt⟩, hrest⟩ := h
      simp [charsUntil, hchar, hquot, hlt, ih hrest]

theorem quoted_quote {raw : List Char} (h : raw.all isQuotable = true) (rest : List Char) :
    quoted ('"' :: (raw ++ '"' :: rest)) = some (raw, rest) := by
  simp [quoted, charsUntil_quote h rest]

/-! ## Tags -/

theorem exists_cons_of_isTag {tag : List Char} (h : isTag tag = true) :
    ∃ c rest, tag = c :: rest ∧ ∀ other, isNameStart other = false → c ≠ other := by
  simp only [isTag, Bool.and_eq_true] at h
  cases tag with
  | nil => cases h.1.1
  | cons c rest =>
      refine ⟨c, rest, rfl, ?_⟩
      rintro other ho rfl
      cases ho.symm.trans h.1.1

theorem qname_tag {tag : List Char} (h : isTag tag = true) {c : Char} (hc : isNameChar c = false)
    (rest : List Char) : qname (tag ++ c :: rest) = some (⟨[], tag⟩, c :: rest) := by
  simp only [isTag, Bool.and_eq_true, List.all_eq_true, Bool.not_eq_true'] at h
  obtain ⟨⟨hstart, hall⟩, hcolon⟩ := h
  have htake : (tag ++ c :: rest).takeWhile isNameChar = tag := by
    rw [List.takeWhile_append_of_pos hall, List.takeWhile_cons_of_neg (by simp [hc]),
      List.append_nil]
  have hdrop : (tag ++ c :: rest).dropWhile isNameChar = c :: rest := by
    rw [List.dropWhile_append_of_pos hall, List.dropWhile_cons_of_neg (by simp [hc])]
  have hfree : ∀ c ∈ tag, (c != ':') = true := by
    intro c hm
    rw [bne_iff_ne]
    rintro rfl
    rw [List.contains_iff_mem.mpr hm] at hcolon
    cases hcolon
  have hqualify : qualify tag = some ⟨[], tag⟩ := by
    have hnone : tag.dropWhile (· != ':') = [] := List.dropWhile_eq_nil_iff.mpr hfree
    have hfront : tag.takeWhile (· != ':') = tag := List.takeWhile_eq_self_iff.mpr hfree
    simp only [qualify, hnone, hfront, hstart, if_true]
  rw [qname, htake, hdrop, hqualify]
  rfl

theorem skipBlanks_tag {tag : List Char} (h : isTag tag = true) (rest : List Char) :
    skipBlanks (tag ++ rest) = tag ++ rest := by
  obtain ⟨c, tail, rfl, hc⟩ := exists_cons_of_isTag h
  have hblank : isBlank c = false := by
    simp only [isBlank, Bool.or_eq_false_iff, beq_eq_false_iff_ne]
    exact ⟨⟨⟨hc _ (by decide), hc _ (by decide)⟩, hc _ (by decide)⟩, hc _ (by decide)⟩
  rw [List.cons_append, skipBlanks, List.dropWhile_cons_of_neg (by simp [hblank])]

theorem tagRest_attribute {name raw value : List Char} (hname : isTag name = true)
    (hraw : raw.all isQuotable = true) (hvalue : normalize raw.length raw = some value) (fuel : Nat)
    (rest : List Char) {attributes : List RawAttribute} {empty : Bool} {after : List Char}
    (hrest : tagRest fuel rest = some ((attributes, empty), after)) :
    tagRest (fuel + 1) (attributeText name raw ++ rest) =
      some ((⟨⟨[], name⟩, value⟩ :: attributes, empty), after) := by
  have hinput : attributeText name raw ++ rest =
      ' ' :: (name ++ ('=' :: '"' :: (raw ++ '"' :: rest))) := by
    simp [attributeText]
  have hskip : skipBlanks (' ' :: (name ++ ('=' :: '"' :: (raw ++ '"' :: rest)))) =
      name ++ ('=' :: '"' :: (raw ++ '"' :: rest)) := skipBlanks_tag hname _
  have hattr : rawAttribute (name ++ ('=' :: '"' :: (raw ++ '"' :: rest))) =
      some (⟨⟨[], name⟩, raw⟩, rest) := by
    have hq := qname_tag hname (by decide : isNameChar '=' = false)
      ('"' :: (raw ++ '"' :: rest))
    have hskip' : skipBlanks ('"' :: (raw ++ '"' :: rest)) = '"' :: (raw ++ '"' :: rest) := rfl
    have hequals : skipBlanks ('=' :: '"' :: (raw ++ '"' :: rest)) =
      '=' :: '"' :: (raw ++ '"' :: rest) := rfl
    simp only [rawAttribute, hq, hequals, hskip', quoted_quote hraw, Option.map_some]
  obtain ⟨c, tail, htag, hc⟩ := exists_cons_of_isTag hname
  rw [hinput]
  unfold tagRest
  rw [hskip]
  split
  · rename_i heq
    rw [htag] at heq
    exact absurd (List.cons.inj heq).1 (hc '/' (by decide))
  · rename_i heq
    rw [htag] at heq
    exact absurd (List.cons.inj heq).1 (hc '>' (by decide))
  · simp only [hattr, hvalue, hrest]
    rfl

structure TagRead (text : List Char) (attributes : List Attribute) (empty : Bool) : Prop where
  ends_name : ∃ c rest, text = c :: rest ∧ isNameChar c = false
  reads : ∀ rest, ∃ raw,
    tagRest ((text ++ rest).length + 1) (text ++ rest) = some ((raw, empty), rest) ∧
      declarations [] raw = some ([], raw) ∧ resolve [] [] raw = some attributes

theorem tagRest_tagEnd (empty : Bool) (fuel : Nat) (rest : List Char) :
    tagRest (fuel + 1) (tagEnd empty ++ rest) = some (([], empty), rest) := by
  cases empty <;> rfl

theorem tagRead_of_opens {text : List Char} {attributes : List Attribute} {empty : Bool}
    (h : Opens text attributes empty) : TagRead text attributes empty := by
  cases h with
  | bare empty =>
      refine ⟨?_, fun rest => ⟨[], tagRest_tagEnd empty _ rest, rfl, rfl⟩⟩
      cases empty <;> exact ⟨_, _, rfl, by decide⟩
  | @attr name text hname hxmlns htext empty =>
      refine ⟨⟨' ', _, rfl, by decide⟩, fun rest => ⟨[⟨⟨[], name⟩, spaceBlanks text⟩], ?_, ?_, rfl⟩⟩
      · rw [List.append_assoc]
        apply tagRest_attribute hname (quotable_escape htext)
          (normalize_escape (length_le_flatMap_escape text))
        rw [List.length_append, attributeText, List.length_cons, Nat.add_right_comm]
        exact tagRest_tagEnd empty _ rest
      · have hscope : ([] : List Char) ≠ xmlnsName := by decide
        simp only [declarations, hscope, hxmlns, if_false, Option.map_some]

/-! ## Elements -/

structure ElementRead (text : List Char) (element : Element) : Prop where
  starts_name : ∃ c rest, text = c :: rest ∧ ∀ other, isNameStart other = false → c ≠ other
  reads : ∀ fuel rest, text.length ≤ fuel →
    Reader.element fuel [] (text ++ rest) = some (element, rest)

/-- The text is read as elements one after the other. -/
def ContentRead (text : List Char) (elements : List Element) : Prop :=
  ∀ fuel parent acc rest, text.length ≤ fuel →
    ∃ fuel', fuel ≤ fuel' + text.length ∧
      content fuel [] parent acc (text ++ rest) =
        content fuel' [] parent (elements.reverse ++ acc) rest

theorem ContentRead.append {text text' : List Char} {elements elements' : List Element}
    (h : ContentRead text elements) (h' : ContentRead text' elements') :
    ContentRead (text ++ text') (elements ++ elements') := by
  intro fuel parent acc rest hfuel
  rw [List.length_append] at hfuel ⊢
  obtain ⟨middle, hmiddle, hfirst⟩ := h fuel parent acc (text' ++ rest) (by omega)
  obtain ⟨last, hlast, hsecond⟩ := h' middle parent (elements.reverse ++ acc) rest (by omega)
  refine ⟨last, by omega, ?_⟩
  rw [List.append_assoc, hfirst, hsecond, List.reverse_append, List.append_assoc]

/-- An element in the content of another one. -/
theorem ElementRead.contentRead {text : List Char} {element : Element}
    (h : ElementRead text element) : ContentRead ('<' :: text) [element] := by
  intro fuel parent acc rest hfuel
  obtain ⟨c, tail, htext, hc⟩ := h.starts_name
  obtain ⟨fuel, rfl⟩ : ∃ n, fuel = n + 1 := ⟨fuel - 1, by simp at hfuel; omega⟩
  have hread := h.reads fuel rest (Nat.le_of_succ_le_succ hfuel)
  refine ⟨fuel, by simp only [List.length_cons]; omega, ?_⟩
  rw [htext] at hread ⊢
  simp only [List.cons_append] at hread ⊢
  rw [content]
  · rw [hread]
    rfl
  all_goals
    intro _ heq
    exact absurd (List.cons.inj heq).1 (hc _ (by decide))

theorem content_endText {tag : List Char} (h : isTag tag = true) (fuel : Nat)
    (acc : List Element) (rest : List Char) :
    content (fuel + 1) [] ⟨[], tag⟩ acc (endText tag ++ rest) = some (acc.reverse, rest) := by
  have hend : endTag (tag ++ '>' :: rest) = some (⟨[], tag⟩, rest) := by
    have hq := qname_tag h (by decide : isNameChar '>' = false) rest
    have hskip : skipBlanks ('>' :: rest) = '>' :: rest := rfl
    simp only [endTag, hq, hskip]
  have hinput : endText tag ++ rest = '<' :: '/' :: (tag ++ '>' :: rest) := by
    simp [endText]
  rw [hinput, content, hend]
  exact if_pos rfl

/-- A start tag is read up to where its content begins. -/
theorem element_opens {tag text : List Char} {attributes : List Attribute} {empty : Bool}
    (htag : isTag tag = true) (h : TagRead text attributes empty) (fuel : Nat)
    (rest : List Char) :
    Reader.element (fuel + 1) [] (tag ++ text ++ rest) =
      if empty then some (.mk (String.ofList tag) attributes [], rest)
      else
        match content fuel [] ⟨[], tag⟩ [] rest with
        | some (children, rest) => some (.mk (String.ofList tag) attributes children, rest)
        | none => none := by
  obtain ⟨c, tail, htext, hc⟩ := h.ends_name
  obtain ⟨raw, hrest, hdeclared, hresolved⟩ := h.reads rest
  have hq : qname (tag ++ text ++ rest) = some (⟨[], tag⟩, text ++ rest) := by
    rw [htext, List.append_assoc]
    exact qname_tag htag hc _
  simp only [Reader.element, hq, hrest, hdeclared, List.nil_append, hresolved]
  rfl

theorem ElementRead.empty {tag text : List Char} {attributes : List Attribute}
    (htag : isTag tag = true) (h : TagRead text attributes true) :
    ElementRead (tag ++ text) (.mk (String.ofList tag) attributes []) where
  starts_name := by
    obtain ⟨c, rest, rfl, hc⟩ := exists_cons_of_isTag htag
    exact ⟨c, rest ++ text, rfl, hc⟩
  reads fuel rest hfuel := by
    obtain ⟨c, tail, rfl, _⟩ := exists_cons_of_isTag htag
    obtain ⟨fuel, rfl⟩ : ∃ n, fuel = n + 1 := ⟨fuel - 1, by simp at hfuel; omega⟩
    exact element_opens htag h fuel rest

theorem ElementRead.nest {tag text inner : List Char} {attributes : List Attribute}
    {children : List Element} (htag : isTag tag = true) (h : TagRead text attributes false)
    (hinner : ContentRead inner children) :
    ElementRead (tag ++ text ++ (inner ++ endText tag))
      (.mk (String.ofList tag) attributes children) where
  starts_name := by
    obtain ⟨c, rest, rfl, hc⟩ := exists_cons_of_isTag htag
    exact ⟨c, rest ++ text ++ (inner ++ endText (c :: rest)), rfl, hc⟩
  reads fuel rest hfuel := by
    simp only [List.length_append, endText, List.length_cons] at hfuel
    obtain ⟨fuel, rfl⟩ : ∃ n, fuel = n + 1 := ⟨fuel - 1, by omega⟩
    obtain ⟨last, hlast, hcontent⟩ :=
      hinner fuel ⟨[], tag⟩ [] (endText tag ++ rest) (by omega)
    obtain ⟨last, rfl⟩ : ∃ n, last = n + 1 := ⟨last - 1, by omega⟩
    rw [List.append_assoc, element_opens htag h, List.append_assoc, hcontent,
      content_endText htag]
    simp

theorem contentRead_of_lists {text : List Char} {elements : List Element}
    (h : Lists text elements) : ContentRead text elements := by
  induction h with
  | nil => exact fun fuel _ _ _ _ => ⟨fuel, le_rfl, rfl⟩
  | empty htag hopens _ ih =>
      exact (ElementRead.empty htag (tagRead_of_opens hopens)).contentRead.append ih
  | nest htag hopens _ _ ihinner ih =>
      exact (ElementRead.nest htag (tagRead_of_opens hopens) ihinner).contentRead.append ih

theorem elementRead_of_lists {text : List Char} {element : Element} (h : Lists text [element]) :
    ∃ inner, text = '<' :: inner ∧ ElementRead inner element := by
  cases h with
  | empty htag hopens hrest =>
      cases hrest
      exact ⟨_, List.append_nil _, .empty htag (tagRead_of_opens hopens)⟩
  | nest htag hopens hinner hrest =>
      cases hrest
      exact ⟨_, List.append_nil _,
        .nest htag (tagRead_of_opens hopens) (contentRead_of_lists hinner)⟩

end Reader

theorem faithful_read? : Faithful read? := by
  intro text root hlists
  obtain ⟨text, rfl, h⟩ := Reader.elementRead_of_lists hlists
  obtain ⟨c, tail, htext, hc⟩ := h.starts_name
  have hmisc (fuel : Nat) : Reader.misc (fuel + 1) ('<' :: text) = some ('<' :: text) := by
    have hskip : Reader.skipBlanks ('<' :: text) = '<' :: text := rfl
    rw [Reader.misc, hskip, htext]
    split
    · rename_i heq
      exact absurd (List.cons.inj (List.cons.inj heq).2).1 (hc '!' (by decide))
    · rename_i heq
      exact absurd (List.cons.inj (List.cons.inj heq).2).1 (hc '?' (by decide))
    · rfl
  have hprolog : Reader.prolog ('<' :: text) = some ('<' :: text) := by
    have hplain : (['<', '?'] ++ Reader.xmlName ++ [' ']).isPrefixOf ('<' :: text) = false := by
      have hne : ('?' == c) = false := beq_false_of_ne (hc '?' (by decide)).symm
      simp [htext, List.isPrefixOf, hne]
    have hstep : Reader.prolog ('<' :: text) =
        (if (['<', '?'] ++ Reader.xmlName ++ [' ']).isPrefixOf ('<' :: text) then
          Reader.declaration (('<' :: text).drop (['<', '?'] ++ Reader.xmlName).length)
        else some ('<' :: text)).bind fun input => Reader.misc (input.length + 1) input := rfl
    rw [hstep, if_neg (ne_true_of_eq_false hplain)]
    exact hmisc _
  have hread := h.reads (2 * text.length + 2) [] (by omega)
  rw [List.append_nil] at hread
  simp only [read?, String.toList_ofList, hprolog, hread]
  rfl

end TopicCodec.Xml
