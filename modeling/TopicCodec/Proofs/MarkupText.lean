import Mathlib.Data.List.Basic
import TopicCodec.Proofs.MarkupNames
import TopicCodec.Proofs.Walk
import TopicCodec.Proofs.XmlText

/-!
# Descriptions read back

A written description is read as the description it was written from, but for blanks in its names
(`Document.read_write_spaced`). Each piece is read as one element, which the reader takes for the
piece (`Reads`); pieces one after the other and pieces within each other follow from that.
-/
namespace TopicCodec

/-! ## Decimal numerals -/

namespace Numeral

theorem digitsFrom_ten {digits : List Char} (h : ∀ c ∈ digits, c.isDigit = true) (acc : Nat) :
    digitsFrom 10 acc digits = some (Nat.ofDigitChars 10 digits acc) := by
  induction digits generalizing acc with
  | nil => rfl
  | cons c digits ih =>
      have hvalue : digitValue? 10 c = some (c.toNat - '0'.toNat) := by
        have hc := h c List.mem_cons_self
        simp only [Char.isDigit, Bool.and_eq_true, decide_eq_true_eq] at hc
        have hrange : '0' ≤ c ∧ c ≤ '9' := hc
        have hsmall : c.toNat - '0'.toNat < 10 := by
          have hnine : c.toNat ≤ '9'.toNat := UInt32.le_iff_toNat_le.mp hc.2
          have : '9'.toNat = '0'.toNat + 9 := rfl
          omega
        simp only [digitValue?, if_pos hrange, Option.filter_some, hsmall, decide_true, if_true]
      rw [digitsFrom, hvalue]
      dsimp only
      rw [ih fun c hc => h c (List.mem_cons_of_mem _ hc), Nat.ofDigitChars, Nat.ofDigitChars,
        List.foldl_cons, Nat.mul_comm]

theorem toList_toString (n : UInt32) : (toString n).toList = Nat.toDigits 10 n.toNat := by
  have htext : toString n = String.ofList (Nat.toDigits 10 n.toNat) :=
    Nat.toString_eq_ofList_toDigits
  rw [htext, String.toList_ofList]

theorem isDigit_toString (n : UInt32) : ∀ c ∈ (toString n).toList, c.isDigit = true := by
  rw [toList_toString]
  exact fun c hc => Nat.isDigit_of_mem_toDigits (by decide) (by decide) hc

theorem readUInt32?_toString (n : UInt32) : readUInt32? (toString n) = some n := by
  have hdigits := isDigit_toString n
  have hread : ofDigits? 10 (toString n).toList = some n.toNat := by
    have hne : (toString n).toList.isEmpty = false := by
      rw [toList_toString]
      exact List.isEmpty_eq_false_iff.mpr Nat.toDigits_ne_nil
    rw [ofDigits?, hne, digitsFrom_ten hdigits, toList_toString, Nat.ofDigitChars_ten_toDigits]
    rfl
  unfold readUInt32?
  split
  · rename_i rest hplus
    rw [hplus] at hdigits
    exact absurd (hdigits '+' List.mem_cons_self) (by decide)
  · dsimp only
    rw [hread]
    have hlt := n.toNat_lt_size
    simp only [hlt, if_true, UInt32.ofNat_toNat]

end Numeral

namespace Markup

open Xml (Legal spaced)
open Xml (Lists Opens attributeText tagEnd endText)

namespace Writer

/-- The text is read as one element, which is taken for the value. -/
def Reads {α : Type} (read : Xml.Element → Except MarkupError α) (text : String) (value : α) :
    Prop :=
  ∃ element, Lists text.toList [element] ∧ read element = .ok value

theorem Reads.of_lists {α : Type} {read : Xml.Element → Except MarkupError α} {text : String}
    {value : α} {chars : List Char} {element : Xml.Element} (htext : text.toList = chars)
    (hlists : Lists chars [element]) (hread : read element = .ok value) :
    Reads read text value :=
  ⟨element, by rwa [htext], hread⟩

theorem escape_toString (n : UInt32) :
    Xml.Plain (toString n) ∧ (toString n).toList.flatMap escape = (toString n).toList := by
  have hdigit (c : Char) (hc : c.isDigit = true) : Xml.isPlain c = true ∧ escape c = [c] := by
    have hne (other : Char) (ho : other.isDigit = false) : c ≠ other := by
      rintro rfl
      cases ho.symm.trans hc
    constructor
    · have hchar : Xml.isChar c = true := by
        simp only [Char.isDigit, Bool.and_eq_true, decide_eq_true_eq] at hc
        have hlow : 48 ≤ c.toNat := UInt32.le_iff_toNat_le.mp hc.1
        have hhigh : c.toNat ≤ 57 := UInt32.le_iff_toNat_le.mp hc.2
        simp only [Xml.isChar, Nat.not_lt.mpr (Nat.le_trans (by decide : 0x20 ≤ 48) hlow), if_false,
          Bool.and_eq_true, bne_iff_ne]
        omega
      simp only [Xml.isPlain, hchar, Bool.true_and, Bool.and_eq_true, bne_iff_ne]
      exact ⟨⟨hne _ (by decide), hne _ (by decide)⟩, hne _ (by decide)⟩
    · unfold escape
      split
      · exact absurd rfl (hne '&' (by decide))
      · exact absurd rfl (hne '<' (by decide))
      · exact absurd rfl (hne '>' (by decide))
      · exact absurd rfl (hne '"' (by decide))
      · rfl
  have hsame : (toString n).toList.flatMap escape = (toString n).toList := by
    calc (toString n).toList.flatMap escape
        = (toString n).toList.flatMap (fun c => [c]) :=
          List.flatMap_congr fun c hc => (hdigit c (Numeral.isDigit_toString n c hc)).2
      _ = (toString n).toList := List.flatMap_singleton' _
  exact ⟨List.all_eq_true.mpr fun c hc => (hdigit c (Numeral.isDigit_toString n c hc)).1, hsame⟩

theorem lists_empty (tag : String) {text : List Char} {attributes : List Xml.Attribute}
    (htag : Xml.isTag tag.toList = true) (h : Opens text attributes true) :
    Lists ('<' :: (tag.toList ++ text)) [.mk tag attributes []] := by
  have hlists := Lists.empty htag h .nil
  rwa [String.ofList_toList, List.append_nil] at hlists

theorem lists_nested (tag : String) {text inner : List Char} {attributes : List Xml.Attribute}
    {children : List Xml.Element} (htag : Xml.isTag tag.toList = true)
    (h : Opens text attributes false) (hinner : Lists inner children) :
    Lists ('<' :: (tag.toList ++ text ++ (inner ++ endText tag.toList)))
      [.mk tag attributes children] := by
  have hlists := Lists.nest htag h hinner .nil
  rwa [String.ofList_toList, List.append_nil] at hlists

theorem opens_name {name : String} (h : Legal name) (empty : Bool) :
    Opens (attributeText "name".toList (name.toList.flatMap escape) ++ tagEnd empty)
      [⟨"name", spaced name⟩] empty := by
  have hopens := Opens.attr (by decide : Xml.isTag "name".toList = true) (by decide) h empty
  rwa [String.ofList_toList] at hopens

theorem opens_number (name : String) (hname : Xml.isTag name.toList = true)
    (hxmlns : name.toList ≠ Xml.Reader.xmlnsName) (n : UInt32) (empty : Bool) :
    Opens (attributeText name.toList (toString n).toList ++ tagEnd empty)
      [⟨name, toString n⟩] empty := by
  obtain ⟨hplain, hsame⟩ := escape_toString n
  obtain ⟨hlegal, hunbroken⟩ := Xml.plain_iff.mp hplain
  have hopens := Opens.attr hname hxmlns hlegal empty
  rwa [hsame, Xml.spaceBlanks_eq_self_iff.mpr hunbroken, String.ofList_toList,
    String.ofList_toList] at hopens

theorem required_attribute (tag name value : String) (children : List Xml.Element) :
    Reader.required (.mk tag [⟨name, value⟩] children) name = .ok value := by
  simp [Reader.required, Xml.Element.attribute?, Xml.Element.attributes]

theorem numeric_attribute (tag name : String) (n : UInt32) (children : List Xml.Element) :
    Reader.numeric (.mk tag [⟨name, toString n⟩] children) name = .ok n := by
  unfold Reader.numeric
  rw [required_attribute]
  simp only [bind, Except.bind, Numeral.readUInt32?_toString]
  rfl

theorem reads_type {type : MemberType} (h : ∀ name ∈ type.names, Legal name) :
    Reads Reader.type (Writer.type type) (type.mapNames spaced) := by
  induction type with
  | number kind =>
      have htext : (Writer.type (.number kind)).toList =
          '<' :: ((kindTag kind).toList ++ tagEnd true) := by
        have htext : Writer.type (.number kind) = "<" ++ kindTag kind ++ "/>" := rfl
        rw [htext, String.toList_append, String.toList_append]
        rfl
      have htag : Xml.isTag (kindTag kind).toList = true := by cases kind <;> decide
      apply Reads.of_lists htext (lists_empty _ htag (.bare true))
      cases kind <;> rfl
  | boolean =>
      exact .of_lists rfl (lists_empty "Boolean" (by decide) (.bare true)) rfl
  | string length =>
      cases length with
      | none =>
          exact .of_lists rfl (lists_empty "String" (by decide) (.bare true)) rfl
      | some length =>
          have htext : (Writer.type (.string (some length))).toList = '<' :: ("String".toList ++
              (attributeText "length".toList (toString length).toList ++ tagEnd true)) := by
            have htext : Writer.type (.string (some length)) =
                "<String length=\"" ++ toString length ++ "\"/>" := rfl
            rw [htext, String.toList_append, String.toList_append, List.append_assoc]
            simp only [attributeText, List.cons_append, List.append_assoc]
            rfl
          apply Reads.of_lists htext (lists_empty "String" (by decide)
            (opens_number "length" (by decide) (by decide) length true))
          have hread : Reader.type (.mk "String" [⟨"length", toString length⟩] []) =
              ((Reader.numeric (.mk "String" [⟨"length", toString length⟩] []) "length").map
                some).map .string := rfl
          rw [hread, numeric_attribute]
          rfl
  | sequence elem ih =>
      obtain ⟨element, hlists, hread⟩ := ih h
      have htext : (Writer.type (.sequence elem)).toList = '<' :: ("Sequence".toList ++
          tagEnd false ++ ((Writer.type elem).toList ++ endText "Sequence".toList)) := by
        have htext : Writer.type (.sequence elem) =
            "<Sequence>" ++ Writer.type elem ++ "</Sequence>" := rfl
        rw [htext, String.toList_append, String.toList_append, List.append_assoc]
        rfl
      apply Reads.of_lists htext
        (lists_nested "Sequence" (by decide) (.bare false) hlists)
      have hstep : Reader.type (.mk "Sequence" [] [element]) =
          (Reader.type element).map .sequence := rfl
      rw [hstep, hread]
      rfl
  | array size elem ih =>
      obtain ⟨element, hlists, hread⟩ := ih h
      have htext : (Writer.type (.array size elem)).toList = '<' :: ("Array".toList ++
          (attributeText "size".toList (toString size).toList ++ tagEnd false) ++
            ((Writer.type elem).toList ++ endText "Array".toList)) := by
        have htext : Writer.type (.array size elem) =
            "<Array size=\"" ++ toString size ++ "\">" ++ Writer.type elem ++ "</Array>" := rfl
        rw [htext]
        simp only [String.toList_append, attributeText, List.cons_append, List.append_assoc]
        rfl
      apply Reads.of_lists htext (lists_nested "Array" (by decide)
        (opens_number "size" (by decide) (by decide) size false) hlists)
      have hkind : kindTags.lookup "Array" = none := by decide
      have honly (parent : Xml.Element) :
          Reader.onlyType parent [element] = .ok (elem.mapNames spaced) := hread
      unfold Reader.type
      simp only [numeric_attribute, hkind, honly, Except.map, MemberType.mapNames]
  | named name =>
      have htext : (Writer.type (.named name)).toList = '<' :: ("Type".toList ++
          (attributeText "name".toList (name.toList.flatMap escape) ++ tagEnd true)) := by
        have htext : Writer.type (.named name) =
            "<Type name=\"" ++ String.ofList (name.toList.flatMap escape) ++ "\"/>" := rfl
        rw [htext]
        simp only [String.toList_append, String.toList_ofList, attributeText, List.cons_append,
          List.append_assoc]
        rfl
      have hopens := opens_name (h name List.mem_cons_self) true
      apply Reads.of_lists htext (lists_empty "Type" (by decide) hopens)
      have hstep : Reader.type (.mk "Type" [⟨"name", spaced name⟩] []) =
          (Reader.required (.mk "Type" [⟨"name", spaced name⟩] []) "name").map .named := rfl
      rw [hstep, required_attribute]
      rfl

theorem lists_named (tag : String) {name content : String} {children : List Xml.Element}
    (htag : Xml.isTag tag.toList = true) (hname : Legal name)
    (h : Lists content.toList children) :
    Lists (named tag name content).toList [.mk tag [⟨"name", spaced name⟩] children] := by
  have htext : (named tag name content).toList =
      '<' :: (tag.toList ++ (attributeText "name".toList (name.toList.flatMap escape) ++
        tagEnd false) ++ (content.toList ++ endText tag.toList)) := by
    have htext : named tag name content = "<" ++ tag ++ " name=\"" ++
        String.ofList (name.toList.flatMap escape) ++ "\">" ++ content ++ ("</" ++ tag ++ ">") :=
      rfl
    rw [htext]
    simp only [String.toList_append, String.toList_ofList, attributeText, endText,
      List.cons_append, List.append_assoc]
    rfl
  rw [htext]
  exact lists_nested tag htag (opens_name hname false) h

/-- Pieces one after the other are read as elements that are taken for them. -/
theorem exists_lists {α : Type} {read : Xml.Element → Except MarkupError α} {text : α → String}
    {value : α → α} {items : List α} (h : ∀ item ∈ items, Reads read (text item) (value item)) :
    ∃ elements, Lists (String.join (items.map text)).toList elements ∧
      elements.mapM read = .ok (items.map value) := by
  rw [String.toList_join, List.flatMap_map]
  induction items with
  | nil => exact ⟨[], .nil, rfl⟩
  | cons item items ih =>
      obtain ⟨element, hlists, hread⟩ := h item List.mem_cons_self
      obtain ⟨elements, hrest, hreads⟩ := ih fun item hi => h item (List.mem_cons_of_mem _ hi)
      refine ⟨element :: elements, hlists.append hrest, ?_⟩
      rw [List.mapM_cons, hread, hreads]
      rfl

theorem reads_member {member : Member} (h : ∀ name ∈ member.names, Legal name) :
    Reads Reader.member (Writer.member member) (member.mapNames spaced) := by
  obtain ⟨hname, htype⟩ := List.forall_mem_cons.mp h
  obtain ⟨element, hlists, hread⟩ := reads_type htype
  refine ⟨_, lists_named "Member" (by decide) hname hlists, ?_⟩
  have hstep : Reader.member (.mk "Member" [⟨"name", spaced member.name⟩] [element]) = (do
      let name ← Reader.required (.mk "Member" [⟨"name", spaced member.name⟩] [element]) "name"
      let type ← Reader.type element
      return ⟨name, type⟩) := rfl
  rw [hstep, required_attribute, hread]
  rfl

theorem reads_struct {struct : Struct} (h : ∀ name ∈ struct.names, Legal name) :
    Reads Reader.item (Writer.struct struct) (.inl (struct.mapNames spaced)) := by
  obtain ⟨hname, hmembers⟩ := List.forall_mem_cons.mp h
  rw [List.forall_mem_flatMap] at hmembers
  obtain ⟨elements, hlists, hread⟩ :=
    exists_lists fun member hm => reads_member (hmembers member hm)
  refine ⟨_, lists_named "Struct" (by decide) hname hlists, ?_⟩
  have hstep : Reader.item (.mk "Struct" [⟨"name", spaced struct.name⟩] elements) = (do
      let members ← elements.mapM Reader.member
      let name ← Reader.required (.mk "Struct" [⟨"name", spaced struct.name⟩] elements) "name"
      return (⟨name, members⟩ : Struct)).map .inl := rfl
  rw [hstep, required_attribute, hread]
  rfl

/-- The text of a structure or a module. -/
def item : Struct ⊕ Module → String
  | .inl struct => Writer.struct struct
  | .inr module => named "Module" module.name (scope module)

/-- The structures and modules in a module, in the order they are written. -/
def contents (structs : List Struct) (modules : List Module) : List (Struct ⊕ Module) :=
  structs.map .inl ++ modules.map .inr

theorem scope_eq_join (name : String) (structs : List Struct) (modules : List Module) :
    scope (.mk name structs modules) = String.join ((contents structs modules).map item) := by
  have hscopes : scopes modules = String.join ((modules.map Sum.inr).map item) := by
    induction modules with
    | nil => rfl
    | cons module modules ih =>
        have hstep : scopes (module :: modules) =
            named "Module" module.name (scope module) ++ scopes modules := rfl
        rw [hstep, ih, List.map_cons, List.map_cons, String.join_cons]
        rfl
  have hstep : scope (.mk name structs modules) =
      String.join (structs.map Writer.struct) ++ scopes modules := rfl
  have hstructs : structs.map Writer.struct = (structs.map Sum.inl).map item := by
    rw [List.map_map]
    rfl
  rw [hstep, hscopes, hstructs, contents, List.map_append, String.join_append]

theorem foldl_add_contents (module : Module) (structs : List Struct) (modules : List Module) :
    (contents structs modules).foldl Reader.Item.add module =
      .mk module.name (module.structs ++ structs) (module.modules ++ modules) := by
  obtain ⟨name, known, inner⟩ := module
  induction structs generalizing known with
  | nil =>
      induction modules generalizing inner with
      | nil => simp [contents, Module.name, Module.structs, Module.modules]
      | cons first modules ih =>
          have hrest := ih (inner ++ [first])
          simp only [Module.name, Module.structs, Module.modules, List.append_assoc,
            List.singleton_append] at hrest
          exact hrest
  | cons first structs ih =>
      have hrest := ih (known ++ [first])
      simp only [Module.name, Module.structs, Module.modules, List.append_assoc,
        List.singleton_append] at hrest
      exact hrest

theorem items_of_mapM {elements : List Xml.Element} {found : List (Struct ⊕ Module)}
    (h : elements.mapM Reader.item = .ok found) (module : Module) :
    Reader.items module elements = .ok (found.foldl Reader.Item.add module) := by
  induction elements generalizing found module with
  | nil =>
      cases h
      rfl
  | cons element elements ih =>
      rw [List.mapM_cons] at h
      obtain ⟨first, hfirst, h⟩ := bind_eq_ok.mp h
      obtain ⟨rest, hrest, h⟩ := bind_eq_ok.mp h
      cases h
      simp only [Reader.items, hfirst]
      exact ih hrest _

/-- A structure or a module with its names changed. -/
def mapItem (f : String → String) : Struct ⊕ Module → Struct ⊕ Module :=
  Sum.map (Struct.mapNames f) (Module.mapNames f)

theorem map_contents (f : String → String) (structs : List Struct) (modules : List Module) :
    (contents structs modules).map (mapItem f) =
      contents (structs.map (Struct.mapNames f)) (modules.map (Module.mapNames f)) := by
  rw [contents, contents, List.map_append, List.map_map, List.map_map, List.map_map, List.map_map]
  rfl

/-- What is written of a module is read as its contents. -/
theorem exists_lists_scope {module : Module} (h : ∀ name ∈ module.names, Legal name) :
    ∃ elements, Lists (scope module).toList elements ∧
      ∀ name, Reader.items (.empty name) elements =
        .ok (.mk name (module.mapNames spaced).structs (module.mapNames spaced).modules) := by
  induction module with
  | mk name structs modules ih =>
      simp only [Module.names, Module.namesOf_eq, List.forall_mem_cons, List.forall_mem_append,
        List.forall_mem_flatMap] at h
      obtain ⟨_, hstructs, hmodules⟩ := h
      have hitems : ∀ piece ∈ contents structs modules,
          Reads Reader.item (item piece) (mapItem spaced piece) := by
        intro piece hp
        rcases List.mem_append.mp hp with hp | hp
        · obtain ⟨struct, hs, rfl⟩ := List.mem_map.mp hp
          exact reads_struct (hstructs struct hs)
        · obtain ⟨module, hm, rfl⟩ := List.mem_map.mp hp
          obtain ⟨children, hlists, hread⟩ := ih module hm (hmodules module hm)
          have hname : Legal module.name := hmodules module hm _ module.name_mem_names
          refine ⟨_, lists_named "Module" (by decide) hname hlists, ?_⟩
          have hstep : Reader.item (.mk "Module" [⟨"name", spaced module.name⟩] children) =
              (Reader.required (.mk "Module" [⟨"name", spaced module.name⟩] children) "name").bind
                fun scope => (Reader.items (.empty scope) children).map .inr := rfl
          rw [hstep, required_attribute]
          simp only [Except.bind, hread, Except.map]
          cases module
          rfl
      obtain ⟨elements, hlists, hread⟩ := exists_lists hitems
      rw [← scope_eq_join name] at hlists
      refine ⟨elements, hlists, fun name => ?_⟩
      rw [items_of_mapM hread, map_contents, foldl_add_contents, Module.mapNames,
        Module.mapNamesOf_eq]
      rfl

end Writer

section Reading
variable {xml : String → Option Xml.Element} {document : Document}

/-- A description is read back as it was written, but for blanks in its names. -/
theorem Document.readBy_write_spaced (hxml : Xml.Faithful xml) (hname : document.root.name = "")
    (h : ∀ name ∈ document.names, Legal name) :
    Document.readBy xml document.write = .ok (document.mapNames spaced) := by
  obtain ⟨elements, hlists, hread⟩ := Writer.exists_lists_scope h
  have hversion : Opens (attributeText "version".toList formatVersion.toList ++ tagEnd false)
      [⟨"version", formatVersion⟩] false := by
    have hopens := Opens.attr (by decide : Xml.isTag "version".toList = true) (by decide)
      (by decide : formatVersion.toList.all Xml.isChar = true) false
    exact hopens
  have hroot := Writer.lists_nested "MetaData" (by decide) hversion hlists
  have htext : document.write = String.ofList ('<' :: ("MetaData".toList ++
      (attributeText "version".toList formatVersion.toList ++ tagEnd false) ++
        ((Writer.scope document.root).toList ++ endText "MetaData".toList))) := by
    have htext : document.write = "<MetaData version=\"" ++ formatVersion ++ "\">" ++
        Writer.scope document.root ++ "</MetaData>" := rfl
    rw [htext, ← String.toList_inj]
    simp only [String.toList_append, String.toList_ofList, attributeText, endText,
      List.cons_append, List.append_assoc]
    rfl
  have hread' := hxml _ _ hroot
  rw [← htext] at hread'
  have hstep : Document.readBy xml document.write =
      ((Reader.items (.empty "") elements).bind fun module => .ok ⟨module⟩) := by
    unfold Document.readBy
    rw [hread']
    rfl
  rw [hstep, hread]
  obtain ⟨name, structs, modules⟩ := document
  cases hname
  rfl

/-- A description with plain names is read back as it was written. -/
theorem Document.readBy_write (hxml : Xml.Faithful xml) (hname : document.root.name = "")
    (h : ∀ name ∈ document.names, Xml.Plain name) :
    Document.readBy xml document.write = .ok document := by
  have hlegal : ∀ name ∈ document.names, Legal name :=
    fun name hn => (Xml.plain_iff.mp (h name hn)).1
  have hsame : document.mapNames spaced = document :=
    Document.mapNames_eq_self_iff.mpr fun name hn =>
      Xml.spaced_eq_self_iff.mpr (Xml.plain_iff.mp (h name hn)).2
  rw [Document.readBy_write_spaced hxml hname hlegal, hsame]

theorem Document.read_write_spaced (hname : document.root.name = "")
    (h : ∀ name ∈ document.names, Legal name) :
    Document.read document.write = .ok (document.mapNames spaced) :=
  Document.readBy_write_spaced Xml.faithful_read? hname h

theorem Document.read_write (hname : document.root.name = "")
    (h : ∀ name ∈ document.names, Xml.Plain name) :
    Document.read document.write = .ok document :=
  Document.readBy_write Xml.faithful_read? hname h

end Reading

end Markup
end TopicCodec
