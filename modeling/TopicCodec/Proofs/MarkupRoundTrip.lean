import TopicCodec.Proofs.Assembling
import TopicCodec.Proofs.MarkupText
import TopicCodec.Proofs.XmlValues

/-!
# Descriptions written again

A description is read back as it was written if and only if its names are plain. The names of a
description that was read hold only characters that a document may hold (`Document.legal_of_read`),
but they may hold tabs and line breaks, which come in by character references and go out as they
are; those and no others are lost when the description is written and read again.
-/
namespace TopicCodec

namespace Markup

open Xml (Legal spaced)

/-! ## Comparing descriptions -/

namespace Module

mutual

theorem beq_iff : ∀ {module module' : Module}, beq module module' = true ↔ module = module'
  | .mk name structs modules, .mk name' structs' modules' => by
      simp only [beq, Bool.and_eq_true, beq_iff_eq, beqList_iff, Module.mk.injEq, and_assoc]

theorem beqList_iff : ∀ {modules modules' : List Module},
    beqList modules modules' = true ↔ modules = modules'
  | [], [] => by simp only [beqList]
  | [], _ :: _ => by simp [beqList]
  | _ :: _, [] => by simp [beqList]
  | _ :: _, _ :: _ => by
      simp only [beqList, Bool.and_eq_true, beq_iff, beqList_iff, List.cons.injEq]

end

end Module

instance : LawfulBEq Document where
  rfl := Module.beq_iff.mpr rfl
  eq_of_beq {document document'} h := by
    cases document
    cases document'
    exact congrArg Document.mk (Module.beq_iff.mp h)

instance : DecidableEq Document := fun _ _ => decidable_of_iff _ beq_iff_eq

/-! ## Reading, step by step -/

namespace Reader

theorem required_eq_ok {element : Xml.Element} {attr value : String} :
    required element attr = .ok value ↔ element.attribute? attr = some value := by
  unfold required
  cases element.attribute? attr <;> simp

theorem item_cases {element : Xml.Element} {found : Struct ⊕ Module}
    (h : item element = .ok found) :
    (∃ struct, found = .inl struct ∧ element.name = "Struct" ∧
      Reader.struct element = .ok struct) ∨
    ∃ scope inner, found = .inr inner ∧ element.name = "Module" ∧
      required element "name" = .ok scope ∧
      items (.empty scope) element.children = .ok inner := by
  obtain ⟨tag, attributes, children⟩ := element
  unfold item at h
  dsimp only at h
  split at h
  · split at h
    · rename_i scope hscope
      obtain ⟨inner, hinner, rfl⟩ := map_eq_ok.mp h
      exact .inr ⟨scope, inner, rfl, rfl, hscope, hinner⟩
    · cases h
  · obtain ⟨struct, hstruct, rfl⟩ := map_eq_ok.mp h
    exact .inl ⟨struct, rfl, rfl, hstruct⟩
  · cases h

theorem items_cons_eq_ok {start module : Module} {element : Xml.Element}
    {rest : List Xml.Element} (h : items start (element :: rest) = .ok module) :
    ∃ found, item element = .ok found ∧ items (Item.add start found) rest = .ok module := by
  simp only [items] at h
  split at h
  · exact ⟨_, ‹_›, h⟩
  · cases h

theorem name_items {elements : List Xml.Element} {start module : Module}
    (h : items start elements = .ok module) : module.name = start.name := by
  induction elements generalizing start with
  | nil =>
      cases h
      rfl
  | cons element rest ih =>
      obtain ⟨found, _, hrest⟩ := items_cons_eq_ok h
      rw [ih hrest]
      cases found <;> rfl

end Reader

/-- Reading a document reads what stands in the root element of the text. -/
theorem Document.exists_root_of_read {text : String} {document : Document}
    (h : Document.read text = .ok document) :
    ∃ root, Xml.read? text = some root ∧
      Reader.items (.empty "") root.children = .ok document.root := by
  unfold Document.read Document.readBy at h
  split at h
  · cases h
  · rename_i root hroot
    obtain ⟨_, h⟩ := check_eq_ok.mp h
    obtain ⟨version, _, h⟩ := bind_eq_ok.mp h
    obtain ⟨_, h⟩ := check_eq_ok.mp h
    obtain ⟨module, hitems, h⟩ := bind_eq_ok.mp h
    cases h
    exact ⟨root, hroot, hitems⟩

/-! ## Names that are read -/

namespace Reader

theorem legal_of_required {element : Xml.Element} {attr value : String}
    (h : required element attr = .ok value) (helement : element.Legible) : Legal value := by
  cases helement with
  | mk hattributes _ =>
      obtain ⟨found, hfind, rfl⟩ := Option.map_eq_some_iff.mp (required_eq_ok.mp h)
      exact hattributes found (List.mem_of_find?_eq_some hfind)

theorem type_of_onlyType {parent : Xml.Element} {children : List Xml.Element} {type : MemberType}
    (h : onlyType parent children = .ok type) :
    ∃ child ∈ children, Reader.type child = .ok type := by
  unfold onlyType at h
  split at h
  · cases h
  · exact ⟨_, List.mem_singleton.mpr rfl, h⟩
  · cases h

theorem legal_of_type {element : Xml.Element} {type : MemberType}
    (h : Reader.type element = .ok type) (helement : element.Legible) :
    ∀ name ∈ type.names, Legal name := by
  induction helement generalizing type with
  | @mk tag attributes children hattributes hchildren ih =>
      have honly {parent : Xml.Element} {inner : MemberType}
          (h : onlyType parent children = .ok inner) : ∀ name ∈ inner.names, Legal name := by
        obtain ⟨child, hc, htype⟩ := type_of_onlyType h
        exact ih child hc htype
      unfold Reader.type at h
      dsimp only at h
      split at h
      · cases h
        exact List.forall_mem_nil _
      · split at h
        · cases h
          exact List.forall_mem_nil _
        · obtain ⟨length, _, rfl⟩ := map_eq_ok.mp h
          exact List.forall_mem_nil _
        · obtain ⟨inner, hinner, rfl⟩ := map_eq_ok.mp h
          exact fun name hn => honly hinner name hn
        · split at h
          · obtain ⟨inner, hinner, rfl⟩ := map_eq_ok.mp h
            exact fun name hn => honly hinner name hn
          · cases h
        · obtain ⟨name, hname, rfl⟩ := map_eq_ok.mp h
          exact List.forall_mem_singleton.mpr
            (legal_of_required hname (.mk hattributes hchildren))
        · cases h

theorem legal_of_member {element : Xml.Element} {member : Member}
    (h : Reader.member element = .ok member) (helement : element.Legible) :
    ∀ name ∈ member.names, Legal name := by
  unfold Reader.member at h
  obtain ⟨_, h⟩ := check_eq_ok.mp h
  obtain ⟨name, hname, h⟩ := bind_eq_ok.mp h
  obtain ⟨type, honly, h⟩ := bind_eq_ok.mp h
  cases h
  obtain ⟨child, hc, htype⟩ := type_of_onlyType honly
  exact List.forall_mem_cons.mpr
    ⟨legal_of_required hname helement, legal_of_type htype (helement.children child hc)⟩

theorem legal_of_struct {element : Xml.Element} {struct : Struct}
    (h : Reader.struct element = .ok struct) (helement : element.Legible) :
    ∀ name ∈ struct.names, Legal name := by
  unfold Reader.struct at h
  obtain ⟨members, hmembers, h⟩ := bind_eq_ok.mp h
  obtain ⟨name, hname, h⟩ := bind_eq_ok.mp h
  cases h
  simp only [Struct.names, List.forall_mem_cons, List.forall_mem_flatMap]
  refine ⟨legal_of_required hname helement, fun member hm => ?_⟩
  obtain ⟨child, hc, hmember⟩ := exists_of_mem_mapM hmembers hm
  exact legal_of_member hmember (helement.children child hc)

/-- Names of a structure or a module. -/
def Item.names : Struct ⊕ Module → List String
  | .inl struct => struct.names
  | .inr module => module.names

theorem mem_names_add {module : Module} {found : Struct ⊕ Module} {name : String} :
    name ∈ (Item.add module found).names ↔ name ∈ module.names ∨ name ∈ Item.names found := by
  cases module
  cases found <;>
    simp [Item.add, Item.names, Module.names, Module.namesOf_eq, Module.name, Module.structs,
      Module.modules, or_assoc, or_comm, or_left_comm]

theorem legal_of_items {elements : List Xml.Element} {module module' : Module}
    (h : items module elements = .ok module') (hmodule : ∀ name ∈ module.names, Legal name)
    (helements : ∀ element ∈ elements, ∀ found, item element = .ok found →
      ∀ name ∈ Item.names found, Legal name) : ∀ name ∈ module'.names, Legal name := by
  induction elements generalizing module with
  | nil =>
      cases h
      exact hmodule
  | cons element elements ih =>
      rw [List.forall_mem_cons] at helements
      obtain ⟨found, hfound, hrest⟩ := items_cons_eq_ok h
      refine ih hrest (fun name hn => ?_) helements.2
      exact (mem_names_add.mp hn).elim (hmodule name) (helements.1 found hfound name)

theorem legal_of_item {element : Xml.Element} {found : Struct ⊕ Module}
    (h : item element = .ok found) (helement : element.Legible) :
    ∀ name ∈ Item.names found, Legal name := by
  induction helement generalizing found with
  | @mk tag attributes children hattributes hchildren ih =>
      have hlegible : (Xml.Element.mk tag attributes children).Legible := .mk hattributes hchildren
      obtain ⟨struct, rfl, _, hstruct⟩ | ⟨scope, inner, rfl, _, hscope, hinner⟩ := item_cases h
      · exact legal_of_struct hstruct hlegible
      · have hempty : ∀ name ∈ (Module.empty scope).names, Legal name :=
          List.forall_mem_singleton.mpr (legal_of_required hscope hlegible)
        exact legal_of_items hinner hempty fun child hc found hf => ih child hc hf

end Reader

namespace Document

/-- The names of what is read hold only characters that a document may hold. -/
theorem legal_of_read {text : String} {document : Document}
    (h : Document.read text = .ok document) :
    document.root.name = "" ∧ ∀ name ∈ document.names, Legal name := by
  obtain ⟨root, hroot, hitems⟩ := exists_root_of_read h
  have hlegible := Xml.legible_of_read? hroot
  have hempty : ∀ name ∈ (Module.empty "").names, Legal name := by
    rw [Module.names_empty]
    exact List.forall_mem_singleton.mpr (by decide)
  refine ⟨Reader.name_items hitems, Reader.legal_of_items hitems hempty ?_⟩
  exact fun child hc found hfound => Reader.legal_of_item hfound (hlegible.children child hc)

theorem read_eq_ok_of_beq {text : String} {document : Document}
    (h : ((Document.read text).toOption == some document) = true) :
    Document.read text = .ok document :=
  eq_ok_of_toOption (beq_iff_eq.mp h)

/-- A description is read back as it was written if and only if its names are plain. -/
theorem read_write_iff_plain (document : Document) :
    Document.read document.write = .ok document ↔
      document.root.name = "" ∧ ∀ name ∈ document.names, Xml.Plain name := by
  constructor
  · intro h
    obtain ⟨hroot, hlegal⟩ := legal_of_read h
    have hsame : document.mapNames spaced = document :=
      Except.ok.inj ((read_write_spaced hroot hlegal).symm.trans h)
    refine ⟨hroot, fun name hn => Xml.plain_iff.mpr ⟨hlegal name hn, ?_⟩⟩
    exact Xml.spaced_eq_self_iff.mp (mapNames_eq_self_iff.mp hsame name hn)
  · intro h
    exact read_write h.1 h.2

/-- A description that was read is, once written, read again with the tabs and line breaks in its
names made spaces, so it survives if and only if there are none. -/
theorem read_write_of_read {text : String} {document : Document}
    (h : Document.read text = .ok document) :
    Document.read document.write = .ok (document.mapNames spaced) ∧
      (Document.read document.write = .ok document ↔
        ∀ name ∈ document.names, ∀ c ∈ name.toList, c ≠ '\t' ∧ c ≠ '\n' ∧ c ≠ '\r') := by
  obtain ⟨hroot, hlegal⟩ := legal_of_read h
  have hagain := read_write_spaced hroot hlegal
  refine ⟨hagain, ?_⟩
  simp only [hagain, Except.ok.injEq, mapNames_eq_self_iff, Xml.spaced_eq_self_iff]

/-- A description with markup characters in its names, some of them referred to by number. -/
def labText : String :=
  "<MetaData version='1.0.0'><Module name='R&amp;D'><Struct name='&#x3c;'>" ++
    "<Member name='&quot;'><Array size='+3'><Type name='&#60;'/></Array></Member>" ++
      "</Struct></Module></MetaData>"

def labDocument : Document :=
  ⟨.mk "" [] [.mk "R&D" [⟨"<", [⟨"\"", .array 3 (.named "<")⟩]⟩] []]⟩

theorem read_write_lab :
    Document.read labText = .ok labDocument ∧
      Document.read labDocument.write = .ok labDocument := by
  have hread : Document.read labText = .ok labDocument := read_eq_ok_of_beq (by decide +kernel)
  have hnames : labDocument.names = ["", "R&D", "<", "\"", "<"] := rfl
  exact ⟨hread, (read_write_of_read hread).2.mpr (by simp [hnames])⟩

/-- A line break can be referred to in a name. -/
def lineBreakText : String := "<MetaData version=\"1.0.0\"><Struct name=\"a&#10;b\"/></MetaData>"

def lineBreakDocument : Document := ⟨.mk "" [⟨"a\nb", []⟩] []⟩

theorem read_write_lineBreak :
    Document.read lineBreakText = .ok lineBreakDocument ∧
      Document.read lineBreakDocument.write = .ok ⟨.mk "" [⟨"a b", []⟩] []⟩ ∧
        Document.read lineBreakDocument.write ≠ .ok lineBreakDocument := by
  have hread : Document.read lineBreakText = .ok lineBreakDocument :=
    read_eq_ok_of_beq (by decide +kernel)
  have hagain : Document.read lineBreakDocument.write = .ok ⟨.mk "" [⟨"a b", []⟩] []⟩ :=
    read_eq_ok_of_beq (by decide +kernel)
  refine ⟨hread, hagain, ?_⟩
  rw [hagain]
  decide

end Document

end Markup
end TopicCodec
