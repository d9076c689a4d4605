import TopicCodec.Proofs.MarkupRoundTrip
import TopicCodec.Proofs.Naming
import TopicCodec.Proofs.Union

/-!
# Modules that are opened more than once

A text may open a module of one name several times. Reading makes a module of each opening, and
looking up a name goes into the first module of each name that it meets. So a structure is found
under its full name if and only if a structure of that name is declared in the first opening of
every module on its path (`firstOpening?`); what the later openings add is in the document, but no
name leads to it. Where no module is opened beside another one of its name, all structures are
found. Merging puts the openings together: a document that has taken the other one in
(`Module.Absorbs`) finds all its structures.
-/
namespace TopicCodec.Markup

/-! ## Structures and where they stand -/

/-- A structure stands in a module, or in one of the modules that bear the names on a path. -/
inductive Module.Stands : Module → List String → Struct → Prop
  | here {module : Module} {struct : Struct} : struct ∈ module.structs → Stands module [] struct
  | inside {module inner : Module} {path : List String} {struct : Struct} :
      inner ∈ module.modules → Stands inner path struct → Stands module (inner.name :: path) struct

namespace Module

theorem isSome_struct?_of_mem {module : Module} {struct : Struct} (h : struct ∈ module.structs) :
    (module.struct? struct.name).isSome := by
  rw [isSome_struct?]
  exact List.any_eq_true.mpr ⟨struct, h, beq_self_eq_true _⟩

theorem module?_of_mem {module inner : Module} (h : ModulesDistinct module)
    (hm : inner ∈ module.modules) : module.module? inner.name = some inner := by
  have hsome : (module.module? inner.name).isSome :=
    List.find?_isSome.mpr ⟨inner, hm, beq_self_eq_true _⟩
  obtain ⟨found, hfound⟩ := Option.isSome_iff_exists.mp hsome
  obtain ⟨hmem, hname⟩ := mem_of_module? hfound
  rw [hfound, List.inj_on_of_nodup_map h hmem hm hname]

/-- A module whose openings are all different has taken itself in. -/
theorem absorbs_self {module : Module} (h : Throughout ModulesDistinct module) :
    Absorbs module module := by
  induction module with
  | mk name structs modules ih =>
      obtain ⟨hdistinct, hinner⟩ := throughout_iff.mp h
      refine absorbs_iff.mpr ⟨fun struct hs => isSome_struct?_of_mem hs, fun inner hi => ?_⟩
      exact ⟨inner, module?_of_mem hdistinct hi, ih inner hi (hinner inner hi)⟩

/-- What has been taken in is found on its path. -/
theorem Stands.found_of_absorbs {other : Module} {path : List String} {struct : Struct}
    (h : Stands other path struct) {module : Module} (habsorbs : Absorbs module other) :
    ((module.descend? path).bind (·.struct? struct.name)).isSome := by
  induction h generalizing module with
  | here hs => exact (absorbs_iff.mp habsorbs).1 _ hs
  | inside hi _ ih =>
      obtain ⟨known, hknown, hinner⟩ := (absorbs_iff.mp habsorbs).2 _ hi
      simp only [descend?, hknown, Option.bind_some]
      exact ih hinner

end Module

namespace Document

/-- A structure of this name is found under its full name, in the module at the path. -/
def Finds (document : Document) (path : List String) (name : String) : Prop :=
  ∃ found, document.find? (Name.join (path ++ [name])) = some (path, found) ∧ found.name = name

theorem finds_iff {document : Document} {path : List String} {name : String}
    (h : ∀ part ∈ path ++ [name], Name.Solid part) :
    document.Finds path name ↔ ((document.root.descend? path).bind (·.struct? name)).isSome := by
  unfold Finds find?
  rw [Name.parts_join h, findParts?_append, Option.isSome_iff_exists]
  constructor
  · rintro ⟨found, hfound, _⟩
    obtain ⟨struct, hstruct, _⟩ := Option.map_eq_some_iff.mp hfound
    exact ⟨struct, hstruct⟩
  · rintro ⟨struct, hstruct⟩
    obtain ⟨module, _, hmodule⟩ := Option.bind_eq_some_iff.mp hstruct
    exact ⟨struct, by rw [hstruct]; rfl, (Module.mem_of_struct? hmodule).2⟩

end Document

/-! ## Openings in a text -/

namespace Reader

open Xml (Element)

/-- The element opens a module of this name. -/
def opens (part : String) (element : Element) : Bool :=
  element.name == "Module" && element.attribute? "name" == some part

/-- The element declares a structure of this name. -/
def declares (name : String) (element : Element) : Bool :=
  element.name == "Struct" && element.attribute? "name" == some name

/-- The elements inside the first opening of each module on a path. -/
def firstOpening? : List String → List Element → Option (List Element)
  | [], elements => some elements
  | part :: path, elements =>
      (elements.find? (opens part)).bind fun element => firstOpening? path element.children

theorem attribute?_of_struct {element : Element} {struct : Struct}
    (h : Reader.struct element = .ok struct) : element.attribute? "name" = some struct.name := by
  unfold Reader.struct at h
  obtain ⟨members, _, h⟩ := bind_eq_ok.mp h
  obtain ⟨name, hname, h⟩ := bind_eq_ok.mp h
  cases h
  exact required_eq_ok.mp hname

theorem isSome_struct?_items {elements : List Element} {start module : Module}
    (h : items start elements = .ok module) (name : String) :
    (module.struct? name).isSome =
      ((start.struct? name).isSome || elements.any (declares name)) := by
  induction elements generalizing start with
  | nil =>
      cases h
      rw [List.any_nil, Bool.or_false]
  | cons element rest ih =>
      obtain ⟨found, hfound, hrest⟩ := items_cons_eq_ok h
      have hfirst : ((Item.add start found).struct? name).isSome =
          ((start.struct? name).isSome || declares name element) := by
        obtain ⟨struct, rfl, htag, hstruct⟩ | ⟨scope, inner, rfl, htag, _, _⟩ :=
          item_cases hfound
        · have hname := attribute?_of_struct hstruct
          simp [Module.isSome_struct?, Item.add, Module.structs, declares, htag, hname]
        · simp [Module.isSome_struct?, Item.add, Module.structs, declares, htag]
      rw [ih hrest, hfirst, List.any_cons, Bool.or_assoc]

/-- The first module of a name is the one that was there, or else what the first opening holds. -/
theorem module?_items {elements : List Element} {start module : Module}
    (h : items start elements = .ok module) (part : String) :
    module.module? part = (start.module? part).or
      ((elements.find? (opens part)).bind fun element =>
        (items (.empty part) element.children).toOption) := by
  induction elements generalizing start with
  | nil =>
      cases h
      rw [List.find?_nil, Option.bind_none, Option.or_none]
  | cons element rest ih =>
      obtain ⟨found, hfound, hrest⟩ := items_cons_eq_ok h
      rw [ih hrest, List.find?_cons]
      obtain ⟨struct, rfl, htag, _⟩ | ⟨scope, inner, rfl, htag, hname, hinner⟩ :=
        item_cases hfound
      · have hother : opens part element = false := by simp [opens, htag]
        rw [hother]
        rfl
      · have hscope := required_eq_ok.mp hname
        have hadded : (Item.add start (.inr inner)).module? part =
            (start.module? part).or (if scope = part then some inner else none) := by
          have hname : inner.name = scope := name_items hinner
          unfold Module.module?
          rw [Item.add, Module.modules, List.find?_append, List.find?_singleton, hname]
          simp
        rw [hadded, Option.or_assoc]
        by_cases hpart : scope = part
        · subst hpart
          have hopens : opens scope element = true := by simp [opens, htag, hscope]
          rw [hopens, if_pos rfl, Option.some_or, Option.bind_some, hinner]
          rfl
        · have hother : opens part element = false := by simp [opens, htag, hscope, hpart]
          rw [hother, if_neg hpart, Option.none_or]

theorem exists_items_of_opens {elements : List Element} {start module : Module}
    (h : items start elements = .ok module) {element : Element} (hm : element ∈ elements)
    {part : String} (ho : opens part element = true) :
    ∃ inner, items (.empty part) element.children = .ok inner := by
  induction elements generalizing start with
  | nil => cases hm
  | cons first rest ih =>
      obtain ⟨found, hfound, hrest⟩ := items_cons_eq_ok h
      rcases List.mem_cons.mp hm with rfl | hm
      · simp only [opens, Bool.and_eq_true, beq_iff_eq] at ho
        obtain ⟨struct, _, htag, _⟩ | ⟨scope, inner, _, _, hscope, hinner⟩ := item_cases hfound
        · exact absurd (ho.1.symm.trans htag) (by decide)
        · cases ho.2.symm.trans (required_eq_ok.mp hscope)
          exact ⟨inner, hinner⟩
      · exact ih hrest hm

/-- Looking up a path in what is read goes through the first openings. -/
theorem isSome_descend?_items {elements : List Element} {own : String} {module : Module}
    (h : items (.empty own) elements = .ok module) (path : List String) (name : String) :
    ((module.descend? path).bind (·.struct? name)).isSome =
      (firstOpening? path elements).any (·.any (declares name)) := by
  induction path generalizing elements own module with
  | nil =>
      simp only [Module.descend?, firstOpening?, Option.bind_some, Option.any_some]
      rw [isSome_struct?_items h]
      rfl
  | cons part path ih =>
      have hmodule := module?_items h part
      rw [show (Module.empty own).module? part = none from rfl, Option.none_or] at hmodule
      simp only [Module.descend?, firstOpening?, hmodule]
      cases hfirst : elements.find? (opens part) with
      | none => rfl
      | some element =>
          obtain ⟨inner, hinner⟩ := exists_items_of_opens h (List.mem_of_find?_eq_some hfirst)
            (List.find?_some hfirst)
          simp only [Option.bind_some, hinner]
          exact ih hinner

end Reader

namespace Document

/-- A structure of a document that was read is found under its full name if and only if the text
declares a structure of that name in the first opening of each module on its path. This is so of
every structure if no module stands beside another one of its name. Any document into which the
document has been merged finds all structures, whatever is opened more than once. -/
theorem finds_iff_firstOpening {text : String} {document : Document}
    (h : Document.read text = .ok document) :
    ∃ root, Xml.read? text = some root ∧
      ∀ path struct, document.root.Stands path struct →
        (∀ part ∈ path ++ [struct.name], Name.Solid part) →
        (document.Finds path struct.name ↔
          ∃ contents, Reader.firstOpening? path root.children = some contents ∧
            ∃ element ∈ contents, Reader.declares struct.name element = true) ∧
        (document.root.Throughout Module.ModulesDistinct → document.Finds path struct.name) ∧
        ∀ into : Document, (into.merge document).Finds path struct.name := by
  obtain ⟨root, hroot, hitems⟩ := exists_root_of_read h
  refine ⟨root, hroot, fun path struct hstands hsolid => ⟨?_, fun hdistinct => ?_, fun into => ?_⟩⟩
  · rw [finds_iff hsolid, Reader.isSome_descend?_items hitems, Option.any_eq_true]
    simp only [List.any_eq_true]
  · exact (finds_iff hsolid).mpr (hstands.found_of_absorbs (Module.absorbs_self hdistinct))
  · exact (finds_iff hsolid).mpr
      (hstands.found_of_absorbs (Module.absorbs_merge into.root document.root))

/-- A module that is opened twice, each time for another structure. -/
def reopenedText : String :=
  "<MetaData version='1.0.0'><Module name='A'><Struct name='X'/></Module>" ++
    "<Module name='A'><Struct name='Y'/></Module></MetaData>"

def reopened : Document :=
  ⟨.mk "" [] [.mk "A" [⟨"X", []⟩] [], .mk "A" [⟨"Y", []⟩] []]⟩

theorem read_reopenedText : Document.read reopenedText = .ok reopened :=
  read_eq_ok_of_beq (by decide +kernel)

theorem stands_reopened {struct : Struct} (h : struct ∈ [⟨"X", []⟩, ⟨"Y", []⟩]) :
    reopened.root.Stands ["A"] struct := by
  obtain rfl | rfl : struct = ⟨"X", []⟩ ∨ struct = ⟨"Y", []⟩ := by simpa using h
  · exact @Module.Stands.inside _ (.mk "A" [⟨"X", []⟩] []) [] _ List.mem_cons_self
      (.here List.mem_cons_self)
  · exact @Module.Stands.inside _ (.mk "A" [⟨"Y", []⟩] []) [] _
      (List.mem_cons_of_mem _ List.mem_cons_self) (.here List.mem_cons_self)

theorem solid_reopened {part : String} (h : part ∈ ["A", "X", "Y"]) : Name.Solid part := by
  obtain rfl | rfl | rfl : part = "A" ∨ part = "X" ∨ part = "Y" := by simpa using h
  all_goals exact ⟨by decide, by decide, by decide⟩

theorem find?_second : reopened.find? (Name.join (["A"] ++ ["Y"])) = none := rfl

/-- The structure of the second opening is in the document, but its name leads nowhere. -/
theorem find?_reopened :
    Document.read reopenedText = .ok reopened ∧ reopened.root.Stands ["A"] ⟨"Y", []⟩ ∧
      (∀ part ∈ ["A"] ++ ["Y"], Name.Solid part) ∧
      reopened.find? (Name.join (["A"] ++ ["Y"])) = none :=
  ⟨read_reopenedText, stands_reopened (by simp), fun _ hp => solid_reopened (by grind),
    find?_second⟩

theorem firstOpening_reopened :
    Document.read reopenedText = .ok reopened ∧
      ∃ root, Xml.read? reopenedText = some root ∧
        (∃ contents, Reader.firstOpening? ["A"] root.children = some contents ∧
          ∃ element ∈ contents, Reader.declares "X" element = true) ∧
        (¬∃ contents, Reader.firstOpening? ["A"] root.children = some contents ∧
          ∃ element ∈ contents, Reader.declares "Y" element = true) ∧
        (Document.empty.merge reopened).Finds ["A"] "Y" := by
  obtain ⟨root, hroot, hfinds⟩ := finds_iff_firstOpening read_reopenedText
  obtain ⟨hx, _⟩ := hfinds ["A"] ⟨"X", []⟩ (stands_reopened (by simp))
    fun _ hp => solid_reopened (by grind)
  obtain ⟨hy, _, hmerged⟩ := hfinds ["A"] ⟨"Y", []⟩ (stands_reopened (by simp))
    fun _ hp => solid_reopened (by grind)
  refine ⟨read_reopenedText, root, hroot, hx.mp ⟨⟨"X", []⟩, rfl, rfl⟩, ?_,
    hmerged .empty⟩
  rw [← hy]
  rintro ⟨found, hfound, _⟩
  cases hfound.symm.trans find?_second

end Document
end TopicCodec.Markup
