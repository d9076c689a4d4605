import Mathlib.Data.List.Infix
import TopicCodec.Proofs.Agreement
import TopicCodec.Proofs.Assembling
import TopicCodec.Proofs.MarkupText
import TopicCodec.Proofs.Merging
import TopicCodec.Proofs.Naming

/-!
# What references in a description mean

A description of some declared structures, and of nothing else (`Document.Describes`), is read
back as it was written and has each structure under its full name. A reference to a structure of
the own module is its last name and finds it there. A reference to any other structure is its
full name, which is searched for from the module of the referring structure outwards; it is not
anchored. So it means what was meant, unless an enclosing module leads to a structure of the same
name by the same path (`Captures`, `Document.resolve?_reference`).
-/
namespace TopicCodec

-- The parts of a name that is not known are never computed here.
attribute [local irreducible] Name.parts

/-! ## Names -/

namespace Name

structure Spelt (parts : List String) : Prop where
  ne_nil : parts ≠ []
  solid : ∀ part ∈ parts, Solid part
  plain : ∀ part ∈ parts, Xml.Plain part

/-- Parts of the name by which a structure of the module `scope` refers to another one. -/
def relative (scope target : List String) : List String :=
  if target.dropLast = scope then [target.getLast?.getD ""] else target

theorem getLast_mem {names : List String} (h : names ≠ []) : names.getLast?.getD "" ∈ names := by
  rw [List.getLast?_eq_some_getLast h]
  exact List.getLast_mem h

/-- A letter, a digit or an underscore. -/
def isWord (c : Char) : Bool := c.isAlphanum || c == '_'

theorem toNat_of_isWord {c : Char} (h : isWord c = true) : 0x30 ≤ c.toNat ∧ c.toNat ≤ 0x7A := by
  delta isWord Char.isAlphanum Char.isAlpha Char.isUpper Char.isLower Char.isDigit at h
  simp only [Bool.or_eq_true, Bool.and_eq_true, decide_eq_true_eq, beq_iff_eq, ge_iff_le,
    UInt32.le_iff_toNat_le] at h
  rcases h with ((⟨hlow, hhigh⟩ | ⟨hlow, hhigh⟩) | ⟨hlow, hhigh⟩) | rfl
  · exact ⟨le_trans (by decide) hlow, le_trans hhigh (by decide)⟩
  · exact ⟨le_trans (by decide) hlow, le_trans hhigh (by decide)⟩
  · exact ⟨le_trans (by decide) hlow, le_trans hhigh (by decide)⟩
  · decide

theorem isPlain_of_isWord {c : Char} (h : isWord c = true) : Xml.isPlain c = true := by
  have hne (other : Char) (ho : isWord other = false) : (c != other) = true := by
    refine bne_iff_ne.mpr ?_
    rintro rfl
    cases ho.symm.trans h
  obtain ⟨hlow, hhigh⟩ := toNat_of_isWord h
  have hchar : Xml.isChar c = true := by
    unfold Xml.isChar
    rw [if_neg (by omega), Bool.and_eq_true]
    exact ⟨bne_iff_ne.mpr (by omega), bne_iff_ne.mpr (by omega)⟩
  rw [Xml.isPlain, hchar, hne '\t' (by decide), hne '\n' (by decide), hne '\r' (by decide)]
  rfl

/-- Letters, digits and underscores, at least one. -/
def isIdentifier (part : String) : Bool := part != "" && part.toList.all isWord

theorem spelt_of_identifiers {names : List String} (hne : names ≠ [])
    (h : names.all isIdentifier = true) : Spelt names := by
  simp only [List.all_eq_true, isIdentifier, Bool.and_eq_true, bne_iff_ne, ne_eq] at h
  refine ⟨hne, fun part hp => ⟨(h part hp).1, fun hdot => ?_, fun hcolon => ?_⟩, fun part hp => ?_⟩
  · exact absurd ((h part hp).2 _ hdot) (by decide)
  · exact absurd ((h part hp).2 _ hcolon) (by decide)
  · exact List.all_eq_true.mpr fun c hc => isPlain_of_isWord ((h part hp).2 c hc)

theorem Spelt.relative {target : List String} (h : Spelt target) (scope : List String) :
    Spelt (relative scope target) := by
  unfold Name.relative
  split_ifs
  · have hlast := getLast_mem h.ne_nil
    refine ⟨List.cons_ne_nil _ _, fun part hp => ?_, fun part hp => ?_⟩
    · exact List.mem_singleton.mp hp ▸ h.solid _ hlast
    · exact List.mem_singleton.mp hp ▸ h.plain _ hlast
  · exact h

theorem plain_join {names : List String} (h : ∀ part ∈ names, Xml.Plain part) :
    Xml.Plain (join names) := by
  unfold Xml.Plain at h ⊢
  rw [join, String.toList_intercalate]
  induction names with
  | nil => rfl
  | cons first rest ih =>
      have hfirst := h first List.mem_cons_self
      have hrest := ih fun part hp => h part (List.mem_cons_of_mem _ hp)
      cases rest with
      | nil => simpa using hfirst
      | cons second rest =>
          rw [List.map_cons] at hrest
          rw [List.map_cons, List.map_cons, List.intercalate_cons_cons, List.all_append,
            List.all_append, hfirst, hrest]
          rfl

end Name

namespace FieldType

theorem markup_struct {desc : Descriptor} {target : List String} (h : Name.Spelt target)
    (hname : desc.canonicalName = Name.join target) (scope : List String) :
    (FieldType.struct desc).markup scope = .named (Name.join (Name.relative scope target)) := by
  have hlast := List.getLast?_eq_some_getLast h.ne_nil
  unfold markup
  dsimp only
  rw [hname, Name.parts_join h.solid, hlast]
  dsimp only
  unfold Name.relative
  rw [hlast]
  split_ifs
  · exact congrArg _ String.intercalate_singleton.symm
  · rfl

theorem reference?_markup {scope : List String} {type : FieldType} {name : String} :
    (type.markup scope).reference? = some name ↔
      ∃ desc ∈ type.descriptors, (FieldType.struct desc).markup scope = .named name := by
  induction type with
  | struct desc =>
      have hnamed : ∃ own, (FieldType.struct desc).markup scope = .named own := by
        unfold markup
        dsimp only
        split
        · exact ⟨_, rfl⟩
        · exact ⟨_, rfl⟩
      obtain ⟨own, hown⟩ := hnamed
      simp only [descriptors, List.mem_singleton, exists_eq_left, hown,
        Markup.MemberType.reference?, Option.some.injEq, Markup.MemberType.named.injEq]
  | sequence elem ih => exact ih
  | array dims elem ih =>
      have hdims : ((FieldType.array dims elem).markup scope).reference? =
          (elem.markup scope).reference? := Markup.MemberType.reference?_arrays dims _
      rw [hdims]
      exact ih
  | number kind | bool | string bound =>
      simp only [markup, Markup.MemberType.reference?, descriptors, List.not_mem_nil, false_and,
        exists_false, reduceCtorEq]

theorem plain_markup {scope : List String} {type : FieldType}
    (h : ∀ desc ∈ type.descriptors, ∃ name,
      (FieldType.struct desc).markup scope = .named name ∧ Xml.Plain name) :
    ∀ name ∈ (type.markup scope).names, Xml.Plain name := by
  induction type with
  | struct desc =>
      obtain ⟨name, hname, hplain⟩ := h desc (List.mem_singleton.mpr rfl)
      rw [hname]
      exact List.forall_mem_singleton.mpr hplain
  | sequence elem ih => exact ih h
  | array dims elem ih =>
      have helem := ih h
      unfold markup
      clear h ih
      generalize elem.markup scope = inner at helem
      induction dims with
      | nil => exact helem
      | cons size dims ih => exact ih
  | number kind | bool | string bound => exact List.forall_mem_nil _

end FieldType

namespace Declaration

variable {used used' : Declaration → Prop}

theorem parts_eq {declaration : Declaration} (h : declaration.parts ≠ []) :
    declaration.parts = declaration.scope ++ [declaration.described.name] := by
  rw [scope, described, List.getLast?_eq_some_getLast h]
  exact (List.dropLast_concat_getLast h).symm

theorem plain_described {declaration : Declaration} (hname : Name.Spelt declaration.parts)
    (hmembers : ∀ member ∈ declaration.members, Xml.Plain member.name)
    (hnested : ∀ member ∈ declaration.members, ∀ desc ∈ member.type.descriptors,
      ∃ target, Name.Spelt target ∧ desc.canonicalName = Name.join target) :
    ∀ name ∈ declaration.described.names, Xml.Plain name := by
  rw [Markup.Struct.names, List.forall_mem_cons, List.forall_mem_flatMap]
  constructor
  · exact hname.plain _ (Name.getLast_mem hname.ne_nil)
  · intro member hm
    obtain ⟨member, hmember, rfl⟩ := List.mem_map.mp hm
    have hnamed : ∀ desc ∈ member.type.descriptors, ∃ name,
        (FieldType.struct desc).markup declaration.scope = .named name ∧ Xml.Plain name := by
      intro desc hd
      obtain ⟨target, hspelt, htarget⟩ := hnested member hmember desc hd
      exact ⟨_, FieldType.markup_struct hspelt htarget _,
        Name.plain_join (hspelt.relative _).plain⟩
    exact List.forall_mem_cons.mpr ⟨hmembers member hmember, FieldType.plain_markup hnamed⟩

structure Distinct (used : Declaration → Prop) : Prop where
  spelt : ∀ declaration, used declaration → Name.Spelt declaration.parts
  unique : ∀ declaration other, used declaration → used other →
    declaration.parts = other.parts → declaration = other

/-- Searched for from within `scope`, the full name of a structure of another module is first
found to be that of a structure below `scope` or below a module around it. -/
def Captures (used : Declaration → Prop) (scope target : List String) : Prop :=
  target.dropLast ≠ scope ∧
    ∃ front, front ≠ [] ∧ front <+: scope ∧ ∃ other, used other ∧ other.parts = front ++ target

end Declaration

/-! ## Descriptions of declared structures -/

namespace Markup

theorem Module.plain_of_every {holds : List String → Struct → Prop} {path : List String}
    {module : Module} (hname : Xml.Plain module.name) (h : module.Every Xml.Plain holds path)
    (hholds : ∀ path struct, holds path struct → ∀ name ∈ struct.names, Xml.Plain name) :
    ∀ name ∈ module.names, Xml.Plain name := by
  induction h with
  | mk hstructs hnames _ ih =>
      simp only [Module.names, Module.namesOf_eq, List.forall_mem_cons, List.forall_mem_append,
        List.forall_mem_flatMap]
      exact ⟨hname, fun struct hs => hholds _ _ (hstructs struct hs),
        fun module hm => ih module hm (hnames module hm)⟩

namespace Document

open Declaration (Distinct Captures)

/-- The document has the structures of the declarations in use, each in its module, and no
others. -/
structure Describes (document : Document) (used : Declaration → Prop) : Prop where
  name : document.root.name = ""
  every : document.root.Every Xml.Plain
    (fun path struct => ∃ declaration, used declaration ∧ path = declaration.scope ∧
      struct = declaration.described) []
  found : ∀ declaration, used declaration → ∃ module,
    document.root.descend? declaration.scope = some module ∧
      (module.struct? declaration.described.name).isSome

variable {document other : Document} {used used' : Declaration → Prop}

theorem describes_empty : Document.empty.Describes fun _ => False where
  name := rfl
  every := Module.every_empty ""
  found _ h := h.elim

theorem Describes.congr (h : document.Describes used) (hiff : ∀ d, used d ↔ used' d) :
    document.Describes used' := by
  rwa [← funext fun d => propext (hiff d)]

theorem Describes.merge (h : document.Describes used) (h' : other.Describes used') :
    (document.merge other).Describes fun d => used d ∨ used' d where
  name := (Module.name_merge _ _).trans h.name
  every := by
    refine (h.every.imp ?_).merge (h'.every.imp ?_)
    · rintro path struct ⟨d, hd, hrest⟩
      exact ⟨d, .inl hd, hrest⟩
    · rintro path struct ⟨d, hd, hrest⟩
      exact ⟨d, .inr hd, hrest⟩
  found := by
    obtain ⟨hinto, hother⟩ := Module.covers_merge document.root other.root
    rintro d (hd | hd)
    · obtain ⟨module, hm, hs⟩ := h.found d hd
      obtain ⟨module', hm', hkept⟩ := hinto _ _ hm
      exact ⟨module', hm', hkept _ hs⟩
    · obtain ⟨module, hm, hs⟩ := h'.found d hd
      obtain ⟨module', hm', hkept⟩ := hother _ _ hm
      exact ⟨module', hm', hkept _ hs⟩

theorem Describes.insert (h : document.Describes used) {declaration : Declaration}
    (hname : Name.Spelt declaration.parts) :
    (document.insert declaration.scope declaration.described).1.Describes
      fun d => used d ∨ d = declaration where
  name := by
    rw [root_insert]
    exact (Module.name_changeAt (Module.name_withStruct _) _ _).trans h.name
  every := by
    rw [root_insert]
    refine (h.every.imp ?_).insert ?_ ?_
    · rintro path struct ⟨d, hd, hrest⟩
      exact ⟨d, .inl hd, hrest⟩
    · exact fun part hp => hname.plain part (List.mem_of_mem_dropLast hp)
    · exact ⟨declaration, .inr rfl, rfl, rfl⟩
  found := by
    obtain ⟨hcovers, known, hknown⟩ := Module.covers_changeAt
      (Module.name_withStruct declaration.described) (Module.covers_withStruct _)
      declaration.scope document.root
    rw [root_insert]
    rintro d (hd | rfl)
    · obtain ⟨module, hm, hs⟩ := h.found d hd
      obtain ⟨module', hm', hkept⟩ := hcovers _ _ hm
      exact ⟨module', hm', hkept _ hs⟩
    · refine ⟨_, hknown, ?_⟩
      rw [Module.isSome_struct?, Module.withStruct, Module.structs, Module.any_addStruct,
        beq_self_eq_true, Bool.or_true]

/-- What describes structures is read back as it was written. -/
theorem Describes.read_write (h : document.Describes used)
    (hplain : ∀ d, used d → ∀ name ∈ d.described.names, Xml.Plain name) :
    Document.read document.write = .ok document := by
  have hroot : Xml.Plain document.root.name := by
    rw [h.name]
    rfl
  refine Document.read_write h.name (Module.plain_of_every hroot h.every ?_)
  rintro path struct ⟨d, hd, _, rfl⟩
  exact hplain d hd

/-! ## Searching -/

theorem find?_join (document : Document) {parts : List String}
    (h : ∀ part ∈ parts, Name.Solid part) :
    document.find? (Name.join parts) = document.findParts? parts := by
  rw [find?, Name.parts_join h]

/-- A search goes from the module itself outwards to the root. -/
theorem resolve?_join (document : Document) {scope parts : List String}
    (hscope : ∀ part ∈ scope, Name.Solid part) (hparts : ∀ part ∈ parts, Name.Solid part) :
    document.resolve? scope (Name.join parts) =
      (List.range (scope.length + 1)).reverse.findSome? fun depth =>
        document.findParts? (scope.take depth ++ parts) := by
  unfold resolve?
  dsimp only
  rw [Name.isAnchored_join hparts, Name.parts_join hparts, if_neg Bool.false_ne_true]
  congr 1
  funext depth
  apply find?_join
  intro part hp
  rcases List.mem_append.mp hp with hp | hp
  · exact hscope part (List.mem_of_mem_take hp)
  · exact hparts part hp

/-- A full name is that of the declaration with this name. -/
theorem findParts?_eq_some_iff (h : document.Describes used) (hd : Distinct used)
    {parts : List String} {found : List String × Struct} :
    document.findParts? parts = some found ↔
      ∃ d, used d ∧ d.parts = parts ∧ found = (d.scope, d.described) := by
  have hsound {parts : List String} {found : List String × Struct}
      (hf : document.findParts? parts = some found) :
      ∃ d, used d ∧ d.parts = parts ∧ found = (d.scope, d.described) := by
    rcases List.eq_nil_or_concat parts with rfl | ⟨path, last, rfl⟩
    · cases hf
    · rw [List.concat_eq_append, findParts?_append] at hf
      obtain ⟨struct, hs, rfl⟩ := Option.map_eq_some_iff.mp hf
      obtain ⟨module, hm, hs⟩ := Option.bind_eq_some_iff.mp hs
      obtain ⟨hmem, hname⟩ := Module.mem_of_struct? hs
      obtain ⟨d, hused, hpath, rfl⟩ := (h.every.descend hm).structs struct hmem
      rw [List.nil_append] at hpath
      refine ⟨d, hused, ?_, by rw [hpath]⟩
      rw [Declaration.parts_eq (hd.spelt d hused).ne_nil, hname, hpath, List.concat_eq_append]
  refine ⟨hsound, ?_⟩
  rintro ⟨d, hused, rfl, rfl⟩
  obtain ⟨module, hm, hs⟩ := h.found d hused
  obtain ⟨struct, hs⟩ := Option.isSome_iff_exists.mp hs
  have hfound : document.findParts? d.parts = some (d.scope, struct) := by
    rw [Declaration.parts_eq (hd.spelt d hused).ne_nil, findParts?_append, hm, Option.bind_some, hs]
    rfl
  obtain ⟨d', hused', hparts, hsame⟩ := hsound hfound
  rw [hd.unique d' d hused' hused hparts] at hsame
  rw [hfound, hsame]

theorem mem_depths {n depth : Nat} :
    depth ∈ ((List.range n).map Nat.succ).reverse ↔ 0 < depth ∧ depth ≤ n := by
  simp only [List.mem_reverse, List.mem_map, List.mem_range]
  constructor
  · rintro ⟨below, hlt, rfl⟩
    exact ⟨below.succ_pos, hlt⟩
  · rintro ⟨hpos, hle⟩
    exact ⟨depth - 1, by omega, Nat.succ_pred_eq_of_pos hpos⟩

/-- Before the root is reached, the full name of a structure of another module means something
exactly if it is captured. -/
theorem findSome?_depths_eq_none_iff (h : document.Describes used) (hd : Distinct used)
    {scope target : List String} (hscope : target.dropLast ≠ scope) :
    ((List.range scope.length).map Nat.succ).reverse.findSome?
        (fun depth => document.findParts? (scope.take depth ++ target)) = none ↔
      ¬Captures used scope target := by
  rw [List.findSome?_eq_none_iff]
  constructor
  · rintro hnone ⟨_, front, hne, hfront, d, hused, hparts⟩
    have hdepth := hnone front.length
      (mem_depths.mpr ⟨List.length_pos_iff.mpr hne, hfront.length_le⟩)
    rw [← List.prefix_iff_eq_take.mp hfront,
      (findParts?_eq_some_iff h hd).mpr ⟨d, hused, hparts, rfl⟩] at hdepth
    cases hdepth
  · intro hfree depth hdepth
    obtain ⟨hpos, hle⟩ := mem_depths.mp hdepth
    by_contra hsome
    obtain ⟨found, hf⟩ := Option.ne_none_iff_exists'.mp hsome
    obtain ⟨d, hused, hparts, _⟩ := (findParts?_eq_some_iff h hd).mp hf
    refine hfree ⟨hscope, scope.take depth, fun hnil => ?_, List.take_prefix _ _, d, hused, hparts⟩
    have hlength := congrArg List.length hnil
    rw [List.length_take, List.length_nil] at hlength
    omega

/-- What is found on the way to the root is not what the full name means at the root. -/
theorem findSome?_depths_ne (h : document.Describes used) (hd : Distinct used)
    (scope : List String) {target : Declaration} (htarget : used target) :
    ((List.range scope.length).map Nat.succ).reverse.findSome?
        (fun depth => document.findParts? (scope.take depth ++ target.parts)) ≠
      some (target.scope, target.described) := by
  intro hsome
  obtain ⟨depth, hdepth, hf⟩ := List.exists_of_findSome?_eq_some hsome
  obtain ⟨hpos, hle⟩ := mem_depths.mp hdepth
  obtain ⟨d, hused, hparts, hsame⟩ := (findParts?_eq_some_iff h hd).mp hf
  obtain ⟨hscope, hdescribed⟩ := Prod.mk.inj hsame
  have hlength : target.parts.length = d.parts.length := by
    rw [Declaration.parts_eq (hd.spelt _ htarget).ne_nil,
      Declaration.parts_eq (hd.spelt _ hused).ne_nil, hscope, hdescribed]
  rw [hparts, List.length_append, List.length_take] at hlength
  omega

/-- A reference means the structure that it was made for, unless it is captured on the way. -/
theorem resolve?_reference (h : document.Describes used) (hd : Distinct used)
    {scope : List String} (hscope : ∀ part ∈ scope, Name.Solid part) {target : Declaration}
    (htarget : used target) :
    document.resolve? scope (Name.join (Name.relative scope target.parts)) =
        some (target.scope, target.described) ↔ ¬Captures used scope target.parts := by
  have hspelt := hd.spelt target htarget
  have hfound : document.findParts? target.parts = some (target.scope, target.described) :=
    (findParts?_eq_some_iff h hd).mpr ⟨target, htarget, rfl, rfl⟩
  rw [resolve?_join document hscope (hspelt.relative scope).solid]
  by_cases hsame : target.parts.dropLast = scope
  · have hparts : scope.take scope.length ++ Name.relative scope target.parts = target.parts := by
      rw [Name.relative, if_pos hsame, List.take_length, ← hsame]
      exact (Declaration.parts_eq hspelt.ne_nil).symm
    rw [List.range_succ, List.reverse_append, List.reverse_singleton, List.singleton_append,
      List.findSome?_cons, hparts, hfound]
    simp only [Captures, hsame, ne_eq, not_true_eq_false, false_and, not_false_eq_true]
  · rw [Name.relative, if_neg hsame, List.range_succ_eq_map, List.reverse_cons,
      List.findSome?_append, List.findSome?_singleton, List.take_zero, List.nil_append, hfound,
      ← findSome?_depths_eq_none_iff h hd hsame]
    have hne := findSome?_depths_ne h hd scope htarget
    cases hinner : ((List.range scope.length).map Nat.succ).reverse.findSome?
        fun depth => document.findParts? (scope.take depth ++ target.parts) with
    | none => simp only [Option.none_or]
    | some found =>
        rw [hinner] at hne
        simp only [Option.some_or, hne, reduceCtorEq]

end Document
end Markup
end TopicCodec
