import Mathlib.Tactic.SplitIfs
import TopicCodec.Markup

/-!
# Descriptions put together

Merging and inserting keep what is there: each module that a path led to is there still and has
structures of all names it had before (`Covers`). They bring in nothing but what was put in: a
property that all structures of two modules have at their places (`Every`), all structures of
the merged module have.
-/
namespace TopicCodec.Markup

namespace Module

/-- A property of modules that follows for a module from those inside it. -/
@[elab_as_elim, induction_eliminator]
theorem induction {motive : Module → Prop}
    (mk : ∀ name structs modules, (∀ module ∈ modules, motive module) →
      motive (.mk name structs modules)) : ∀ module, motive module
  | .mk name structs modules => mk name structs modules fun module hm =>
      have := List.sizeOf_lt_of_mem hm
      induction mk module
  termination_by module => sizeOf module
  decreasing_by
    simp only [Module.mk.sizeOf_spec]
    omega

theorem mem_of_module? {module inner : Module} {part : String}
    (h : module.module? part = some inner) : inner ∈ module.modules ∧ inner.name = part := by
  unfold module? at h
  have hname := List.find?_some h
  exact ⟨List.mem_of_find?_eq_some h, beq_iff_eq.mp hname⟩

theorem mem_of_struct? {module : Module} {struct : Struct} {name : String}
    (h : module.struct? name = some struct) : struct ∈ module.structs ∧ struct.name = name := by
  unfold struct? at h
  have hname := List.find?_some h
  exact ⟨List.mem_of_find?_eq_some h, beq_iff_eq.mp hname⟩

/-! ## Growing -/

/-- Each module on a path is still there, and has structures of all names it had. -/
def Covers (module module' : Module) : Prop :=
  ∀ path inner, module.descend? path = some inner →
    ∃ inner', module'.descend? path = some inner' ∧
      ∀ name, (inner.struct? name).isSome → (inner'.struct? name).isSome

theorem Covers.refl (module : Module) : Covers module module :=
  fun _ inner hd => ⟨inner, hd, fun _ h => h⟩

theorem Covers.trans {a b c : Module} (h : Covers a b) (h' : Covers b c) : Covers a c := by
  intro path inner hd
  obtain ⟨middle, hm, hstructs⟩ := h path inner hd
  obtain ⟨last, hl, hstructs'⟩ := h' path middle hm
  exact ⟨last, hl, fun name hn => hstructs' name (hstructs name hn)⟩

theorem Covers.of_parts {module module' : Module}
    (hstructs : ∀ name, (module.struct? name).isSome → (module'.struct? name).isSome)
    (hmodules : ∀ part inner, module.module? part = some inner →
      ∃ inner', module'.module? part = some inner' ∧ Covers inner inner') :
    Covers module module' := by
  intro path inner hd
  cases path with
  | nil =>
      cases hd
      exact ⟨module', rfl, hstructs⟩
  | cons part path =>
      obtain ⟨first, hfirst, hd⟩ := Option.bind_eq_some_iff.mp hd
      obtain ⟨first', hfirst', hcovers⟩ := hmodules part first hfirst
      obtain ⟨inner', hd', hstructs⟩ := hcovers path inner hd
      exact ⟨inner', Option.bind_eq_some_iff.mpr ⟨first', hfirst', hd'⟩, hstructs⟩

theorem Covers.module {module module' : Module} (h : Covers module module') {part : String}
    {inner : Module} (hm : module.module? part = some inner) :
    ∃ inner', module'.module? part = some inner' ∧ Covers inner inner' := by
  have hone : module.descend? [part] = some inner := by
    simp only [descend?, hm, Option.bind_some]
  obtain ⟨inner', hd, _⟩ := h [part] inner hone
  have hm' : module'.module? part = some inner' := by
    obtain ⟨found, hf, hd⟩ := Option.bind_eq_some_iff.mp hd
    cases hd
    exact hf
  refine ⟨inner', hm', fun path last hlast => ?_⟩
  have hpath : module.descend? (part :: path) = some last := by
    simp only [descend?, hm, Option.bind_some, hlast]
  obtain ⟨last', hlast', hstructs⟩ := h (part :: path) last hpath
  simp only [descend?, hm', Option.bind_some] at hlast'
  exact ⟨last', hlast', hstructs⟩

/-! ## Changing one module -/

section Change

variable {change : Module → Module} (hname : ∀ module, (change module).name = module.name)

include hname

theorem find?_changeFirst (name part : String) (modules : List Module) :
    (changeFirst name change modules).find? (·.name == part) =
      if part = name then
        some (change ((modules.find? (·.name == part)).getD (empty name)))
      else modules.find? (·.name == part) := by
  by_cases hpart : part = name
  · subst hpart
    rw [if_pos rfl]
    induction modules with
    | nil =>
        have hnew : ((change (empty part)).name == part) = true := by
          rw [hname]
          exact beq_self_eq_true part
        simp [changeFirst, hnew]
    | cons module rest ih =>
        by_cases hm : module.name = part
        · simp [changeFirst, hm, hname]
        · simp [changeFirst, hm, ih]
  · rw [if_neg hpart]
    have hother (module : Module) (hm : module.name = name) :
        ((change module).name == part) = false := by
      rw [hname, hm]
      exact beq_false_of_ne (Ne.symm hpart)
    induction modules with
    | nil => simp [changeFirst, hother (empty name) rfl]
    | cons module rest ih =>
        by_cases hm : module.name = name
        · have hskip : (module.name == part) = false := hname module ▸ hother module hm
          simp only [changeFirst, hm, if_true, List.find?_cons, hother module hm]
          rw [← hm, hskip]
        · simp [changeFirst, hm, List.find?_cons, ih]

omit hname in
theorem mem_changeFirst {name : String} {modules : List Module} {module : Module}
    (h : module ∈ changeFirst name change modules) :
    module ∈ modules ∨ ∃ known, known.name = name ∧ module = change known ∧
      (known ∈ modules ∨ known = empty name) := by
  induction modules with
  | nil => exact .inr ⟨empty name, rfl, List.mem_singleton.mp h, .inr rfl⟩
  | cons first rest ih =>
      rw [changeFirst] at h
      split_ifs at h with hm
      · rcases List.mem_cons.mp h with rfl | h
        · exact .inr ⟨first, hm, rfl, .inl List.mem_cons_self⟩
        · exact .inl (List.mem_cons_of_mem _ h)
      · rcases List.mem_cons.mp h with rfl | h
        · exact .inl List.mem_cons_self
        · rcases ih h with h | ⟨known, hk, hc, hknown⟩
          · exact .inl (List.mem_cons_of_mem _ h)
          · exact .inr ⟨known, hk, hc, hknown.imp_left (List.mem_cons_of_mem _)⟩

theorem covers_changeFirst (hcovers : ∀ module, Covers module (change module)) (name part : String)
    (structs : List Struct) (modules : List Module) :
    Covers (.mk name structs modules) (.mk name structs (changeFirst part change modules)) := by
  refine .of_parts (fun _ h => h) fun other inner hm => ?_
  have hfind := find?_changeFirst hname part other modules
  have hm : modules.find? (·.name == other) = some inner := hm
  by_cases hother : other = part
  · rw [if_pos hother, hm] at hfind
    exact ⟨change inner, hfind, hcovers inner⟩
  · rw [if_neg hother, hm] at hfind
    exact ⟨inner, hfind, .refl inner⟩

end Change

/-! ## Merging -/

theorem name_mergeModules (into : Module) (modules : List Module) :
    (mergeModules into modules).name = into.name := by
  induction modules generalizing into with
  | nil => rfl
  | cons module rest ih =>
      rw [mergeModules, ih]
      rfl

@[simp] theorem name_merge (into other : Module) : (merge into other).name = into.name := by
  cases other
  rw [merge, name_mergeModules]
  rfl

theorem isSome_struct? (module : Module) (name : String) :
    (module.struct? name).isSome = module.structs.any (·.name == name) :=
  List.isSome_find?

theorem any_addStruct (structs : List Struct) (struct : Struct) (name : String) :
    (addStruct structs struct).any (·.name == name) =
      (structs.any (·.name == name) || struct.name == name) := by
  unfold addStruct
  split_ifs with h
  · by_cases hname : struct.name = name
    · simp only [← hname, h, Bool.true_or]
    · simp only [beq_false_of_ne hname, Bool.or_false]
  · simp only [List.any_append, List.any_cons, List.any_nil, Bool.or_false]

theorem any_foldl_addStruct (structs added : List Struct) (name : String) :
    (added.foldl addStruct structs).any (·.name == name) =
      (structs.any (·.name == name) || added.any (·.name == name)) := by
  induction added generalizing structs with
  | nil => simp only [List.foldl_nil, List.any_nil, Bool.or_false]
  | cons struct added ih =>
      rw [List.foldl_cons, ih, any_addStruct, List.any_cons, Bool.or_assoc]

theorem covers_mergeModules {modules : List Module}
    (h : ∀ module ∈ modules, ∀ into, Covers into (merge into module) ∧
      Covers module (merge into module)) (into : Module) :
    Covers into (mergeModules into modules) ∧
      ∀ module ∈ modules, ∃ merged,
        (mergeModules into modules).module? module.name = some merged ∧
          Covers module merged := by
  induction modules generalizing into with
  | nil => exact ⟨.refl into, fun _ hm => by cases hm⟩
  | cons first rest ih =>
      have hfirst := h first List.mem_cons_self
      obtain ⟨hcovers, hrest⟩ := ih (fun module hm => h module (List.mem_cons_of_mem _ hm))
        (mk into.name into.structs
          (changeFirst first.name (fun known => merge known first) into.modules))
      have hname : ∀ module, (merge module first).name = module.name := fun m => name_merge m first
      rw [mergeModules]
      constructor
      · refine .trans ?_ hcovers
        obtain ⟨name, structs, modules⟩ := into
        exact covers_changeFirst hname (fun known => (hfirst known).1) name first.name structs
          modules
      · intro module hm
        rcases List.mem_cons.mp hm with rfl | hm
        · have hfind := find?_changeFirst hname module.name module.name into.modules
          rw [if_pos rfl] at hfind
          obtain ⟨merged, hmerged, hkept⟩ := hcovers.module hfind
          exact ⟨merged, hmerged, (hfirst _).2.trans hkept⟩
        · exact hrest module hm

/-- A merged module has everything that either module had. -/
theorem covers_merge (into other : Module) :
    Covers into (merge into other) ∧ Covers other (merge into other) := by
  induction other generalizing into with
  | mk name structs modules ih =>
      rw [merge]
      obtain ⟨hcovers, hmodules⟩ := covers_mergeModules ih
        (mk into.name (structs.foldl addStruct into.structs) into.modules)
      have hstructs (name : String) (h : into.structs.any (·.name == name) = true ∨
          structs.any (·.name == name) = true) :
          ((mk into.name (structs.foldl addStruct into.structs) into.modules).struct?
            name).isSome := by
        rw [isSome_struct?, Module.structs, any_foldl_addStruct, Bool.or_eq_true]
        exact h
      have hbase : Covers into
          (mk into.name (structs.foldl addStruct into.structs) into.modules) := by
        refine .of_parts (fun name hn => ?_) fun part inner hm => ⟨inner, hm, .refl inner⟩
        rw [isSome_struct?] at hn
        exact hstructs name (.inl hn)
      refine ⟨hbase.trans hcovers, .of_parts ?_ ?_⟩
      · intro name hn
        rw [isSome_struct?] at hn
        obtain ⟨inner, hd, hkept⟩ := hcovers [] _ rfl
        cases hd
        exact hkept name (hstructs name (.inr hn))
      · intro part inner hm
        obtain ⟨hmem, hname⟩ := mem_of_module? hm
        rw [← hname]
        exact hmodules inner hmem

/-! ## Inserting -/

theorem name_changeAt {change : Module → Module}
    (hname : ∀ module, (change module).name = module.name) (path : List String) (module : Module) :
    (changeAt change path module).name = module.name := by
  cases path with
  | nil => exact hname module
  | cons part path =>
      cases module
      rfl

theorem covers_changeAt {change : Module → Module}
    (hname : ∀ module, (change module).name = module.name)
    (hcovers : ∀ module, Covers module (change module)) (path : List String) (module : Module) :
    Covers module (changeAt change path module) ∧
      ∃ known, (changeAt change path module).descend? path = some (change known) := by
  have hkeeps := name_changeAt hname
  induction path generalizing module with
  | nil => exact ⟨hcovers module, module, rfl⟩
  | cons part path ih =>
      obtain ⟨name, structs, modules⟩ := module
      constructor
      · exact covers_changeFirst (hkeeps path) (fun known => (ih known).1) name part structs modules
      · have hfind := find?_changeFirst (hkeeps path) part part modules
        rw [if_pos rfl] at hfind
        obtain ⟨known, hknown⟩ := (ih ((modules.find? (·.name == part)).getD (empty part))).2
        refine ⟨known, ?_⟩
        rw [← hknown]
        exact congrArg (Option.bind · (descend? path)) hfind

/-- The module with a structure added. -/
def withStruct (struct : Struct) (module : Module) : Module :=
  .mk module.name (addStruct module.structs struct) module.modules

theorem name_withStruct (struct : Struct) (module : Module) :
    (withStruct struct module).name = module.name := rfl

theorem covers_withStruct (struct : Struct) (module : Module) :
    Covers module (withStruct struct module) := by
  refine .of_parts (fun name hn => ?_) fun part inner hm => ⟨inner, hm, .refl inner⟩
  rw [isSome_struct?] at hn ⊢
  rw [withStruct, Module.structs, any_addStruct, hn, Bool.true_or]

/-! ## Properties of all structures -/

/-- All modules below a module have names of a kind, and all structures in it and below have a
property, which may depend on the path of the module they are in. -/
inductive Every (named : String → Prop) (holds : List String → Struct → Prop) :
    List String → Module → Prop
  | mk {path : List String} {name : String} {structs : List Struct} {modules : List Module} :
      (∀ struct ∈ structs, holds path struct) → (∀ module ∈ modules, named module.name) →
      (∀ module ∈ modules, Every named holds (path ++ [module.name]) module) →
      Every named holds path (.mk name structs modules)

variable {named : String → Prop} {holds : List String → Struct → Prop} {path : List String}

theorem Every.structs {module : Module} (h : Every named holds path module) :
    ∀ struct ∈ module.structs, holds path struct := by
  cases h with
  | mk hstructs _ _ => exact hstructs

theorem Every.names {module : Module} (h : Every named holds path module) :
    ∀ inner ∈ module.modules, named inner.name := by
  cases h with
  | mk _ hnames _ => exact hnames

theorem Every.modules {module : Module} (h : Every named holds path module) :
    ∀ inner ∈ module.modules, Every named holds (path ++ [inner.name]) inner := by
  cases h with
  | mk _ _ hmodules => exact hmodules

theorem every_empty (name : String) : Every named holds path (empty name) :=
  .mk (fun _ h => by cases h) (fun _ h => by cases h) (fun _ h => by cases h)

theorem Every.imp {holds' : List String → Struct → Prop} {module : Module}
    (h : Every named holds path module)
    (himp : ∀ path struct, holds path struct → holds' path struct) :
    Every named holds' path module := by
  induction h with
  | mk hstructs hnames _ ih =>
      exact .mk (fun struct hs => himp _ _ (hstructs struct hs)) hnames ih

theorem Every.descend {module inner : Module} (h : Every named holds path module)
    {below : List String} (hd : module.descend? below = some inner) :
    Every named holds (path ++ below) inner := by
  induction below generalizing path module with
  | nil =>
      cases hd
      rwa [List.append_nil]
  | cons part below ih =>
      obtain ⟨first, hfirst, hrest⟩ := Option.bind_eq_some_iff.mp hd
      obtain ⟨hmem, rfl⟩ := mem_of_module? hfirst
      have hinner := ih (h.modules first hmem) hrest
      rwa [List.append_assoc, List.singleton_append] at hinner

theorem mem_foldl_addStruct {structs added : List Struct} {struct : Struct}
    (h : struct ∈ added.foldl addStruct structs) : struct ∈ structs ∨ struct ∈ added := by
  induction added generalizing structs with
  | nil => exact .inl h
  | cons first added ih =>
      rcases ih h with h | h
      · rw [addStruct] at h
        split_ifs at h
        · exact .inl h
        · rcases List.mem_append.mp h with h | h
          · exact .inl h
          · exact .inr (List.mem_singleton.mp h ▸ List.mem_cons_self)
      · exact .inr (List.mem_cons_of_mem _ h)

/-- Changing the first module of a name keeps the property, if the change does. -/
theorem Every.changeFirst {change : Module → Module}
    (hname : ∀ module, (change module).name = module.name) {name part : String}
    {structs : List Struct} {modules : List Module}
    (h : Every named holds path (.mk name structs modules)) (hpart : named part)
    (hchange : ∀ module, Every named holds (path ++ [part]) module →
      Every named holds (path ++ [part]) (change module)) :
    Every named holds path (.mk name structs (changeFirst part change modules)) := by
  refine .mk h.structs ?_ ?_
  · intro module hm
    rcases mem_changeFirst hm with hm | ⟨known, hk, rfl, _⟩
    · exact h.names module hm
    · rwa [hname, hk]
  · intro module hm
    rcases mem_changeFirst hm with hm | ⟨known, hk, rfl, hknown⟩
    · exact h.modules module hm
    · rw [hname, hk]
      apply hchange
      rcases hknown with hknown | rfl
      · rw [← hk]
        exact h.modules known hknown
      · exact every_empty part

theorem every_mergeModules {into : Module} {modules : List Module}
    (h : Every named holds path into) (hnames : ∀ module ∈ modules, named module.name)
    (hmerge : ∀ module ∈ modules, ∀ into, Every named holds (path ++ [module.name]) into →
      Every named holds (path ++ [module.name]) (merge into module)) :
    Every named holds path (mergeModules into modules) := by
  induction modules generalizing into with
  | nil => exact h
  | cons first rest ih =>
      rw [mergeModules]
      refine ih ?_ (fun module hm => hnames module (List.mem_cons_of_mem _ hm))
        fun module hm => hmerge module (List.mem_cons_of_mem _ hm)
      obtain ⟨name, structs, modules⟩ := into
      exact h.changeFirst (fun module => name_merge module first) (hnames first List.mem_cons_self)
        (hmerge first List.mem_cons_self)

/-- A merged module has no structures but those of the two modules, at the same places. -/
theorem Every.merge {into other : Module} (h : Every named holds path into)
    (h' : Every named holds path other) : Every named holds path (merge into other) := by
  induction h' generalizing into with
  | mk hstructs hnames _ ih =>
      rw [Module.merge]
      refine every_mergeModules (.mk (fun struct hs => ?_) h.names h.modules) hnames
        fun module hm into hinto => ih module hm hinto
      rcases mem_foldl_addStruct hs with hs | hs
      · exact h.structs struct hs
      · exact hstructs struct hs

theorem Every.insert {module : Module} (h : Every named holds path module)
    {below : List String} (hbelow : ∀ part ∈ below, named part) {struct : Struct}
    (hstruct : holds (path ++ below) struct) :
    Every named holds path (changeAt (withStruct struct) below module) := by
  induction below generalizing path module with
  | nil =>
      rw [List.append_nil] at hstruct
      refine .mk (fun other ho => ?_) h.names h.modules
      have hadded : other ∈ [struct].foldl addStruct module.structs := ho
      rcases mem_foldl_addStruct hadded with ho | ho
      · exact h.structs other ho
      · exact List.mem_singleton.mp ho ▸ hstruct
  | cons part below ih =>
      obtain ⟨name, structs, modules⟩ := module
      have hkeeps := name_changeAt (name_withStruct struct) below
      refine h.changeFirst hkeeps (hbelow part List.mem_cons_self) fun module hm => ?_
      apply ih hm fun part hp => hbelow part (List.mem_cons_of_mem _ hp)
      rwa [List.append_assoc, List.singleton_append]

end Module

namespace Document

theorem root_insert (document : Document) (path : List String) (struct : Struct) :
    (document.insert path struct).1.root =
      document.root.changeAt (Module.withStruct struct) path := by
  unfold insert
  dsimp only
  congr 1
  funext module
  cases module
  rfl

/-- A structure is found in the module that its path leads to. -/
theorem findParts?_append (document : Document) (path : List String) (name : String) :
    document.findParts? (path ++ [name]) =
      ((document.root.descend? path).bind (·.struct? name)).map fun struct => (path, struct) := by
  unfold findParts?
  rw [List.getLast?_concat]
  dsimp only
  rw [List.dropLast_concat]
  unfold module?
  cases document.root.descend? path with
  | none => rfl
  | some module =>
      change ((module.struct? name).bind fun struct => some (path, struct)) =
        (module.struct? name).map fun struct => (path, struct)
      exact Option.map_eq_bind.symm

end Document
end TopicCodec.Markup
