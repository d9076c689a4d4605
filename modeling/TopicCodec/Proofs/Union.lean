import Mathlib.Data.List.Nodup
import TopicCodec.Proofs.Merging

/-!
# Merging is a union in which the first definition wins

Merging, inserting and making a module are put together from two steps: a structure is added to
a module whose names it does not collide with, and the first module of a name is changed, or made
and changed. What each step does to a module and all that is in it (`Growth`), they do. So
everything of the old document stays in its place, and siblings of different names stay siblings
of different names.

A merged document has taken all of the other document in (`Absorbs`), and taking it in again
changes nothing. A name means in it what it meant before, and else what it means in the other
document, as long as no module of the other document stands beside another one of its name.
-/
namespace TopicCodec.Markup

namespace Module

/-! ## Places -/

/-- The module at a place: the positions of the modules that lead to it. -/
def at? : List Nat → Module → Option Module
  | [], module => some module
  | i :: place, module => module.modules[i]?.bind (at? place)

/-- A property of a module and of every module in it. -/
def Throughout (holds : Module → Prop) (module : Module) : Prop :=
  ∀ place inner, module.at? place = some inner → holds inner

theorem throughout_iff {holds : Module → Prop} {module : Module} :
    Throughout holds module ↔
      holds module ∧ ∀ inner ∈ module.modules, Throughout holds inner := by
  constructor
  · intro h
    refine ⟨h [] module rfl, fun inner hi place last hlast => ?_⟩
    obtain ⟨i, hi⟩ := List.mem_iff_getElem?.mp hi
    apply h (i :: place) last
    rw [at?, hi]
    exact hlast
  · rintro ⟨hself, hinner⟩ place last hlast
    cases place with
    | nil =>
        cases hlast
        exact hself
    | cons i place =>
        obtain ⟨inner, hi, hlast⟩ := Option.bind_eq_some_iff.mp hlast
        exact hinner inner (List.mem_of_getElem? hi) place last hlast

/-- Every module stays in its place, with its name, behind its structures at most other
structures, and behind its modules at most other modules. -/
def Extends (module module' : Module) : Prop :=
  ∀ place inner, module.at? place = some inner →
    ∃ inner', module'.at? place = some inner' ∧ inner'.name = inner.name ∧
      inner.structs <+: inner'.structs ∧ inner.modules.map name <+: inner'.modules.map name

theorem Extends.refl (module : Module) : Extends module module :=
  fun _ inner h => ⟨inner, h, rfl, List.prefix_rfl, List.prefix_rfl⟩

theorem Extends.trans {a b c : Module} (h : Extends a b) (h' : Extends b c) : Extends a c := by
  intro place inner hinner
  obtain ⟨middle, hm, hname, hstructs, hmodules⟩ := h place inner hinner
  obtain ⟨last, hl, hname', hstructs', hmodules'⟩ := h' place middle hm
  exact ⟨last, hl, hname'.trans hname, hstructs.trans hstructs', hmodules.trans hmodules'⟩

theorem Extends.of_parts {module module' : Module} (hname : module'.name = module.name)
    (hstructs : module.structs <+: module'.structs)
    (hmodules : ∀ (i : Nat) (inner : Module), module.modules[i]? = some inner →
      ∃ inner', module'.modules[i]? = some inner' ∧ Extends inner inner') :
    Extends module module' := by
  intro place inner hinner
  cases place with
  | nil =>
      cases hinner
      refine ⟨module', rfl, hname, hstructs, ?_⟩
      rw [List.prefix_iff_getElem?]
      intro i hi
      rw [List.length_map] at hi
      obtain ⟨inner', hi', hextends⟩ := hmodules i _ (List.getElem?_eq_getElem hi)
      obtain ⟨_, hroot, hname, _⟩ := hextends [] _ rfl
      cases hroot
      rw [List.getElem?_map, hi', Option.map_some, hname, List.getElem_map]
  | cons i place =>
      obtain ⟨first, hi, hinner⟩ := Option.bind_eq_some_iff.mp hinner
      obtain ⟨first', hi', hextends⟩ := hmodules i first hi
      obtain ⟨inner', hinner', hkept⟩ := hextends place inner hinner
      exact ⟨inner', Option.bind_eq_some_iff.mpr ⟨first', hi', hinner'⟩, hkept⟩

/-! ## Growth -/

/-- A relation between a module and what becomes of it that holds across each of the two steps: a
structure is added, or the first module of a name is changed in a way that has the relation. -/
structure Growth (grows : Module → Module → Prop) : Prop where
  refl : ∀ module, grows module module
  trans : ∀ {a b c}, grows a b → grows b c → grows a c
  struct : ∀ name structs modules added,
    grows (.mk name structs modules) (.mk name (addStruct structs added) modules)
  change : ∀ name structs modules part (change : Module → Module),
    (∀ module, (change module).name = module.name) → (∀ module, grows module (change module)) →
    grows (.mk name structs modules) (.mk name structs (changeFirst part change modules))

namespace Growth

variable {grows : Module → Module → Prop} (h : Growth grows)

include h

theorem structs (name : String) (structs added : List Struct) (modules : List Module) :
    grows (.mk name structs modules) (.mk name (added.foldl addStruct structs) modules) := by
  induction added generalizing structs with
  | nil => exact h.refl _
  | cons struct added ih => exact h.trans (h.struct name structs modules struct) (ih _)

theorem mergeModules {modules : List Module}
    (hmerge : ∀ module ∈ modules, ∀ into, grows into (merge into module)) (into : Module) :
    grows into (mergeModules into modules) := by
  induction modules generalizing into with
  | nil => exact h.refl into
  | cons first rest ih =>
      obtain ⟨name, structs, modules⟩ := into
      rw [Module.mergeModules]
      refine h.trans ?_ (ih (fun module hm => hmerge module (List.mem_cons_of_mem _ hm)) _)
      exact h.change name structs modules first.name _ (fun known => name_merge known first)
        (hmerge first List.mem_cons_self)

theorem merge (into other : Module) : grows into (merge into other) := by
  induction other generalizing into with
  | mk name structs modules ih =>
      obtain ⟨own, known, inner⟩ := into
      rw [Module.merge]
      exact h.trans (h.structs own known structs inner) (h.mergeModules ih _)

theorem changeAt {change : Module → Module} (hname : ∀ module, (change module).name = module.name)
    (hchange : ∀ module, grows module (change module)) (path : List String) (module : Module) :
    grows module (changeAt change path module) := by
  induction path generalizing module with
  | nil => exact hchange module
  | cons part path ih =>
      obtain ⟨name, structs, modules⟩ := module
      exact h.change name structs modules part _ (name_changeAt hname path) ih

theorem withStruct (struct : Struct) (module : Module) :
    grows module (withStruct struct module) := by
  obtain ⟨name, structs, modules⟩ := module
  exact h.struct name structs modules struct

end Growth

theorem addStruct_extends (structs : List Struct) (struct : Struct) :
    structs <+: addStruct structs struct := by
  unfold addStruct
  split_ifs
  · exact List.prefix_rfl
  · exact List.prefix_append _ _

theorem getElem?_changeFirst {change : Module → Module} {part : String} {modules : List Module}
    {i : Nat} {inner : Module} (h : modules[i]? = some inner) :
    (changeFirst part change modules)[i]? = some inner ∨
      (changeFirst part change modules)[i]? = some (change inner) := by
  induction modules generalizing i with
  | nil => cases h
  | cons first rest ih =>
      rw [changeFirst]
      cases i with
      | zero =>
          cases h
          split_ifs
          · exact .inr rfl
          · exact .inl rfl
      | succ i =>
          split_ifs
          · exact .inl h
          · exact ih h

theorem growth_extends : Growth Extends where
  refl := .refl
  trans := .trans
  struct _ structs _ added :=
    .of_parts rfl (addStruct_extends structs added) fun _ inner hi => ⟨inner, hi, .refl inner⟩
  change _ _ _ _ change _ hchange := by
    refine .of_parts rfl List.prefix_rfl fun i inner hi => ?_
    rcases getElem?_changeFirst hi with h | h
    · exact ⟨inner, h, .refl inner⟩
    · exact ⟨change inner, h, hchange inner⟩

/-! ## Names of siblings -/

theorem map_name_changeFirst {change : Module → Module}
    (hname : ∀ module, (change module).name = module.name) (part : String)
    (modules : List Module) :
    (changeFirst part change modules).map name =
      if part ∈ modules.map name then modules.map name else modules.map name ++ [part] := by
  induction modules with
  | nil =>
      have hnew : (change (empty part)).name = part := hname (empty part)
      simp [changeFirst, hnew]
  | cons first rest ih =>
      by_cases hfirst : first.name = part
      · simp [changeFirst, hfirst, hname]
      · have hne : part ≠ first.name := Ne.symm hfirst
        simp only [changeFirst, hfirst, if_false, List.map_cons, ih, List.mem_cons, hne, false_or]
        split_ifs <;> rfl

/-- A property of the structures of a module and of the names of its modules that adding to either
keeps, whole modules keep throughout. -/
theorem growth_throughout {holds : List Struct → List String → Prop} (hempty : holds [] [])
    (hstruct : ∀ structs names added, holds structs names →
      holds (addStruct structs added) names)
    (hname : ∀ structs names part, part ∉ names → holds structs names →
      holds structs (names ++ [part])) :
    Growth fun module module' =>
      Throughout (fun inner => holds inner.structs (inner.modules.map name)) module →
        Throughout (fun inner => holds inner.structs (inner.modules.map name)) module' where
  refl _ := id
  trans h h' hm := h' (h hm)
  struct _ _ _ added h := by
    rw [throughout_iff] at h ⊢
    exact ⟨hstruct _ _ added h.1, h.2⟩
  change _ structs modules part change hkeeps hchange h := by
    rw [throughout_iff] at h ⊢
    obtain ⟨hself, hinner⟩ := h
    constructor
    · change holds structs ((changeFirst part change modules).map name)
      rw [map_name_changeFirst hkeeps]
      split_ifs with hpart
      · exact hself
      · exact hname _ _ part hpart hself
    · intro inner hi
      rcases mem_changeFirst hi with hi | ⟨known, _, rfl, hknown | rfl⟩
      · exact hinner inner hi
      · exact hchange known (hinner known hknown)
      · refine hchange _ (throughout_iff.mpr ⟨hempty, fun inner hi => ?_⟩)
        cases hi

/-- No two structures of the module have one name. -/
def StructsDistinct (module : Module) : Prop := (module.structs.map Struct.name).Nodup

/-- No two modules in the module have one name. -/
def ModulesDistinct (module : Module) : Prop := (module.modules.map name).Nodup

theorem nodup_addStruct {structs : List Struct} (h : (structs.map Struct.name).Nodup)
    (struct : Struct) : ((addStruct structs struct).map Struct.name).Nodup := by
  unfold addStruct
  split_ifs with htaken
  · exact h
  · rw [List.map_append, List.map_singleton, List.nodup_append_comm]
    refine List.nodup_cons.mpr ⟨fun hm => htaken ?_, h⟩
    obtain ⟨other, ho, hname⟩ := List.mem_map.mp hm
    exact List.any_eq_true.mpr ⟨other, ho, beq_iff_eq.mpr hname⟩

theorem growth_structsDistinct : Growth fun module module' =>
    Throughout StructsDistinct module → Throughout StructsDistinct module' :=
  @growth_throughout (fun structs _ => (structs.map Struct.name).Nodup) List.nodup_nil
    (fun _ _ added h => nodup_addStruct h added) fun _ _ _ _ h => h

theorem growth_modulesDistinct : Growth fun module module' =>
    Throughout ModulesDistinct module → Throughout ModulesDistinct module' := by
  refine @growth_throughout (fun _ names => names.Nodup) List.nodup_nil
    (fun _ _ _ h => h) fun _ names part hpart h => ?_
  rw [List.nodup_append_comm]
  exact List.nodup_cons.mpr ⟨hpart, h⟩

/-! ## Merging again -/

mutual

/-- A module has structures of all names of another one, and the first module of the name of each
of its modules has taken in that module in the same way. -/
def Absorbs (module : Module) : Module → Prop
  | mk _ structs modules =>
      (∀ struct ∈ structs, (module.struct? struct.name).isSome) ∧ AbsorbsAll module modules

def AbsorbsAll (module : Module) : List Module → Prop
  | [] => True
  | first :: rest =>
      (∃ known, module.module? first.name = some known ∧ Absorbs known first) ∧
        AbsorbsAll module rest

end

theorem absorbsAll_iff {module : Module} {modules : List Module} :
    AbsorbsAll module modules ↔
      ∀ inner ∈ modules, ∃ known, module.module? inner.name = some known ∧
        Absorbs known inner := by
  induction modules with
  | nil => simp [AbsorbsAll]
  | cons first rest ih => simp [AbsorbsAll, ih]

theorem absorbs_iff {module other : Module} :
    Absorbs module other ↔
      (∀ struct ∈ other.structs, (module.struct? struct.name).isSome) ∧
        ∀ inner ∈ other.modules, ∃ known, module.module? inner.name = some known ∧
          Absorbs known inner := by
  obtain ⟨name, structs, modules⟩ := other
  rw [Absorbs, absorbsAll_iff]
  rfl

theorem growth_absorbs :
    Growth fun module module' => ∀ other, Absorbs module other → Absorbs module' other where
  refl _ _ := id
  trans h h' other ho := h' other (h other ho)
  struct name structs modules added other h := by
    rw [absorbs_iff] at h ⊢
    refine ⟨fun struct hs => ?_, h.2⟩
    have hknown := h.1 struct hs
    rw [isSome_struct?, Module.structs] at hknown ⊢
    rw [any_addStruct, hknown, Bool.true_or]
  change name structs modules part change hname hchange other h := by
    rw [absorbs_iff] at h ⊢
    refine ⟨h.1, fun inner hi => ?_⟩
    obtain ⟨known, hknown, habsorbs⟩ := h.2 inner hi
    have hfind := find?_changeFirst hname part inner.name modules
    have hknown : modules.find? (·.name == inner.name) = some known := hknown
    rw [hknown] at hfind
    by_cases hpart : inner.name = part
    · rw [if_pos hpart] at hfind
      exact ⟨change known, hfind, hchange known inner habsorbs⟩
    · rw [if_neg hpart] at hfind
      exact ⟨known, hfind, habsorbs⟩

/-- A merged module has taken the other module in. -/
theorem absorbs_merge (into other : Module) : Absorbs (merge into other) other := by
  induction other generalizing into with
  | mk name structs modules ih =>
      have hgrowth (into : Module) (rest : List Module) :
          ∀ other, Absorbs into other → Absorbs (mergeModules into rest) other :=
        growth_absorbs.mergeModules (fun module _ into => growth_absorbs.merge into module) into
      rw [merge, Absorbs, absorbsAll_iff]
      constructor
      · intro struct hs
        have hadded : Absorbs (mk into.name (structs.foldl addStruct into.structs) into.modules)
            (mk name structs []) := by
          rw [Absorbs]
          refine ⟨fun struct hs => ?_, trivial⟩
          rw [isSome_struct?, Module.structs, any_foldl_addStruct, Bool.or_eq_true]
          exact .inr (List.any_eq_true.mpr ⟨struct, hs, beq_self_eq_true _⟩)
        exact (absorbs_iff.mp (hgrowth _ modules _ hadded)).1 struct hs
      · generalize mk into.name (structs.foldl addStruct into.structs) into.modules = start
        induction modules generalizing start with
        | nil =>
            intro inner hi
            cases hi
        | cons first rest ihrest =>
            intro inner hi
            rw [mergeModules]
            rcases List.mem_cons.mp hi with rfl | hi
            · have hfind := find?_changeFirst (fun known => name_merge known inner) inner.name
                inner.name start.modules
              rw [if_pos rfl] at hfind
              have hfirst : Absorbs (mk start.name start.structs
                  (changeFirst inner.name (fun known => merge known inner) start.modules))
                  (mk name [] [inner]) := by
                rw [Absorbs, absorbsAll_iff]
                refine ⟨fun struct hs => (List.not_mem_nil hs).elim, fun other ho => ?_⟩
                rw [List.mem_singleton.mp ho]
                exact ⟨_, hfind, ih inner List.mem_cons_self _⟩
              exact (absorbs_iff.mp (hgrowth _ rest _ hfirst)).2 inner List.mem_cons_self
            · exact ihrest (fun module hm => ih module (List.mem_cons_of_mem _ hm)) _ inner hi

theorem foldl_addStruct_eq_self {structs added : List Struct}
    (h : ∀ struct ∈ added, structs.any (·.name == struct.name) = true) :
    added.foldl addStruct structs = structs := by
  induction added with
  | nil => rfl
  | cons struct added ih =>
      have hfirst : addStruct structs struct = structs := if_pos (h struct List.mem_cons_self)
      rw [List.foldl_cons, hfirst]
      exact ih fun struct hs => h struct (List.mem_cons_of_mem _ hs)

theorem changeFirst_eq_self {change : Module → Module} {part : String} {modules : List Module}
    {known : Module} (hfind : modules.find? (·.name == part) = some known)
    (hknown : change known = known) : changeFirst part change modules = modules := by
  induction modules with
  | nil => cases hfind
  | cons first rest ih =>
      rw [changeFirst]
      split_ifs with hname
      · simp only [List.find?_cons, hname, beq_self_eq_true, Option.some.injEq] at hfind
        rw [hfind, hknown]
      · simp only [List.find?_cons, beq_false_of_ne hname] at hfind
        rw [ih hfind]

/-- Merging what has been taken in changes nothing. -/
theorem merge_eq_self {module other : Module} (h : Absorbs module other) :
    merge module other = module := by
  induction other generalizing module with
  | mk name structs modules ih =>
      obtain ⟨hstructs, hmodules⟩ := absorbs_iff.mp h
      have hadded : structs.foldl addStruct module.structs = module.structs := by
        apply foldl_addStruct_eq_self
        intro struct hs
        rw [← isSome_struct?]
        exact hstructs struct hs
      obtain ⟨own, known, inner⟩ := module
      rw [merge, hadded]
      change mergeModules (.mk own known inner) modules = .mk own known inner
      change ∀ other ∈ modules, _ at hmodules
      clear hstructs hadded h
      induction modules with
      | nil => rfl
      | cons first rest ihrest =>
          obtain ⟨found, hfound, habsorbs⟩ := hmodules first List.mem_cons_self
          have hfound : inner.find? (·.name == first.name) = some found := hfound
          have hkept : changeFirst first.name (fun known => merge known first) inner = inner :=
            changeFirst_eq_self hfound (ih first List.mem_cons_self habsorbs)
          rw [mergeModules]
          change mergeModules (.mk own known (changeFirst first.name _ inner)) rest = _
          rw [hkept]
          exact ihrest (fun module hm => ih module (List.mem_cons_of_mem _ hm))
            fun other ho => hmodules other (List.mem_cons_of_mem _ ho)

/-! ## What a name means -/

theorem find?_foldl_addStruct (structs added : List Struct) (name : String) :
    (added.foldl addStruct structs).find? (·.name == name) =
      (structs.find? (·.name == name)).or (added.find? (·.name == name)) := by
  have hone (structs : List Struct) (struct : Struct) :
      (addStruct structs struct).find? (·.name == name) =
        (structs.find? (·.name == name)).or ([struct].find? (·.name == name)) := by
    unfold addStruct
    split_ifs with htaken
    · by_cases hname : struct.name = name
      · rw [hname, ← List.isSome_find?] at htaken
        obtain ⟨known, hknown⟩ := Option.isSome_iff_exists.mp htaken
        rw [hknown, Option.some_or]
      · rw [List.find?_cons_of_neg (by simpa using hname), List.find?_nil, Option.or_none]
    · exact List.find?_append
  induction added generalizing structs with
  | nil => rw [List.foldl_nil, List.find?_nil, Option.or_none]
  | cons struct added ih =>
      rw [List.foldl_cons, ih, hone, Option.or_assoc, ← List.find?_append, List.singleton_append]

theorem structs_mergeModules (into : Module) (modules : List Module) :
    (mergeModules into modules).structs = into.structs := by
  induction modules generalizing into with
  | nil => rfl
  | cons first rest ih =>
      rw [mergeModules, ih]
      rfl

theorem struct?_merge (into other : Module) (name : String) :
    (merge into other).struct? name = (into.struct? name).or (other.struct? name) := by
  obtain ⟨own, structs, modules⟩ := other
  unfold struct?
  rw [merge, structs_mergeModules]
  exact find?_foldl_addStruct into.structs structs name

/-- The module of a name after others, of different names, have been merged. -/
theorem module?_mergeModules {modules : List Module} (h : (modules.map name).Nodup)
    (into : Module) (part : String) :
    (mergeModules into modules).module? part =
      ((modules.find? (·.name == part)).map
        (merge ((into.module? part).getD (empty part)))).or (into.module? part) := by
  induction modules generalizing into with
  | nil => rfl
  | cons first rest ih =>
      obtain ⟨hfirst, hrest⟩ := List.nodup_cons.mp h
      have hfind : (mk into.name into.structs (changeFirst first.name
          (fun known => merge known first) into.modules)).module? part = _ :=
        find?_changeFirst (fun known => name_merge known first) first.name part into.modules
      rw [mergeModules, ih hrest, hfind, List.find?_cons]
      by_cases hpart : part = first.name
      · have hlater : rest.find? (·.name == part) = none := by
          rw [List.find?_eq_none]
          intro other ho hname
          rw [hpart] at hname
          exact hfirst (beq_iff_eq.mp hname ▸ List.mem_map_of_mem ho)
        rw [if_pos hpart, hlater, ← hpart, beq_self_eq_true]
        rfl
      · rw [if_neg hpart, beq_false_of_ne (Ne.symm hpart)]
        rfl

/-- A structure is found in the first module if it is there, and else in the second. -/
theorem descend?_merge {other : Module} (h : Throughout ModulesDistinct other) (into : Module)
    (path : List String) (name : String) :
    ((merge into other).descend? path).bind (·.struct? name) =
      ((into.descend? path).bind (·.struct? name)).or
        ((other.descend? path).bind (·.struct? name)) := by
  induction path generalizing into other with
  | nil => exact struct?_merge into other name
  | cons part path ih =>
      obtain ⟨hdistinct, hinner⟩ := throughout_iff.mp h
      have hmodule : (merge into other).module? part =
          ((other.module? part).map (merge ((into.module? part).getD (empty part)))).or
            (into.module? part) := by
        obtain ⟨own, structs, modules⟩ := other
        rw [merge]
        exact module?_mergeModules hdistinct _ part
      have hempty : ((empty part).descend? path).bind (·.struct? name) = none := by
        cases path <;> rfl
      simp only [descend?, hmodule]
      cases hother : other.module? part with
      | none => rw [Option.map_none, Option.none_or, Option.bind_none, Option.bind_none,
          Option.or_none]
      | some found =>
          have hfound := ih (hinner found (mem_of_module? hother).1)
            ((into.module? part).getD (empty part))
          cases hinto : into.module? part with
          | none =>
              rw [hinto, Option.getD_none, hempty] at hfound
              exact hfound
          | some known =>
              rw [hinto, Option.getD_some] at hfound
              exact hfound

end Module

namespace Document

theorem find?_merge (a : Document) {b : Document} (h : b.root.Throughout Module.ModulesDistinct)
    (name : String) : (a.merge b).find? name = (a.find? name).or (b.find? name) := by
  unfold find?
  rcases List.eq_nil_or_concat (Name.parts name) with hnil | ⟨path, last, hparts⟩
  · rw [hnil]
    rfl
  · rw [hparts, List.concat_eq_append, findParts?_append, findParts?_append, findParts?_append,
      ← Option.map_or]
    exact congrArg _ (Module.descend?_merge h a.root path last)

structure Keeps (holds : Document → Prop) : Prop where
  merge : ∀ a b, holds a → holds (a.merge b)
  ensureModule : ∀ document path, holds document → holds (document.ensureModule path)
  insert : ∀ document path struct, holds document → holds (document.insert path struct).1

theorem keeps_of_growth {holds : Module → Prop}
    (h : Module.Growth fun module module' => holds module → holds module') :
    Keeps fun document => holds document.root where
  merge a b := h.merge a.root b.root
  ensureModule document path := h.changeAt (fun _ => rfl) h.refl path document.root
  insert document path struct hroot := by
    rw [root_insert]
    exact h.changeAt (Module.name_withStruct struct) (h.withStruct struct) path document.root hroot

/-- A merged document keeps everything of the first document in its place: each of its modules
has the same structures and modules of the same names in front. Merging the second document once
more changes nothing. If no modules beside each other in the second document have one name, a name
means what it means in the first document, and what it means in the second if it means nothing in
the first. Structures beside each other that differ in name stay so whatever is done, and so do
modules. -/
theorem merge_union (a b : Document) :
    (∀ place inner, a.root.at? place = some inner →
      ∃ inner', (a.merge b).root.at? place = some inner' ∧ inner'.name = inner.name ∧
        inner.structs <+: inner'.structs ∧
        inner.modules.map Module.name <+: inner'.modules.map Module.name) ∧
    (a.merge b).merge b = a.merge b ∧
    (b.root.Throughout Module.ModulesDistinct →
      ∀ name, (a.merge b).find? name = (a.find? name).or (b.find? name)) ∧
    Keeps (fun document => document.root.Throughout Module.StructsDistinct) ∧
    Keeps (fun document => document.root.Throughout Module.ModulesDistinct) := by
  refine ⟨Module.growth_extends.merge a.root b.root, ?_, find?_merge a,
    keeps_of_growth Module.growth_structsDistinct, keeps_of_growth Module.growth_modulesDistinct⟩
  exact congrArg Document.mk (Module.merge_eq_self (Module.absorbs_merge a.root b.root))

/-! Two descriptions of a fleet, of which the second has another truck and a module more. -/

def fleet : Document :=
  ⟨.mk "" [] [.mk "Fleet" [⟨"Truck", [⟨"axles", .number .u8⟩]⟩] []]⟩

def depot : Document :=
  ⟨.mk "" [] [.mk "Fleet" [⟨"Truck", [⟨"load", .number .f64⟩]⟩]
    [.mk "Yard" [⟨"Gate", [⟨"shut", .boolean⟩]⟩] []]]⟩

theorem merge_fleet_depot :
    depot.root.Throughout Module.ModulesDistinct ∧
      (fleet.merge depot).find? "Fleet::Truck" =
        some (["Fleet"], ⟨"Truck", [⟨"axles", .number .u8⟩]⟩) ∧
      (fleet.merge depot).find? "Fleet.Yard.Gate" =
        some (["Fleet", "Yard"], ⟨"Gate", [⟨"shut", .boolean⟩]⟩) ∧
      (fleet.merge depot).find? "Yard::Gate" = none ∧
      (fleet.merge depot).merge depot = fleet.merge depot ∧
      fleet.root.Throughout Module.StructsDistinct ∧
      (fleet.merge depot).root.Throughout Module.StructsDistinct := by
  have hstructs : fleet.root.Throughout Module.StructsDistinct := by
    refine Module.throughout_iff.mpr ⟨List.nodup_nil, fun inner hi => ?_⟩
    rw [List.mem_singleton.mp hi]
    exact Module.throughout_iff.mpr ⟨List.nodup_singleton _, fun inner hi => by cases hi⟩
  have hdistinct : depot.root.Throughout Module.ModulesDistinct := by
    refine Module.throughout_iff.mpr ⟨List.nodup_singleton _, fun inner hi => ?_⟩
    rw [List.mem_singleton.mp hi]
    refine Module.throughout_iff.mpr ⟨List.nodup_singleton _, fun inner hi => ?_⟩
    rw [List.mem_singleton.mp hi]
    exact Module.throughout_iff.mpr ⟨List.nodup_nil, fun inner hi => by cases hi⟩
  obtain ⟨_, hagain, hfind, hkeeps, _⟩ := merge_union fleet depot
  simp only [hfind hdistinct]
  exact ⟨hdistinct, rfl, rfl, rfl, hagain, hstructs,
    hkeeps.merge fleet depot hstructs⟩

end Document
end TopicCodec.Markup
