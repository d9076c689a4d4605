import TopicCodec.Proofs.Merging

/-!
# Names in a description

The names of a description are those of its modules, structures and members and those by which
types refer to structures. A description is the same after a change of its names if and only if
the change leaves each of them as it is.
-/
namespace TopicCodec.Markup

theorem map_eq_self_iff {α : Type} {f : α → α} {items : List α} :
    items.map f = items ↔ ∀ item ∈ items, f item = item := by
  rw [← List.map_inj_left, List.map_id' items]

namespace MemberType

def names : MemberType → List String
  | .sequence elem => elem.names
  | .array _ elem => elem.names
  | .named name => [name]
  | .number _ | .boolean | .string _ => []

def mapNames (f : String → String) : MemberType → MemberType
  | .sequence elem => .sequence (elem.mapNames f)
  | .array size elem => .array size (elem.mapNames f)
  | .named name => .named (f name)
  | .number kind => .number kind
  | .boolean => .boolean
  | .string length => .string length

theorem mapNames_eq_self_iff {f : String → String} {type : MemberType} :
    type.mapNames f = type ↔ ∀ name ∈ type.names, f name = name := by
  induction type <;> simp_all [mapNames, names]

end MemberType

namespace Member

def names (member : Member) : List String := member.name :: member.type.names

def mapNames (f : String → String) (member : Member) : Member :=
  ⟨f member.name, member.type.mapNames f⟩

theorem mapNames_eq_self_iff {f : String → String} {member : Member} :
    member.mapNames f = member ↔ ∀ name ∈ member.names, f name = name := by
  cases member
  simp [mapNames, names, MemberType.mapNames_eq_self_iff]

end Member

namespace Struct

def names (struct : Struct) : List String := struct.name :: struct.members.flatMap Member.names

def mapNames (f : String → String) (struct : Struct) : Struct :=
  ⟨f struct.name, struct.members.map (Member.mapNames f)⟩

theorem mapNames_eq_self_iff {f : String → String} {struct : Struct} :
    struct.mapNames f = struct ↔ ∀ name ∈ struct.names, f name = name := by
  cases struct
  simp only [mapNames, names, Struct.mk.injEq, map_eq_self_iff, Member.mapNames_eq_self_iff,
    List.forall_mem_cons, List.forall_mem_flatMap]

end Struct

namespace Module

mutual

def names : Module → List String
  | .mk name structs modules => name :: (structs.flatMap Struct.names ++ namesOf modules)

def namesOf : List Module → List String
  | [] => []
  | module :: rest => names module ++ namesOf rest

end

mutual

def mapNames (f : String → String) : Module → Module
  | .mk name structs modules =>
      .mk (f name) (structs.map (Struct.mapNames f)) (mapNamesOf f modules)

def mapNamesOf (f : String → String) : List Module → List Module
  | [] => []
  | module :: rest => mapNames f module :: mapNamesOf f rest

end

theorem names_empty (name : String) : (Module.empty name).names = [name] := rfl

theorem name_mem_names (module : Module) : module.name ∈ module.names := by
  cases module
  exact List.mem_cons_self

theorem namesOf_eq (modules : List Module) : namesOf modules = modules.flatMap names := by
  induction modules with
  | nil => rfl
  | cons module modules ih => rw [namesOf, ih, List.flatMap_cons]

theorem mapNamesOf_eq (f : String → String) (modules : List Module) :
    mapNamesOf f modules = modules.map (mapNames f) := by
  induction modules with
  | nil => rfl
  | cons module modules ih => rw [mapNamesOf, ih, List.map_cons]

theorem mapNames_eq_self_iff {f : String → String} {module : Module} :
    module.mapNames f = module ↔ ∀ name ∈ module.names, f name = name := by
  induction module with
  | mk name structs modules ih =>
      simp only [mapNames, names, namesOf_eq, mapNamesOf_eq, Module.mk.injEq, map_eq_self_iff,
        Struct.mapNames_eq_self_iff, List.forall_mem_cons, List.forall_mem_append,
        List.forall_mem_flatMap]
      exact and_congr_right fun _ => and_congr_right fun _ => forall₂_congr ih

end Module

namespace Document

def names (document : Document) : List String := document.root.names

def mapNames (f : String → String) (document : Document) : Document :=
  ⟨document.root.mapNames f⟩

theorem mapNames_eq_self_iff {f : String → String} {document : Document} :
    document.mapNames f = document ↔ ∀ name ∈ document.names, f name = name := by
  cases document
  simp [mapNames, names, Module.mapNames_eq_self_iff]

end Document
end TopicCodec.Markup
