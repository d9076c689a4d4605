import TopicCodec.Error
import TopicCodec.Name
import TopicCodec.Scalar

/-!
# Type descriptions

A description names what a program only numbers: modules, structures and members, in
the order of declaration. A document is a tree of modules under an unnamed root.
Looking up a name takes the first module and the first structure that bear it; a
reference from within a module is searched for in the module itself and then in each
enclosing one. Adding never replaces: the definition already present stays.
-/
namespace TopicCodec.Markup

inductive MemberType where
  | number (kind : ScalarKind)
  | boolean
  | string (length : Option UInt32)
  | sequence (elem : MemberType)
  | array (size : UInt32) (elem : MemberType)
  /-- A structure, by a name relative to the enclosing module. -/
  | named (name : String)
  deriving DecidableEq, Repr

structure Member where
  name : String
  type : MemberType
  deriving DecidableEq, Repr

structure Struct where
  name : String
  members : List Member
  deriving DecidableEq, Repr

inductive Module where
  | mk (name : String) (structs : List Struct) (modules : List Module)

/-- The first member with this name, with its position. -/
def Struct.member? (struct : Struct) (name : String) : Option (Nat × Member) :=
  (struct.members.mapIdx fun i member => (i, member)).find? (·.2.name == name)

namespace Module

def name : Module → String
  | mk name _ _ => name

def structs : Module → List Struct
  | mk _ structs _ => structs

def modules : Module → List Module
  | mk _ _ modules => modules

def empty (name : String) : Module := mk name [] []

mutual

def beq : Module → Module → Bool
  | mk name structs modules, mk name' structs' modules' =>
      name == name' && structs == structs' && beqList modules modules'

def beqList : List Module → List Module → Bool
  | [], [] => true
  | a :: as, b :: bs => beq a b && beqList as bs
  | _, _ => false

end

instance : BEq Module := ⟨beq⟩

def module? (module : Module) (name : String) : Option Module :=
  module.modules.find? (·.name == name)

def struct? (module : Module) (name : String) : Option Struct :=
  module.structs.find? (·.name == name)

/-- Changes the first module with this name, or a new one put at the end. -/
def changeFirst (name : String) (change : Module → Module) : List Module → List Module
  | [] => [change (empty name)]
  | module :: rest =>
      if module.name = name then change module :: rest
      else module :: changeFirst name change rest

/-- Changes the module at `path` below, made with its parents if missing. -/
def changeAt (change : Module → Module) : List String → Module → Module
  | [], module => change module
  | part :: path, mk name structs modules =>
      mk name structs (changeFirst part (changeAt change path) modules)

/-- Adds a structure at the end unless the name is taken. -/
def addStruct (structs : List Struct) (struct : Struct) : List Struct :=
  if structs.any (·.name == struct.name) then structs else structs ++ [struct]

mutual

/-- Adds the structures and modules of another module. -/
def merge (into : Module) : Module → Module
  | mk _ structs modules =>
      mergeModules (mk into.name (structs.foldl addStruct into.structs) into.modules) modules

def mergeModules (into : Module) : List Module → Module
  | [] => into
  | module :: rest =>
      mergeModules
        (mk into.name into.structs
          (changeFirst module.name (fun known => merge known module) into.modules))
        rest

end

/-- The module that a path leads to. -/
def descend? : List String → Module → Option Module
  | [], module => some module
  | part :: path, module => (module.module? part).bind (descend? path)

end Module

structure Document where
  root : Module

namespace Document

def empty : Document := ⟨.empty ""⟩

def isEmpty (document : Document) : Bool :=
  document.root.structs.isEmpty && document.root.modules.isEmpty

instance : BEq Document := ⟨fun a b => a.root == b.root⟩

/-- The document with the module at `path` made if it was missing. -/
def ensureModule (document : Document) (path : List String) : Document :=
  ⟨document.root.changeAt id path⟩

def module? (document : Document) (path : List String) : Option Module :=
  document.root.descend? path

/-- Adds a structure to the module at `path`; also says whether its name was free. -/
def insert (document : Document) (path : List String) (struct : Struct) : Document × Bool :=
  let taken := ((document.module? path).bind (·.struct? struct.name)).isSome
  let add : Module → Module
    | .mk name structs modules => .mk name (Module.addStruct structs struct) modules
  (⟨document.root.changeAt add path⟩, !taken)

def merge (document other : Document) : Document := ⟨document.root.merge other.root⟩

/-- The structure with these name parts, and the path of its module. -/
def findParts? (document : Document) (parts : List String) : Option (List String × Struct) :=
  match parts.getLast? with
  | none => none
  | some last => do
      let path := parts.dropLast
      let module ← document.module? path
      let struct ← module.struct? last
      return (path, struct)

/-- The structure with this full name. -/
def find? (document : Document) (name : String) : Option (List String × Struct) :=
  document.findParts? (Name.parts name)

/-- The structure that `name` means within the module at `scope`. -/
def resolve? (document : Document) (scope : List String) (name : String) :
    Option (List String × Struct) :=
  let parts := Name.parts name
  if Name.isAnchored name then document.find? (Name.join parts)
  else
    (List.range (scope.length + 1)).reverse.findSome? fun depth =>
      document.find? (Name.join (scope.take depth ++ parts))

end Document
end TopicCodec.Markup
