import TopicCodec.Declaration
import TopicCodec.Text.Blank
import TopicCodec.Value.Default

/-!
# Declared structure types

A structure type given field by field yields a descriptor of its own. Arrays of arrays
become one array of several dimensions; a bound on a field bounds its strings.

What a new value of a type holds is up to whoever declares the type. `HostType.default` is
the one in which every field is at the default of its own type.
-/
namespace TopicCodec

mutual

/-- The type of a declared field or of its elements. -/
inductive HostType where
  | number (kind : ScalarKind)
  | bool
  | text
  | array (count : Nat) (elem : HostType)
  | growable (elem : HostType)
  /-- A declared structure; the key list, if any, replaces the key marks of its fields. -/
  | struct (name : String) (keyList : Option String) (fields : List HostField)

/-- A field of a declared structure. -/
inductive HostField where
  | mk (name : String) (type : HostType) (key : Bool) (bound : Option UInt32)

end

/-- Why a declared type has no descriptor. -/
structure HostDefect where
  typeName : String
  defect : Defect

namespace HostType

mutual

/-- How a declared type appears as a member. -/
def fieldType : HostType → Except HostDefect FieldType
  | number kind => .ok (.number kind)
  | bool => .ok .bool
  | text => .ok (.string none)
  | array count elem =>
      match fieldType elem with
      | .ok (.array dims inner) => .ok (.array (UInt32.ofNat count :: dims) inner)
      | .ok inner => .ok (.array [UInt32.ofNat count] inner)
      | .error error => .error error
  | growable elem => (fieldType elem).map .sequence
  | struct name keyList fields =>
      match declaredMembers fields with
      | .error error => .error error
      | .ok members =>
          let declaration : Declaration :=
            { typeName := name, members, keyList := keyList.map Text.listed }
          match declaration.build with
          | .ok desc => .ok (.struct desc)
          | .error defect => .error ⟨name, defect⟩

def declaredMembers : List HostField → Except HostDefect (List DeclaredMember)
  | [] => .ok []
  | .mk name type key bound :: rest =>
      match fieldType type, declaredMembers rest with
      | .ok found, .ok members =>
          let type := match bound with
            | some bound => found.withStringBound bound
            | none => found
          .ok ({ name, type, key } :: members)
      | .error error, _ => .error error
      | _, .error error => .error error

end

/-- The descriptor of a declared structure. -/
def descriptor? (type : HostType) : Except HostDefect (Option Descriptor) :=
  (fieldType type).map fun
    | .struct desc => some desc
    | _ => none

mutual

/-- The value of a declared type with zeros, empty texts and empty sequences. -/
def default : HostType → Value
  | number kind => .scalar (.zero kind)
  | bool => .scalar (.bool false)
  | text => .text ""
  | array count elem => .array (List.replicate count (default elem))
  | growable elem => .sequence (.copies (default elem)) []
  | struct _ _ fields => .struct (defaultFields 0 fields)

def defaultFields (index : Nat) : List HostField → List (UInt32 × Value)
  | [] => []
  | .mk _ type _ _ :: rest => (UInt32.ofNat index, default type) :: defaultFields (index + 1) rest

end

end HostType
end TopicCodec
