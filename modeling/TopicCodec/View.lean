import TopicCodec.Json
import TopicCodec.Markup.Reader
import TopicCodec.Descriptor
import TopicCodec.Value.Default

/-!
# Samples as JSON

A structure is an object. Its members are named as the description names them, or by
field index where there is no description. A fixed array is nested by its declared
dimensions when written and may be nested in any way when read. Members left out when
reading keep their defaults.

The declared dimensions need not go with the array that is there. Writing is cut off where
the elements of one row are more than a 64-bit number counts.
-/
namespace TopicCodec

/-- Why a sample has no JSON form, or a JSON value is no sample. -/
inductive ViewError where
  | markup (error : MarkupError)
  | defect (defect : Defect)
  | streamOutOfRange (id : UInt32)
  | missingField (place : String) (index : UInt32)
  | wrongField (place : String) (shape : Shape)
  | wrongElement (place : Option String) (leaf : Leaf)
  | expectedObject (path : String)
  | unknownMember (path name : String)
  | expectedArray (path : String)
  | elementCount (path : String) (declared : UInt32) (found : Nat)
  | expectedString (path : String) (found : Json)
  | expectedScalar (path kind : String) (found : Json)
  /-- The work was cut off. -/
  | aborted (abort : Abort)

/-- The messages of an error and of what caused it, outermost first. -/
def ViewError.report : ViewError → List String
  | .markup error => ["descriptor metadata", error.message]
  | .defect fault => fault.report
  | .streamOutOfRange id => [s!"stream {id} is out of range"]
  | .missingField place index => [s!"{place}: sample has no field {index}"]
  | .wrongField place shape => [s!"{place}: sample does not hold a `{shape.text}`"]
  | .wrongElement none leaf => [s!"sample does not hold a `{leaf.text}`"]
  | .wrongElement (some place) leaf => [s!"{place}: sample does not hold a `{leaf.text}`"]
  | .expectedObject path => [s!"{path}: expected an object"]
  | .unknownMember path name => [s!"{path}: unknown member `{name}`"]
  | .expectedArray path => [s!"{path}: expected an array"]
  | .elementCount path declared found =>
      [s!"{path}: expected {declared} elements, found {found}"]
  | .expectedString path found => [s!"{path}: expected a string, found {found.compact}"]
  | .expectedScalar path kind found => [path, s!"expected {kind}, found {found.compact}"]
  | .aborted abort => [abort.message]

/-- A descriptor with its description, if it has one. -/
structure View where
  desc : Descriptor
  document : Option Markup.Document

namespace View

def ofDescriptor (desc : Descriptor) : Except ViewError View :=
  if desc.markup = "" then .ok ⟨desc, none⟩
  else
    match Markup.Document.read desc.markup with
    | .ok document => .ok ⟨desc, some document⟩
    | .error error => .error (.markup error)

/-! ## Names -/

/-- A described structure and the module it is in. -/
structure Level where
  scope : List String
  struct : Markup.Struct

def rootLevel? (view : View) : Option Level := do
  let document ← view.document
  let (scope, struct) ← document.find? view.desc.typeName
  return ⟨scope, struct⟩

/-- The type of the elements under all sequences and arrays. -/
def elementType : Markup.MemberType → Markup.MemberType
  | .sequence elem => elementType elem
  | .array _ elem => elementType elem
  | type => type

/-- The structure that a member of this type holds. -/
def nestedLevel? (view : View) (outer : Option Level) (type : Option Markup.MemberType) :
    Option Level := do
  match elementType (← type) with
  | .named name =>
      let (scope, struct) ← (← view.document).resolve? (← outer).scope name
      return ⟨scope, struct⟩
  | _ => none

/-- The described member at a position. -/
def member? (level : Option Level) (position : Nat) : Option Markup.Member :=
  level.bind (·.struct.members[position]?)

/-- The name of the field that the instruction at a position describes. -/
def fieldName (level : Option Level) (position : Nat) (insn : Instruction) : String :=
  match member? level position with
  | some member => member.name
  | none => toString insn.field.toNat

def instructions (view : View) (id : UInt32) : Except ViewError (List Instruction) :=
  match view.desc.program.stream? id with
  | none => .error (.streamOutOfRange id)
  | some words => (Stream.instructions id words).mapError .defect

/-! ## Scalars -/

open Ieee

/-- Infinities and NaNs have no JSON form. -/
def floatToJson (bits : BitVec 64) : Json :=
  if binary64.isFinite (binary64.magnitude bits.toNat) then .float bits else .null

def scalarToJson : Scalar → Json
  | .bool value => .bool value
  | .number .f32 bits => floatToJson (BitVec.ofNat 64 (binary32.convert binary64 bits.toNat))
  | .number .f64 bits => floatToJson bits
  | .number kind bits => .integer (if kind.isSigned then bits.toInt else (bits.toNat : Int))

/-- The binary64 number that a JSON number stands for. -/
def toFloat? : Json → Option (BitVec 64)
  | .integer n =>
      some (BitVec.ofNat 64 (binary64.signed (n < 0) (binary64.round n.natAbs 1)))
  | .float bits => some bits
  | _ => none

/-- The value of the same kind as a scalar that a JSON value stands for. -/
def scalarFromJson? (like : Scalar) (json : Json) : Option Scalar :=
  match like, json with
  | .bool _, .bool value => some (.bool value)
  | .bool _, _ => none
  | .number .f32 _, json =>
      (toFloat? json).map fun bits =>
        .number .f32 (BitVec.ofNat _ (binary64.convert binary32 bits.toNat))
  | .number .f64 _, json => (toFloat? json).map fun bits => .number .f64 bits
  | .number kind _, .integer n => (kind.ofInt? n).map (.number kind)
  | _, _ => none

/-! ## Writing -/

/-- Declared array dimensions, the outermost first. -/
def dimensions : Option Markup.MemberType → List UInt32
  | some (.array size elem) => size :: dimensions (some elem)
  | _ => []

/-- The list in pieces of `size`; the fuel bounds their number. -/
def chunks {α : Type} (size : Nat) : (fuel : Nat) → List α → List (List α)
  | 0, _ => []
  | fuel + 1, list =>
      if list.isEmpty then [] else list.take size :: chunks size fuel (list.drop size)

/-- The number of elements in a row of these dimensions. -/
def rowSize (dims : List UInt32) : Except Abort Nat :=
  dims.foldlM (fun size dim => Abort.multiply size dim.toNat) 1

/-- Elements in nested rows. -/
def nest : (dims : List UInt32) → List Json → Except Abort Json
  | [], flat => .ok (.array flat)
  | _ :: inner, flat => do
      let row ← rowSize inner
      if inner.isEmpty || row = 0 then return .array flat
      else return .array (← (chunks row flat.length flat).mapM (nest inner))

/-- Writes a nested structure. -/
abbrev WriteNested := UInt32 → Value → Option Level → Except ViewError Json

def leafToJson (view : View) (enter : WriteNested) (level : Option Level)
    (type : Option Markup.MemberType) (leaf : Leaf) (value : Value) : Except ViewError Json :=
  match leaf, value with
  | .number _, .scalar scalar | .bool, .scalar scalar => .ok (scalarToJson scalar)
  | .string _, .text text => .ok (.string text)
  | .struct stream, .struct _ => enter stream value (view.nestedLevel? level type)
  | _, _ => .error (.wrongElement none leaf)

def shapeToJson (view : View) (enter : WriteNested) (level : Option Level)
    (type : Option Markup.MemberType) (name : String) (shape : Shape) (value : Value) :
    Except ViewError Json :=
  match shape, value with
  | .single leaf, value => leafToJson view enter level type leaf value
  | .sequence leaf, .sequence _ items =>
      (items.mapM (leafToJson view enter level type leaf)).map .array
  | .array leaf _, .array items => do
      let flat ← items.mapM (leafToJson view enter level type leaf)
      (nest (dimensions type) flat).mapError .aborted
  | _, _ => .error (.wrongField name shape)

/-- The members of an object, for the fields from a position on. -/
def fieldsToJson (view : View) (enter : WriteNested) (level : Option Level) (value : Value) :
    (position : Nat) → List Instruction → List (String × Json) →
    Except ViewError (List (String × Json))
  | _, [], members => .ok members
  | position, insn :: rest, members => do
      let name := fieldName level position insn
      let type := (member? level position).map (·.type)
      match value.field? insn.field with
      | none => .error (.missingField name insn.field)
      | some found =>
          let json ← shapeToJson view enter level type name insn.shape found
          fieldsToJson view enter level value (position + 1) rest
            (Json.insertMember name json members)

/-- The object of a structure. The fuel bounds the depth of the sample. -/
def structToJson (view : View) : (fuel : Nat) → WriteNested
  | 0, stream, _, _ => .error (.streamOutOfRange stream)
  | fuel + 1, stream, value, level => do
      let insns ← view.instructions stream
      let members ← fieldsToJson view (structToJson view fuel) level value 0 insns []
      return .object members

mutual

/-- Levels of values inside a value, itself included. -/
def height : Value → Nat
  | .struct fields => heightFields fields + 1
  | .array items | .sequence _ items => heightItems items + 1
  | _ => 1

def heightItems : List Value → Nat
  | [] => 0
  | item :: rest => max (height item) (heightItems rest)

def heightFields : List (UInt32 × Value) → Nat
  | [] => 0
  | (_, value) :: rest => max (height value) (heightFields rest)

end

/-- A sample of the descriptor as JSON. -/
def toJson (view : View) (sample : Value) : Except ViewError Json :=
  structToJson view (height sample) 0 sample view.rootLevel?

/-! ## Reading -/

mutual

/-- Elements of nested JSON arrays; any other value is its own only element. -/
def flatten : Json → List Json
  | .array items => flattenItems items
  | json => [json]

def flattenItems : List Json → List Json
  | [] => []
  | item :: rest => flatten item ++ flattenItems rest

end

def shown (path : String) : String := if path = "" then "<root>" else path

/-- Reads a nested structure. -/
abbrev ReadNested := UInt32 → Json → Value → Option Level → String → Except ViewError Value

def leafFromJson (view : View) (enter : ReadNested) (level : Option Level)
    (type : Option Markup.MemberType) (leaf : Leaf) (json : Json) (value : Value) (path : String) :
    Except ViewError Value :=
  match leaf, value with
  | .number _, .scalar scalar | .bool, .scalar scalar =>
      match scalarFromJson? scalar json with
      | some scalar => .ok (.scalar scalar)
      | none => .error (.expectedScalar path scalar.kindName json)
  | .string _, .text _ =>
      match json with
      | .string text => .ok (.text text)
      | json => .error (.expectedString path json)
  | .struct stream, .struct _ => enter stream json value (view.nestedLevel? level type) path
  | _, _ => .error (.wrongElement (some path) leaf)

/-- Reads JSON values into slots, as many as there are of both. -/
def elementsFromJson (view : View) (enter : ReadNested) (level : Option Level)
    (type : Option Markup.MemberType) (leaf : Leaf) (path : String) :
    (position : Nat) → List Json → List Value → Except ViewError (List Value)
  | position, json :: jsons, slot :: slots => do
      let here := s!"{path}[{position}]"
      let value ← leafFromJson view enter level type leaf json slot here
      let values ← elementsFromJson view enter level type leaf path (position + 1) jsons slots
      return value :: values
  | _, _, slots => .ok slots

def shapeFromJson (view : View) (enter : ReadNested) (level : Option Level)
    (type : Option Markup.MemberType) (shape : Shape) (json : Json) (value : Value)
    (path : String) : Except ViewError Value :=
  match shape, value with
  | .single leaf, value => leafFromJson view enter level type leaf json value path
  | .sequence leaf, .sequence supply items =>
      match json with
      | .array jsons => do
          let (supply, items) ← (supply.resize items jsons.length).mapError .defect
          let items ← elementsFromJson view enter level type leaf path 0 jsons items
          return .sequence supply items
      | _ => .error (.expectedArray path)
  | .array leaf count, .array slots =>
      match json with
      | .array jsons =>
          let flat := flattenItems jsons
          if flat.length ≠ count.toNat then .error (.elementCount path count flat.length)
          else (elementsFromJson view enter level type leaf path 0 flat slots).map .array
      | _ => .error (.expectedArray path)
  | _, _ => .error (.wrongField path shape)

/-- Reads the members of an object into the fields from a position on. -/
def fieldsFromJson (view : View) (enter : ReadNested) (level : Option Level) (path : String)
    (members : List (String × Json)) :
    (position : Nat) → List Instruction → Value → Except ViewError Value
  | _, [], value => .ok value
  | position, insn :: rest, value => do
      let name := fieldName level position insn
      match members.lookup name with
      | none => fieldsFromJson view enter level path members (position + 1) rest value
      | some json =>
          let here := path ++ "." ++ name
          let type := (member? level position).map (·.type)
          match value.field? insn.field with
          | none => .error (.missingField here insn.field)
          | some slot =>
              let slot ← shapeFromJson view enter level type insn.shape json slot here
              fieldsFromJson view enter level path members (position + 1) rest
                (value.setField insn.field slot)

/-- Reads an object into a structure. The fuel bounds the depth of the JSON value. -/
def structFromJson (view : View) : (fuel : Nat) → ReadNested
  | 0, _, _, _, _, path => .error (.expectedObject (shown path))
  | fuel + 1, stream, json, value, level, path =>
      match json with
      | .object members => do
          let insns ← view.instructions stream
          let names := insns.mapIdx (fieldName level)
          match members.find? fun (name, _) => name ∉ names with
          | some (name, _) => .error (.unknownMember (shown path) name)
          | none =>
              fieldsFromJson view (structFromJson view fuel) level path members 0 insns value
      | _ => .error (.expectedObject (shown path))

mutual

/-- Levels of values inside a JSON value, itself included. -/
def jsonHeight : Json → Nat
  | .array items => jsonHeightItems items + 1
  | .object members => jsonHeightMembers members + 1
  | _ => 1

def jsonHeightItems : List Json → Nat
  | [] => 0
  | item :: rest => max (jsonHeight item) (jsonHeightItems rest)

def jsonHeightMembers : List (String × Json) → Nat
  | [] => 0
  | (_, value) :: rest => max (jsonHeight value) (jsonHeightMembers rest)

end

/-- The sample of the descriptor that a JSON value stands for, its objects in canonical form. -/
def fromJson (view : View) (json : Json) : Except ViewError Value := do
  let sample ← (view.desc.program.default 0).mapError .defect
  structFromJson view (jsonHeight json) 0 json sample view.rootLevel? ""

end View
end TopicCodec
