import TopicCodec.Descriptor.Validate
import TopicCodec.Markup.Writer

/-!
# Declarations

A declaration lists the members of a structure type; `Declaration.build` makes a
descriptor of it. The programs of nested types are taken in, each once, and their
descriptions merged; when one of them has no description the result has none either.
The flags follow from the sizes, and the result is validated.
-/
namespace TopicCodec

/-- How a member is declared. -/
inductive FieldType where
  | number (kind : ScalarKind)
  | bool
  | string (bound : Option UInt32)
  | struct (desc : Descriptor)
  | sequence (elem : FieldType)
  /-- Dimensions from the outermost in. -/
  | array (dims : List UInt32) (elem : FieldType)

namespace FieldType

/-- Bounds the strings of the type and of its elements, but not those inside structures. -/
def withStringBound (bound : UInt32) : FieldType → FieldType
  | string _ => string (some bound)
  | sequence elem => sequence (elem.withStringBound bound)
  | array dims elem => array dims (elem.withStringBound bound)
  | type => type

/-- The type as a description gives it to a structure in the module at `scope`. -/
def markup (scope : List String) : FieldType → Markup.MemberType
  | number kind => .number kind
  | bool => .boolean
  | string bound => .string bound
  | struct desc =>
      let parts := Name.parts desc.canonicalName
      match parts.getLast? with
      | some last => .named (if parts.dropLast = scope then last else desc.canonicalName)
      | none => .named desc.canonicalName
  | sequence elem => .sequence (elem.markup scope)
  | array dims elem => dims.foldr .array (elem.markup scope)

end FieldType

/-- A declared member. -/
structure DeclaredMember where
  name : String
  type : FieldType
  key : Bool := false

structure Declaration where
  typeName : String
  /-- Size of the structure in the memory of its host. -/
  size : UInt32 := 0
  /-- Alignment of the structure in the memory of its host. -/
  align : UInt32 := 1
  members : List DeclaredMember
  /-- Names of the key members in key order, in place of the key marks. -/
  keyList : Option (List String) := none

/-- What has been taken in from nested types. -/
structure Assembly where
  /-- Stream 0 is kept free for the type being built. -/
  program : Program
  /-- Root streams of the types taken in, by canonical name. -/
  grafted : List (String × UInt32)
  document : Markup.Document
  /-- Every type taken in is described. -/
  described : Bool

namespace Assembly

def start : Assembly := ⟨⟨[[]]⟩, [], .empty, true⟩

/-- The stream of a nested type, taken in if it is new. -/
def streamFor (assembly : Assembly) (desc : Descriptor) : Except Defect (UInt32 × Assembly) := do
  let name := desc.canonicalName
  match assembly.grafted.lookup name with
  | some id => return (id, assembly)
  | none =>
      let (program, id) ← assembly.program.graft desc.program
      let grafted := (name, id) :: assembly.grafted
      if desc.markup = "" then
        return (id, { assembly with program, grafted, described := false })
      else
        let known ← (Markup.Document.read desc.markup).mapError .markup
        return (id, { assembly with program, grafted, document := assembly.document.merge known })

def leaf (assembly : Assembly) : FieldType → Except Defect (Leaf × Assembly)
  | .number kind => .ok (.number kind, assembly)
  | .bool => .ok (.bool, assembly)
  | .string bound => .ok (.string bound, assembly)
  | .struct desc => (assembly.streamFor desc).map fun (id, assembly) => (.struct id, assembly)
  | .sequence _ | .array .. => .error (.unsupportedMember "collections of collections")

/-- The product of dimensions, none if it or a part of it is no 32-bit number. -/
def elementCount? (dims : List UInt32) : Option UInt32 :=
  dims.foldlM (fun (count dim : UInt32) =>
    if count.toNat * dim.toNat < UInt32.size then some (count * dim) else none) 1

def shape (assembly : Assembly) : FieldType → Except Defect (Shape × Assembly)
  | .sequence elem =>
      (assembly.leaf elem).map fun (leaf, assembly) => (.sequence leaf, assembly)
  | .array dims elem =>
      match elementCount? dims with
      | none => .error (.unsupportedMember "array element count overflows u32")
      | some count =>
          (assembly.leaf elem).map fun (leaf, assembly) => (.array leaf count, assembly)
  | type => (assembly.leaf type).map fun (leaf, assembly) => (.single leaf, assembly)

def shapes (assembly : Assembly) : List FieldType → Except Defect (List Shape × Assembly)
  | [] => .ok ([], assembly)
  | type :: rest => do
      let (shape, assembly) ← assembly.shape type
      let (shapes, assembly) ← assembly.shapes rest
      return (shape :: shapes, assembly)

end Assembly

namespace Declaration

/-- The first name that stands twice. -/
def duplicate? (names : List String) : List String → Option String
  | [] => none
  | name :: rest => if name ∈ names then some name else duplicate? (name :: names) rest

/-- Positions of the named members, after those in `order`. -/
def keyPositions (members : List DeclaredMember) (order : List Nat) :
    List String → Except Defect (List Nat)
  | [] => .ok order
  | name :: rest =>
      match members.findIdx? (·.name == name) with
      | none => .error (.unknownMember name)
      | some i =>
          if i ∈ order then .error (.duplicateKey name)
          else keyPositions members (order ++ [i]) rest

/-- Positions of the key members in key order. -/
def keyOrder (declaration : Declaration) : Except Defect (List Nat) :=
  match declaration.keyList with
  | some names => keyPositions declaration.members [] names
  | none =>
      .ok ((declaration.members.zipIdx.filter fun (member, _) => member.key).map fun (_, i) => i)

/-- Word positions of fields with these shapes, from `pc` on. -/
def positions (pc : Nat) : List Shape → List Nat
  | [] => []
  | shape :: rest => pc :: positions (pc + shape.length) rest

/-- The flags that sizes imply. -/
def impliedFlags (desc : Descriptor) : Except Abort Flags := do
  let size ← desc.fixedSize? {}
  let flags : Flags := if size.isNone then .variableSize else .empty
  if desc.keys.isEmpty then return flags
  else return if ← desc.keyFits then flags ∪ .fixedKey else flags

/-- Parts of the canonical name. -/
def parts (declaration : Declaration) : List String :=
  Name.parts (Name.canonical declaration.typeName)

/-- The module that the structure is in. -/
def scope (declaration : Declaration) : List String := declaration.parts.dropLast

/-- The structure as a description gives it. -/
def described (declaration : Declaration) : Markup.Struct where
  name := declaration.parts.getLast?.getD ""
  members := declaration.members.map fun member =>
    ⟨member.name, member.type.markup declaration.scope⟩

/-- The words of the root stream, given the shapes of the members and which of them are keys. -/
def rootWords (shapes : List Shape) (order : List Nat) : Stream :=
  Stream.assemble (shapes.zipIdx.map fun place =>
    (UInt32.ofNat place.2, place.1, decide (place.2 ∈ order)))

/-- The descriptor without its flags, given the order of the keys and what was made of the
members. -/
def assembled (declaration : Declaration) (order : List Nat) (shapes : List Shape)
    (assembly : Assembly) : Descriptor :=
  let keys := order.filterMap fun i =>
    match declaration.members[i]?, (positions 0 shapes)[i]? with
    | some member, some pc => some (⟨member.name, UInt32.ofNat pc⟩ : Key)
    | _, _ => none
  { typeName := Name.canonical declaration.typeName
    size := declaration.size
    align := declaration.align
    keyCount := UInt32.ofNat keys.length
    keys
    program := ⟨rootWords shapes order :: assembly.program.streams.drop 1⟩
    markup :=
      if assembly.described then
        (assembly.document.insert declaration.scope declaration.described).1.write
      else "" }

/-- The descriptor of the structure. Names, keys, members and what was made of them are checked in
turn. -/
def build (declaration : Declaration) : Except Defect Descriptor := do
  if declaration.parts.isEmpty then .error (.unsupportedMember "empty type name")
  else
    match duplicate? [] (declaration.members.map (·.name)) with
    | some name => .error (.duplicateMember name)
    | none =>
        let order ← declaration.keyOrder
        let made ← Assembly.start.shapes (declaration.members.map (·.type))
        let plain := declaration.assembled order made.1 made.2
        let flags ← (impliedFlags plain).mapError .aborted
        let desc := { plain with flags }
        desc.validate
        return desc

end Declaration
end TopicCodec
