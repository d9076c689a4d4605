import TopicCodec.Markup
import TopicCodec.Program

/-!
# Agreement of a description with a program

A stream agrees with a structure when it has one instruction for each member, in
order, of the same type, and when every stream it refers to agrees with the structure
that the member's type names. A stream already being checked is not checked again, so
the check ends on programs that recur.
-/
namespace TopicCodec.Markup

/-- Spelling of a type in complaints. -/
def MemberType.text : MemberType → String
  | number kind => kind.name
  | boolean => "bool"
  | string none => "string"
  | string (some length) => s!"string<{length}>"
  | sequence elem => "sequence<" ++ elem.text ++ ">"
  | array size elem => elem.text ++ s!"[{size}]"
  | named name => s!"struct {name}"

/-- Element type under all array dimensions, and the product of the dimensions from `total` on;
none if a product takes more than 64 bits. -/
def MemberType.flatten (total : Nat) : MemberType → Option (Nat × MemberType)
  | array size elem =>
      if total * size.toNat < UInt64.size then elem.flatten (total * size.toNat) else none
  | type => some (total, type)

namespace Check

def mismatch {α : Type} (path reason : String) : Except MarkupError α :=
  .error (.mismatch path reason)

/-- Complaint that a stream has one thing and the description another. -/
def different {α : Type} (path found : String) (type : MemberType) : Except MarkupError α :=
  mismatch path s!"stream has {found}, markup has {type.text}"

variable (document : Document)
  (enter : UInt32 → List String → Struct → String → Except MarkupError Unit)

/-- Checks a leaf in a member of a structure in the module at `scope`; `enter` checks a nested
stream against a structure. -/
def leaf (scope : List String) (path : String) (leaf : Leaf) (type : MemberType) :
    Except MarkupError Unit :=
  match leaf, type with
  | .number kind, .number kind' =>
      if kind = kind' then .ok () else different path leaf.text type
  | .bool, .boolean => .ok ()
  | .string bound, .string length =>
      if bound = length then .ok () else different path leaf.text type
  | .struct stream, .named name =>
      match document.resolve? scope name with
      | some (inner, struct) => enter stream inner struct path
      | none => .error (.unresolvedType name (Name.join scope))
  | _, _ => different path leaf.text type

def shape (scope : List String) (path : String) (shape : Shape) (type : MemberType) :
    Except MarkupError Unit :=
  match shape, type with
  | .single elem, type => leaf document enter scope path elem type
  | .sequence elem, .sequence type => leaf document enter scope path elem type
  | .array elem count, .array .. =>
      match type.flatten 1 with
      | none => mismatch path "array dimensions overflow the element count"
      | some (total, inner) =>
          if total ≠ count.toNat then
            mismatch path s!"array holds {total} elements, stream declares {count}"
          else leaf document enter scope path elem inner
  | _, _ => different path shape.text type

/-- Checks instructions against the members from position `seen` on, of which there are `total`
in all; answers how many there were. -/
def fields (scope : List String) (path : String) (total : Nat) :
    (seen : Nat) → List Instruction → List Member → Except MarkupError Nat
  | seen, [], _ => .ok seen
  | _, _ :: _, [] => mismatch path s!"stream has more fields than the {total} described"
  | seen, insn :: insns, member :: members => do
      let here := path ++ "." ++ member.name
      if insn.field.toNat ≠ seen then
        mismatch here s!"instruction addresses field {insn.field}, member is #{seen}"
      shape document enter scope here insn.shape member.type
      fields scope path total (seen + 1) insns members

end Check

/-- Checks a stream against a structure in the module at a path, given the streams that are being
checked. -/
abbrev StructCheck :=
  List UInt32 → UInt32 → List String → Struct → String → Except MarkupError Unit

/-- One level of the check: the streams that the stream refers to are left to `deeper`. -/
def checkLevel (document : Document) (program : Program) (deeper : StructCheck) : StructCheck :=
  fun active stream scope struct path => do
    if stream ∈ active then .ok ()
    else
      match program.stream? stream with
      | none => Check.mismatch path s!"stream {stream} does not exist"
      | some words =>
          let scan := Scan.readAll stream words
          let total := struct.members.length
          let seen ← Check.fields document (deeper (stream :: active)) scope path total 0
            scan.instructions struct.members
          match scan.ending with
          | .error defect => Check.mismatch path defect.message
          | .ok _ =>
              if seen ≠ total then
                Check.mismatch path s!"{total} members described, stream has {seen}"
              else .ok ()

/-- Checks a stream with everything it refers to. The fuel bounds the nesting; no more than the
number of streams can be active. -/
def checkStruct (document : Document) (program : Program) : (fuel : Nat) → StructCheck
  | 0 => fun _ _ _ _ _ => .ok ()
  | fuel + 1 => checkLevel document program (checkStruct document program fuel)

/-- Checks the root stream against the structure with this name, by a check of streams. -/
def Document.checkBy (document : Document) (typeName : String) (check : StructCheck) :
    Except MarkupError Unit :=
  match document.find? typeName with
  | none => .error (.structNotFound (Name.canonical typeName))
  | some (scope, struct) => check [] 0 scope struct (Name.canonical typeName)

def Document.check (document : Document) (typeName : String) (program : Program) :
    Except MarkupError Unit :=
  document.checkBy typeName (checkStruct document program (program.length + 1))

end TopicCodec.Markup
