import TopicCodec.Markup
import TopicCodec.Xml.Reader

/-!
# Reading a description

The root element holds modules and structures, a structure holds members, and a
member holds one type. Elements are known by their local names.
-/
namespace TopicCodec.Markup

def formatVersion : String := "1.0.0"

/-- Element names of the number kinds. -/
def kindTags : List (String × ScalarKind) :=
  [("Octet", .u8), ("Char", .i8), ("Short", .i16), ("UShort", .u16), ("Long", .i32),
    ("ULong", .u32), ("LongLong", .i64), ("ULongLong", .u64), ("Float", .f32), ("Double", .f64)]

open Xml (Element)

namespace Reader

def required (element : Element) (attr : String) : Except MarkupError String :=
  match element.attribute? attr with
  | some value => .ok value
  | none => .error (.missingAttribute element.name attr)

def numeric (element : Element) (attr : String) : Except MarkupError UInt32 := do
  let raw ← required element attr
  match Numeral.readUInt32? raw with
  | some n => return n
  | none => .error (.invalidAttribute element.name attr raw)

/-- The bound of a string type, if it has one. -/
def stringLength (element : Element) : Except MarkupError (Option UInt32) :=
  match element.attribute? "length" with
  | some _ => (numeric element "length").map some
  | none => .ok none

/-- Complaint about an element that holds no type. -/
def noType (element : Element) : MarkupError :=
  .mismatch ((element.attribute? "name").getD "") s!"<{element.name}> has no type"

mutual

def type : Element → Except MarkupError MemberType
  | .mk name attributes children =>
      let element : Element := .mk name attributes children
      match kindTags.lookup name with
      | some kind => .ok (.number kind)
      | none =>
          match name with
          | "Boolean" => .ok .boolean
          | "String" => (stringLength element).map .string
          | "Sequence" => (onlyType element children).map .sequence
          | "Array" =>
              match numeric element "size" with
              | .ok size => (onlyType element children).map (.array size)
              | .error error => .error error
          | "Type" => (required element "name").map .named
          | _ => .error (.unexpectedElement name "type position")

/-- The one type among the children of `parent`. -/
def onlyType (parent : Element) : List Element → Except MarkupError MemberType
  | [] => .error (noType parent)
  | [child] => type child
  | _ :: extra :: _ => .error (.unexpectedElement extra.name "type position")

end

def member (element : Element) : Except MarkupError Member := do
  if element.name ≠ "Member" then .error (.unexpectedElement element.name "struct")
  let name ← required element "name"
  let type ← onlyType element element.children
  return ⟨name, type⟩

def struct (element : Element) : Except MarkupError Struct := do
  let members ← element.children.mapM member
  let name ← required element "name"
  return ⟨name, members⟩

/-- Adds to the end of the structures or of the modules. -/
def Item.add (module : Module) : Struct ⊕ Module → Module
  | .inl struct => .mk module.name (module.structs ++ [struct]) module.modules
  | .inr inner => .mk module.name module.structs (module.modules ++ [inner])

mutual

/-- A structure or a module. -/
def item : Element → Except MarkupError (Struct ⊕ Module)
  | .mk name attributes children =>
      let element : Element := .mk name attributes children
      match name with
      | "Module" =>
          match required element "name" with
          | .ok scope => (items (.empty scope) children).map .inr
          | .error error => .error error
      | "Struct" => (struct element).map .inl
      | _ => .error (.unexpectedElement name "module")

/-- The module with the items of these elements added. -/
def items (module : Module) : List Element → Except MarkupError Module
  | [] => .ok module
  | element :: rest =>
      match item element with
      | .ok found => items (Item.add module found) rest
      | .error error => .error error

end

end Reader

/-- The document that a text describes to those who take XML as `xml` does. -/
def Document.readBy (xml : String → Option Element) (text : String) :
    Except MarkupError Document := do
  match xml text with
  | none => .error .malformed
  | some root =>
      if root.name ≠ "MetaData" then .error (.unexpectedElement root.name "document")
      let version ← Reader.required root "version"
      if version ≠ formatVersion then .error (.unsupportedVersion version)
      let module ← Reader.items (.empty "") root.children
      return ⟨module⟩

/-- The document that an XML text describes. -/
def Document.read : String → Except MarkupError Document := readBy Xml.read?

end TopicCodec.Markup
