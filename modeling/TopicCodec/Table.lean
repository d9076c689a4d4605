import TopicCodec.Descriptor
import TopicCodec.Json
import TopicCodec.Wire

/-!
# Table forms

Descriptors and wire formats are read from data trees, whatever notation the tree was
written in, and written as JSON. A record is a mapping from field names to values, in which
unknown names are ignored and no known name stands twice, or a tuple of values in the order
of the fields, which may leave out optional ones at its end.
-/
namespace TopicCodec

namespace Tree

/-- What a value without parts can be read as. -/
structure Atom where
  text : Option String := none
  number : Option Nat := none
  /-- The name of one of several alternatives. -/
  choice : Option String := none
  /-- It also is a list without items and a mapping without entries. -/
  vacant : Bool := false

end Tree

/-- Structured data as a reader of records sees it. -/
inductive Tree where
  /-- The value that stands for no value. -/
  | null
  | atom (atom : Tree.Atom)
  /-- Items that are not the fields of a record. -/
  | list (items : List Tree)
  /-- Items that may be the fields of a record in their order. -/
  | tuple (items : List Tree)
  /-- Values by their names; a name that is no text is none. -/
  | mapping (entries : List (Option String × Tree))

namespace Tree

def text? : Tree → Option String
  | atom a => a.text
  | _ => none

/-- A natural number below `2 ^ width`. -/
def natural? (width : Nat) : Tree → Option Nat
  | atom a => a.number.filter (· < Nat.pow 2 width)
  | _ => none

def word? (tree : Tree) : Option UInt32 := (tree.natural? 32).map UInt32.ofNat

def list? : Tree → Option (List Tree)
  | list items => some items
  | tuple items => some items
  | atom a => if a.vacant then some [] else none
  | _ => none

/-- A list of which every item reads as `read` says. -/
def listOf? {α : Type} (read : Tree → Option α) (tree : Tree) : Option (List α) :=
  match tree.list? with
  | some items => items.mapM read
  | none => none

/-- The alternative that is named alone or as the name of a single entry without a value. -/
def choice? : Tree → Option String
  | atom a => a.choice
  | mapping [(name, null)] => name
  | _ => none

/-- The values of the named fields of a record, in that order. -/
def fields? (names : List String) : Tree → Option (List (Option Tree))
  | mapping entries =>
      if entries.any (·.1.isNone) then none
      else
        names.mapM fun name =>
          match entries.filter (·.1 == some name) with
          | [] => some none
          | [(_, value)] => some (some value)
          | _ => none
  | tuple items =>
      if items.length ≤ names.length then
        some (items.map some ++ List.replicate (names.length - items.length) none)
      else none
  | atom a => if a.vacant then some (names.map fun _ => none) else none
  | _ => none

mutual

/-- A JSON value: its integers are numbers and its strings texts, and neither is the other. -/
def ofJson : Json → Tree
  | .null => null
  | .bool _ => atom {}
  | .float _ => atom {}
  | .integer n => atom { number := if 0 ≤ n then some n.toNat else none }
  | .string text => atom { text := some text, choice := some text }
  | .array items => tuple (ofJsonItems items)
  | .object members => mapping (ofJsonMembers members)

def ofJsonItems : List Json → List Tree
  | [] => []
  | item :: rest => ofJson item :: ofJsonItems rest

def ofJsonMembers : List (String × Json) → List (Option String × Tree)
  | [] => []
  | (name, value) :: rest => (some name, ofJson value) :: ofJsonMembers rest

end

/-- The value of a field, or `value` where the field is left out. -/
def orDefault {α : Type} (value : α) (read : Tree → Option α) : Option Tree → Option α
  | some tree => read tree
  | none => some value

end Tree

namespace ByteOrder

def ofName? : String → Option ByteOrder
  | "little" => some little
  | "big" => some big
  | _ => none

def name : ByteOrder → String
  | little => "little"
  | big => "big"

def ofTree? (tree : Tree) : Option ByteOrder := tree.choice?.bind ofName?

end ByteOrder

/-- Every field of a wire format is optional. -/
def WireFormat.ofTree? (tree : Tree) : Option WireFormat := do
  let default : WireFormat := {}
  match ← tree.fields? ["byte_order", "max_align", "max_string_len", "max_sequence_len"] with
  | [order, align, string, sequence] =>
      return {
        byteOrder := ← Tree.orDefault default.byteOrder ByteOrder.ofTree? order
        maxAlign := ← Tree.orDefault default.maxAlign (Tree.natural? 64) align
        maxStringLen := ← Tree.orDefault default.maxStringLen Tree.word? string
        maxSequenceLen := ← Tree.orDefault default.maxSequenceLen Tree.word? sequence }
  | _ => none

def Key.ofTree? (tree : Tree) : Option Key := do
  match ← tree.fields? ["name", "index"] with
  | [some name, some index] => return ⟨← name.text?, ← index.word?⟩
  | _ => none

/-- Flags, keys and markup are optional. -/
def Descriptor.ofTree? (tree : Tree) : Option Descriptor := do
  match ← tree.fields?
    ["type_name", "size", "align", "flags", "key_count", "keys", "ops", "meta"] with
  | [some typeName, some size, some align, flags, some keyCount, keys, some streams, markup] =>
      return {
        typeName := ← typeName.text?
        size := ← size.word?
        align := ← align.word?
        flags := ⟨← Tree.orDefault 0 Tree.word? flags⟩
        keyCount := ← keyCount.word?
        keys := ← Tree.orDefault [] (Tree.listOf? Key.ofTree?) keys
        program := ⟨← streams.listOf? (Tree.listOf? Tree.word?)⟩
        markup := ← Tree.orDefault "" Tree.text? markup }
  | _ => none

def WireFormat.toJson (wire : WireFormat) : Json :=
  .object [("byte_order", .string wire.byteOrder.name), ("max_align", .integer wire.maxAlign),
    ("max_string_len", .integer wire.maxStringLen.toNat),
    ("max_sequence_len", .integer wire.maxSequenceLen.toNat)]

def Key.toJson (key : Key) : Json :=
  .object [("name", .string key.name), ("index", .integer key.index.toNat)]

def Stream.toJson (stream : Stream) : Json := .array (stream.map fun word => .integer word.toNat)

def Program.toJson (program : Program) : Json := .array (program.streams.map Stream.toJson)

/-- What a descriptor says of a type, the layout of its instances in memory left out. -/
def Descriptor.members (desc : Descriptor) : List (String × Json) :=
  [("type_name", .string desc.typeName), ("flags", .integer desc.flags.bits.toNat),
    ("key_count", .integer desc.keyCount.toNat), ("keys", .array (desc.keys.map Key.toJson)),
    ("ops", desc.program.toJson), ("meta", .string desc.markup)]

def Descriptor.toJson (desc : Descriptor) : Json :=
  .object (desc.members ++
    [("size", .integer desc.size.toNat), ("align", .integer desc.align.toNat)])

end TopicCodec
