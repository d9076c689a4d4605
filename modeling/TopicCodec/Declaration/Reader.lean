import TopicCodec.Declaration
import TopicCodec.Json.Access

/-!
# Declarations as JSON

A member type is the name of a kind, `bool` or `string`, or an object: a string with its
bound, a sequence or an array of another type, or a structure by its number among the types
at hand. Objects are in canonical form.
-/
namespace TopicCodec

def FieldType.ofJson? (types : List Descriptor) : Json → Option FieldType
  | .string "bool" => some bool
  | .string "string" => some (string none)
  | .string name => (ScalarKind.ofName? name).map number
  | .object [("string", bound)] => bound.word?.map fun bound => string (some bound)
  | .object [("sequence", elem)] => (ofJson? types elem).map sequence
  | .object [("struct", index)] => (index.natural?.bind (types[·]?)).map struct
  | .object [("array", dims), ("elem", elem)] =>
      match dims.listOf? Json.word?, ofJson? types elem with
      | some dims, some elem => some (array dims elem)
      | _, _ => none
  | _ => none

/-- A member; its `bound` is that of the strings in it. -/
def DeclaredMember.ofJson? (types : List Descriptor) (json : Json) : Option DeclaredMember := do
  let name ← json.member? Json.text? "name"
  let type ← json.member? (FieldType.ofJson? types) "type"
  let type := match json.member? Json.word? "bound" with
    | some bound => type.withStringBound bound
    | none => type
  return { name, type, key := json.flag "key" }

/-- A declaration; sizes and alignments are taken modulo `2 ^ 32`. -/
def Declaration.ofJson? (types : List Descriptor) (json : Json) : Option Declaration := do
  let typeName ← json.member? Json.text? "name"
  let members ← json.member? (Json.listOf? (DeclaredMember.ofJson? types)) "members"
  let keyList := json.member? (Json.listOf? Json.text?) "keylist"
  match json.member? (Json.listOf? Json.natural?) "layout" with
  | some [size, align] =>
      return {
        typeName, members, keyList
        size := UInt32.ofNat size
        align := UInt32.ofNat align }
  | _ => return { typeName, members, keyList }

end TopicCodec
