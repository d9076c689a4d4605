import TopicCodec.Json.Access
import TopicCodec.Markup

/-!
# Outlines of documents

A description as JSON: modules with their structures and submodules, structures with their
members, and member types as short texts. Single members are also read from JSON, their types
as objects in canonical form.
-/
namespace TopicCodec.Markup

def MemberType.outline : MemberType → String
  | number kind => kind.name
  | boolean => "boolean"
  | string none => "string"
  | string (some length) => s!"string<{length}>"
  | sequence elem => "sequence<" ++ elem.outline ++ ">"
  | array size elem => s!"array<{size}," ++ elem.outline ++ ">"
  | named name => "type(" ++ name ++ ")"

def Member.outline (member : Member) : List Json :=
  [.string member.name, .string member.type.outline]

def Struct.outline (struct : Struct) : Json :=
  .object [("struct", .string struct.name),
    ("members", .array (struct.members.map fun member => .array member.outline))]

mutual

def Module.outline : Module → Json
  | .mk name structs modules =>
      .object [("module", .string name), ("structs", .array (structs.map Struct.outline)),
        ("modules", .array (Module.outlines modules))]

def Module.outlines : List Module → List Json
  | [] => []
  | module :: rest => module.outline :: Module.outlines rest

end

def MemberType.ofJson? : Json → Option MemberType
  | .string "boolean" => some boolean
  | .string "string" => some (string none)
  | .string name => (ScalarKind.ofName? name).map number
  | .object [("string", length)] => length.word?.map fun length => string (some length)
  | .object [("sequence", elem)] => (ofJson? elem).map sequence
  | .object [("type", name)] => name.text?.map named
  | .object [("array", size), ("elem", elem)] =>
      match size.word?, ofJson? elem with
      | some size, some elem => some (array size elem)
      | _, _ => none
  | _ => none

def Member.ofJson? (json : Json) : Option Member := do
  return ⟨← json.member? Json.text? "name", ← json.member? MemberType.ofJson? "type"⟩

end TopicCodec.Markup
