import TopicCodec.Markup.Reader

/-!
# Writing a description

The text has no white space between elements. Within a module structures come before
modules, each in their order.
-/
namespace TopicCodec.Markup

namespace Writer

def escape : Char → List Char
  | '&' => "&amp;".toList
  | '<' => "&lt;".toList
  | '>' => "&gt;".toList
  | '"' => "&quot;".toList
  | c => [c]

def escaped (text : String) : String := String.ofList (text.toList.flatMap escape)

def kindTag (kind : ScalarKind) : String :=
  ((kindTags.find? (·.2 == kind)).map (·.1)).getD "Octet"

/-- Content between the tags of an element with a name. -/
def named (tag name content : String) : String :=
  s!"<{tag} name=\"" ++ escaped name ++ "\">" ++ content ++ s!"</{tag}>"

def type : MemberType → String
  | .number kind => "<" ++ kindTag kind ++ "/>"
  | .boolean => "<Boolean/>"
  | .string none => "<String/>"
  | .string (some length) => s!"<String length=\"{length}\"/>"
  | .sequence elem => "<Sequence>" ++ type elem ++ "</Sequence>"
  | .array size elem => s!"<Array size=\"{size}\">" ++ type elem ++ "</Array>"
  | .named name => "<Type name=\"" ++ escaped name ++ "\"/>"

def member (member : Member) : String := named "Member" member.name (type member.type)

def struct (struct : Struct) : String :=
  named "Struct" struct.name (String.join (struct.members.map member))

mutual

def scope : Module → String
  | .mk _ structs modules => String.join (structs.map struct) ++ scopes modules

def scopes : List Module → String
  | [] => ""
  | module :: rest => named "Module" module.name (scope module) ++ scopes rest

end

end Writer

def Document.write (document : Document) : String :=
  s!"<MetaData version=\"{formatVersion}\">" ++ Writer.scope document.root ++ "</MetaData>"

end TopicCodec.Markup
