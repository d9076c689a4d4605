/-!
# Scoped names

A type name is a list of parts, separated by `::` or by a dot; empty parts do not
count. The canonical spelling joins the parts with `::`.
-/
namespace TopicCodec.Name

/-- Splits at separators; `acc` holds the part being read, last character first. -/
def splitFrom (acc : List Char) : List Char → List (List Char)
  | [] => [acc.reverse]
  | ':' :: ':' :: rest => acc.reverse :: splitFrom [] rest
  | '.' :: rest => acc.reverse :: splitFrom [] rest
  | c :: rest => splitFrom (c :: acc) rest

/-- The nonempty parts of a name. -/
def parts (name : String) : List String :=
  ((splitFrom [] name.toList).filter (!·.isEmpty)).map String.ofList

def join (parts : List String) : String := String.intercalate "::" parts

def canonical (name : String) : String := join (parts name)

/-- The name starts at the root and is not searched for in enclosing scopes. -/
def isAnchored (name : String) : Bool :=
  match name.toList with
  | ':' :: ':' :: _ => true
  | _ => false

end TopicCodec.Name
