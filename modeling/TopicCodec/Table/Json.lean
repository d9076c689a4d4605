import TopicCodec.Json.Reader
import TopicCodec.Table

/-!
# Tables written as JSON

A table is read from a JSON text part by part. What no field asks for has to be JSON by its
grammar only: a numeral may be too large to have a value, a string may hold half a surrogate
pair, and there is no limit to the depth of arrays and objects.
-/
namespace TopicCodec.Tree

/-- Makes data trees. -/
def ofJsonParts : Json.Reader.Builder Tree where
  null := null
  bool _ := atom {}
  number numeral := (numeral.value?.map ofJson).getD (atom {})
  string parts :=
    let text := Json.Reader.text? parts
    atom { text, choice := text }
  array := tuple
  object members := mapping (members.map fun (name, value) => (Json.Reader.text? name, value))

/-- The data tree that a JSON text spells. -/
def readJson? (text : String) : Option Tree := (ofJsonParts.read? text).map (·.1)

end TopicCodec.Tree
