import TopicCodec.Xml

/-!
# Reading XML

A non-validating, namespace-aware reader of XML 1.0 documents without a document
type declaration. References are the five predefined ones and character references;
a reference to an impossible code point reads as U+FFFD. Text, comments, processing
instructions and character data sections are checked and dropped. A document that is
not well formed, or that uses a namespace prefix without declaring it, is refused.
-/
namespace TopicCodec.Xml.Reader

/-- Reads a value off the front of the input. -/
abbrev Parse (α : Type) := List Char → Option (α × List Char)

def skipBlanks (input : List Char) : List Char := input.dropWhile isBlank

/-- Consumes a fixed text. -/
def literal (text : List Char) (input : List Char) : Option (List Char) :=
  if text.isPrefixOf input then some (input.drop text.length) else none

/-- The characters before the first place where `stop` holds, or all of them. -/
def charsUntil (stop : List Char → Bool) : Parse (List Char)
  | [] => some ([], [])
  | c :: rest =>
      if !isChar c then none
      else if stop (c :: rest) then some ([], c :: rest)
      else (charsUntil stop rest).map fun (chars, rest) => (c :: chars, rest)

/-- The characters before a fixed text, which is consumed too. -/
def charsThrough (closing : List Char) : Parse (List Char) := fun input =>
  match charsUntil closing.isPrefixOf input with
  | some (chars, rest) => (literal closing rest).map (chars, ·)
  | none => none

/-- The piece stands somewhere in the text. -/
def holds (piece : List Char) : List Char → Bool
  | [] => piece.isEmpty
  | c :: rest => piece.isPrefixOf (c :: rest) || holds piece rest

/-! ## Names -/

/-- A name, colons included. -/
def name : Parse (List Char)
  | [] => none
  | c :: rest =>
      if isNameStart c then some (c :: rest.takeWhile isNameChar, rest.dropWhile isNameChar)
      else none

/-- A name with an optional prefix. -/
structure QName where
  scope : List Char
  local_ : List Char
  deriving DecidableEq

def startsName : List Char → Bool
  | [] => false
  | c :: _ => isNameStart c

def qualify (chars : List Char) : Option QName :=
  let front := chars.takeWhile (· != ':')
  match chars.dropWhile (· != ':') with
  | [] => if startsName front then some ⟨[], front⟩ else none
  | _ :: back =>
      if !back.contains ':' && (front.isEmpty || startsName front) && startsName back then
        some ⟨front, back⟩
      else none

def qname : Parse QName := fun input =>
  (qualify (input.takeWhile isNameChar)).map (·, input.dropWhile isNameChar)

/-! ## References -/

def predefined? : List Char → Option Char
  | ['q', 'u', 'o', 't'] => some '"'
  | ['a', 'm', 'p'] => some '&'
  | ['a', 'p', 'o', 's'] => some '\''
  | ['l', 't'] => some '<'
  | ['g', 't'] => some '>'
  | _ => none

/-- The character with this code, U+FFFD if there is none; refused if no document may hold it. -/
def charOfCode? (code : Nat) : Option Char :=
  let c := if code.isValidChar then Char.ofNat code else '\ufffd'
  if isChar c then some c else none

def codeReference (base : Nat) : Parse Char := fun input =>
  let isDigit (c : Char) := (Numeral.digitValue? base c).isSome
  match Numeral.ofDigits? base (input.takeWhile isDigit), input.dropWhile isDigit with
  | some code, ';' :: rest => if code < UInt32.size then (charOfCode? code).map (·, rest) else none
  | _, _ => none

/-- The character that a reference stands for, its ampersand already read. -/
def reference : Parse Char
  | '#' :: 'x' :: rest => codeReference 16 rest
  | '#' :: rest => codeReference 10 rest
  | input =>
      match name input with
      | some (entity, ';' :: rest) => (predefined? entity).map (·, rest)
      | _ => none

/-- Attribute values have their references replaced and their blanks made spaces, a line break of
two characters being one. The fuel bounds the number of characters. -/
def normalize : (fuel : Nat) → List Char → Option (List Char)
  | _, [] => some []
  | 0, _ => none
  | fuel + 1, '&' :: rest =>
      match reference rest with
      | some (c, rest) => (normalize fuel rest).map (c :: ·)
      | none => none
  | fuel + 1, '\r' :: '\n' :: rest => normalize fuel ('\n' :: rest)
  | fuel + 1, c :: rest => (normalize fuel rest).map ((if isBlank c then ' ' else c) :: ·)

/-- Every reference of a text is well formed and known. -/
def referencesOk (text : List Char) : Bool := (normalize text.length text).isSome

/-! ## Tags -/

structure RawAttribute where
  name : QName
  value : List Char

def quoted : Parse (List Char)
  | quote :: rest =>
      if quote == '"' || quote == '\'' then
        match charsUntil (fun input => input.head? == some quote || input.head? == some '<') rest with
        | some (chars, close :: rest) => if close == quote then some (chars, rest) else none
        | _ => none
      else none
  | [] => none

/-- A name, an equals sign and a quoted value as written. -/
def rawAttribute : Parse RawAttribute := fun input =>
  match qname input with
  | none => none
  | some (name, rest) =>
      match skipBlanks rest with
      | '=' :: rest => (quoted (skipBlanks rest)).map fun (value, rest) => (⟨name, value⟩, rest)
      | _ => none

/-- Rest of a start tag: its attributes, and whether the element is empty. The fuel bounds the
number of attributes. -/
def tagRest : (fuel : Nat) → Parse (List RawAttribute × Bool)
  | 0, _ => none
  | fuel + 1, input =>
      match skipBlanks input with
      | '/' :: '>' :: rest => some (([], true), rest)
      | '>' :: rest => some (([], false), rest)
      | rest =>
          if !(input.head?.any isBlank) then none
          else
            match rawAttribute rest with
            | none => none
            | some (raw, rest) =>
                match normalize raw.value.length raw.value, tagRest fuel rest with
                | some value, some ((attributes, empty), rest) =>
                    some ((⟨raw.name, value⟩ :: attributes, empty), rest)
                | _, _ => none

/-! ## Namespaces -/

def xmlUri : List Char := "http://www.w3.org/XML/1998/namespace".toList
def xmlnsUri : List Char := "http://www.w3.org/2000/xmlns/".toList
def xmlName : List Char := "xml".toList
def xmlnsName : List Char := "xmlns".toList

/-- Prefixes and what they are bound to, the innermost first. -/
abbrev Bindings := List (List Char × List Char)

/-- Adds the prefix that a declaration binds to those bound by the same tag. -/
def bindPrefix (bound : Bindings) (name uri : List Char) : Option Bindings :=
  if uri = xmlnsUri then none
  else if (name == xmlName) != (uri == xmlUri) then none
  else if (bound.lookup name).isSome then none
  else if uri = xmlUri then some bound
  else some ((name, uri) :: bound)

/-- The prefixes that a tag binds and its attributes that declare nothing. -/
def declarations (bound : Bindings) : List RawAttribute → Option (Bindings × List RawAttribute)
  | [] => some (bound, [])
  | attr :: rest =>
      if attr.name.scope = xmlnsName then
        match bindPrefix bound attr.name.local_ attr.value with
        | some bound => declarations bound rest
        | none => none
      else if attr.name.local_ = xmlnsName then
        if attr.value = xmlUri ∨ attr.value = xmlnsUri then none else declarations bound rest
      else (declarations bound rest).map fun (bound, kept) => (bound, attr :: kept)

/-- What a prefix of an attribute is bound to; no prefix, no namespace. -/
def attributeUri? (bindings : Bindings) (scope : List Char) : Option (Option (List Char)) :=
  if scope.isEmpty then some none
  else if scope = xmlName then some (some xmlUri)
  else (bindings.lookup scope).map some

/-- Resolves the attributes of a tag; no two may have one namespace and one local name. -/
def resolve (bindings : Bindings) (seen : List (Option (List Char) × List Char)) :
    List RawAttribute → Option (List Attribute)
  | [] => some []
  | attr :: rest =>
      match attributeUri? bindings attr.name.scope with
      | none => none
      | some uri =>
          let expanded := (uri, attr.name.local_)
          if seen.contains expanded then none
          else
            (resolve bindings (expanded :: seen) rest).map fun kept =>
              if uri.isNone then
                ⟨String.ofList attr.name.local_, String.ofList attr.value⟩ :: kept
              else kept

/-- The prefix of an element is bound, and it is not the one for declarations. -/
def elementScopeOk (bindings : Bindings) (scope : List Char) : Bool :=
  scope.isEmpty || (scope != xmlnsName && (bindings.lookup scope).isSome)

/-! ## Content -/

/-- A comment, its opening already read. -/
def comment (input : List Char) : Option (List Char) :=
  match charsThrough ['-', '-', '>'] input with
  | some (chars, rest) =>
      if holds ['-', '-'] chars || chars.getLast? == some '-' then none else some rest
  | none => none

/-- A processing instruction, its opening already read. -/
def instruction (input : List Char) : Option (List Char) :=
  if (xmlName ++ [' ']).isPrefixOf input then none
  else
    match name input with
    | some (_, rest) => (charsThrough ['?', '>'] (skipBlanks rest)).map (·.2)
    | none => none

/-- A character data section, its opening already read. -/
def characterData (input : List Char) : Option (List Char) :=
  (charsThrough [']', ']', '>'] input).map (·.2)

/-- A run of text. -/
def text (input : List Char) : Option (List Char) :=
  match charsUntil (·.head? == some '<') input with
  | some (chars, rest) =>
      if holds [']', ']', '>'] chars || !referencesOk chars then none else some rest
  | none => none

/-- An end tag, its opening already read. -/
def endTag : Parse QName := fun input =>
  match qname input with
  | some (name, rest) =>
      match skipBlanks rest with
      | '>' :: rest => some (name, rest)
      | _ => none
  | none => none

mutual

/-- An element, its opening bracket already read. The fuel bounds the number of steps; two for
each character are enough. -/
def element : (fuel : Nat) → Bindings → Parse Element
  | 0, _, _ => none
  | fuel + 1, outer, input =>
      match qname input with
      | none => none
      | some (name, rest) =>
          match tagRest (rest.length + 1) rest with
          | none => none
          | some ((raw, empty), rest) =>
              match declarations [] raw with
              | none => none
              | some (bound, plain) =>
                  let bindings := bound ++ outer
                  match resolve bindings [] plain with
                  | none => none
                  | some attributes =>
                      if !elementScopeOk bindings name.scope then none
                      else
                        let close (children : List Element) : Element :=
                          .mk (String.ofList name.local_) attributes children
                        if empty then some (close [], rest)
                        else
                          match content fuel bindings name [] rest with
                          | some (children, rest) => some (close children, rest)
                          | none => none

/-- The content of an element up to its end tag, after the children in `acc`, last first. -/
def content : (fuel : Nat) → Bindings → (parent : QName) → (acc : List Element) →
    Parse (List Element)
  | 0, _, _, _, _ => none
  | fuel + 1, bindings, parent, acc, input =>
      match input with
      | '<' :: '!' :: '-' :: '-' :: rest =>
          match comment rest with
          | some rest => content fuel bindings parent acc rest
          | none => none
      | '<' :: '!' :: '[' :: 'C' :: 'D' :: 'A' :: 'T' :: 'A' :: '[' :: rest =>
          match characterData rest with
          | some rest => content fuel bindings parent acc rest
          | none => none
      | '<' :: '!' :: _ => none
      | '<' :: '?' :: rest =>
          match instruction rest with
          | some rest => content fuel bindings parent acc rest
          | none => none
      | '<' :: '/' :: rest =>
          match endTag rest with
          | some (name, rest) => if name = parent then some (acc.reverse, rest) else none
          | none => none
      | '<' :: rest =>
          match element fuel bindings rest with
          | some (child, rest) => content fuel bindings parent (child :: acc) rest
          | none => none
      | [] => none
      | rest =>
          match text rest with
          | some rest => content fuel bindings parent acc rest
          | none => none

end

/-! ## Documents -/

/-- Blanks, comments and processing instructions. The fuel bounds their number. -/
def misc : (fuel : Nat) → List Char → Option (List Char)
  | 0, input => some input
  | fuel + 1, input =>
      match skipBlanks input with
      | '<' :: '!' :: '-' :: '-' :: rest => (comment rest).bind (misc fuel)
      | '<' :: '?' :: rest => (instruction rest).bind (misc fuel)
      | rest => some rest

/-- Blanks, unless the declaration ends here. -/
def declarationBlanks (input : List Char) : Option (List Char) :=
  if input.head?.any isBlank then some (skipBlanks input)
  else if ['?', '>'].isPrefixOf input || input.isEmpty then some input
  else none

/-- An attribute of the declaration whose name starts with the given word. -/
def declarationPart (word : String) (input : List Char) : Option (List Char) :=
  if word.toList.isPrefixOf input then (rawAttribute input).map (·.2) else none

/-- The declaration, its opening already read. -/
def declaration (input : List Char) : Option (List Char) := do
  let input ← declarationBlanks input
  let input ← declarationPart "version" input
  let input ← declarationBlanks input
  let input ←
    if "encoding".toList.isPrefixOf input then
      declarationPart "encoding" input >>= declarationBlanks
    else some input
  let input ←
    if "standalone".toList.isPrefixOf input then declarationPart "standalone" input else some input
  literal ['?', '>'] (skipBlanks input)

/-- What stands before the root element. -/
def prolog (input : List Char) : Option (List Char) :=
  let input := match input with
    | '\ufeff' :: rest => rest
    | all => all
  let opening := ['<', '?'] ++ xmlName
  let input :=
    if (opening ++ [' ']).isPrefixOf input then declaration (input.drop opening.length)
    else some input
  input.bind fun input => misc (input.length + 1) input

end Reader

/-- The root element of a well-formed document. -/
def read? (document : String) : Option Element :=
  match Reader.prolog document.toList with
  | some ('<' :: rest) =>
      match Reader.element (2 * rest.length + 2) [] rest with
      | some (root, rest) =>
          match Reader.misc (rest.length + 1) rest with
          | some [] => some root
          | _ => none
      | none => none
  | _ => none

end TopicCodec.Xml
