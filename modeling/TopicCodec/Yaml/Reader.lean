import TopicCodec.Table
import TopicCodec.Yaml.Token

/-!
# Reading YAML

A text is at most one document, and its tokens are read as a data tree. A sequence is a list and
not the fields of a record. Only a plain scalar can be a number, or a literal one with the tag of
integers; a plain scalar without characters is also an empty sequence and an empty mapping. A tag
with a name of its own, on a scalar that says nothing, names an alternative. The reader keeps the
open collections on a stack of its own, however deep they are nested.
-/
namespace TopicCodec.Yaml

/-! ## Scalars -/

/-- Digits after a mark of their base. -/
def marked? (digits : List Char) : Option Nat :=
  match digits with
  | '0' :: 'x' :: rest => Numeral.ofDigits? 16 rest
  | '0' :: 'o' :: rest => Numeral.ofDigits? 8 rest
  | '0' :: 'b' :: rest => Numeral.ofDigits? 2 rest
  | _ => none

/-- The natural number below `2 ^ 64` that a scalar spells, with an optional plus sign. A decimal
numeral with a superfluous leading zero spells none. -/
def natural? (text : List Char) : Option Nat :=
  let digits := match text with
    | '+' :: rest => rest
    | _ => text
  let value := match marked? digits, digits with
    | some n, _ => some n
    | none, '0' :: _ :: _ => none
    | none, _ => Numeral.ofDigits? 10 digits
  value.filter (· < UInt64.size)

/-- What the shorthand for standard tags stands for. -/
def standardTags : String := "tag:yaml.org,2002:"

def integerTag : String := standardTags ++ "int"

/-- The scalar says that there is no value. -/
def isNull (text : String) : Bool := ["", "~", "null", "Null", "NULL"].contains text

/-- The name of a tag that is no standard tag. -/
def localName? (tag : String) : Option String :=
  match tag.toList with
  | '!' :: name => some (String.ofList name)
  | _ => none

def scalarTree (style : Style) (tag : Option String) (text : String) : Tree :=
  let counts := style == .plain || (style == .literal && tag == some integerTag)
  .atom {
    text := some text
    number := if counts then natural? text.toList else none
    choice := match tag.bind localName? with
      | some name => if style == .plain && isNull text then some name else none
      | none => some text
    vacant := style == .plain && text.isEmpty }

/-- A scalar that is not written. -/
def unwritten : Tree := scalarTree .plain none ""

/-! ## Nodes -/

/-- An open collection and the parts of it read so far, last first. The key of an entry is there
while its value is read. -/
inductive Frame where
  | blockSequence (items : List Tree)
  /-- A sequence of entries at the column of the key that it belongs to. -/
  | alignedSequence (items : List Tree)
  | blockMapping (entries : List (Option String × Tree)) (key : Option Tree)
  | flowSequence (items : List Tree)
  /-- An entry of a flow sequence that is a mapping by itself. -/
  | flowPair (key : Option Tree)
  /-- The key that is read next has no value if `bare`. -/
  | flowMapping (entries : List (Option String × Tree)) (key : Option Tree) (bare : Bool)

/-- What a reader of nodes is at. -/
structure Progress where
  tokens : List Token
  /-- Handles of tags and what they stand for. -/
  handles : List (String × String)
  /-- Anchors and the nodes they are on, none as long as a node is open. -/
  anchors : List (String × Option Tree) := []
  /-- Open collections, innermost first, with the number of the anchor that each has. -/
  stack : List (Frame × Option Nat) := []

/-- What a reader of nodes does next. -/
inductive Action where
  /-- Reads a node. -/
  | node (block aligned : Bool)
  /-- Hands a node to the innermost open collection. -/
  | give (tree : Tree)
  /-- Goes on with the innermost open collection. -/
  | proceed

/-- One of `tokens` comes next. -/
def atAny (tokens : List Token) (next : List Token) : Bool :=
  match next with
  | token :: _ => tokens.contains token
  | [] => false

/-- Properties of a node. -/
structure Properties where
  anchor : Option String := none
  tag : Option (String × String) := none

/-- An anchor and a tag, in either order. -/
def properties : List Token → Properties × List Token
  | .anchor name :: .tag handle suffix :: rest => (⟨some name, some (handle, suffix)⟩, rest)
  | .tag handle suffix :: .anchor name :: rest => (⟨some name, some (handle, suffix)⟩, rest)
  | .anchor name :: rest => (⟨some name, none⟩, rest)
  | .tag handle suffix :: rest => (⟨none, some (handle, suffix)⟩, rest)
  | tokens => ({}, tokens)

/-- The full tag, none if its handle stands for nothing. -/
def fullTag? (handles : List (String × String)) : Option (String × String) → Option (Option String)
  | none => some none
  | some ("", suffix) => some (some suffix)
  | some (handle, suffix) => (handles.lookup handle).map fun meaning => some (meaning ++ suffix)

/-- A tag that is only a mark says nothing. -/
def spokenTag (tag : Option String) : Option String := tag.filter (· != "!")

namespace Progress

/-- The node of the last anchor with this name; a node that is still open cannot be read. -/
def aliased? (progress : Progress) (name : String) : Option Tree :=
  (progress.anchors.reverse.lookup name).map (·.getD (.atom {}))

/-- A whole node with its anchor. -/
def whole (progress : Progress) (anchor : Option String) (tree : Tree) (rest : List Token) :
    Action × Progress :=
  let anchored := anchor.toList.map (·, some tree)
  (.give tree, { progress with tokens := rest, anchors := progress.anchors ++ anchored })

/-- A collection with its anchor that has just been opened. -/
def opened (progress : Progress) (anchor : Option String) (frame : Frame) (rest : List Token) :
    Action × Progress :=
  let number := anchor.map fun _ => progress.anchors.length
  (.proceed, {
    progress with
    tokens := rest
    anchors := progress.anchors ++ anchor.toList.map (·, none)
    stack := (frame, number) :: progress.stack })

/-- The innermost collection has been read. -/
def closed (progress : Progress) (number : Option Nat) (below : List (Frame × Option Nat))
    (tree : Tree) (rest : List Token) : Action × Progress :=
  let anchors := match number with
    | some n => progress.anchors.modify n fun (name, _) => (name, some tree)
    | none => progress.anchors
  (.give tree, { progress with tokens := rest, anchors, stack := below })

/-- Reads a scalar or an alias, or opens a collection. -/
def node? (progress : Progress) (block aligned : Bool) : Option (Action × Progress) :=
  match progress.tokens with
  | .alias name :: rest =>
      (progress.aliased? name).map fun tree => (.give tree, { progress with tokens := rest })
  | tokens =>
      let (given, rest) := properties tokens
      match fullTag? progress.handles given.tag with
      | none => none
      | some tag =>
          let tag := spokenTag tag
          let bare := given.anchor.isNone && given.tag.isNone
          match rest with
          | .blockEntry :: _ =>
              if aligned then progress.opened given.anchor (.alignedSequence []) rest
              else if bare then none
              else progress.whole given.anchor (scalarTree .plain tag "") rest
          | .scalar style text :: rest =>
              progress.whole given.anchor (scalarTree style tag text) rest
          | .flowSequence :: rest => progress.opened given.anchor (.flowSequence []) rest
          | .flowMapping :: rest => progress.opened given.anchor (.flowMapping [] none false) rest
          | tokens =>
              match block, tokens with
              | true, .blockSequence :: rest =>
                  progress.opened given.anchor (.blockSequence []) rest
              | true, .blockMapping :: rest =>
                  progress.opened given.anchor (.blockMapping [] none) rest
              | _, _ =>
                  if bare then none
                  else progress.whole given.anchor (scalarTree .plain tag "") tokens

/-- Hands a node to the innermost open collection, which is `frame`. -/
def give (progress : Progress) (frame : Frame) (number : Option Nat)
    (below : List (Frame × Option Nat)) (tree : Tree) : Action × Progress :=
  let goOn (frame : Frame) : Action × Progress :=
    (.proceed, { progress with stack := (frame, number) :: below })
  match frame with
  | .blockSequence items => goOn (.blockSequence (tree :: items))
  | .alignedSequence items => goOn (.alignedSequence (tree :: items))
  | .blockMapping entries none => goOn (.blockMapping entries (some tree))
  | .blockMapping entries (some key) => goOn (.blockMapping ((key.text?, tree) :: entries) none)
  | .flowSequence items => goOn (.flowSequence (tree :: items))
  | .flowPair none => goOn (.flowPair (some tree))
  | .flowPair (some key) =>
      progress.closed number below (.mapping [(key.text?, tree)]) progress.tokens
  | .flowMapping entries none true =>
      goOn (.flowMapping ((tree.text?, unwritten) :: entries) none false)
  | .flowMapping entries none false => goOn (.flowMapping entries (some tree) false)
  | .flowMapping entries (some key) _ =>
      goOn (.flowMapping ((key.text?, tree) :: entries) none false)

/-- Reads a node unless it is left out. -/
def optional (progress : Progress) (block aligned : Bool) (ends : List Token) (rest : List Token) :
    Action × Progress :=
  let action := if atAny ends rest then .give unwritten else .node block aligned
  (action, { progress with tokens := rest })

/-- The tokens after the comma between entries of a flow collection. -/
def afterComma? (first : Bool) : List Token → Option (List Token)
  | .flowEntry :: rest => if first then some (.flowEntry :: rest) else some rest
  | tokens => if first then some tokens else none

/-- Goes on with the innermost open collection, which is `frame`. -/
def proceed? (progress : Progress) (frame : Frame) (number : Option Nat)
    (below : List (Frame × Option Nat)) : Option (Action × Progress) :=
  match frame, progress.tokens with
  | .blockSequence _, .blockEntry :: rest =>
      progress.optional true false [.blockEntry, .blockEnd] rest
  | .blockSequence items, .blockEnd :: rest =>
      progress.closed number below (.list items.reverse) rest
  | .blockSequence _, _ => none
  | .alignedSequence _, .blockEntry :: rest =>
      progress.optional true false [.blockEntry, .key, .value, .blockEnd] rest
  | .alignedSequence items, rest => progress.closed number below (.list items.reverse) rest
  | .blockMapping _ none, .key :: rest =>
      progress.optional true true [.key, .value, .blockEnd] rest
  | .blockMapping entries none, .blockEnd :: rest =>
      progress.closed number below (.mapping entries.reverse) rest
  | .blockMapping _ none, _ => none
  | .blockMapping _ (some _), .value :: rest =>
      progress.optional true true [.key, .value, .blockEnd] rest
  | .blockMapping _ (some _), _ => some (.give unwritten, progress)
  | .flowSequence items, .flowSequenceEnd :: rest =>
      progress.closed number below (.list items.reverse) rest
  | .flowSequence items, tokens =>
      match afterComma? items.isEmpty tokens with
      | none => none
      | some (.key :: rest) => progress.opened none (.flowPair none) rest
      | some (.flowSequenceEnd :: rest) => progress.closed number below (.list items.reverse) rest
      | some rest => some (.node false false, { progress with tokens := rest })
  | .flowPair none, .value :: rest => some (.give unwritten, { progress with tokens := rest })
  | .flowPair none, .flowEntry :: rest => some (.give unwritten, { progress with tokens := rest })
  | .flowPair none, .flowSequenceEnd :: rest =>
      some (.give unwritten, { progress with tokens := rest })
  | .flowPair none, _ => some (.node false false, progress)
  | .flowPair (some _), .value :: rest =>
      progress.optional false false [.flowEntry, .flowSequenceEnd] rest
  | .flowPair (some _), _ => some (.give unwritten, progress)
  | .flowMapping entries none _, .flowMappingEnd :: rest =>
      progress.closed number below (.mapping entries.reverse) rest
  | .flowMapping entries none _, tokens =>
      match afterComma? entries.isEmpty tokens with
      | none => none
      | some (.key :: rest) =>
          progress.optional false false [.value, .flowEntry, .flowMappingEnd] rest
      | some (.flowMappingEnd :: rest) =>
          progress.closed number below (.mapping entries.reverse) rest
      | some rest =>
          some (.node false false, {
            progress with
            tokens := rest
            stack := (.flowMapping entries none true, number) :: below })
  | .flowMapping _ (some _) _, .value :: rest =>
      progress.optional false false [.flowEntry, .flowMappingEnd] rest
  | .flowMapping _ (some _) _, _ => some (.give unwritten, progress)

/-- Reads on until a node has been handed over with no collection open. The fuel bounds the number
of steps; eight for each token are enough. -/
def run : (fuel : Nat) → Action → Progress → Option (Tree × List Token)
  | 0, _, _ => none
  | fuel + 1, action, progress =>
      match action, progress.stack with
      | .give tree, [] => some (tree, progress.tokens)
      | .give tree, (frame, number) :: below =>
          let (action, progress) := progress.give frame number below tree
          run fuel action progress
      | .node block aligned, _ =>
          match progress.node? block aligned with
          | some (action, progress) => run fuel action progress
          | none => none
      | .proceed, (frame, number) :: below =>
          match progress.proceed? frame number below with
          | some (action, progress) => run fuel action progress
          | none => none
      | .proceed, [] => none

end Progress

/-! ## Documents -/

/-- The node that starts here and the tokens after it. -/
def node? (handles : List (String × String)) (tokens : List Token) : Option (Tree × List Token) :=
  let handles := handles ++ [("!", "!"), ("!!", standardTags)]
  Progress.run (8 * tokens.length + 8) (.node true false) { tokens, handles }

/-- The handles that directives declare and the tokens after the directives. There is at most one
version, and no handle twice. -/
def directives? (versioned : Bool) (handles : List (String × String)) :
    List Token → Option (List (String × String) × List Token)
  | .version major minor :: rest =>
      if versioned || major != 1 || (minor != 1 && minor != 2) then none
      else directives? true handles rest
  | .handle name meaning :: rest =>
      if handles.any (·.1 == name) then none
      else directives? versioned (handles ++ [(name, meaning)]) rest
  | tokens => some (handles, tokens)

/-- A directive or a mark of a document comes next. -/
def atBoundary : List Token → Bool
  | .version _ _ :: _ => true
  | .handle _ _ :: _ => true
  | .documentStart :: _ => true
  | .documentEnd :: _ => true
  | _ => false

/-- The document that starts here and the tokens after it. -/
def document? (tokens : List Token) : Option (Tree × List Token) :=
  match directives? false [] tokens with
  | some (handles, .documentStart :: rest) =>
      if rest.isEmpty || atBoundary rest then some (unwritten, rest) else node? handles rest
  | some ([], rest) => if rest.length < tokens.length then none else node? [] rest
  | _ => none

/-- The tree that the only document of a text spells; a text without a document is vacant. -/
def read? (text : String) : Option Tree :=
  match tokens? text with
  | none => none
  | some [] => some (.atom { vacant := true })
  | some tokens =>
      match document? tokens with
      | some (tree, rest) => if rest.all (· == .documentEnd) then some tree else none
      | none => none

end TopicCodec.Yaml
