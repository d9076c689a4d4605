import TopicCodec.Json

/-!
# Parts of JSON values

Numbers, texts, lists and members of a value that has the form asked for.
-/
namespace TopicCodec.Json

def natural? : Json → Option Nat
  | integer n => if 0 ≤ n then some n.toNat else none
  | _ => none

/-- A natural number below `2 ^ 32`. -/
def word? (value : Json) : Option UInt32 :=
  match value.natural? with
  | some n => if n < UInt32.size then some (UInt32.ofNat n) else none
  | none => none

def text? : Json → Option String
  | string text => some text
  | _ => none

def items? : Json → Option (List Json)
  | array items => some items
  | _ => none

/-- A list of which every item reads as `read` says. -/
def listOf? {α : Type} (read : Json → Option α) (value : Json) : Option (List α) :=
  match value.items? with
  | some items => items.mapM read
  | none => none

/-- A member read as `read` says. -/
def member? {α : Type} (read : Json → Option α) (name : String) (value : Json) : Option α :=
  (value.get? name).bind read

/-- A member is there and true. -/
def flag (name : String) (value : Json) : Bool :=
  match value.get? name with
  | some (bool set) => set
  | _ => false

end TopicCodec.Json
