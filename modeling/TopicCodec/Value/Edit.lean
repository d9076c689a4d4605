import TopicCodec.Value.Default

/-!
# Editing instances in place

Storing keeps the kind of a slot: a text goes into a text slot and a scalar into a scalar slot
of its own kind. A collection grows by a default element or, an array, by its last element
once more. A sequence of a program's leaf is extended one element after another, each made
anew; where one cannot be made, those that were appended before it are not taken away again.
-/
namespace TopicCodec.Value

/-- What came of storing into a slot. -/
inductive Stored where
  | text
  /-- A scalar slot, which takes scalars of its own kind only. -/
  | scalar (kind : String) (taken : Bool)
  | refused (kind : String)
  deriving DecidableEq, Repr

/-- The slot after storing `value` into it. -/
def store (value : Value) (slot : Value) : Stored × Value :=
  match slot, value with
  | text _, text new => (.text, text new)
  | scalar old, scalar new =>
      let taken := old.kindName == new.kindName
      (.scalar old.kindName taken, scalar (if taken then new else old))
  | slot, _ => (.refused slot.kindName, slot)

/-- A collection with one more element; none if there is nothing to add or no place for it. -/
def push : Value → Except Defect (Option Value)
  | sequence supply items =>
      (supply.resize items (items.length + 1)).map fun (supply, items) =>
        some (sequence supply items)
  | array items => .ok (items.getLast?.map fun last => array (items ++ [last]))
  | _ => .ok none

/-- A collection without its last element. -/
def pop : Value → Option Value
  | sequence supply items => some (sequence supply items.dropLast)
  | array items => some (array items.dropLast)
  | _ => none

/-! ## Resizing -/

/-- Appends a default element of a leaf. -/
def pushDefault (program : Program) (leaf : Leaf) : ExceptT Defect (StateM (Array Value)) Unit := do
  let value ← MonadExcept.ofExcept (program.defaultElement leaf)
  modify (·.push value)

/-- Appends default elements, as long as they can be made. -/
def pushDefaults (program : Program) (leaf : Leaf) :
    (more : Nat) → ExceptT Defect (StateM (Array Value)) Unit
  | 0 => return ()
  | more + 1 => do
      pushDefault program leaf
      pushDefaults program leaf more

/-- Cuts the elements of a leaf to `length`, or appends as many as are missing. That there is
memory for them, and that their number can be asked for at all, is taken for granted. -/
def resizeElements (program : Program) (leaf : Leaf) (length : Nat) :
    ExceptT Defect (StateM (Array Value)) Unit := do
  let size := (← get).size
  if length ≤ size then modify (·.take length) else pushDefaults program leaf (length - size)

/-- Cuts or extends a sequence in place; any other value stays. -/
def resize (length : Nat) : ExceptT Defect (StateM Value) Unit := do
  match ← get with
  | sequence (.leaf program leaf) items =>
      let (outcome, items) := (resizeElements program leaf length).run.run items.toArray
      set (sequence (.leaf program leaf) items.toList)
      MonadExcept.ofExcept outcome
  | sequence supply items =>
      let (supply, items) ← MonadExcept.ofExcept (supply.resize items length)
      set (sequence supply items)
  | _ => return ()

end TopicCodec.Value
