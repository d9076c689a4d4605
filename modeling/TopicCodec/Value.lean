import TopicCodec.Program

/-!
# Instances

An instance is a tree of values that fields are read from and written to by index. A
sequence also knows what a new element looks like (`Supply`): the default of a leaf of
a program, a copy of a given value, or nothing at all. A collection may claim places that
hold no value; such a place is `absent`.

A fixed array may hold arrays. Marshalling sees its elements in row-major order, as
`flatten` lists them; `refill` puts a list of the same length back into the rows.
-/
namespace TopicCodec

mutual

/-- Where new elements of a sequence come from. -/
inductive Supply where
  /-- The default of a leaf of a program. -/
  | leaf (program : Program) (leaf : Leaf)
  /-- A value that is copied. -/
  | copies (element : Value)
  /-- Nowhere: the sequence claims up to `limit` places and fills none but the first, whose value
  is kept here while the sequence is empty. -/
  | vacant (limit : Nat) (complaint : String) (kept : Option Scalar)

inductive Value where
  | scalar (value : Scalar)
  | text (value : String)
  /-- Fields in ascending order of their indices. -/
  | struct (fields : List (UInt32 × Value))
  | array (items : List Value)
  | sequence (supply : Supply) (items : List Value)
  /-- A place that holds no value. -/
  | absent

end

namespace Value

/-- What a value is, in complaints. -/
def kindName : Value → String
  | scalar value => value.kindName
  | text _ => "string"
  | struct _ => "struct"
  | array _ => "array"
  | sequence .. => "sequence"
  | absent => "absent"

/-! ## Fields and elements -/

/-- The fields with one added or replaced. -/
def insertField (index : UInt32) (value : Value) :
    List (UInt32 × Value) → List (UInt32 × Value)
  | [] => [(index, value)]
  | (other, kept) :: rest =>
      if index = other then (index, value) :: rest
      else if index < other then (index, value) :: (other, kept) :: rest
      else (other, kept) :: insertField index value rest

/-- A present value. -/
def present? : Value → Option Value
  | absent => none
  | value => some value

def field? (index : UInt32) : Value → Option Value
  | struct fields => fields.lookup index
  | _ => none

/-- The structure with one field put in or replaced; any other value stays. -/
def setField (value : Value) (index : UInt32) (inner : Value) : Value :=
  match value with
  | struct fields => struct (insertField index inner fields)
  | other => other

/-- Elements of an array or a sequence. -/
def items? : Value → Option (List Value)
  | array items => some items
  | sequence _ items => some items
  | _ => none

def setItems (items : List Value) : Value → Value
  | array _ => array items
  | sequence supply _ => sequence supply items
  | other => other

def element? (index : Nat) (value : Value) : Option Value := do
  let items ← value.items?
  let item ← items[index]?
  item.present?

/-- The value one step down. -/
def step? (value : Value) : PathStep → Option Value
  | .field index => value.field? index
  | .element index => value.element? index

/-- The value with another one put in the place one step down. -/
def setStep (value : Value) (inner : Value) : PathStep → Value
  | .field index => value.setField index inner
  | .element index => value.setItems ((value.items?.getD []).set index inner)

/-- The value that a path leads to. -/
def get? : List PathStep → Value → Option Value
  | [], value => some value
  | step :: path, value => (value.step? step).bind (get? path)

/-- The value with the one that a path leads to changed, if the path leads anywhere. -/
def change? (change : Value → Value) : List PathStep → Value → Option Value
  | [], value => some (change value)
  | step :: path, value => do
      let inner ← value.step? step
      let changed ← change? change path inner
      return value.setStep changed step

/-! ## Rows -/

mutual

/-- The elements of nested arrays in row-major order; any other value is its own only element. -/
def flatten : Value → List Value
  | array items => flattenItems items
  | value => [value]

def flattenItems : List Value → List Value
  | [] => []
  | item :: rest => flatten item ++ flattenItems rest

end

mutual

/-- The rows of a value filled with elements in row-major order, and the elements left over. -/
def refill : Value → List Value → Value × List Value
  | array items, elements =>
      let (items, left) := refillItems items elements
      (array items, left)
  | _, element :: left => (element, left)
  | value, [] => (value, [])

def refillItems : List Value → List Value → List Value × List Value
  | [], elements => ([], elements)
  | item :: rest, elements =>
      let (item, left) := refill item elements
      let (rest, left) := refillItems rest left
      (item :: rest, left)

end

/-! ## Equality of what values stand for -/

mutual

/-- Two samples of programs hold the same: equal fields, and sequences of the same leaf. -/
def agrees : Value → Value → Bool
  | scalar a, scalar b => a.agrees b
  | text a, text b => a == b
  | struct a, struct b => agreesFields a b
  | array a, array b => agreesItems a b
  | sequence (.leaf _ a) xs, sequence (.leaf _ b) ys => a == b && agreesItems xs ys
  | _, _ => false

def agreesItems : List Value → List Value → Bool
  | [], [] => true
  | a :: as, b :: bs => agrees a b && agreesItems as bs
  | _, _ => false

def agreesFields : List (UInt32 × Value) → List (UInt32 × Value) → Bool
  | [], [] => true
  | (i, a) :: as, (j, b) :: bs => i == j && agrees a b && agreesFields as bs
  | _, _ => false

end

end Value
end TopicCodec
