import TopicCodec.Text.Numeral

/-!
# Field paths

Where a field stands inside an instance, from the root structure down. The text
of a path is `.3.0[17]`: field 3, its field 0, element 17 of that.
-/
namespace TopicCodec

inductive PathStep where
  /-- Field index within the enclosing structure. -/
  | field (index : UInt32)
  /-- Element index within a sequence or a flattened array. -/
  | element (index : Nat)
  deriving DecidableEq, Repr

def PathStep.text : PathStep → String
  | .field index => "." ++ toString index.toNat
  | .element index => "[" ++ toString index ++ "]"

structure Path where
  steps : List PathStep
  deriving DecidableEq, Repr

namespace Path

def root : Path := ⟨[]⟩

def isRoot (path : Path) : Bool := path.steps.isEmpty

/-- The path one step further down. -/
def push (path : Path) (step : PathStep) : Path := ⟨path.steps ++ [step]⟩

def field (path : Path) (index : UInt32) : Path := path.push (.field index)

def element (path : Path) (index : Nat) : Path := path.push (.element index)

def text (path : Path) : String :=
  if path.isRoot then "<root>" else String.join (path.steps.map PathStep.text)

/-- Reads steps one after the other; `fuel` bounds their number. -/
def stepsOf? : (fuel : Nat) → List Char → Option (List PathStep)
  | _, [] => some []
  | 0, _ => none
  | fuel + 1, '.' :: rest => do
      let index ← Numeral.ofDigits? 10 (rest.takeWhile Char.isDigit)
      let steps ← stepsOf? fuel (rest.dropWhile Char.isDigit)
      return .field (UInt32.ofNat index) :: steps
  | fuel + 1, '[' :: rest => do
      let index ← Numeral.ofDigits? 10 (rest.takeWhile Char.isDigit)
      match rest.dropWhile Char.isDigit with
      | ']' :: rest => return .element index :: (← stepsOf? fuel rest)
      | _ => none
  | _, _ => none

/-- The path that a text such as `.3.0[17]` spells. -/
def ofText? (text : String) : Option Path := (stepsOf? text.length text.toList).map Path.mk

end Path
end TopicCodec
