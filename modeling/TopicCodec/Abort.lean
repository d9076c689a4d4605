/-!
# Computations that are cut off

Numbers have 64 bits, and a table has to fit into the address space. Most operations are
checked, and what does not fit is answered as such. Where an operation that is not checked
cannot be carried out, the whole computation ends there: no caller gets an answer, and
nothing that was to happen afterwards happens.
-/
namespace TopicCodec

/-- Why a computation was cut off. -/
inductive Abort where
  /-- A product is no 64-bit number. -/
  | product
  /-- A table has more bytes than a signed 64-bit number counts. -/
  | table
  deriving DecidableEq, Repr

namespace Abort

def message : Abort → String
  | .product => "attempt to multiply with overflow"
  | .table => "capacity overflow"

/-- The product of two numbers, which has to be a 64-bit number. -/
def multiply (a b : Nat) : Except Abort Nat :=
  if a * b < UInt64.size then .ok (a * b) else .error .product

/-- A table of so many places of so many bytes can be asked for. Whether there is as much memory is
another matter, which is not gone into. -/
def addressable (places size : Nat) : Bool := places * size < UInt64.size / 2

theorem multiply_eq_ok {a b c : Nat} : multiply a b = .ok c ↔ a * b < UInt64.size ∧ a * b = c := by
  unfold multiply
  split <;> simp [*]

end Abort
end TopicCodec
