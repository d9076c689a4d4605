import TopicCodec.Scalar
import TopicCodec.Wire

/-!
# Reading

A cursor is a place in a body: the bytes consumed so far and the bytes left. A read
that runs past the end reports a `Shortfall`; padding it skipped before stays
skipped, so every read answers the cursor it leaves behind, failed or not.
-/
namespace TopicCodec

/-- A read ran past the end of the input. -/
structure Shortfall where
  offset : Nat
  needed : Nat
  available : Nat
  deriving DecidableEq, Repr

structure Cursor where
  offset : Nat
  rest : List UInt8
  deriving DecidableEq, Repr

namespace Cursor

def start (bytes : List UInt8) : Cursor := ⟨0, bytes⟩

def remaining (cursor : Cursor) : Nat := cursor.rest.length

/-- Padding that a read of `width` bytes would skip. -/
def padding (wire : WireFormat) (cursor : Cursor) (width : Nat) : Nat :=
  wire.padding cursor.offset width

/-- The next `count` bytes. -/
def take (count : Nat) (cursor : Cursor) : Except Shortfall (List UInt8) × Cursor :=
  let slice := cursor.rest.take count
  if slice.length = count then
    (.ok slice, ⟨cursor.offset + count, cursor.rest.drop count⟩)
  else (.error ⟨cursor.offset, count, cursor.remaining⟩, cursor)

/-- Skips to where a number of `width` bytes stands. -/
def align (wire : WireFormat) (width : Nat) (cursor : Cursor) : Except Shortfall Unit × Cursor :=
  match cursor.take (cursor.padding wire width) with
  | (.ok _, next) => (.ok (), next)
  | (.error short, next) => (.error short, next)

/-- A number of `width` bytes. -/
def number (wire : WireFormat) (width : Nat) (cursor : Cursor) : Except Shortfall Nat × Cursor :=
  match cursor.align wire width with
  | (.error short, next) => (.error short, next)
  | (.ok _, next) =>
      match next.take width with
      | (.error short, next) => (.error short, next)
      | (.ok bytes, next) => (.ok (wire.byteOrder.ofBytes bytes), next)

def scalar (wire : WireFormat) (kind : ScalarKind) (cursor : Cursor) :
    Except Shortfall kind.Bits × Cursor :=
  match cursor.number wire kind.width with
  | (.error short, next) => (.error short, next)
  | (.ok n, next) => (.ok (BitVec.ofNat _ n), next)

/-- A length before a string or a sequence. -/
def length (wire : WireFormat) (cursor : Cursor) : Except Shortfall Nat × Cursor :=
  cursor.number wire lengthWidth

end Cursor

/-- Splits a payload into its encapsulation identifier and its body. -/
def splitPayload (payload : List UInt8) : Except Shortfall (UInt16 × List UInt8) :=
  match payload with
  | high :: low :: _ :: _ :: body => .ok (UInt16.ofNat (high.toNat * 256 + low.toNat), body)
  | _ => .error ⟨0, 4, payload.length⟩

end TopicCodec
