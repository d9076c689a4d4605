import TopicCodec.Scalar
import TopicCodec.Text.Utf8
import TopicCodec.Wire

/-!
# Writing

What is written goes into a sink: the bytes themselves, or only their number
(`Tally`). An `Item` is the unit of writing; the position it starts at decides the
padding before it.
-/
namespace TopicCodec

/-- Something that collects bytes, or what is to be known of them. -/
class Sink (σ : Type) where
  empty : σ
  ofBytes : List UInt8 → σ
  zeros : Nat → σ
  append : σ → σ → σ
  size : σ → Nat

instance : Sink (List UInt8) where
  empty := []
  ofBytes bytes := bytes
  zeros count := List.replicate count 0
  append := (· ++ ·)
  size := List.length

/-- A number of bytes. -/
structure Tally where
  count : Nat
  deriving DecidableEq, Repr

instance : Sink Tally where
  empty := ⟨0⟩
  ofBytes bytes := ⟨bytes.length⟩
  zeros count := ⟨count⟩
  append a b := ⟨a.count + b.count⟩
  size := Tally.count

/-- Something to write at one place. -/
inductive Item where
  | scalar (value : Scalar)
  /-- Zeros up to where a number of `width` bytes would stand. -/
  | padding (width : Nat)
  | bytes (raw : List UInt8)
  /-- A length, which counts the terminator, then the text and the terminator. -/
  | text (value : String)

namespace Item

variable {σ : Type} [Sink σ]

/-- Zeros, then a number of `width` bytes. -/
def emitNumber (wire : WireFormat) (position width n : Nat) : σ :=
  Sink.append (Sink.zeros (wire.padding position width))
    (Sink.ofBytes (wire.byteOrder.toBytes width n))

def emit (wire : WireFormat) (position : Nat) : Item → σ
  | scalar (.bool value) => Sink.ofBytes [if value then 1 else 0]
  | scalar (.number kind bits) => emitNumber wire position kind.width bits.toNat
  | padding width => Sink.zeros (wire.padding position width)
  | bytes raw => Sink.ofBytes raw
  | text value =>
      let raw := Utf8.encode value
      Sink.append (emitNumber wire position lengthWidth (raw.length + 1))
        (Sink.ofBytes (raw ++ [0]))

/-- A length before a string or a sequence. -/
def length (n : Nat) : Item := scalar (.number .u32 (BitVec.ofNat _ n))

end Item

/-- A sink being filled, with the size it had at the start of the body. -/
structure Writer (σ : Type) where
  sink : σ
  base : Nat

namespace Writer

variable {σ : Type} [Sink σ]

def start (sink : σ) : Writer σ := ⟨sink, Sink.size sink⟩

/-- Bytes written since the start of the body. -/
def position (writer : Writer σ) : Nat := Sink.size writer.sink - writer.base

def write (wire : WireFormat) (writer : Writer σ) (item : Item) : Writer σ :=
  { writer with sink := Sink.append writer.sink (item.emit wire writer.position) }

end Writer

/-- The four bytes that head a payload. -/
def encapsulationHeader (kind : UInt16) : List UInt8 :=
  ByteOrder.big.toBytes 2 kind.toNat ++ [0, 0]

end TopicCodec
