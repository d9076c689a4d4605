/-!
# Wire formats

A wire format fixes the byte order, the alignment cap, and the largest lengths
accepted. A number of `w` bytes stands at a multiple of the smaller of `w` and the
cap, counted from the start of the body. Four formats have an encapsulation
identifier, which heads a payload in two bytes, most significant first, before two
option bytes of zero.
-/
namespace TopicCodec

inductive ByteOrder where
  | little
  | big
  deriving DecidableEq, Repr

structure WireFormat where
  byteOrder : ByteOrder := .little
  /-- Alignment cap in bytes; zero counts as one. -/
  maxAlign : Nat := 8
  /-- Largest length of a string, its terminator included. -/
  maxStringLen : UInt32 := 16777216
  maxSequenceLen : UInt32 := 16777216
  deriving DecidableEq, Repr

/-- Bytes of a length before a string or a sequence. -/
def lengthWidth : Nat := 4

namespace WireFormat

/-- Alignment of a number of `width` bytes. -/
def alignFor (wire : WireFormat) (width : Nat) : Nat := max (min width wire.maxAlign) 1

/-- Bytes to skip at `position` before a number of `width` bytes. -/
def padding (wire : WireFormat) (position width : Nat) : Nat :=
  let align := wire.alignFor width
  (align - position % align) % align

theorem alignFor_pos (wire : WireFormat) (width : Nat) : 0 < wire.alignFor width :=
  Nat.lt_of_lt_of_le Nat.zero_lt_one (Nat.le_max_right _ _)

/-- Numbers align to at most eight bytes. -/
def littleEndian : WireFormat := {}

def bigEndian : WireFormat := { byteOrder := .big }

/-- Nothing aligns beyond four bytes. -/
def compactAlign : Nat := 4

/-- The format whose bytes key hashes are made from. -/
def keyHash : WireFormat := bigEndian

def ofEncapsulation? (kind : UInt16) : Option WireFormat :=
  match kind with
  | 0x0000 => some bigEndian
  | 0x0001 => some littleEndian
  | 0x0006 => some { bigEndian with maxAlign := compactAlign }
  | 0x0007 => some { littleEndian with maxAlign := compactAlign }
  | _ => none

/-- The identifier of the format's byte order and alignment cap. -/
def encapsulation? (wire : WireFormat) : Option UInt16 :=
  match wire.maxAlign, wire.byteOrder with
  | 8, .big => some 0x0000
  | 8, .little => some 0x0001
  | 4, .big => some 0x0006
  | 4, .little => some 0x0007
  | _, _ => none

end WireFormat

namespace ByteOrder

/-- The `width` low bytes of `n`, least significant first. -/
def littleBytes : (width n : Nat) → List UInt8
  | 0, _ => []
  | width + 1, n => UInt8.ofNat (n % 256) :: littleBytes width (n / 256)

/-- The number with these bytes, least significant first. -/
def ofLittleBytes : List UInt8 → Nat
  | [] => 0
  | byte :: rest => byte.toNat + 256 * ofLittleBytes rest

def toBytes (order : ByteOrder) (width n : Nat) : List UInt8 :=
  match order with
  | little => littleBytes width n
  | big => (littleBytes width n).reverse

def ofBytes (order : ByteOrder) (bytes : List UInt8) : Nat :=
  match order with
  | little => ofLittleBytes bytes
  | big => ofLittleBytes bytes.reverse

@[simp] theorem length_littleBytes (width n : Nat) : (littleBytes width n).length = width := by
  induction width generalizing n with
  | zero => rfl
  | succ width ih => simp only [littleBytes, List.length_cons, ih]

@[simp] theorem length_toBytes (order : ByteOrder) (width n : Nat) :
    (order.toBytes width n).length = width := by
  cases order <;> simp [toBytes]

theorem ofLittleBytes_littleBytes (width n : Nat) :
    ofLittleBytes (littleBytes width n) = n % Nat.pow 256 width := by
  rw [Nat.pow_eq]
  induction width generalizing n with
  | zero => simp [littleBytes, ofLittleBytes, Nat.mod_one]
  | succ width ih =>
      have h : (UInt8.ofNat (n % 256)).toNat = n % 256 := by
        rw [UInt8.toNat_ofNat']
        exact Nat.mod_eq_of_lt (Nat.mod_lt n (by decide))
      rw [littleBytes, ofLittleBytes, ih, h, Nat.pow_succ', Nat.mod_mul]

theorem ofBytes_toBytes (order : ByteOrder) (width n : Nat) :
    order.ofBytes (order.toBytes width n) = n % Nat.pow 256 width := by
  cases order <;> simp [toBytes, ofBytes, ofLittleBytes_littleBytes]

end ByteOrder
end TopicCodec
