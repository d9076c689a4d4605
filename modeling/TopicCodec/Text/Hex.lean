import TopicCodec.Text.Blank
import TopicCodec.Text.Numeral

/-!
# Bytes as hexadecimal text

Two digits a byte, written with one blank between bytes. White space is ignored when
reading.
-/
namespace TopicCodec.Hex

inductive Fault where
  | oddLength
  | invalidPair (high low : Char)
  deriving DecidableEq, Repr

def Fault.message : Fault → String
  | .oddLength => "hex input has an odd number of digits"
  | .invalidPair high low => "invalid hex digits `" ++ String.ofList [high, low] ++ "`"

def byteText (byte : UInt8) : String := Numeral.hex 2 byte.toNat

def write (bytes : List UInt8) : String := String.intercalate " " (bytes.map byteText)

/-- Bytes of an even number of digits. -/
def pairs : List Char → Except Fault (List UInt8)
  | high :: low :: rest =>
      match Numeral.digitsFrom 16 0 [high, low] with
      | some n => (pairs rest).map (UInt8.ofNat n :: ·)
      | none => .error (.invalidPair high low)
  | _ => .ok []

def read (text : String) : Except Fault (List UInt8) :=
  let digits := text.toList.filter (!Text.isBlank ·)
  if digits.length % 2 ≠ 0 then .error .oddLength else pairs digits

end TopicCodec.Hex
