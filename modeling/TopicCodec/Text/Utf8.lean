/-!
# UTF-8 as byte lists

`encode` writes a text, `decode` reads one strictly: overlong forms, surrogates
and code points past U+10FFFF are refused. A refusal says how many bytes before
the defect are well formed and, unless the input merely ended inside a
character, how many bytes are to blame.
-/
namespace TopicCodec.Utf8

/-- Why a byte list is not UTF-8. -/
structure Fault where
  /-- Length of the longest well-formed front. -/
  validUpTo : Nat
  /-- Bytes that cannot start or continue a character; none when the input ended early. -/
  length : Option Nat
  deriving DecidableEq, Repr

def Fault.message (fault : Fault) : String :=
  let start := fault.validUpTo
  match fault.length with
  | some count => s!"invalid utf-8 sequence of {count} bytes from index {start}"
  | none => s!"incomplete utf-8 byte sequence from index {start}"

def encode (text : String) : List UInt8 :=
  text.toList.flatMap String.utf8EncodeChar

/-- Number of bytes of the encoded text. -/
def size (text : String) : Nat := (encode text).length

def isContinuation (byte : UInt8) : Bool := 0x80 ≤ byte && byte < 0xC0

/-- Second bytes that may follow the first byte of a three-byte character. -/
def secondOfThree (first second : UInt8) : Bool :=
  if first = 0xE0 then 0xA0 ≤ second && second < 0xC0
  else if first = 0xED then 0x80 ≤ second && second < 0xA0
  else isContinuation second

/-- Second bytes that may follow the first byte of a four-byte character. -/
def secondOfFour (first second : UInt8) : Bool :=
  if first = 0xF0 then 0x90 ≤ second && second < 0xC0
  else if first = 0xF4 then 0x80 ≤ second && second < 0x90
  else isContinuation second

/-- Payload bits of a continuation byte. -/
def low (byte : UInt8) : Nat := byte.toNat % 64

/-- The first character of a nonempty input and its length in bytes, or the length of the defect. -/
def first (byte : UInt8) (rest : List UInt8) : Except (Option Nat) (Char × Nat) :=
  if byte < 0x80 then .ok (Char.ofNat byte.toNat, 1)
  else if 0xC2 ≤ byte && byte < 0xE0 then
    match rest with
    | [] => .error none
    | b :: _ =>
        if isContinuation b then .ok (Char.ofNat (byte.toNat % 32 * 64 + low b), 2)
        else .error (some 1)
  else if 0xE0 ≤ byte && byte < 0xF0 then
    match rest with
    | [] => .error none
    | b :: rest =>
        if secondOfThree byte b then
          match rest with
          | [] => .error none
          | c :: _ =>
              if isContinuation c then
                .ok (Char.ofNat (byte.toNat % 16 * 4096 + low b * 64 + low c), 3)
              else .error (some 2)
        else .error (some 1)
  else if 0xF0 ≤ byte && byte < 0xF5 then
    match rest with
    | [] => .error none
    | b :: rest =>
        if secondOfFour byte b then
          match rest with
          | [] => .error none
          | c :: rest =>
              if isContinuation c then
                match rest with
                | [] => .error none
                | d :: _ =>
                    if isContinuation d then
                      .ok (Char.ofNat (byte.toNat % 8 * 262144 + low b * 4096 + low c * 64 + low d), 4)
                    else .error (some 3)
              else .error (some 2)
        else .error (some 1)
  else .error (some 1)

/-- Characters of the input, with `start` the number of bytes already read. -/
def decodeFrom (start : Nat) : List UInt8 → Except Fault (List Char)
  | [] => .ok []
  | byte :: rest =>
      match first byte rest with
      | .error length => .error ⟨start, length⟩
      | .ok (char, width) =>
          match decodeFrom (start + width) (rest.drop (width - 1)) with
          | .error fault => .error fault
          | .ok chars => .ok (char :: chars)
  termination_by bytes => bytes.length
  decreasing_by
    rw [List.length_drop, List.length_cons]
    omega

def decode (bytes : List UInt8) : Except Fault String :=
  match decodeFrom 0 bytes with
  | .error fault => .error fault
  | .ok chars => .ok (String.ofList chars)

end TopicCodec.Utf8
