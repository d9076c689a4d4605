/-!
# White space

The characters with the Unicode property White_Space, and splitting at them.
-/
namespace TopicCodec.Text

/-- Code point ranges of white space. -/
def blankRanges : List (Nat × Nat) :=
  [(0x09, 0x0D), (0x20, 0x20), (0x85, 0x85), (0xA0, 0xA0), (0x1680, 0x1680), (0x2000, 0x200A),
    (0x2028, 0x2029), (0x202F, 0x202F), (0x205F, 0x205F), (0x3000, 0x3000)]

def isBlank (c : Char) : Bool :=
  blankRanges.any fun (low, high) => low ≤ c.toNat && c.toNat ≤ high

/-- The nonempty pieces between characters of a class; `acc` holds the piece being read, last
character first. -/
def splitFrom (separates : Char → Bool) (acc : List Char) : List Char → List (List Char)
  | [] => if acc.isEmpty then [] else [acc.reverse]
  | c :: rest =>
      if separates c then
        if acc.isEmpty then splitFrom separates [] rest
        else acc.reverse :: splitFrom separates [] rest
      else splitFrom separates (c :: acc) rest

/-- Names in a list written with commas or white space between them. -/
def listed (text : String) : List String :=
  (splitFrom (fun c => c == ',' || isBlank c) [] text.toList).map String.ofList

end TopicCodec.Text
