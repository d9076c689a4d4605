/-!
# Reports

What went wrong, outermost message first, each followed by its cause. A report is shown on one
line, or as a message with the list of its causes below.
-/
namespace TopicCodec

abbrev Report := List String

namespace Report

/-- Texts as lines, each with its end. -/
def lines (texts : List String) : String := String.join (texts.map (· ++ "\n"))

/-- What follows this wording is not shown on the same line. -/
def lastWord : String := "malformed markup"

def clipLine (line : String) : String :=
  match line.splitOn lastWord with
  | first :: _ :: _ => first ++ lastWord
  | _ => line

/-- A text with every line cut after the last word to be shown. -/
def clip (text : String) : String :=
  String.intercalate "\n" ((text.splitOn "\n").map clipLine)

/-- The messages on one line. -/
def line (report : Report) : String := String.intercalate ": " report

/-- The message is about a file that could not be read, made sense of or written. The system and
the readers of notations have their own words for why, which are not shown. -/
def isFinal (message : String) : Bool :=
  ["reading ", "parsing ", "writing "].any fun start => message.startsWith start

/-- A message set in by `margin`, its further lines by `hanging`. -/
def indented (margin hanging message : String) : String :=
  margin ++ message.replace "\n" ("\n" ++ hanging)

/-- Causes with their numbers. -/
def numbered (start : Nat) : List String → List String
  | [] => []
  | cause :: rest =>
      let number := toString start
      let margin := String.ofList (List.replicate (5 - number.length) ' ') ++ number ++ ": "
      indented margin "       " cause :: numbered (start + 1) rest

/-- The causes below a message; a single one has no number. -/
def causes : List String → List String
  | [] => []
  | [cause] => ["", "Caused by:", indented "    " "    " cause]
  | several => ["", "Caused by:"] ++ numbered 0 several

/-- A message with the list of its causes. -/
def text : Report → String
  | [] => ""
  | message :: rest =>
      let rest := if isFinal message then [] else rest
      String.intercalate "\n" (("Error: " ++ message) :: causes rest) ++ "\n"

end Report
end TopicCodec
