import TopicCodec.Command.Run

/-!
# The command line tool

Reads the files that a command names, and prints and saves what it comes to.
-/
namespace TopicCodec.Main

partial def readAll (stream : IO.FS.Stream) (read : ByteArray) : IO ByteArray := do
  let chunk ← stream.read 65536
  if chunk.isEmpty then return read else readAll stream (read ++ chunk)

def readFile? (path : String) : IO (Option (List UInt8)) := do
  try
    return some (← IO.FS.readBinFile path).toList
  catch _ => return none

def writeFile (path : String) (bytes : List UInt8) : IO Bool := do
  try
    IO.FS.writeBinFile path ⟨bytes.toArray⟩
    return true
  catch _ => return false

def inputsOf : Invocation → IO Inputs
  | .command command => do
      let files ← command.files.mapM fun path => return (path, ← readFile? path)
      let input ← if command.readsInput then readAll (← IO.getStdin) .empty else pure .empty
      return { file? := fun path => (files.lookup path).join, input := input.toList }
  | _ => return { file? := fun _ => none }

end TopicCodec.Main

open TopicCodec in
def main (args : List String) : IO UInt32 := do
  let invocation := Invocation.ofArgs args
  let outcome := invocation.outcome (← Main.inputsOf invocation)
  let written ← match outcome.saved with
    | some (path, bytes) => Main.writeFile path bytes
    | none => pure true
  let outcome := outcome.settle fun _ => written
  (← IO.getStdout).putStr outcome.out
  (← IO.getStderr).putStr outcome.err
  return outcome.code.toUInt32
