import TopicCodec.Program

/-!
# Listings

A program as text, one instruction a line behind its word position. A defect is
listed in place of the rest of its stream.
-/
namespace TopicCodec.Program

def listStream (id : UInt32) (words : Stream) : List String :=
  let scan := Scan.readAll id words
  let line (pc text : String) := s!"  {pc}  {text}\n"
  s!"stream {id}:\n" ::
    scan.instructions.map (fun insn => line (Numeral.decimal 4 insn.pc) insn.text) ++
    [match scan.ending with
      | .ok pc => line (Numeral.decimal 4 pc) "RTS"
      | .error defect => line "????" defect.message]

def listing (program : Program) : String :=
  String.join (program.numbered.flatMap fun (id, words) => listStream id words)

end TopicCodec.Program
