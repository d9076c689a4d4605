import TopicCodec.Stream

/-!
# Programs

A program is a list of streams. Stream 0 describes the root structure; nested
structures are described by other streams and referred to by number. A program
can take in all streams of another one (`graft`), which renumbers the references
of the newcomer, and it can be checked (`validate`): every stream is well formed,
every reference exists, and no structure contains itself except through a
sequence.
-/
namespace TopicCodec

structure Program where
  streams : List Stream
  deriving DecidableEq, Repr

namespace Program

def empty : Program := ⟨[]⟩

def length (program : Program) : Nat := program.streams.length

def isEmpty (program : Program) : Bool := program.streams.isEmpty

def stream? (program : Program) (id : UInt32) : Option Stream := program.streams[id.toNat]?

def root? (program : Program) : Option Stream := program.stream? 0

/-- Streams with their numbers. -/
def numbered (program : Program) : List (UInt32 × Stream) :=
  program.streams.mapIdx fun i words => (UInt32.ofNat i, words)

/-- Adds a stream at the end; its number is the number of streams before. -/
def push (program : Program) (words : Stream) : Program × UInt32 :=
  (⟨program.streams ++ [words]⟩, UInt32.ofNat program.length)

/-! ## Grafting -/

/-- The reference `target` counted from `base`, if it still is a stream number. -/
def shift? (base target : UInt32) : Option UInt32 :=
  if target.toNat + base.toNat < UInt32.size then some (target + base) else none

/-- The words with the reference of an instruction, if it has one, counted from `base`. -/
def patch (base id : UInt32) (words : Stream) (insn : Instruction) : Except Defect Stream :=
  match insn.referencePc? with
  | none => .ok words
  | some place =>
      let target := words.getD place 0
      match shift? base target with
      | some moved => .ok (words.set place moved)
      | none => .error (.streamOutOfRange id insn.pc target)

/-- The stream with all its references counted from `base`. The instructions tell where in the
words the references are; everything else stays as it is. -/
def rebaseStream (base id : UInt32) (words : Stream) : Except Defect Stream := do
  let scan := Scan.readAll id words
  let rebased ← scan.instructions.foldlM (patch base id) words
  let _ ← scan.ending
  return rebased

/-- Takes in every stream of `other`; also gives the number its root received. -/
def graft (program other : Program) : Except Defect (Program × UInt32) := do
  let base := UInt32.ofNat program.length
  let imported ← other.numbered.mapM fun (id, words) => rebaseStream base id words
  return (⟨program.streams ++ imported⟩, base)

/-- The same in place: the streams of `other` are taken over one by one and added all at once. -/
def graftInto (other : Program) : ExceptT Defect (StateM Program) UInt32 := do
  let base := UInt32.ofNat (← get).length
  let imported ← other.numbered.mapM fun (id, words) =>
    MonadExcept.ofExcept (rebaseStream base id words)
  modify fun program => ⟨program.streams ++ imported⟩
  return base

/-! ## Validation -/

/-- Streams that a value of the structure always holds a value of. -/
def containedIn : List Instruction → List Nat
  | [] => []
  | insn :: rest =>
      match insn.leaf.stream?, insn.shape.isSequence with
      | some target, false => target.toNat :: containedIn rest
      | _, _ => containedIn rest

/-- The first instruction that refers to a stream the program does not have. -/
def danglingReference? (streams : Nat) (insns : List Instruction) : Option (Nat × UInt32) :=
  insns.findSome? fun insn =>
    match insn.leaf.stream? with
    | some target => if streams ≤ target.toNat then some (insn.pc, target) else none
    | none => none

/-- Checks one stream of a program with `streams` streams and lists what it contains. -/
def validateStream (streams : Nat) (id : UInt32) (words : Stream) : Except Defect (List Nat) :=
  let scan := Scan.readAll id words
  match danglingReference? streams scan.instructions with
  | some (pc, target) => .error (.streamOutOfRange id pc target)
  | none => scan.complete.map containedIn

/-- Depth-first search from `node`, which `path` leads to, knowing that nothing on a cycle is
reached from `done`. Answers the nodes finished, or the first node met that is on the path. The
fuel bounds the length of the path. -/
def search (edges : List (List Nat)) : (fuel : Nat) → (path done : List Nat) → (node : Nat) →
    Except Nat (List Nat)
  | fuel, path, done, node =>
      if node ∈ done then .ok done
      else if node ∈ path then .error node
      else
        match fuel with
        | 0 => .ok done
        | fuel + 1 => do
            let done ← (edges[node]?.getD []).foldlM (search edges fuel (node :: path)) done
            return node :: done

/-- A node on a cycle of the graph, if the graph has one. -/
def cycle? (edges : List (List Nat)) : Option Nat :=
  match (List.range edges.length).foldlM (search edges (edges.length + 1) []) [] with
  | .error node => some node
  | .ok _ => none

def validate (program : Program) : Except Defect Unit := do
  if program.isEmpty then .error .emptyProgram
  let edges ← program.numbered.mapM fun (id, words) => validateStream program.length id words
  match cycle? edges with
  | some node => .error (.recursiveStream (UInt32.ofNat node))
  | none => return ()

end Program
end TopicCodec
