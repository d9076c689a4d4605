import Mathlib.Tactic.SplitIfs
import TopicCodec.Marshal.Encode

/-!
# Encoders do not depend on the sink

A map of sinks carries what was written into one sink to what the same calls write into
another. An encoder only calls the operations of its sink, and its sizes decide every
position, so the outcome for one sink is the image of the outcome for the other, failures
included. Two maps are used: from bytes to their number, and from cells, which tell
padding apart from content, to bytes.
-/
namespace TopicCodec

structure SinkHom {σ τ : Type} [Sink σ] [Sink τ] (f : σ → τ) : Prop where
  empty : f Sink.empty = Sink.empty
  ofBytes : ∀ bytes, f (Sink.ofBytes bytes) = Sink.ofBytes bytes
  zeros : ∀ count, f (Sink.zeros count) = Sink.zeros count
  append : ∀ a b, f (Sink.append a b) = Sink.append (f a) (f b)
  size : ∀ a, Sink.size (f a) = Sink.size a

/-- The number of the bytes written. -/
def Tally.ofBytes (bytes : List UInt8) : Tally := ⟨bytes.length⟩

theorem Tally.ofBytes_hom : SinkHom Tally.ofBytes where
  empty := rfl
  ofBytes _ := rfl
  zeros _ := congrArg Tally.mk List.length_replicate
  append _ _ := congrArg Tally.mk List.length_append
  size _ := rfl

inductive Cell where
  /-- A byte that is there only for alignment. -/
  | padding
  | content (byte : UInt8)
  deriving DecidableEq, Repr

namespace Cell

def byte : Cell → UInt8
  | padding => 0
  | content byte => byte

instance : Sink (List Cell) where
  empty := []
  ofBytes bytes := bytes.map content
  zeros count := List.replicate count padding
  append := (· ++ ·)
  size := List.length

theorem bytes_hom : SinkHom (List.map byte) where
  empty := rfl
  ofBytes bytes := by
    change (bytes.map content).map byte = bytes
    rw [List.map_map]
    exact List.map_id bytes
  zeros _ := List.map_replicate
  append _ _ := List.map_append
  size _ := List.length_map _

end Cell

namespace Item

variable {σ τ : Type} [Sink σ] [Sink τ] {f : σ → τ}

theorem emitNumber_map (hf : SinkHom f) (wire : WireFormat) (position width n : Nat) :
    emitNumber (σ := τ) wire position width n = f (emitNumber wire position width n) := by
  simp only [emitNumber, hf.append, hf.zeros, hf.ofBytes]

theorem emit_map (hf : SinkHom f) (wire : WireFormat) (position : Nat) (item : Item) :
    item.emit (σ := τ) wire position = f (item.emit wire position) := by
  cases item with
  | scalar value => cases value <;> simp only [emit, hf.ofBytes, emitNumber_map hf]
  | padding width => simp only [emit, hf.zeros]
  | bytes raw => simp only [emit, hf.ofBytes]
  | text value => simp only [emit, hf.append, hf.ofBytes, emitNumber_map hf]

end Item

namespace Marshal

variable {σ τ : Type} [Sink σ] [Sink τ] {f : σ → τ}

theorem emitAll_map {α : Type} (hf : SinkHom f) {emit : α → Nat → Except CodecError σ}
    {emit' : α → Nat → Except CodecError τ}
    (h : ∀ item position, emit' item position = (emit item position).map f)
    (items : List α) (position : Nat) :
    emitAll emit' items position = (emitAll emit items position).map f := by
  induction items generalizing position with
  | nil => exact congrArg Except.ok hf.empty.symm
  | cons first rest ih =>
      simp only [emitAll, h]
      cases emit first position with
      | error error => rfl
      | ok chunk =>
          simp only [Except.map, bind, Except.bind, hf.size, ih]
          cases emitAll emit rest (position + Sink.size chunk) with
          | error error => rfl
          | ok tail => exact congrArg Except.ok (hf.append chunk tail).symm

theorem encodeText_map (hf : SinkHom f) (wire : WireFormat) (bound : Option UInt32)
    (text : String) (path : Path) (position : Nat) :
    encodeText (σ := τ) wire bound text path position =
      (encodeText wire bound text path position).map f := by
  unfold encodeText
  dsimp only
  split_ifs
  · rfl
  · rfl
  · rfl
  · exact congrArg Except.ok (Item.emit_map hf wire position (.text text))

/-- Two ways to write nested structures that differ by a map of sinks. -/
def NestedMap (f : σ → τ) (enter : EncodeNested σ) (enter' : EncodeNested τ) : Prop :=
  ∀ stream words value path position,
    enter' stream words value path position = (enter stream words value path position).map f

variable {enter : EncodeNested σ} {enter' : EncodeNested τ}

theorem encodeLeaf_map (hf : SinkHom f) (he : NestedMap f enter enter') (walk : Walk)
    (stream : UInt32) (pc : Nat) (leaf : Leaf) (value : Value) (path : Path) (position : Nat) :
    encodeLeaf walk enter' stream pc leaf value path position =
      (encodeLeaf walk enter stream pc leaf value path position).map f := by
  unfold encodeLeaf
  dsimp only
  split
  · split_ifs
    · exact congrArg Except.ok (Item.emit_map hf walk.wire position _)
    · rfl
  · exact congrArg Except.ok (Item.emit_map hf walk.wire position _)
  · exact encodeText_map hf walk.wire _ _ path position
  · split
    · exact he _ _ _ _ _
    · rfl
  · rfl

theorem encodeElements_map (hf : SinkHom f) (he : NestedMap f enter enter') (walk : Walk)
    (stream : UInt32) (pc : Nat) (leaf : Leaf) (items : List Value) (path : Path)
    (position : Nat) :
    encodeElements walk enter' stream pc leaf items path position =
      (encodeElements walk enter stream pc leaf items path position).map f := by
  unfold encodeElements
  apply emitAll_map hf
  rintro ⟨item, i⟩ position
  unfold encodeElement
  split
  · rfl
  · exact encodeLeaf_map hf he walk stream pc leaf _ _ _

theorem encodeShape_map (hf : SinkHom f) (he : NestedMap f enter enter') (walk : Walk)
    (stream : UInt32) (pc : Nat) (shape : Shape) (value : Value) (path : Path) (position : Nat) :
    encodeShape walk enter' stream pc shape value path position =
      (encodeShape walk enter stream pc shape value path position).map f := by
  unfold encodeShape
  split
  · exact encodeLeaf_map hf he walk stream pc _ _ path position
  · rename_i leaf _ items
    split_ifs
    · rfl
    · simp only [Item.emit_map hf, hf.size, encodeElements_map hf he]
      cases encodeElements walk enter stream pc leaf items path
          (position + Sink.size (Item.emit (σ := σ) walk.wire position (.length items.length))) with
      | error error => rfl
      | ok body => exact congrArg Except.ok (hf.append _ body).symm
  · dsimp only
    split_ifs
    · rfl
    · exact encodeElements_map hf he walk stream pc _ _ path position
  · rfl

theorem encodeField_map (hf : SinkHom f) (he : NestedMap f enter enter') (walk : Walk)
    (stream : UInt32) (value : Value) (path : Path) (insn : Instruction) (position : Nat) :
    encodeField walk enter' stream value path insn position =
      (encodeField walk enter stream value path insn position).map f := by
  unfold encodeField
  dsimp only
  split
  · rfl
  · exact encodeShape_map hf he walk stream insn.pc insn.shape _ _ position

theorem encodeStruct_map (hf : SinkHom f) (walk : Walk) (fuel : Nat) :
    NestedMap f (encodeStruct walk fuel) (encodeStruct walk fuel) := by
  induction fuel with
  | zero => intro stream words value path position; rfl
  | succ fuel ih =>
      intro stream words value path position
      simp only [encodeStruct]
      rw [emitAll_map hf (encodeField_map hf ih walk stream value path)]
      cases emitAll (encodeField (σ := σ) walk (encodeStruct walk fuel) stream value path)
          (Scan.read stream words).instructions position with
      | error error => rfl
      | ok chunk =>
          simp only [Except.map, bind, Except.bind]
          cases (Scan.read stream words).ending <;> rfl

/-- The outcome for one sink is the image of the outcome for the other. -/
theorem encode_map (hf : SinkHom f) (walk : Walk) (value : Value) :
    encode (σ := τ) walk value = (encode (σ := σ) walk value).map f := by
  unfold encode
  cases walk.root with
  | error error => rfl
  | ok words => exact encodeStruct_map hf walk (maxNesting + 1) 0 words value .root 0

end Marshal
end TopicCodec
