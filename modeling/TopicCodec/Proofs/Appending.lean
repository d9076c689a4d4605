import TopicCodec.Marshal
import TopicCodec.Proofs.Walk

/-!
# Appending to a buffer

An instance is written to the end of a buffer item by item, and the walk may fail after any
number of them. `AppendsAt` says that such an action does what an encoder says that starts
at the same position: it adds the chunk that the encoder gives, or it fails with the error
of the encoder and may have added something. Either way nothing that was in the buffer
before is touched, so cutting a failed buffer to its old length restores it, and the
position of the encoder is all that the outcome depends on, not the length of the buffer.
-/
namespace TopicCodec

namespace Marshal

/-! ## One action -/

inductive Appended (writer : Writer (List UInt8)) :
    Except CodecError (List UInt8) → Except CodecError Unit × Writer (List UInt8) → Prop
  | written (chunk : List UInt8) :
      Appended writer (.ok chunk) (.ok (), { writer with sink := writer.sink ++ chunk })
  | refused (error : CodecError) (part : List UInt8) :
      Appended writer (.error error) (.error error, { writer with sink := writer.sink ++ part })

/-- From a body of `position` bytes on, wherever it starts in the buffer, the action does what an
encoder with this outcome says. -/
def AppendsAt (position : Nat) (action : Write Unit)
    (outcome : Except CodecError (List UInt8)) : Prop :=
  ∀ writer, writer.base + position = writer.sink.length →
    Appended writer outcome (action.run.run writer)

namespace AppendsAt

variable {position : Nat} {outcome : Except CodecError (List UInt8)}

theorem writer_position {writer : Writer (List UInt8)}
    (h : writer.base + position = writer.sink.length) : writer.position = position := by
  change writer.sink.length - writer.base = position
  omega

theorem put (wire : WireFormat) (item : Item) (position : Nat) :
    AppendsAt position (Write.put wire item) (.ok (item.emit wire position)) := by
  intro writer hw
  rw [← writer_position hw]
  exact .written (item.emit wire writer.position)

theorem throw (error : CodecError) (position : Nat) :
    AppendsAt position (throw error) (.error error) := by
  intro writer _
  have h := @Appended.refused writer error []
  rw [List.append_nil] at h
  exact h

theorem nothing (position : Nat) : AppendsAt position (pure ()) (.ok []) := by
  intro writer _
  have h := @Appended.written writer []
  rw [List.append_nil] at h
  exact h

theorem asking {action : Nat → Write Unit} (h : AppendsAt position (action position) outcome) :
    AppendsAt position (Write.position >>= action) outcome := by
  intro writer hw
  have hrun : (Write.position >>= action).run.run writer =
      (action writer.position).run.run writer := run_bind_ok rfl
  rw [hrun, writer_position hw]
  exact h writer hw

theorem andThen {first second : Write Unit} {next : List UInt8 → Except CodecError (List UInt8)}
    (h : AppendsAt position first outcome)
    (h' : ∀ chunk, outcome = .ok chunk → AppendsAt (position + chunk.length) second (next chunk)) :
    AppendsAt position (first >>= fun _ => second)
      (outcome >>= fun chunk => next chunk >>= fun tail => .ok (chunk ++ tail)) := by
  intro writer hw
  have hfirst := h writer hw
  generalize hleft : first.run.run writer = left at hfirst
  cases hfirst with
  | refused error part =>
      rw [run_bind_error hleft]
      exact .refused error part
  | written chunk =>
      rw [run_bind_ok hleft]
      have hlength : writer.base + (position + chunk.length) = (writer.sink ++ chunk).length := by
        rw [List.length_append]
        omega
      have hsecond := h' chunk rfl { writer with sink := writer.sink ++ chunk } hlength
      change Appended writer (next chunk >>= fun tail => .ok (chunk ++ tail)) _
      generalize next chunk = outcome at hsecond
      generalize second.run.run { writer with sink := writer.sink ++ chunk } = left at hsecond
      cases hsecond with
      | refused error part =>
          rw [List.append_assoc]
          exact .refused error (chunk ++ part)
      | written tail =>
          rw [List.append_assoc]
          exact .written (chunk ++ tail)

theorem forM {α : Type} {action : α → Write Unit}
    {emit : α → Nat → Except CodecError (List UInt8)}
    (h : ∀ item position, AppendsAt position (action item) (emit item position))
    (items : List α) (position : Nat) :
    AppendsAt position (items.forM action) (emitAll emit items position) := by
  induction items generalizing position with
  | nil => exact .nothing position
  | cons item rest ih =>
      change AppendsAt position (action item >>= fun _ => rest.forM action) _
      exact (h item position).andThen fun chunk _ => ih (position + chunk.length)

end AppendsAt

/-! ## The walk -/

/-- Two ways to write nested structures, to a buffer and as a chunk, agree. -/
def NestedAppends (enter : WriteNested) (enter' : EncodeNested (List UInt8)) : Prop :=
  ∀ stream words value path position,
    AppendsAt position (enter stream words value path) (enter' stream words value path position)

section Walk

variable {walk : Walk} {enter : WriteNested} {enter' : EncodeNested (List UInt8)}

theorem writeText_appends (wire : WireFormat) (bound : Option UInt32) (text : String)
    (path : Path) (position : Nat) :
    AppendsAt position (writeText wire bound text path)
      (encodeText wire bound text path position) := by
  refine .asking ?_
  unfold encodeText
  dsimp only
  split_ifs
  · exact .throw _ position
  · exact .throw _ position
  · exact .throw _ position
  · exact .put wire (.text text) position

theorem writeLeaf_appends (he : NestedAppends enter enter') (stream : UInt32) (pc : Nat)
    (leaf : Leaf) (value : Value) (path : Path) (position : Nat) :
    AppendsAt position (writeLeaf walk enter stream pc leaf value path)
      (encodeLeaf walk enter' stream pc leaf value path position) := by
  cases leaf with
  | number kind =>
      cases value with
      | scalar value =>
          cases value with
          | number found bits =>
              simp only [writeLeaf, encodeLeaf]
              split_ifs
              · exact .put walk.wire _ position
              · exact .throw _ position
          | bool flag => exact .throw _ position
      | _ => exact .throw _ position
  | bool =>
      cases value with
      | scalar value =>
          cases value with
          | number found bits => exact .throw _ position
          | bool flag => exact .put walk.wire _ position
      | _ => exact .throw _ position
  | string bound =>
      cases value with
      | text text => exact writeText_appends walk.wire bound text path position
      | _ => exact .throw _ position
  | struct target =>
      cases value with
      | struct fields =>
          simp only [writeLeaf, encodeLeaf]
          cases walk.nested stream pc target with
          | ok words => exact he target words _ path position
          | error error => exact .throw error position
      | _ => exact .throw _ position

theorem writeElements_appends (he : NestedAppends enter enter') (stream : UInt32) (pc : Nat)
    (leaf : Leaf) (items : List Value) (path : Path) (position : Nat) :
    AppendsAt position (writeElements walk enter stream pc leaf items path)
      (encodeElements walk enter' stream pc leaf items path position) := by
  refine .forM (fun place position => ?_) items.zipIdx position
  obtain ⟨item, i⟩ := place
  cases item with
  | absent => exact .throw _ position
  | _ => exact writeLeaf_appends he stream pc leaf _ (path.element i) position

theorem writeShape_appends (he : NestedAppends enter enter') (stream : UInt32) (pc : Nat)
    (shape : Shape) (value : Value) (path : Path) (position : Nat) :
    AppendsAt position (writeShape walk enter stream pc shape value path)
      (encodeShape walk enter' stream pc shape value path position) := by
  cases shape with
  | single leaf => exact writeLeaf_appends he stream pc leaf value path position
  | sequence leaf =>
      cases value with
      | sequence supply items =>
          refine .asking ?_
          simp only [encodeShape]
          split_ifs
          · exact .throw _ position
          · exact (AppendsAt.put walk.wire (.length items.length) position).andThen fun chunk _ =>
              writeElements_appends he stream pc leaf items path (position + chunk.length)
      | _ => exact .throw _ position
  | array leaf count =>
      cases value with
      | array items =>
          simp only [writeShape, encodeShape]
          split_ifs
          · exact .throw _ position
          · exact writeElements_appends he stream pc leaf _ path position
      | _ => exact .throw _ position

theorem writeField_appends (he : NestedAppends enter enter') (stream : UInt32) (value : Value)
    (path : Path) (insn : Instruction) (position : Nat) :
    AppendsAt position (writeField walk enter stream value path insn)
      (encodeField walk enter' stream value path insn position) := by
  unfold writeField encodeField
  dsimp only
  cases value.field? insn.field with
  | none => exact .throw _ position
  | some found => exact writeShape_appends he stream insn.pc insn.shape found _ position

theorem writeStruct_appends (walk : Walk) (fuel : Nat) :
    NestedAppends (writeStruct walk fuel) (encodeStruct walk fuel) := by
  induction fuel with
  | zero =>
      intro stream words value path position
      exact .asking (.throw _ position)
  | succ fuel ih =>
      intro stream words value path position
      have hfields : AppendsAt position
          ((Scan.read stream words).instructions.forM
            (writeField walk (writeStruct walk fuel) stream value path))
          (emitAll (encodeField walk (encodeStruct walk fuel) stream value path)
            (Scan.read stream words).instructions position) :=
        .forM (writeField_appends ih stream value path) _ position
      simp only [writeStruct, encodeStruct]
      cases (Scan.read stream words).ending with
      | ok pc => simpa using hfields
      | error defect =>
          exact hfields.andThen fun chunk _ => .throw (walk.defect defect) (position + chunk.length)

theorem write_appends (walk : Walk) (value : Value) :
    AppendsAt 0 (write walk value) (encode walk value) := by
  unfold write encode
  cases walk.root with
  | error error => exact .throw error 0
  | ok words => exact writeStruct_appends walk (maxNesting + 1) 0 words value .root 0

end Walk
end Marshal

namespace WireFormat

open Marshal

/-- Writing to a buffer adds the encoded instance, or nothing. -/
theorem serializeInto_cases (wire : WireFormat) (desc : Descriptor) (value : Value)
    (out : List UInt8) :
    (∃ bytes, wire.serialize desc value = .ok bytes ∧
      wire.serializeInto desc value out = (.ok (), out ++ bytes)) ∨
    ∃ error, wire.serialize desc value = .error error ∧
      wire.serializeInto desc value out = (.error error, out) := by
  have h := write_appends ⟨desc, wire⟩ value (.start out) rfl
  unfold serialize serializeInto
  generalize encode (σ := List UInt8) ⟨desc, wire⟩ value = outcome at h ⊢
  generalize (write ⟨desc, wire⟩ value).run.run (.start out) = left at h ⊢
  cases h with
  | written chunk => exact .inl ⟨chunk, rfl, rfl⟩
  | refused error part => exact .inr ⟨error, rfl, congrArg (_, ·) (List.take_left' rfl)⟩

/-- Appending does not depend on what is there, and is all or nothing. Writing an instance to the
end of a buffer, of any length, succeeds exactly if the instance can be encoded, and then the
encoded instance stands behind what the buffer held, with padding counted from there; otherwise it
fails with the same error, whichever field it is at, and the buffer is as it was. -/
theorem serializeInto_iff (wire : WireFormat) (desc : Descriptor) (value : Value)
    (out : List UInt8) :
    (∀ bytes, wire.serialize desc value = .ok bytes ↔
      wire.serializeInto desc value out = (.ok (), out ++ bytes)) ∧
    ∀ error, wire.serialize desc value = .error error ↔
      wire.serializeInto desc value out = (.error error, out) := by
  rcases serializeInto_cases wire desc value out with ⟨bytes, hs, hi⟩ | ⟨error, hs, hi⟩
  · simp [hs, hi]
  · simp [hs, hi]

end WireFormat
end TopicCodec
