import Mathlib.Data.List.Basic
import TopicCodec.Marshal
import TopicCodec.Proofs.Cursor
import TopicCodec.Proofs.Utf8
import TopicCodec.Proofs.Walk

/-!
# Failures point at the bytes

While a body is read the cursor stays at a place in it: what is left is what follows its offset.
So the offsets that a failure is given, which are reckoned beside the reads, are those of the bytes
that were read: of the length that was refused, of the byte that is no boolean, of the byte at
which a string stops being one.
-/
namespace TopicCodec

/-! ## What offsets mean -/

structure WireFormat.LengthAt (wire : WireFormat) (bytes : List UInt8) (offset length : Nat) :
    Prop where
  inside : offset + lengthWidth ≤ bytes.length
  value : wire.byteOrder.ofBytes ((bytes.drop offset).take lengthWidth) = length

structure WireFormat.StringAt (wire : WireFormat) (bytes : List UInt8) (offset : Nat)
    (content : List UInt8) : Prop where
  length : wire.LengthAt bytes offset content.length
  content : content <+: bytes.drop (offset + lengthWidth)

/-- What is said to be wrong with the bytes is so at the offset. Faults of a string lie in the
content of one: in its last byte, before its last byte, or where its longest front that is a text
ends. A body has no encapsulation, and so none that is unknown. -/
def EncodingFault.LiesAt (wire : WireFormat) (bytes : List UInt8) (offset : Nat) :
    EncodingFault → Prop
  | .nesting => offset ≤ bytes.length
  | .booleanByte byte => bytes[offset]? = some byte ∧ byte ≠ 0 ∧ byte ≠ 1
  | .unterminated => ∃ start content byte, wire.StringAt bytes start content ∧
      offset + 1 = start + lengthWidth + content.length ∧ bytes[offset]? = some byte ∧ byte ≠ 0
  | .interiorNul => ∃ start body i, wire.StringAt bytes start (body ++ [0]) ∧
      offset = start + lengthWidth + i ∧ i < body.length ∧ bytes[offset]? = some 0
  | .notUtf8 fault => ∃ start body, wire.StringAt bytes start (body ++ [0]) ∧
      offset = start + lengthWidth + fault.validUpTo ∧ Utf8.BreaksAt body fault.validUpTo
  | .unknownEncapsulation _ => False

/-- What a failure says of a body is so at the offset it names. Defects say nothing of it. -/
def CodecError.PointsInto (wire : WireFormat) (bytes : List UInt8) : CodecError → Prop
  | .configuration .. => True
  | .truncatedInput _ offset needed available =>
      offset + available = bytes.length ∧ available < needed
  | .malformedLength _ offset length _ => wire.LengthAt bytes offset length
  | .invalidEncoding _ offset fault => fault.LiesAt wire bytes offset
  | .aborted _ => False

/-! ## Places of the cursor -/

structure Cursor.Inside (bytes : List UInt8) (cursor : Cursor) : Prop where
  inside : cursor.offset ≤ bytes.length
  rest : cursor.rest = bytes.drop cursor.offset

namespace Cursor.Inside

variable {bytes : List UInt8} {cursor next : Cursor}

theorem start (bytes : List UInt8) : (Cursor.start bytes).Inside bytes := ⟨Nat.zero_le _, rfl⟩

theorem offset_add_remaining (h : cursor.Inside bytes) :
    cursor.offset + cursor.rest.length = bytes.length := by
  rw [h.rest, List.length_drop]
  exact Nat.add_sub_of_le h.inside

theorem drop_add {consumed rest : List UInt8} (h : cursor.Inside bytes)
    (hrest : cursor.rest = consumed ++ rest) :
    bytes.drop (cursor.offset + consumed.length) = rest := by
  rw [← List.drop_drop, ← h.rest, hrest, List.drop_left]

theorem step {consumed : List UInt8} (h : cursor.Inside bytes)
    (hrest : cursor.rest = consumed ++ next.rest)
    (hoffset : next.offset = cursor.offset + consumed.length) : next.Inside bytes where
  inside := by
    have hsum := h.offset_add_remaining
    rw [hrest, List.length_append] at hsum
    omega
  rest := by rw [hoffset, h.drop_add hrest]

end Cursor.Inside

namespace Marshal

variable {α β : Type} {wire : WireFormat} {bytes : List UInt8}

/-- The outcome of a read of the bytes: it leaves the cursor inside or points into them. -/
structure Locates (wire : WireFormat) (bytes : List UInt8)
    (outcome : Except CodecError (α × Reading)) : Prop where
  ok : ∀ value reading, outcome = .ok (value, reading) → reading.cursor.Inside bytes
  error : ∀ error, outcome = .error error → error.PointsInto wire bytes

namespace Locates

variable {x : Except CodecError (α × Reading)}

theorem done {cursor : Cursor} {known : MinSizes} (h : cursor.Inside bytes) (value : α) :
    Locates wire bytes (.ok (value, ⟨cursor, known⟩)) where
  ok _ _ ho := by
    cases ho
    exact h
  error _ he := by cases he

theorem fail {error : CodecError} (h : error.PointsInto wire bytes) :
    Locates wire bytes (.error error : Except CodecError (α × Reading)) where
  ok _ _ ho := by cases ho
  error _ he := by
    cases he
    exact h

theorem bind {f : α × Reading → Except CodecError (β × Reading)} (hx : Locates wire bytes x)
    (hf : ∀ value reading, x = .ok (value, reading) → reading.cursor.Inside bytes →
      Locates wire bytes (f (value, reading))) : Locates wire bytes (x >>= f) := by
  cases x with
  | error error => exact fail (hx.error error rfl)
  | ok found => exact hf found.1 found.2 rfl (hx.ok found.1 found.2 rfl)

theorem refuse {c : Prop} [Decidable c] {error : CodecError}
    {f : β → Except CodecError (α × Reading)} (he : c → error.PointsInto wire bytes)
    (hx : Locates wire bytes x) :
    Locates wire bytes (if c then Except.error error >>= f else x) := by
  split_ifs with h
  · exact fail (he h)
  · exact hx

theorem check {γ : Type} {c : Except CodecError γ} {f : γ → Except CodecError (α × Reading)}
    (hc : ∀ error, c = .error error → error.PointsInto wire bytes)
    (hf : ∀ value, c = .ok value → Locates wire bytes (f value)) :
    Locates wire bytes (c >>= f) := by
  cases c with
  | error error => exact fail (hc error rfl)
  | ok value => exact hf value rfl

end Locates

/-! ## Reads -/

theorem read_locates {read : Cursor → Except Shortfall α × Cursor} (hread : Cursor.Steps read)
    {reading : Reading} (h : reading.cursor.Inside bytes) (path : Path) :
    Locates wire bytes (reading.read path read) where
  ok value after hok := by
    obtain ⟨consumed, hrest, hoffset⟩ := hread.ok (Reading.read_eq_ok.mp hok).1
    exact h.step hrest hoffset
  error error he := by
    unfold Reading.read at he
    split at he
    · cases he
    · rename_i short next hshort
      cases he
      obtain ⟨hend, hneeded⟩ := hread.error hshort
      exact ⟨hend.trans h.offset_add_remaining, hneeded⟩

theorem lengthAt_of_read {reading after : Reading} {path : Path} {length : Nat}
    (h : reading.cursor.Inside bytes)
    (hread : reading.read path (Cursor.length wire) = .ok (length, after)) :
    wire.LengthAt bytes (reading.cursor.offset + reading.cursor.padding wire lengthWidth) length ∧
      after.cursor.offset =
        reading.cursor.offset + reading.cursor.padding wire lengthWidth + lengthWidth := by
  obtain ⟨skipped, digits, hrest, hskipped, hdigits, hlength, hoffset⟩ :=
    Cursor.number_eq_ok.mp (Reading.read_eq_ok.mp hread).1
  have hdrop : bytes.drop (reading.cursor.offset + reading.cursor.padding wire lengthWidth) =
      digits ++ after.cursor.rest := by
    rw [Cursor.padding, ← hskipped]
    exact h.drop_add (by rw [hrest, List.append_assoc])
  refine ⟨⟨?_, ?_⟩, hoffset⟩
  · have hsum := congrArg List.length hdrop
    rw [List.length_drop, List.length_append, hdigits] at hsum
    have hwidth : 0 < lengthWidth := by decide
    omega
  · rw [hdrop, ← hdigits, List.take_left, hlength]

theorem getElem?_of_stringAt {start i : Nat} {content : List UInt8} {byte : UInt8}
    (h : wire.StringAt bytes start content) (hi : content[i]? = some byte) :
    bytes[start + lengthWidth + i]? = some byte := by
  obtain ⟨rest, hrest⟩ := h.content
  rw [← List.getElem?_drop, ← hrest, List.getElem?_append_left, hi]
  exact (List.getElem?_eq_some_iff.mp hi).1

theorem checkTextLength_points {bound : Option UInt32} {length offset : Nat} {path : Path}
    (h : wire.LengthAt bytes offset length) {error : CodecError}
    (he : checkTextLength wire bound length path offset = .error error) :
    error.PointsInto wire bytes := by
  unfold checkTextLength at he
  split_ifs at he
  all_goals
    cases he
    exact h

theorem checkText_points {content : List UInt8} {start : Nat} {path : Path}
    (h : wire.StringAt bytes start content) (hne : content ≠ []) {error : CodecError}
    (he : checkText content path (start + lengthWidth) = .error error) :
    error.PointsInto wire bytes := by
  unfold checkText at he
  dsimp only at he
  have hsplit := List.dropLast_append_getLast hne
  split_ifs at he with hlast
  · cases he
    refine ⟨start, content, content.getLast hne, h, ?_, ?_, ?_⟩
    · have hsum := congrArg List.length hsplit
      rw [List.length_append, List.length_singleton] at hsum
      omega
    · apply getElem?_of_stringAt h
      rw [List.length_dropLast, ← List.getLast?_eq_getElem?, List.getLast?_eq_some_getLast hne]
    · rwa [List.getLast?_eq_some_getLast hne, ne_eq, Option.some.injEq] at hlast
  · have hbody : content.dropLast ++ [0] = content := by
      rw [List.getLast?_eq_some_getLast hne, ne_eq, Option.some.injEq, not_not] at hlast
      rwa [hlast] at hsplit
    split at he
    · rename_i i hfound
      cases he
      obtain ⟨hlt, hzero, _⟩ := List.findIdx?_eq_some_iff_getElem.mp hfound
      refine ⟨start, content.dropLast, i, by rwa [hbody], rfl, hlt, getElem?_of_stringAt h ?_⟩
      rw [← hbody, List.getElem?_append_left hlt, List.getElem?_eq_getElem hlt, beq_iff_eq.mp hzero]
    · split at he
      · cases he
      · rename_i fault hfault
        cases he
        exact ⟨start, content.dropLast, by rwa [hbody], rfl,
          Utf8.breaksAt_of_decode_eq_error hfault⟩

theorem decodeText_locates {reading : Reading} (h : reading.cursor.Inside bytes)
    (bound : Option UInt32) (path : Path) :
    Locates wire bytes (decodeText wire bound path reading) := by
  refine (read_locates (Cursor.number_steps wire lengthWidth) h path).bind
    fun length middle hlength hmiddle => ?_
  obtain ⟨hat, hoffset⟩ := lengthAt_of_read h hlength
  refine Locates.check (fun _ he => checkTextLength_points hat he) fun _ hok => ?_
  refine (read_locates (Cursor.take_steps length) hmiddle path).bind
    fun content after hcontent hafter => ?_
  obtain ⟨hrest, hcount, _⟩ := Cursor.take_eq_ok.mp (Reading.read_eq_ok.mp hcontent).1
  have hstring : wire.StringAt bytes
      (reading.cursor.offset + reading.cursor.padding wire lengthWidth) content := by
    refine ⟨by rwa [hcount], ?_⟩
    rw [← hoffset, ← hmiddle.rest, hrest]
    exact List.prefix_append _ _
  have hne : content ≠ [] := by
    rw [← List.length_pos_iff, hcount]
    exact Nat.pos_of_ne_zero (checkTextLength_eq_ok.mp hok).1
  exact Locates.check (fun _ he => checkText_points hstring hne he) fun text _ => .done hafter text

theorem decodeBool_locates {reading : Reading} (h : reading.cursor.Inside bytes) (path : Path) :
    Locates wire bytes (decodeBool path reading) := by
  refine (read_locates (Cursor.take_steps 1) h path).bind fun found after hfound hafter => ?_
  obtain ⟨hrest, hcount, _⟩ := Cursor.take_eq_ok.mp (Reading.read_eq_ok.mp hfound).1
  obtain ⟨byte, rfl⟩ := List.length_eq_one_iff.mp hcount
  dsimp only
  split
  · exact .done hafter _
  · exact .done hafter _
  · rename_i hzero hone
    have hbyte : bytes[reading.cursor.offset]? = some byte := by
      rw [← Nat.add_zero reading.cursor.offset, ← List.getElem?_drop, ← h.rest, hrest]
      rfl
    have hne₀ : byte ≠ 0 := fun hb => hzero (by rw [hb])
    have hne₁ : byte ≠ 1 := fun hb => hone (by rw [hb])
    exact .fail ⟨hbyte, hne₀, hne₁⟩

variable {walk : DecodeWalk}

theorem decodeCount_locates {reading : Reading} (h : reading.cursor.Inside bytes) (leaf : Leaf)
    (path : Path) : Locates walk.wire bytes (decodeCount walk leaf path reading) := by
  refine (read_locates (Cursor.number_steps walk.wire lengthWidth) h path).bind
    fun count after hcount hafter => ?_
  refine .refuse (fun _ => (lengthAt_of_read h hcount).1) (.refuse (fun hroom => ?_) ?_)
  · rw [Bool.and_eq_true, decide_eq_true_eq] at hroom
    exact ⟨hafter.offset_add_remaining, hroom.2⟩
  · exact .done hafter count

theorem readAll_locates {read : α → Reading → Except CodecError (β × Reading)}
    (hread : ∀ item reading, reading.cursor.Inside bytes → Locates wire bytes (read item reading))
    (items : List α) {reading : Reading} (h : reading.cursor.Inside bytes) :
    Locates wire bytes (readAll read items reading) := by
  induction items generalizing reading with
  | nil => exact .done h _
  | cons first rest ih =>
      refine (hread first reading h).bind fun value middle _ hmiddle => ?_
      exact (ih hmiddle).bind fun values after _ hafter => .done hafter _

/-! ## Structures -/

variable {enter : DecodeNested}

/-- Structures are read so that failures point into the bytes. -/
def LocatesNested (wire : WireFormat) (bytes : List UInt8) (enter : DecodeNested) : Prop :=
  ∀ target words value path reading, reading.cursor.Inside bytes →
    Locates wire bytes (enter target words value path reading)

theorem decodeLeaf_locates (he : LocatesNested walk.wire bytes enter) {reading : Reading}
    (h : reading.cursor.Inside bytes) (stream : UInt32) (pc : Nat) (leaf : Leaf) (value : Value)
    (path : Path) :
    Locates walk.wire bytes (decodeLeaf walk enter stream pc leaf value path reading) := by
  unfold decodeLeaf
  dsimp only
  split
  · split_ifs
    · exact (read_locates (Cursor.scalar_steps walk.wire _) h path).bind
        fun bits after _ hafter => .done hafter _
    · exact .fail trivial
  · exact (decodeBool_locates h path).bind fun flag after _ hafter => .done hafter _
  · exact (decodeText_locates h _ path).bind fun text after _ hafter => .done hafter _
  · unfold Walk.nested
    cases walk.desc.program.stream? _ with
    | none => exact .fail trivial
    | some words => exact he _ words _ path reading h
  · exact .fail trivial

theorem decodeElements_locates (he : LocatesNested walk.wire bytes enter) {reading : Reading}
    (h : reading.cursor.Inside bytes) (stream : UInt32) (pc : Nat) (leaf : Leaf)
    (items : List Value) (path : Path) :
    Locates walk.wire bytes (decodeElements walk enter stream pc leaf items path reading) := by
  unfold decodeElements
  refine readAll_locates (fun place reading h => ?_) _ h
  unfold decodeElement
  split
  · exact .fail trivial
  · exact decodeLeaf_locates he h stream pc leaf _ _

theorem decodeShape_locates (he : LocatesNested walk.wire bytes enter) {reading : Reading}
    (h : reading.cursor.Inside bytes) (stream : UInt32) (pc : Nat) (shape : Shape) (value : Value)
    (path : Path) :
    Locates walk.wire bytes (decodeShape walk enter stream pc shape value path reading) := by
  unfold decodeShape
  split
  · exact decodeLeaf_locates he h stream pc _ _ path
  · rename_i leaf supply items
    refine (decodeCount_locates h leaf path).bind fun count middle _ hmiddle => ?_
    refine Locates.check (fun error herror => ?_) fun grown _ => ?_
    · cases hresize : supply.resize items count with
      | ok grown =>
          rw [hresize] at herror
          cases herror
      | error defect =>
          rw [hresize] at herror
          cases herror
          trivial
    · exact (decodeElements_locates he hmiddle stream pc leaf grown.2 path).bind
        fun items after _ hafter => .done hafter _
  · dsimp only
    split_ifs
    · exact .fail trivial
    · exact (decodeElements_locates he h stream pc _ _ path).bind
        fun elements after _ hafter => .done hafter _
  · exact .fail trivial

theorem decodeField_locates (he : LocatesNested walk.wire bytes enter) {reading : Reading}
    (h : reading.cursor.Inside bytes) (stream : UInt32) (path : Path) (insn : Instruction)
    (value : Value) :
    Locates walk.wire bytes (decodeField walk enter stream path insn value reading) := by
  unfold decodeField
  dsimp only
  split
  · exact .fail trivial
  · exact (decodeShape_locates he h stream insn.pc insn.shape _ _).bind
      fun found after _ hafter => .done hafter _

theorem decodeFields_locates (he : LocatesNested walk.wire bytes enter) (stream : UInt32)
    (path : Path) (insns : List Instruction) (value : Value) {reading : Reading}
    (h : reading.cursor.Inside bytes) :
    Locates walk.wire bytes
      (decodeFields (decodeField walk enter stream path) insns value reading) := by
  induction insns generalizing value reading with
  | nil => exact .done h value
  | cons insn rest ih =>
      exact (decodeField_locates he h stream path insn value).bind
        fun next middle _ hmiddle => ih next hmiddle

theorem decodeStruct_locates (fuel : Nat) :
    LocatesNested walk.wire bytes (decodeStruct walk fuel) := by
  induction fuel with
  | zero => exact fun target words value path reading h => .fail h.inside
  | succ fuel ih =>
      intro target words value path reading h
      refine (decodeFields_locates ih target path _ value h).bind fun found after _ hafter => ?_
      dsimp only
      split
      · exact .done hafter found
      · exact .fail trivial

theorem decode_locates (walk : DecodeWalk) (value : Value) (bytes : List UInt8) :
    Locates walk.wire bytes (decode walk value bytes) := by
  refine Locates.check (fun error herror => ?_) fun words _ => ?_
  · unfold Walk.root at herror
    split at herror
    · cases herror
    · cases herror
      trivial
  · exact decodeStruct_locates (maxNesting + 1) 0 words value .root _ (.start bytes)

end Marshal

namespace WireFormat

open Marshal

/-- Failures of decoding point at the bytes they are about, whatever the descriptor, the wire
format and the instance that is overwritten: a refused length stands at the offset, in the byte
order of the wire format; so does a byte that is no boolean, the byte where a terminator is
missing, the zero byte inside a string, or the first byte behind the longest front of a string that
is a text. -/
theorem deserialize_error_points_into {wire : WireFormat} {desc : Descriptor} {bytes : List UInt8}
    {error : CodecError}
    (h : wire.deserialize desc bytes = .error error ∨
      ∃ value, wire.deserializeInto desc value bytes = .error error) :
    error.PointsInto wire bytes := by
  have hinto (value : Value) (hvalue : wire.deserializeInto desc value bytes = .error error) :
      error.PointsInto wire bytes := by
    unfold deserializeInto at hvalue
    obtain hdecode | ⟨_, _, hpure⟩ := bind_eq_error hvalue
    · exact (decode_locates { desc, wire } value bytes).error error hdecode
    · cases hpure
  obtain hnew | ⟨value, hvalue⟩ := h
  · unfold deserialize at hnew
    obtain hdefault | ⟨value, _, hvalue⟩ := bind_eq_error hnew
    · cases hmade : desc.program.default 0 with
      | ok value =>
          rw [hmade] at hdefault
          cases hdefault
      | error defect =>
          rw [hmade] at hdefault
          cases hdefault
          trivial
    · exact hinto value hvalue
  · exact hinto value hvalue

/-- A flag and a text. -/
def memo : Descriptor where
  typeName := "Memo"
  program := ⟨[Stream.assemble [(0, .single .bool, true), (1, .single (.string none), false)]]⟩

/-- Three bytes of padding, a length and a character of two bytes stand before the fault, and the
byte at the fault could begin a character, but the one behind it does not continue it. -/
theorem deserialize_memo_points_into :
    littleEndian.deserialize memo
        [1, 0, 0, 0, 5, 0, 0, 0, 0xC3, 0xA9, 0xE2, 0x28, 0] =
      .error (.invalidEncoding (.field .root 1) 10 (.notUtf8 ⟨2, some 1⟩)) ∧
    EncodingFault.LiesAt littleEndian [1, 0, 0, 0, 5, 0, 0, 0, 0xC3, 0xA9, 0xE2, 0x28, 0] 10
      (.notUtf8 ⟨2, some 1⟩) := by
  have h : littleEndian.deserialize memo
        [1, 0, 0, 0, 5, 0, 0, 0, 0xC3, 0xA9, 0xE2, 0x28, 0] =
      .error (.invalidEncoding (.field .root 1) 10 (.notUtf8 ⟨2, some 1⟩)) := by
    with_unfolding_all rfl
  exact ⟨h, deserialize_error_points_into (.inl h)⟩

end WireFormat
end TopicCodec
