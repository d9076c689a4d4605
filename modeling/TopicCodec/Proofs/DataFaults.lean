import TopicCodec.Proofs.ValueLimit

/-!
# Decoding blames the data

A decoder that starts on a sample of its program finds every field that an instruction asks for,
of the kind it asks for, and what it has read so far leaves the sample a sample. So whatever the
bytes are, a failure is one of the data. The one exception is a sequence whose elements take more
values than a default may have: it cannot grow, which is a defect of the program.
-/
namespace TopicCodec

open Relation

namespace Program

/-- Structures of one stream have a field with structures of another, alone or in a collection. -/
def RefersTo (program : Program) (id target : UInt32) : Prop :=
  ∃ words insn, program.stream? id = some words ∧
    insn ∈ (Scan.read id words).instructions ∧ insn.leaf = .struct target

/-- A structure that the root leads to has a field with a sequence of this leaf. -/
def HasSequence (program : Program) (leaf : Leaf) : Prop :=
  ∃ id words insn, ReflTransGen program.RefersTo 0 id ∧ program.stream? id = some words ∧
    insn ∈ (Scan.read id words).instructions ∧ insn.shape = .sequence leaf

/-- A sequence of the program cannot grow, since its elements take too many values. -/
structure Outgrown (program : Program) (leaf : Leaf) (defect : Defect) : Prop where
  isArray : ∃ id pc count, defect = .arrayTooLarge id pc count maxDefaultValues
  sequence : program.HasSequence leaf
  refused : program.defaultElement leaf = .error defect
  demand : maxDefaultValues < program.elementDemand leaf

end Program

namespace Marshal

/-- The outcome is no failure, a failure of the data, or that a sequence cannot grow. -/
def BlamesData {α : Type} (walk : Walk) (outcome : Except CodecError α) : Prop :=
  ∀ error, outcome = .error error → error.isRecoverable = true ∨
    ∃ leaf defect, error = walk.defect defect ∧ walk.desc.program.Outgrown leaf defect

namespace BlamesData

variable {α β : Type} {walk : Walk} {x : Except CodecError α}

theorem ok (a : α) : BlamesData walk (.ok a) := fun _ h => by cases h

theorem error {error : CodecError} (h : error.isRecoverable = true) :
    BlamesData walk (.error error : Except CodecError α) := by
  intro other ho
  cases ho
  exact .inl h

theorem bind {f : α → Except CodecError β} (hx : BlamesData walk x)
    (hf : ∀ a, x = .ok a → BlamesData walk (f a)) : BlamesData walk (x >>= f) := by
  cases x with
  | error error => exact fun other ho => hx other (by cases ho; rfl)
  | ok a => exact hf a rfl

theorem check {c : Prop} [Decidable c] {error : CodecError} {f : β → Except CodecError α}
    (he : error.isRecoverable = true) (hx : BlamesData walk x) :
    BlamesData walk (if c then Except.error error >>= f else x) := by
  split_ifs
  · exact .error he
  · exact hx

end BlamesData

variable {walk : DecodeWalk}

/-! ## Reading -/

theorem read_blamesData {α : Type} (reading : Reading) (path : Path)
    (read : Cursor → Except Shortfall α × Cursor) :
    BlamesData walk.toWalk (reading.read path read) := by
  unfold Reading.read
  split
  · exact .ok _
  · exact .error rfl

theorem decodeText_blamesData (wire : WireFormat) (bound : Option UInt32) (path : Path)
    (reading : Reading) : BlamesData walk.toWalk (decodeText wire bound path reading) := by
  have hlength (length offset : Nat) :
      BlamesData walk.toWalk (checkTextLength wire bound length path offset) := by
    unfold checkTextLength
    split_ifs <;> first | exact .error rfl | exact .ok _
  have htext (bytes : List UInt8) (start : Nat) :
      BlamesData walk.toWalk (checkText bytes path start) := by
    unfold checkText
    dsimp only
    repeat' split
    all_goals first | exact .error rfl | exact .ok _
  unfold decodeText
  refine (read_blamesData _ _ _).bind fun found _ => (hlength _ _).bind fun _ _ => ?_
  exact (read_blamesData _ _ _).bind fun bytes _ => (htext _ _).bind fun text _ => .ok _

theorem decodeBool_blamesData (path : Path) (reading : Reading) :
    BlamesData walk.toWalk (decodeBool path reading) := by
  unfold decodeBool
  refine (read_blamesData _ _ _).bind fun found _ => ?_
  dsimp only
  split
  · exact .ok _
  · exact .ok _
  · exact .error rfl

theorem decodeCount_blamesData (leaf : Leaf) (path : Path) (reading : Reading) :
    BlamesData walk.toWalk (decodeCount walk leaf path reading) := by
  unfold decodeCount
  refine (read_blamesData _ _ _).bind fun found _ => ?_
  exact .check rfl (.check rfl (.ok _))

theorem readAll_blamesData {α β : Type} {read : α → Reading → Except CodecError (β × Reading)}
    {items : List α}
    (h : ∀ item ∈ items, ∀ reading, BlamesData walk.toWalk (read item reading))
    (reading : Reading) : BlamesData walk.toWalk (readAll read items reading) := by
  induction items generalizing reading with
  | nil => exact .ok _
  | cons first rest ih =>
      refine (h first List.mem_cons_self reading).bind fun found _ => ?_
      have hrest := ih (fun item hi => h item (List.mem_cons_of_mem _ hi)) found.2
      exact hrest.bind fun values _ => .ok _

/-! ## Reading into samples -/

variable {enter : DecodeNested}

/-- Structures that the root leads to are read without blame. -/
def BlamesNested (walk : DecodeWalk) (enter : DecodeNested) : Prop :=
  ∀ target words value path reading, ReflTransGen walk.desc.program.RefersTo 0 target →
    walk.desc.program.stream? target = some words →
    Shaped walk.desc.program (.single (.struct target)) value →
    BlamesData walk.toWalk (enter target words value path reading)

theorem decodeLeaf_blamesData (he : BlamesNested walk enter) {leaf : Leaf} {value : Value}
    (hs : Shaped walk.desc.program (.single leaf) value)
    (ht : ∀ target, leaf = .struct target → ReflTransGen walk.desc.program.RefersTo 0 target)
    (stream : UInt32) (pc : Nat) (path : Path) (reading : Reading) :
    BlamesData walk.toWalk (decodeLeaf walk enter stream pc leaf value path reading) := by
  cases id hs with
  | number kind bits =>
      simp only [decodeLeaf, if_true]
      exact (read_blamesData _ _ _).bind fun found _ => .ok _
  | bool flag => exact (decodeBool_blamesData path reading).bind fun found _ => .ok _
  | text bound text =>
      exact (decodeText_blamesData walk.wire bound path reading).bind fun found _ => .ok _
  | @struct target words fields hw ha hf =>
      simp only [decodeLeaf, Walk.nested, hw]
      exact he target words _ path reading (ht target rfl) hw hs

theorem decodeElements_blamesData (he : BlamesNested walk enter) {leaf : Leaf}
    {items : List Value} (hs : ∀ item ∈ items, Shaped walk.desc.program (.single leaf) item)
    (ht : ∀ target, leaf = .struct target → ReflTransGen walk.desc.program.RefersTo 0 target)
    (stream : UInt32) (pc : Nat) (path : Path) (reading : Reading) :
    BlamesData walk.toWalk (decodeElements walk enter stream pc leaf items path reading) := by
  unfold decodeElements
  apply readAll_blamesData
  intro place hm reading
  obtain ⟨item, i⟩ := place
  have hitem := hs item (List.fst_mem_of_mem_zipIdx hm)
  have hpresent : decodeElement walk enter stream pc leaf path (item, i) reading =
      decodeLeaf walk enter stream pc leaf item (path.element i) reading := by
    cases hitem <;> rfl
  rw [hpresent]
  exact decodeLeaf_blamesData he hitem ht stream pc (path.element i) reading

/-- Growing a sequence fails only if an element takes too many values. -/
theorem resize_blamesData (hv : walk.desc.program.validate = .ok ()) {leaf : Leaf}
    (hseq : walk.desc.program.HasSequence leaf) (items : List Value) (length : Nat) :
    BlamesData walk.toWalk
      (((Supply.leaf walk.desc.program leaf).resize items length).mapError walk.defect) := by
  have htarget : ∀ target, leaf = .struct target → target.toNat < walk.desc.program.length := by
    obtain ⟨id, words, insn, _, hw, hi, hshape⟩ := hseq
    intro target ht
    apply Program.target_lt_of_validate hv hw hi
    rw [Instruction.leaf, hshape]
    exact ht
  cases hresize : (Supply.leaf walk.desc.program leaf).resize items length with
  | ok resized => exact .ok _
  | error defect =>
      obtain ⟨_, hdefect⟩ := Supply.resize_leaf_eq_error.mp hresize
      obtain ⟨_, first, hfirst⟩ | ⟨hover, id, pc, count, hrefused⟩ :=
        Program.defaultElement_cases hv htarget
      · cases hfirst.symm.trans hdefect
      · cases hrefused.symm.trans hdefect
        intro error h
        cases h
        exact .inr ⟨leaf, _, rfl, ⟨id, pc, count, rfl⟩, hseq, hrefused,
          Program.lt_elementDemand hover⟩

theorem decodeShape_blamesData (hv : walk.desc.program.validate = .ok ())
    (he : BlamesNested walk enter) {shape : Shape} {value : Value}
    (hs : Shaped walk.desc.program shape value)
    (hseq : ∀ leaf, shape = .sequence leaf → walk.desc.program.HasSequence leaf)
    (ht : ∀ target, shape.leaf = .struct target →
      ReflTransGen walk.desc.program.RefersTo 0 target)
    (stream : UInt32) (pc : Nat) (path : Path) (reading : Reading) :
    BlamesData walk.toWalk (decodeShape walk enter stream pc shape value path reading) := by
  cases shape with
  | single leaf => exact decodeLeaf_blamesData he hs ht stream pc path reading
  | sequence leaf =>
      cases id hs with
      | @sequence _ items hi hdefault =>
          refine (decodeCount_blamesData leaf path reading).bind fun counted _ => ?_
          refine (resize_blamesData hv (hseq leaf rfl) items counted.1).bind fun grown hgrown => ?_
          obtain ⟨supply, grown⟩ := grown
          cases hs.resize (mapError_eq_ok.mp hgrown) with
          | sequence hitems _ =>
              exact (decodeElements_blamesData he hitems ht stream pc path _).bind
                fun found _ => .ok _
  | array leaf count =>
      cases hs with
      | @array _ _ items hi hlength =>
          have hflat := Value.flattenItems_of_not_isArray fun item hm =>
            (hi item hm).isArray_eq_false
          simp only [decodeShape, hflat, hlength, ne_eq, not_true_eq_false, if_false]
          exact (decodeElements_blamesData he hi ht stream pc path reading).bind
            fun found _ => .ok _

theorem decodeField_blamesData (hv : walk.desc.program.validate = .ok ())
    (hd : walk.desc.program.fieldsDistinct = true) (he : BlamesNested walk enter)
    {target : UInt32} {words : Stream} (hreached : ReflTransGen walk.desc.program.RefersTo 0 target)
    (hw : walk.desc.program.stream? target = some words) {insn : Instruction}
    (hi : insn ∈ (Scan.read target words).instructions) {value : Value}
    (hs : Shaped walk.desc.program (.single (.struct target)) value) (path : Path)
    (reading : Reading) :
    BlamesData walk.toWalk (decodeField walk enter target path insn value reading) := by
  cases id hs with
  | @struct _ _ fields _ _ _ =>
      obtain ⟨found, hfound, hshape⟩ := hs.exists_field hd hw hi
      have hlookup : (Value.struct fields).field? insn.field = some found := hfound
      simp only [decodeField, hlookup]
      refine (decodeShape_blamesData hv he hshape ?_ ?_ _ _ _ _).bind fun found _ => .ok _
      · exact fun leaf hleaf => ⟨target, words, insn, hreached, hw, hi, hleaf⟩
      · exact fun next hnext => hreached.tail ⟨words, insn, hw, hi, hnext⟩

/-- One field after the other is read; the structure stays a sample all the while. -/
theorem decodeFields_blamesData (hk : KeepsNested walk enter) {target : UInt32} {path : Path}
    {insns : List Instruction}
    (hfield : ∀ insn ∈ insns, ∀ value reading,
      Shaped walk.desc.program (.single (.struct target)) value →
      BlamesData walk.toWalk (decodeField walk enter target path insn value reading))
    {value : Value} (hs : Shaped walk.desc.program (.single (.struct target)) value)
    (reading : Reading) :
    BlamesData walk.toWalk
      (decodeFields (decodeField walk enter target path) insns value reading) := by
  induction insns generalizing value reading with
  | nil => exact .ok _
  | cons insn rest ih =>
      refine (hfield insn List.mem_cons_self value reading hs).bind fun next hnext => ?_
      have hkept := decodeField_shaped hk hnext hs
      exact ih (fun other ho => hfield other (List.mem_cons_of_mem _ ho)) hkept next.2

theorem decodeStruct_blamesData (hv : walk.desc.program.validate = .ok ())
    (hd : walk.desc.program.fieldsDistinct = true) (fuel : Nat) :
    BlamesNested walk (decodeStruct walk fuel) := by
  obtain ⟨_, hreadable, _⟩ := Program.validate_eq_ok_iff.mp hv
  induction fuel with
  | zero => exact fun target words value path reading _ _ _ => .error rfl
  | succ fuel ih =>
      intro target words value path reading hreached hw hs
      obtain ⟨insns, hinsns, _⟩ := hreadable.instructions hw
      obtain ⟨_, pc, hending⟩ := Scan.read_of_instructions hinsns
      simp only [decodeStruct, hending]
      refine (decodeFields_blamesData (decodeStruct_shaped fuel) ?_ hs reading).bind
        fun found _ => .ok _
      intro insn hi value reading hs
      exact decodeField_blamesData hv hd ih hreached hw hi hs path reading

end Marshal

namespace WireFormat

open Marshal

/-- Bytes are never blamed on the descriptor. If a default instance can be made and no stream
addresses a field twice, decoding any bytes succeeds or fails in a way that other data can mend,
but for a sequence that cannot grow, because making one of its elements takes more values than a
default instance may hold. -/
theorem deserialize_blames_data {desc : Descriptor} {start : Value}
    (hstart : desc.program.default 0 = .ok start) (hd : desc.program.fieldsDistinct = true)
    (wire : WireFormat) (bytes : List UInt8) {error : CodecError}
    (h : wire.deserialize desc bytes = .error error) :
    error.isRecoverable = true ∨
    ∃ leaf id pc count,
      error = .configuration desc.typeName (.arrayTooLarge id pc count maxDefaultValues) ∧
      desc.program.HasSequence leaf ∧
      desc.program.defaultElement leaf = .error (.arrayTooLarge id pc count maxDefaultValues) ∧
      maxDefaultValues < desc.program.elementDemand leaf := by
  obtain ⟨_, hv, _⟩ := bind_eq_ok.mp hstart
  have hshaped := Program.default_shaped hstart
  cases id hshaped with
  | @struct _ words _ hw _ _ =>
      have hroot : Walk.root ⟨desc, wire⟩ = .ok words := Walk.root_eq_ok.mpr hw
      have hnested : BlamesNested { desc, wire } (decodeStruct { desc, wire } (maxNesting + 1)) :=
        decodeStruct_blamesData hv hd (maxNesting + 1)
      have hblames := hnested 0 words _ .root ⟨.start bytes, []⟩ .refl hw hshaped
      have hwhole : BlamesData ⟨desc, wire⟩ (wire.deserialize desc bytes) := by
        simp only [deserialize, hstart, deserializeInto, decode, hroot]
        exact hblames.bind fun found _ => .ok _
      obtain hdata | ⟨leaf, defect, rfl, ⟨id, pc, count, rfl⟩, hseq, hrefused, hdemand⟩ :=
        hwhole error h
      · exact .inl hdata
      · exact .inr ⟨leaf, id, pc, count, rfl, hseq, hrefused, hdemand⟩

/-- Swarms of nothing: an element takes no bytes, but as many values as a word can count. -/
def swarm : Descriptor where
  typeName := "Swarm"
  program := ⟨[
    Stream.assemble [(0, .single .bool, false), (1, .sequence (.struct 1), false)],
    Stream.assemble [(0, .array (.struct 2) 4294967295, false)],
    Stream.assemble []]⟩

theorem deserialize_swarm_outgrown :
    swarm.program.default 0 = .ok (.struct [(0, .scalar (.bool false)),
        (1, .sequence (.leaf swarm.program (.struct 1)) [])]) ∧
      swarm.program.fieldsDistinct = true ∧
      bigEndian.deserialize swarm [1, 0, 0, 0, 0, 0, 0, 1] =
        .error (.configuration "Swarm" (.arrayTooLarge 1 0 4294967295 maxDefaultValues)) ∧
      ∃ leaf, swarm.program.HasSequence leaf ∧
        maxDefaultValues < swarm.program.elementDemand leaf := by
  have hstart : swarm.program.default 0 = .ok (.struct [(0, .scalar (.bool false)),
      (1, .sequence (.leaf swarm.program (.struct 1)) [])]) := by
    with_unfolding_all rfl
  have hd : swarm.program.fieldsDistinct = true := by with_unfolding_all rfl
  have h : bigEndian.deserialize swarm [1, 0, 0, 0, 0, 0, 0, 1] =
      .error (.configuration "Swarm" (.arrayTooLarge 1 0 4294967295 maxDefaultValues)) := by
    with_unfolding_all rfl
  refine ⟨hstart, hd, h, ?_⟩
  obtain hdata | ⟨leaf, _, _, _, _, hseq, _, hdemand⟩ :=
    deserialize_blames_data hstart hd bigEndian _ h
  · cases hdata
  · exact ⟨leaf, hseq, hdemand⟩

end WireFormat
end TopicCodec
