import TopicCodec.Marshal
import TopicCodec.Proofs.Editing
import TopicCodec.Proofs.Reads

/-!
# Samples survive the wire

Decoding what was encoded from a sample gives the sample back, whatever follows on the
wire, and decoding any strict front of it reports that the input ended.

The decoder overwrites a given instance. `Alike program shape start value` says that
`start` can be overwritten to become `value`: both are built alike, up to the lengths of
sequences. The proof is a simulation by induction on the nesting allowed. A structure may
be walked by the instructions of one stream while it was made for another, because two
instructions can address one field: the values then stay alike, and become equal once the
stream they were made for has been walked.
-/
namespace TopicCodec

/-! ## Instances built alike -/

inductive Alike (program : Program) : Shape → Value → Value → Prop
  | number (kind : ScalarKind) (old bits : kind.Bits) :
      Alike program (.single (.number kind)) (.scalar (.number kind old))
        (.scalar (.number kind bits))
  | bool (old flag : Bool) :
      Alike program (.single .bool) (.scalar (.bool old)) (.scalar (.bool flag))
  | text (bound : Option UInt32) (old text : String) :
      Alike program (.single (.string bound)) (.text old) (.text text)
  | struct {target : UInt32} {words : Stream} {start fields : List (UInt32 × Value)} :
      program.stream? target = some words →
      Addressed (Scan.read target words).instructions start →
      Addressed (Scan.read target words).instructions fields →
      (∀ index shape a b, fieldShape? (Scan.read target words).instructions index = some shape →
        start.lookup index = some a → fields.lookup index = some b → Alike program shape a b) →
      Alike program (.single (.struct target)) (.struct start) (.struct fields)
  | sequence {leaf : Leaf} {supply : Supply} {start grown items : List Value} :
      supply.resize start items.length = .ok (supply, grown) → grown.length = items.length →
      (∀ values, values.length = items.length →
        supply.resize values items.length = .ok (supply, values)) →
      (∀ a b, (a, b) ∈ grown.zip items → Alike program (.single leaf) a b) →
      Alike program (.sequence leaf) (.sequence supply start) (.sequence supply items)
  | array {leaf : Leaf} {count : UInt32} {start items : List Value} :
      Value.sameRowsItems start items = true →
      (∀ a b, (a, b) ∈ (Value.flattenItems start).zip (Value.flattenItems items) →
        Alike program (.single leaf) a b) →
      Alike program (.array leaf count) (.array start) (.array items)

variable {program : Program}

theorem Alike.isArray_eq_false {leaf : Leaf} {a b : Value}
    (h : Alike program (.single leaf) a b) : a.isArray = false := by
  cases h <;> rfl

theorem Supply.resize_leaf {leaf : Leaf} (items : List Value) (length : Nat)
    (h : items.length < length → ∃ first, program.defaultElement leaf = .ok first) :
    ∃ grown, resize (.leaf program leaf) items length = .ok (.leaf program leaf, grown) ∧
      grown.length = length := by
  rcases Nat.lt_or_ge items.length length with hl | hl
  · obtain ⟨first, hf⟩ := h hl
    refine ⟨_, resize_leaf_eq_ok.mpr ⟨rfl, .inr ⟨hl, first, hf, rfl⟩⟩, ?_⟩
    rw [List.length_append, List.length_replicate]
    omega
  · exact ⟨_, resize_leaf_eq_ok.mpr ⟨rfl, .inl ⟨hl, rfl⟩⟩, List.length_take_of_le hl⟩

theorem Shaped.alike {shape : Shape} {start value : Value} (hv : Shaped program shape value)
    (hs : Shaped program shape start) : Alike program shape start value := by
  induction hv generalizing start with
  | number kind bits =>
      cases hs with
      | number _ old => exact .number kind old bits
  | bool flag =>
      cases hs with
      | bool old => exact .bool old flag
  | text bound text =>
      cases hs with
      | text _ old => exact .text bound old text
  | struct hw ha _ ih =>
      cases hs with
      | struct hw' ha' hs =>
          cases hw.symm.trans hw'
          exact .struct hw ha' ha fun index shape a b hi hl hl' =>
            ih index shape b hi hl' (hs index shape a hi hl)
  | @sequence leaf items hi hd ih =>
      cases hs with
      | @sequence _ old ho hd' =>
          obtain ⟨grown, hg, hl⟩ := Supply.resize_leaf old items.length
            fun hlt => hd (List.ne_nil_of_length_pos (by omega))
          cases (Shaped.sequence ho hd').resize hg with
          | sequence hgs _ =>
              refine .sequence hg hl (fun values hv => ?_) fun a b hab => ?_
              · rw [← hv]
                simp only [Supply.resize, Nat.le_refl, if_true, List.take_length]
              · obtain ⟨hma, hmb⟩ := List.of_mem_zip hab
                exact ih b hmb (hgs a hma)
  | array hi hl ih =>
      cases hs with
      | array ho hl' =>
          have hia := fun item hm => (hi item hm).isArray_eq_false
          have hoa := fun item hm => (ho item hm).isArray_eq_false
          refine .array (Value.sameRowsItems_of_not_isArray (hl'.trans hl.symm) hoa hia) ?_
          rw [Value.flattenItems_of_not_isArray hoa, Value.flattenItems_of_not_isArray hia]
          intro a b hab
          obtain ⟨hma, hmb⟩ := List.of_mem_zip hab
          exact ih b hmb (ho a hma)

theorem Alike.refill {leaf : Leaf} {count : UInt32} {start items values : List Value}
    (hr : Value.sameRowsItems start items = true)
    (hl : values.length = (Value.flattenItems items).length)
    (hv : ∀ a b, (a, b) ∈ values.zip (Value.flattenItems items) →
      Alike program (.single leaf) a b) :
    Alike program (.array leaf count) (.array (Value.refillItems start values).1)
      (.array items) := by
  have hs := Value.length_flattenItems_of_sameRows start items hr
  have hf : ∀ value ∈ values, value.isArray = false := by
    intro value hm
    obtain ⟨i, hi, rfl⟩ := List.mem_iff_getElem.mp hm
    refine (hv _ ((Value.flattenItems items).get ⟨i, by omega⟩) ?_).isArray_eq_false
    exact List.mem_iff_getElem.mpr ⟨i, by simp; omega, by simp⟩
  have hflat := Value.flattenItems_refillItems_of_length (hl.trans hs.symm) hf
  exact .array (Value.sameRowsItems_refillItems start items hr values hf (by omega))
    (by rwa [hflat])

namespace Marshal

variable {walk : DecodeWalk} {position : Nat}

/-! ## Leaves -/

/-- A read of `value` over something built alike; where it is read
as a `whole`, nothing of the old is left. -/
def Restores (walk : DecodeWalk) (position : Nat) (bytes : List UInt8) (shape : Shape)
    (whole : Prop) (read : Reading → Except CodecError (Value × Reading)) (value : Value) : Prop :=
  ∃ found, Reads walk position bytes read found ∧
    Alike walk.desc.program shape found value ∧ (whole → found = value)

/-- Nested structures are restored. -/
def RestoresNested (walk : DecodeWalk) (fuel : Nat) : Prop :=
  ∀ stream words value path position bytes target start,
    encodeStruct walk.toWalk fuel stream words value path position = .ok bytes →
    walk.desc.program.stream? stream = some words →
    Alike walk.desc.program (.single (.struct target)) start value →
    Restores walk position bytes (.single (.struct target)) (stream = target)
      (decodeStruct walk fuel stream words start path) value

theorem decodeLeaf_restores {fuel : Nat} (he : RestoresNested walk fuel) {stream : UInt32}
    {pc : Nat} {leaf : Leaf} {shape : Shape} {start value : Value} {path : Path}
    {bytes : List UInt8}
    (h : encodeLeaf walk.toWalk (encodeStruct walk.toWalk fuel) stream pc leaf value path
      position = .ok bytes)
    (ha : Alike walk.desc.program shape start value) :
    Restores walk position bytes shape (.single leaf = shape)
      (decodeLeaf walk (decodeStruct walk fuel) stream pc leaf start path) value := by
  cases leafWritten h with
  | number kind bits =>
      cases ha with
      | number _ old =>
          refine ⟨.scalar (.number kind bits), ?_, .number kind bits bits, fun _ => rfl⟩
          refine ((reads_scalar path kind bits).after
            (fun p => .ok (.scalar (.number kind p.1), p.2)) fun _ => rfl).congr fun reading _ => ?_
          simp only [decodeLeaf, if_true]
          rfl
  | bool flag =>
      cases ha with
      | bool old =>
          refine ⟨.scalar (.bool flag), ?_, .bool flag flag, fun _ => rfl⟩
          exact (reads_bool path flag).after
            (fun p => .ok (Value.scalar (.bool p.1), p.2)) fun _ => rfl
  | @text bound text hz hb hl =>
      cases ha with
      | text other old =>
          refine ⟨.text text, ?_, .text other text text, fun _ => rfl⟩
          exact (reads_text path hz hb hl).after (fun p => .ok (Value.text p.1, p.2)) fun _ => rfl
  | struct hw hs =>
      cases ha with
      | @struct target found old fields hw' ha hb hab =>
          obtain ⟨value, hr, hv, hx⟩ := he _ _ _ _ _ _ _ _ hs hw (.struct hw' ha hb hab)
          refine ⟨value, hr.congr fun reading _ => ?_, hv, fun hsame => hx ?_⟩
          · simp only [decodeLeaf, Walk.nested, hw]
          · cases hsame
            rfl

/-! ## Collections -/

theorem decodeElement_of_alike {target leaf : Leaf} {a b : Value}
    (h : Alike program (.single target) a b) (enter : DecodeNested) (stream : UInt32) (pc : Nat)
    (path : Path) (i : Nat) (reading : Reading) :
    decodeElement walk enter stream pc leaf path (a, i) reading =
      decodeLeaf walk enter stream pc leaf a (path.element i) reading := by
  cases h <;> rfl

theorem decodeElements_restore {fuel : Nat} (he : RestoresNested walk fuel) {stream : UInt32}
    {pc : Nat} {leaf target : Leaf} {starts items : List Value} {path : Path}
    {bytes : List UInt8} (hl : starts.length = items.length)
    (ha : ∀ a b, (a, b) ∈ starts.zip items → Alike walk.desc.program (.single target) a b)
    (h : encodeElements walk.toWalk (encodeStruct walk.toWalk fuel) stream pc leaf items path
      position = .ok bytes) :
    ∃ values,
      Reads walk position bytes
        (decodeElements walk (decodeStruct walk fuel) stream pc leaf starts path) values ∧
      values.length = items.length ∧
      (∀ a b, (a, b) ∈ values.zip items → Alike walk.desc.program (.single target) a b) ∧
      (leaf = target → values = items) := by
  unfold encodeElements at h
  have hd : decodeElements walk (decodeStruct walk fuel) stream pc leaf starts path =
      readAll (decodeElement walk (decodeStruct walk fuel) stream pc leaf path) starts.zipIdx :=
    rfl
  rw [hd]
  clear hd
  generalize 0 = first at h ⊢
  induction items generalizing starts position bytes first with
  | nil =>
      cases List.length_eq_zero_iff.mp hl
      cases h
      exact ⟨[], Reads.pure [], rfl, ha, fun _ => rfl⟩
  | cons item items ih =>
      cases starts with
      | nil => cases hl
      | cons start starts =>
          obtain ⟨head, tail, hh, ht, rfl⟩ := emitAll_zipIdx_cons_eq_ok.mp h
          have has := ha start item (by simp)
          obtain ⟨value, hr, hv, hx⟩ := decodeLeaf_restores he hh has
          obtain ⟨values, hrs, hls, hvs, hxs⟩ := ih (by simpa using hl)
            (fun a b hab => ha a b (by simp [hab])) (first + 1) ht
          refine ⟨value :: values, ?_, by simp [hls], ?_, ?_⟩
          · exact (hr.congr fun reading _ => decodeElement_of_alike has _ stream pc path first
              reading).bind _ (hrs.after (fun p => .ok (value :: p.1, p.2)) fun _ => rfl)
          · intro a b hab
            rcases List.mem_cons.mp hab with hab | hab
            · cases hab
              exact hv
            · exact hvs a b hab
          · rintro rfl
            rw [hx rfl, hxs rfl]

/-- A sequence is resized to the count read, and its elements are read over the old ones. -/
theorem reads_sequence {fuel : Nat} {stream : UInt32} {pc : Nat} {leaf : Leaf}
    {supply supply' : Supply} {start grown values : List Value} {count : Nat} {path : Path}
    {body : List UInt8} (hg : supply.resize start count = .ok (supply', grown))
    (hl : grown.length = count) (hc : count ≤ walk.wire.maxSequenceLen.toNat)
    (hr : Reads walk (position + (Item.emit (σ := List UInt8) walk.wire position
      (.length count)).length) body
      (decodeElements walk (decodeStruct walk fuel) stream pc leaf grown path) values) :
    Reads walk position (Item.emit walk.wire position (.length count) ++ body)
      (decodeShape walk (decodeStruct walk fuel) stream pc (.sequence leaf)
        (.sequence supply start) path) (.sequence supply' values) := by
  have hn : Reads walk _ body _ (Value.sequence supply' values) :=
    hr.after (fun p => .ok (.sequence supply' p.1, p.2)) fun _ => rfl
  refine reads_count path (fun p => (supply.resize start p.1).mapError walk.defect >>=
    fun q => decodeElements walk (decodeStruct walk fuel) stream pc leaf q.2 path p.2 >>=
      fun e => .ok (Value.sequence q.1 e.1, e.2)) hc ?_ (hn.congr fun reading _ => ?_)
  · intro known hk
    rw [← hl]
    exact hr.length_ge (decodeElements_advances ((minElement_bound leaf hk).1 fuel) stream pc
      grown path)
  · simp only [hg]
    rfl

theorem decodeShape_restores {fuel : Nat} (he : RestoresNested walk fuel) {stream : UInt32}
    {pc : Nat} {shape target : Shape} {start value : Value} {path : Path} {bytes : List UInt8}
    (h : encodeShape walk.toWalk (encodeStruct walk.toWalk fuel) stream pc shape value path
      position = .ok bytes)
    (ha : Alike walk.desc.program target start value) :
    Restores walk position bytes target (shape = target)
      (decodeShape walk (decodeStruct walk fuel) stream pc shape start path) value := by
  cases shapeWritten h with
  | single hl => exact decodeLeaf_restores he hl ha
  | @sequence leaf supply items body hc hb =>
      cases ha with
      | @sequence other _ start grown _ hg hgl hsteady ha =>
          obtain ⟨values, hr, hl, hv, hx⟩ := decodeElements_restore he hgl ha hb
          refine ⟨.sequence supply values, reads_sequence hg hgl hc hr,
            .sequence (hsteady values hl) hl hsteady hv, ?_⟩
          rintro ⟨⟩
          rw [hx rfl]
  | @array leaf count items _ hc hb =>
      cases ha with
      | @array other _ start _ hrows ha =>
          have hl := Value.length_flattenItems_of_sameRows start items hrows
          obtain ⟨values, hr, hvl, hv, hx⟩ := decodeElements_restore he hl ha hb
          refine ⟨.array (Value.refillItems start values).1, ?_, .refill hrows hvl hv, ?_⟩
          · refine (hr.after (fun p => .ok (Value.array (Value.refillItems start p.1).1, p.2))
              fun _ => rfl).congr fun reading _ => ?_
            simp only [decodeShape, hl, hc, ne_eq, not_true_eq_false, if_false]
            rfl
          · rintro ⟨⟩
            have hsame := Value.refillItems_flattenItems items []
            rw [hx rfl, Value.refillItems_eq_of_sameRows start items hrows _ (Nat.le_refl _),
              ← List.append_nil (Value.flattenItems items), hsame]

/-! ## Structures -/

/-- Fields that instructions address are alike. -/
def AlikeFields (program : Program) (insns : List Instruction)
    (start fields : List (UInt32 × Value)) : Prop :=
  ∀ index shape a b, fieldShape? insns index = some shape → start.lookup index = some a →
    fields.lookup index = some b → Alike program shape a b

theorem AlikeFields.replace {insns : List Instruction} {start fields : List (UInt32 × Value)}
    (h : AlikeFields program insns start fields) {index : UInt32} {shape : Shape} {a b : Value}
    (hi : fieldShape? insns index = some shape) (hb : fields.lookup index = some b)
    (hab : Alike program shape a b) :
    AlikeFields program insns (Value.insertField index a start) fields := by
  intro other shape' a' b' hi' ha' hb'
  rw [Value.lookup_insertField] at ha'
  split_ifs at ha' with ho
  · subst ho
    cases ha'
    cases hi.symm.trans hi'
    cases hb.symm.trans hb'
    exact hab
  · exact h other shape' a' b' hi' ha' hb'

/-- Walking instructions over the fields of a structure whose own instructions may be others: a
field not addressed stays, and one whose own shape comes last is equal in the end. -/
theorem decodeFields_restore {fuel : Nat} (he : RestoresNested walk fuel) {stream : UInt32}
    {insns own : List Instruction} {start fields : List (UInt32 × Value)} {path : Path}
    {bytes : List UInt8} (hs : Addressed own start) (hf : Addressed own fields)
    (ha : AlikeFields walk.desc.program own start fields)
    (h : emitAll (encodeField walk.toWalk (encodeStruct walk.toWalk fuel) stream (.struct fields)
      path) insns position = .ok bytes) :
    ∃ found,
      Reads walk position bytes
        (decodeFields (decodeField walk (decodeStruct walk fuel) stream path) insns
          (.struct start)) (.struct found) ∧
      Addressed own found ∧ AlikeFields walk.desc.program own found fields ∧
      (∀ index, fieldShape? insns index = none → found.lookup index = start.lookup index) ∧
      ∀ index shape, fieldShape? insns index = some shape → fieldShape? own index = some shape →
        found.lookup index = fields.lookup index := by
  induction insns generalizing start position bytes with
  | nil =>
      cases h
      exact ⟨start, Reads.pure _, hs, ha, fun _ _ => rfl, fun _ _ hi => by cases hi⟩
  | cons insn rest ih =>
      obtain ⟨head, tail, hh, ht, rfl⟩ := emitAll_cons_eq_ok.mp h
      obtain ⟨b, hb, hh⟩ := encodeField_eq_ok hh
      change fields.lookup insn.field = some b at hb
      obtain ⟨target, ht'⟩ := hf.exists_shape hb
      obtain ⟨a, hl⟩ := hs.exists_value ht'
      obtain ⟨value, hr, hv, hx⟩ := decodeShape_restores he hh (ha _ _ a b ht' hl hb)
      obtain ⟨found, hrs, hfs, hfa, hkeep, hsame⟩ := ih (hs.replace hl value)
        (ha.replace ht' hb hv) ht
      refine ⟨found, ?_, hfs, hfa, ?_, ?_⟩
      · have hfield : Reads walk position head
            (decodeField walk (decodeStruct walk fuel) stream path insn (.struct start))
            (.struct (Value.insertField insn.field value start)) := by
          refine (hr.after (fun p => .ok (Value.setField (.struct start) insn.field p.1, p.2))
            fun _ => rfl).congr fun reading _ => ?_
          simp only [decodeField, Value.field?, hl]
          rfl
        exact hfield.bind _ hrs
      · intro index hi
        obtain ⟨hi, hn⟩ := Option.or_eq_none_iff.mp hi
        rw [hkeep index hi, Value.lookup_insertField, if_neg]
        rintro rfl
        rw [if_pos rfl] at hn
        cases hn
      · intro index shape hi ho
        cases hlast : fieldShape? rest index with
        | some last =>
            rw [fieldShape?, hlast] at hi
            cases hi
            exact hsame index _ hlast ho
        | none =>
            rw [fieldShape?, hlast, Option.none_or] at hi
            split_ifs at hi with hindex
            subst hindex
            cases hi
            cases ht'.symm.trans ho
            rw [hkeep _ hlast, Value.lookup_insertField, if_pos rfl, hb, hx rfl]

theorem decodeStruct_restores (walk : DecodeWalk) (fuel : Nat) : RestoresNested walk fuel := by
  induction fuel with
  | zero =>
      intro stream words value path position bytes target start h
      cases h
  | succ fuel ih =>
      intro stream words value path position bytes target start h hw ha
      cases ha with
      | @struct _ own start fields hown hs hf hab =>
          obtain ⟨h, pc, hend⟩ := encodeStruct_succ_eq_ok.mp h
          obtain ⟨found, hr, hfs, hfa, _, hsame⟩ := decodeFields_restore ih hs hf hab h
          refine ⟨.struct found, ?_, .struct hown hfs hf hfa, ?_⟩
          · refine (hr.after (fun p => .ok p) fun _ => rfl).congr fun reading _ => ?_
            simp only [decodeStruct, hend]
            rfl
          · rintro rfl
            cases hw.symm.trans hown
            congr 1
            refine hfs.ascending.ext hf.ascending fun index => ?_
            cases hi : fieldShape? (Scan.read stream words).instructions index with
            | some shape => exact hsame index shape hi hi
            | none =>
                have hn := hfs.isSome_lookup index
                have hn' := hf.isSome_lookup index
                rw [hi, Option.isSome_none, Option.isSome_eq_false_iff,
                  Option.isNone_iff_eq_none] at hn hn'
                rw [hn, hn']

/-- What the root stream wrote of an instance is read back over any other that is built alike. -/
theorem decode_reads {desc : Descriptor} {wire : WireFormat} {start sample : Value}
    {bytes : List UInt8} (ha : Alike desc.program (.single (.struct 0)) start sample)
    (h : wire.serialize desc sample = .ok bytes) :
    ∃ words, desc.program.root? = some words ∧
      Reads { desc, wire } 0 bytes
        (decodeStruct { desc, wire } (maxNesting + 1) 0 words start .root) sample := by
  obtain ⟨words, hw, h⟩ := bind_eq_ok.mp h
  have hroot := Walk.root_eq_ok.mp hw
  obtain ⟨value, hr, _, hx⟩ := decodeStruct_restores { desc, wire } (maxNesting + 1) 0 words sample
    .root 0 bytes 0 start h hroot ha
  cases hx rfl
  exact ⟨words, hroot, hr⟩

end Marshal

/-! ## A list of trees

Structures inside themselves, an array, a text beyond one byte a character, a number that
differs from itself, and a flag that is addressed both first and last. -/

def forest : Descriptor where
  typeName := "Forest"
  program := ⟨[
    Stream.assemble [(0, .single .bool, false), (1, .sequence (.struct 1), false),
      (2, .single (.string (some 5)), false), (3, .array (.number .u16) 2, false),
      (0, .single .bool, false)],
    Stream.assemble [(0, .single (.number .f32), false), (1, .sequence (.struct 1), false)]]⟩

def tree (value : ScalarKind.f32.Bits) (branches : List Value) : Value :=
  .struct [(0, .scalar (.number .f32 value)),
    (1, .sequence (.leaf forest.program (.struct 1)) branches)]

def forestSample : Value :=
  .struct [(0, .scalar (.bool true)),
    (1, .sequence (.leaf forest.program (.struct 1)) [tree 0x7fc00001 [], tree 0 [tree 0 []]]),
    (2, .text "né"),
    (3, .array [.scalar (.number .u16 0), .scalar (.number .u16 258)])]

def forestBytes : List UInt8 :=
  [1, 0, 0, 0, 0, 0, 0, 2, 127, 192, 0, 1, 0, 0, 0, 0, 0, 0, 0, 0, 0, 0, 0, 1, 0, 0, 0, 0, 0, 0,
    0, 0, 0, 0, 0, 4, 110, 195, 169, 0, 0, 0, 1, 2, 1]

def blankForest : Value :=
  .struct [(0, .scalar (.bool false)), (1, .sequence (.leaf forest.program (.struct 1)) []),
    (2, .text ""), (3, .array (List.replicate 2 (.scalar (.zero .u16))))]

theorem default_forest : forest.program.default 0 = .ok blankForest := by
  with_unfolding_all rfl

theorem forestSample_reachable : Reachable forest forestSample :=
  ⟨blankForest,
    [.resize [.field 1] 2, .resize [.field 1, .element 1, .field 1] 1,
      .store [.field 1, .element 0, .field 0] (.scalar (.number .f32 0x7fc00001)),
      .store [.field 0] (.scalar (.bool true)), .store [.field 2] (.text "né"),
      .store [.field 3, .element 1] (.scalar (.number .u16 258))],
    default_forest, by with_unfolding_all rfl⟩

theorem serialize_forestSample :
    WireFormat.bigEndian.serialize forest forestSample = .ok forestBytes := by
  with_unfolding_all rfl

namespace WireFormat

open Marshal

variable {desc : Descriptor} {sample : Value} {wire : WireFormat} {bytes : List UInt8}

/-- What decoding over an instance that is built alike makes of the encoded one, whole or cut
short. -/
theorem deserializeInto_reads {start : Value}
    (ha : Alike desc.program (.single (.struct 0)) start sample)
    (h : wire.serialize desc sample = .ok bytes) :
    (∀ tail, wire.deserializeInto desc start (bytes ++ tail) = .ok sample) ∧
      ∀ k < bytes.length, FallsShort k (wire.deserializeInto desc start (bytes.take k)) := by
  obtain ⟨words, hw, hr⟩ := decode_reads ha h
  obtain ⟨known, _, hfull, hshort⟩ := hr [] (sound_nil _)
  have hroot : Walk.root ⟨desc, wire⟩ = .ok words := Walk.root_eq_ok.mpr hw
  have hde (input : List UInt8) : wire.deserializeInto desc start input =
      decodeStruct { desc, wire } (maxNesting + 1) 0 words start .root ⟨.start input, []⟩ >>=
        fun p => .ok p.1 := by
    simp only [deserializeInto, decode, hroot]
    rfl
  refine ⟨fun tail => ?_, fun k hk => ?_⟩
  · rw [hde]
    simp only [Cursor.start, hfull]
    rfl
  · rw [hde]
    simpa only [Nat.zero_add, Cursor.start] using (hshort k hk).bind _

theorem deserialize_reads {start : Value} (hd : desc.program.default 0 = .ok start)
    (hs : Shaped desc.program (.single (.struct 0)) sample)
    (h : wire.serialize desc sample = .ok bytes) :
    (∀ tail, wire.deserialize desc (bytes ++ tail) = .ok sample) ∧
      ∀ k < bytes.length, FallsShort k (wire.deserialize desc (bytes.take k)) := by
  have hde (input : List UInt8) :
      wire.deserialize desc input = wire.deserializeInto desc start input := by
    simp only [deserialize, hd]
    rfl
  simp only [hde]
  exact deserializeInto_reads (hs.alike (Program.default_shaped hd)) h

/-- Decoding inverts encoding, whatever follows on the wire. Numbers are kept as their bits, so
floating-point numbers come back bit for bit. -/
theorem deserialize_serialize_append (hs : Reachable desc sample)
    (h : wire.serialize desc sample = .ok bytes) (tail : List UInt8) :
    wire.deserialize desc (bytes ++ tail) = .ok sample := by
  obtain ⟨start, _, hd, _⟩ := id hs
  exact (deserialize_reads hd hs.shaped h).1 tail

theorem deserialize_forestBytes_append :
    Reachable forest forestSample ∧ bigEndian.serialize forest forestSample = .ok forestBytes ∧
      bigEndian.deserialize forest (forestBytes ++ [7, 7]) = .ok forestSample :=
  ⟨forestSample_reachable, serialize_forestSample,
    deserialize_serialize_append forestSample_reachable serialize_forestSample [7, 7]⟩

/-- No strict front of an encoded sample can be decoded: the input is reported as too short, with
the place where it ended. -/
theorem deserialize_take_truncated (hs : Reachable desc sample)
    (h : wire.serialize desc sample = .ok bytes) {k : Nat} (hk : k < bytes.length) :
    ∃ path offset needed available,
      wire.deserialize desc (bytes.take k) =
        .error (.truncatedInput path offset needed available) ∧
      offset + available = k ∧ available < needed := by
  obtain ⟨start, _, hd, _⟩ := id hs
  exact (deserialize_reads hd hs.shaped h).2 k hk

theorem deserialize_forestBytes_truncated :
    Reachable forest forestSample ∧ bigEndian.serialize forest forestSample = .ok forestBytes ∧
      20 < forestBytes.length ∧
      ∃ path offset needed available,
        bigEndian.deserialize forest (forestBytes.take 20) =
          .error (.truncatedInput path offset needed available) ∧
        offset + available = 20 ∧ available < needed :=
  ⟨forestSample_reachable, serialize_forestSample, by decide,
    deserialize_take_truncated forestSample_reachable serialize_forestSample (by decide)⟩

end WireFormat
end TopicCodec
