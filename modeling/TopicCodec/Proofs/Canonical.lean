import Mathlib.Data.List.Nodup
import TopicCodec.Proofs.RoundTrip
import TopicCodec.Proofs.Sink

/-!
# Accepted input is encoded again as it was

Whatever a decoder accepts, the sample it makes is encoded to the bytes it was read from,
except that padding is zero. Padding is told apart by running the encoder with a sink of
cells, which keep whether a byte was written for alignment only.

A field that a stream addresses twice is read twice and written twice with the last value;
such streams are left out.
-/
namespace TopicCodec

theorem Supply.length_resize {supply supply' : Supply} {items items' : List Value} {length : Nat}
    (h : supply.resize items length = .ok (supply', items')) : items'.length = length := by
  cases supply with
  | leaf program leaf =>
      obtain ⟨_, ⟨hl, rfl⟩ | ⟨hl, first, _, rfl⟩⟩ := resize_leaf_eq_ok.mp h
      · exact List.length_take_of_le hl
      · rw [List.length_append, List.length_replicate]
        omega
  | copies element =>
      cases h
      rw [List.length_append, List.length_take, List.length_replicate]
      omega
  | vacant limit complaint kept =>
      simp only [resize] at h
      split_ifs at h with hl
      cases h
      rw [List.length_take, List.length_cons, List.length_replicate]
      omega

namespace Marshal

variable {walk : DecodeWalk} {enter : DecodeNested}

/-! ## Decoding keeps samples -/

/-- Nested structures stay samples of whatever they were samples of. -/
def KeepsNested (walk : DecodeWalk) (enter : DecodeNested) : Prop :=
  ∀ stream words start value path before after shape,
    enter stream words start path before = .ok (value, after) →
    Shaped walk.desc.program shape start → Shaped walk.desc.program shape value

theorem decodeLeaf_shaped (he : KeepsNested walk enter) {stream : UInt32} {pc : Nat} {leaf : Leaf}
    {start value : Value} {path : Path} {before after : Reading} {shape : Shape}
    (h : decodeLeaf walk enter stream pc leaf start path before = .ok (value, after))
    (hs : Shaped walk.desc.program shape start) : Shaped walk.desc.program shape value := by
  cases leafRead h with
  | number old bits _ => exact hs.scalar rfl
  | bool old flag _ => exact hs.scalar rfl
  | text old text _ =>
      cases hs with
      | text bound _ => exact .text bound text
  | struct _ hr => exact he _ _ _ _ _ _ _ _ hr hs

theorem decodeElements_shaped (he : KeepsNested walk enter) {stream : UInt32} {pc : Nat}
    {leaf : Leaf} {starts values : List Value} {path : Path} {before after : Reading}
    {shape : Shape}
    (h : decodeElements walk enter stream pc leaf starts path before = .ok (values, after))
    (hs : ∀ start ∈ starts, Shaped walk.desc.program shape start) :
    values.length = starts.length ∧ ∀ value ∈ values, Shaped walk.desc.program shape value := by
  unfold decodeElements at h
  generalize 0 = first at h
  induction starts generalizing values before first with
  | nil =>
      cases h
      exact ⟨rfl, fun value hv => by cases hv⟩
  | cons start starts ih =>
      obtain ⟨value, middle, rest, hv, hr, rfl⟩ := readAll_zipIdx_cons_eq_ok.mp h
      obtain ⟨hl, hrest⟩ := ih (fun start hm => hs start (by simp [hm])) _ hr
      have hvalue := decodeLeaf_shaped he hv (hs start (by simp))
      refine ⟨by simp [hl], ?_⟩
      intro other ho
      rcases List.mem_cons.mp ho with rfl | ho
      · exact hvalue
      · exact hrest other ho

theorem decodeShape_shaped (he : KeepsNested walk enter) {stream : UInt32} {pc : Nat}
    {shape target : Shape} {start value : Value} {path : Path} {before after : Reading}
    (h : decodeShape walk enter stream pc shape start path before = .ok (value, after))
    (hs : Shaped walk.desc.program target start) : Shaped walk.desc.program target value := by
  cases shapeRead h with
  | single hl => exact decodeLeaf_shaped he hl hs
  | sequence _ hr hd =>
      cases hs with
      | sequence hi hdef =>
          cases (Shaped.sequence hi hdef).resize hr with
          | sequence hg hdef' =>
              obtain ⟨hl, hv⟩ := decodeElements_shaped he hd hg
              refine .sequence hv fun hne => hdef' ?_
              rintro rfl
              exact hne (List.length_eq_zero_iff.mp hl)
  | array _ hd =>
      cases hs with
      | array hi hc =>
          have hia := fun item hm => (hi item hm).isArray_eq_false
          rw [Value.flattenItems_of_not_isArray hia] at hd
          obtain ⟨hl, hv⟩ := decodeElements_shaped he hd hi
          have hva := fun value hm => (hv value hm).isArray_eq_false
          rw [Value.refillItems_of_not_isArray hl hia hva]
          exact .array hv (hl.trans hc)

theorem decodeField_shaped (he : KeepsNested walk enter) {stream : UInt32} {path : Path}
    {insn : Instruction} {start value : Value} {before after : Reading} {shape : Shape}
    (h : decodeField walk enter stream path insn start before = .ok (value, after))
    (hs : Shaped walk.desc.program shape start) : Shaped walk.desc.program shape value := by
  obtain ⟨found, found', hf, hd, rfl⟩ := decodeField_eq_ok h
  have hstep : start.step? (.field insn.field) = some found := hf
  have hc : start.change? (fun _ => found') [.field insn.field] =
      some (start.setField insn.field found') := by
    simp only [Value.change?, hstep]
    rfl
  refine hs.change hc fun inner slot hg hslot => ?_
  simp only [Value.get?, hstep, Option.bind_some, Option.some.injEq] at hg
  subst hg
  exact decodeShape_shaped he hd hslot

theorem decodeStruct_shaped (fuel : Nat) : KeepsNested walk (decodeStruct walk fuel) := by
  induction fuel with
  | zero =>
      intro stream words start value path before after shape h
      cases h
  | succ fuel ih =>
      intro stream words start value path before after shape h hs
      replace h := (decodeStruct_succ_eq_ok.mp h).1
      generalize (Scan.read stream words).instructions = insns at h
      induction insns generalizing start before with
      | nil =>
          cases h
          exact hs
      | cons insn rest ihi =>
          obtain ⟨next, middle, hf, hr⟩ := decodeFields_cons_eq_ok.mp h
          exact ihi next middle (decodeField_shaped ih hf hs) hr

/-! ## Cells over the bytes they are written for -/

/-- Padding stands for any byte. -/
def Covers (cell : Cell) (byte : UInt8) : Prop := cell = .padding ∨ cell = .content byte

/-- Cells stand, one for one, for the bytes between two places of a body. -/
def Covered (cells : List Cell) (before after : Cursor) : Prop :=
  ∃ consumed, List.Forall₂ Covers cells consumed ∧ before.rest = consumed ++ after.rest ∧
    after.offset = before.offset + consumed.length

theorem Covered.nil (cursor : Cursor) : Covered [] cursor cursor :=
  ⟨[], .nil, rfl, rfl⟩

theorem Covered.append {cells more : List Cell} {before middle after : Cursor}
    (h : Covered cells before middle) (hm : Covered more middle after) :
    Covered (cells ++ more) before after := by
  obtain ⟨consumed, hc, hr, ho⟩ := h
  obtain ⟨consumed', hc', hr', ho'⟩ := hm
  refine ⟨consumed ++ consumed', List.rel_append hc hc', ?_, ?_⟩
  · rw [hr, hr', List.append_assoc]
  · rw [ho', ho, List.length_append, Nat.add_assoc]

theorem Covered.offset_eq {cells : List Cell} {before after : Cursor}
    (h : Covered cells before after) : after.offset = before.offset + cells.length := by
  obtain ⟨consumed, hc, _, ho⟩ := h
  rw [ho, hc.length_eq]

theorem forall₂_content (bytes : List UInt8) :
    List.Forall₂ Covers (bytes.map .content) bytes := by
  induction bytes with
  | nil => exact .nil
  | cons byte rest ih => exact .cons (.inr rfl) ih

theorem forall₂_padding (bytes : List UInt8) :
    List.Forall₂ Covers (List.replicate bytes.length .padding) bytes := by
  induction bytes with
  | nil => exact .nil
  | cons byte rest ih => exact .cons (.inl rfl) ih

theorem take_covered {count : Nat} {before after : Cursor} {bytes : List UInt8}
    (h : before.take count = (.ok bytes, after)) :
    Covered (Sink.ofBytes bytes) before after := by
  obtain ⟨hr, hl, ho⟩ := Cursor.take_eq_ok.mp h
  exact ⟨bytes, forall₂_content bytes, hr, by rw [ho, hl]⟩

theorem number_covered {wire : WireFormat} {width n : Nat} {before after : Cursor}
    (h : before.number wire width = (.ok n, after)) :
    Covered (Item.emitNumber wire before.offset width n) before after := by
  obtain ⟨skipped, bytes, hr, hs, hl, rfl, ho⟩ := Cursor.number_eq_ok.mp h
  subst hl
  refine ⟨skipped ++ bytes, ?_, hr, ?_⟩
  · unfold Item.emitNumber
    rw [ByteOrder.toBytes_ofBytes, ← hs]
    exact List.rel_append (forall₂_padding skipped) (forall₂_content bytes)
  · rw [ho, List.length_append, hs]
    omega

theorem length_covered {wire : WireFormat} {n : Nat} {before after : Cursor}
    (h : before.length wire = (.ok n, after)) :
    Covered (Item.emit wire before.offset (.length n)) before after := by
  obtain ⟨_, bytes, _, _, hl, hn, _⟩ := Cursor.number_eq_ok.mp h
  have hlt : n < 256 ^ lengthWidth := by
    rw [hn, ← hl]
    exact wire.byteOrder.ofBytes_lt bytes
  have hb : (BitVec.ofNat (8 * ScalarKind.width .u32) n).toNat = n := by
    rw [BitVec.toNat_ofNat]
    exact Nat.mod_eq_of_lt hlt
  simp only [Item.length, Item.emit, hb]
  exact number_covered h

theorem text_covered {wire : WireFormat} {bound : Option UInt32} {path : Path}
    {before after : Reading} {text : String}
    (h : decodeText wire bound path before = .ok (text, after)) :
    ((Utf8.encode text).contains 0 = false ∧ bound.any (·.toNat < Utf8.size text) = false ∧
      Utf8.size text < wire.maxStringLen.toNat) ∧
      Covered (Item.emit wire before.cursor.offset (.text text)) before.cursor after.cursor := by
  obtain ⟨length, middle, bytes, hl, ⟨hz, hmax, hbound⟩, hb, hlast, hnul, hutf⟩ :=
    decodeText_eq_ok h
  have hl := (Reading.read_eq_ok.mp hl).1
  have hb := (Reading.read_eq_ok.mp hb).1
  have henc : Utf8.encode text = bytes.dropLast := Utf8.encode_of_decode hutf
  have hbytes : bytes = Utf8.encode text ++ [0] := by
    rw [henc]
    exact (List.dropLast_append_getLast? 0 hlast).symm
  have hlength : length = Utf8.size text + 1 := by
    rw [← (Cursor.take_eq_ok.mp hb).2.1, hbytes, List.length_append]
    rfl
  subst hlength
  refine ⟨⟨?_, hbound, hmax⟩, ?_⟩
  · rw [henc]
    rw [List.findIdx?_eq_none_iff] at hnul
    by_contra hc
    have := hnul 0 (List.contains_iff_mem.mp (by simpa using hc))
    simp at this
  · rw [hbytes] at hb
    exact (number_covered hl).append (take_covered hb)

/-! ## Encoding what was decoded -/

/-- The outcome is cells for what was read. -/
def Rewritten (before after : Reading) (outcome : Except CodecError (List Cell)) : Prop :=
  ∃ cells, outcome = .ok cells ∧ Covered cells before.cursor after.cursor

/-- Nested structures, once read, are written as they were. -/
def RewritesNested (walk : DecodeWalk) (fuel : Nat) : Prop :=
  ∀ stream words start value path before after,
    decodeStruct walk fuel stream words (.struct start) path before = .ok (value, after) →
    walk.desc.program.stream? stream = some words →
    (∃ fields, value = .struct fields) ∧
      Rewritten before after
        (encodeStruct walk.toWalk fuel stream words value path before.cursor.offset)

theorem decodeLeaf_rewritten {fuel : Nat} (he : RewritesNested walk fuel) {stream : UInt32}
    {pc : Nat} {leaf : Leaf} {start value : Value} {path : Path} {before after : Reading}
    (h : decodeLeaf walk (decodeStruct walk fuel) stream pc leaf start path before =
      .ok (value, after)) :
    value.isArray = false ∧
      Rewritten before after (encodeLeaf walk.toWalk (encodeStruct walk.toWalk fuel) stream pc
        leaf value path before.cursor.offset) := by
  cases leafRead h with
  | @number kind old bits hr =>
      have hc := Cursor.scalar_eq_ok.mp (Reading.read_eq_ok.mp hr).1
      exact ⟨rfl, _, (LeafWritten.number kind bits).encodeLeaf_eq stream pc, number_covered hc⟩
  | bool old flag hr =>
      have hc := (Reading.read_eq_ok.mp (decodeBool_eq_ok hr)).1
      exact ⟨rfl, _, (LeafWritten.bool flag).encodeLeaf_eq stream pc, take_covered hc⟩
  | text old text hr =>
      obtain ⟨⟨hz, hb, hl⟩, hc⟩ := text_covered hr
      exact ⟨rfl, _, (LeafWritten.text hz hb hl).encodeLeaf_eq stream pc, hc⟩
  | struct hw hr =>
      obtain ⟨⟨fields, rfl⟩, cells, hs, hc⟩ := he _ _ _ _ _ _ _ hr hw
      exact ⟨rfl, cells, (LeafWritten.struct hw hs).encodeLeaf_eq stream pc, hc⟩

theorem decodeElements_rewritten {fuel : Nat} (he : RewritesNested walk fuel) {stream : UInt32}
    {pc : Nat} {leaf : Leaf} {starts values : List Value} {path : Path} {before after : Reading}
    (h : decodeElements walk (decodeStruct walk fuel) stream pc leaf starts path before =
      .ok (values, after)) :
    values.length = starts.length ∧ (∀ value ∈ values, value.isArray = false) ∧
      Rewritten before after (encodeElements walk.toWalk (encodeStruct walk.toWalk fuel) stream pc
        leaf values path before.cursor.offset) := by
  unfold decodeElements at h
  unfold encodeElements
  generalize 0 = first at h ⊢
  induction starts generalizing values before first with
  | nil =>
      cases h
      exact ⟨rfl, (fun value hv => by cases hv), [], rfl, .nil _⟩
  | cons start starts ih =>
      obtain ⟨value, middle, rest, hv, hr, rfl⟩ := readAll_zipIdx_cons_eq_ok.mp h
      obtain ⟨hflat, head, hh, hcover⟩ := decodeLeaf_rewritten he hv
      obtain ⟨hl, hflats, tail, ht, hcover'⟩ := ih _ hr
      refine ⟨by simp [hl], ?_, head ++ tail, ?_, hcover.append hcover'⟩
      · intro other ho
        rcases List.mem_cons.mp ho with rfl | ho
        · exact hflat
        · exact hflats other ho
      · rw [hcover.offset_eq] at ht
        exact emitAll_zipIdx_cons_eq_ok.mpr ⟨head, tail, hh, ht, rfl⟩

theorem decodeShape_rewritten {fuel : Nat} (he : RewritesNested walk fuel) {stream : UInt32}
    {pc : Nat} {shape : Shape} {start value : Value} {path : Path} {before after : Reading}
    (h : decodeShape walk (decodeStruct walk fuel) stream pc shape start path before =
      .ok (value, after)) :
    Rewritten before after (encodeShape walk.toWalk (encodeStruct walk.toWalk fuel) stream pc
      shape value path before.cursor.offset) := by
  cases shapeRead h with
  | single hl => exact (decodeLeaf_rewritten he hl).2
  | sequence hc hr hd =>
      obtain ⟨middle, hcount, hmax, _, rfl⟩ := decodeCount_eq_ok hc
      have hhead := length_covered (Reading.read_eq_ok.mp hcount).1
      obtain ⟨hl, _, body, hb, hbody⟩ := decodeElements_rewritten he hd
      have hlen := hl.trans (Supply.length_resize hr)
      subst hlen
      change encodeElements walk.toWalk _ stream pc _ _ path middle.cursor.offset = .ok body at hb
      rw [hhead.offset_eq] at hb
      exact ⟨_, (ShapeWritten.sequence hmax hb).encodeShape_eq, hhead.append hbody⟩
  | @array leaf count items elements hc hd =>
      obtain ⟨hl, hflat, cells, hcells, hcover⟩ := decodeElements_rewritten he hd
      have helems := Value.flattenItems_refillItems_of_length hl hflat
      refine ⟨cells, ShapeWritten.encodeShape_eq (.array ?_ ?_), hcover⟩
      · rw [helems, hl, hc]
      · rwa [helems]

/-- Fields that the instructions do not address stay, and if no instruction addresses the field
of another, all are written as they were read. -/
theorem decodeFields_rewritten {fuel : Nat} (he : RewritesNested walk fuel) {stream : UInt32}
    {path : Path} {insns : List Instruction} {start : List (UInt32 × Value)} {value : Value}
    {before after : Reading}
    (h : decodeFields (decodeField walk (decodeStruct walk fuel) stream path) insns
      (.struct start) before = .ok (value, after)) :
    ∃ fields, value = .struct fields ∧
      (∀ index, index ∉ insns.map Instruction.field →
        fields.lookup index = start.lookup index) ∧
      ((insns.map Instruction.field).Nodup →
        Rewritten before after (emitAll (encodeField walk.toWalk (encodeStruct walk.toWalk fuel)
          stream value path) insns before.cursor.offset)) := by
  induction insns generalizing start before with
  | nil =>
      cases h
      exact ⟨start, rfl, fun _ _ => rfl, fun _ => ⟨[], rfl, .nil _⟩⟩
  | cons insn rest ih =>
      obtain ⟨next, middle, hf, hr⟩ := decodeFields_cons_eq_ok.mp h
      obtain ⟨found, found', _, hd, rfl⟩ := decodeField_eq_ok hf
      obtain ⟨fields, rfl, hkeep, hwrite⟩ := ih hr
      refine ⟨fields, rfl, ?_, ?_⟩
      · intro index hi
        rw [List.map_cons, List.mem_cons, not_or] at hi
        rw [hkeep index hi.2, Value.lookup_insertField, if_neg hi.1]
      · intro hnodup
        obtain ⟨hnot, hrest⟩ := List.nodup_cons.mp hnodup
        have hfound : (Value.struct fields).field? insn.field = some found' := by
          change fields.lookup insn.field = some found'
          rw [hkeep insn.field hnot, Value.lookup_insertField, if_pos rfl]
        obtain ⟨head, hh, hcover⟩ := decodeShape_rewritten he hd
        obtain ⟨tail, ht, hcover'⟩ := hwrite hrest
        refine ⟨head ++ tail, emitAll_cons_eq_ok.mpr ⟨head, tail, ?_, ?_, rfl⟩,
          hcover.append hcover'⟩
        · simp only [encodeField, hfound, hh]
        · rwa [hcover.offset_eq] at ht

end Marshal

/-- No stream addresses a field twice. -/
def Program.fieldsDistinct (program : Program) : Bool :=
  program.numbered.all fun (id, words) =>
    decide ((Scan.read id words).instructions.map Instruction.field).Nodup

theorem Program.nodup_of_fieldsDistinct {program : Program} (h : program.fieldsDistinct = true)
    {id : UInt32} {words : Stream} (hw : program.stream? id = some words) :
    ((Scan.read id words).instructions.map Instruction.field).Nodup := by
  have hm := List.mem_of_getElem? (numbered_of_stream? hw)
  exact of_decide_eq_true (List.all_eq_true.mp h (id, words) hm)

/-- Every instruction finds a field of its own shape where no field is addressed twice. -/
theorem Shaped.exists_field {program : Program} (hd : program.fieldsDistinct = true)
    {target : UInt32} {words : Stream} {fields : List (UInt32 × Value)}
    (hs : Shaped program (.single (.struct target)) (.struct fields))
    (hw : program.stream? target = some words) {insn : Instruction}
    (hi : insn ∈ (Scan.read target words).instructions) :
    ∃ found, fields.lookup insn.field = some found ∧ Shaped program insn.shape found := by
  obtain ⟨shape, hshape⟩ := exists_fieldShape? hi
  obtain ⟨last, hm, hfield, rfl⟩ := mem_of_fieldShape? hshape
  have hsame := List.inj_on_of_nodup_map (Program.nodup_of_fieldsDistinct hd hw) hm hi hfield
  subst hsame
  cases hs with
  | struct hw' ha hf =>
      cases hw.symm.trans hw'
      obtain ⟨found, hfound⟩ := ha.exists_value hshape
      exact ⟨found, hfound, hf _ _ _ hshape hfound⟩

namespace Marshal

variable {walk : DecodeWalk}

theorem decodeStruct_rewritten (hd : walk.desc.program.fieldsDistinct = true) (fuel : Nat) :
    RewritesNested walk fuel := by
  induction fuel with
  | zero =>
      intro stream words start value path before after h
      cases h
  | succ fuel ih =>
      intro stream words start value path before after h hw
      obtain ⟨h, pc, hend⟩ := decodeStruct_succ_eq_ok.mp h
      obtain ⟨fields, rfl, _, hwrite⟩ := decodeFields_rewritten ih h
      obtain ⟨cells, hc, hcover⟩ := hwrite (Program.nodup_of_fieldsDistinct hd hw)
      exact ⟨⟨fields, rfl⟩, cells, encodeStruct_succ_eq_ok.mpr ⟨hc, pc, hend⟩, hcover⟩

/-- What a successful decoding read, and the cells it is encoded to. -/
theorem decode_rewritten {desc : Descriptor} {wire : WireFormat} {start sample : Value}
    {bytes : List UInt8} {after : Reading} (hd : desc.program.fieldsDistinct = true)
    (hs : Shaped desc.program (.single (.struct 0)) start)
    (h : decode { desc, wire } start bytes = .ok (sample, after)) :
    Shaped desc.program (.single (.struct 0)) sample ∧
      ∃ cells consumed, encode (σ := List Cell) ⟨desc, wire⟩ sample = .ok cells ∧
        List.Forall₂ Covers cells consumed ∧ bytes = consumed ++ after.cursor.rest := by
  obtain ⟨words, hw, h⟩ := bind_eq_ok.mp h
  have hroot := Walk.root_eq_ok.mp hw
  have hsample := decodeStruct_shaped (maxNesting + 1) _ _ _ _ _ _ _ _ h hs
  cases hs with
  | struct _ _ _ =>
      obtain ⟨_, cells, hc, consumed, hcover, hr, _⟩ :=
        decodeStruct_rewritten hd (maxNesting + 1) _ _ _ _ _ _ _ h hroot
      refine ⟨hsample, cells, consumed, ?_, hcover, hr⟩
      exact bind_eq_ok.mpr ⟨words, hw, hc⟩

end Marshal

namespace WireFormat

open Marshal

/-- Whether the byte at a place of the encoded instance is there for alignment only. -/
def isPadding (wire : WireFormat) (desc : Descriptor) (value : Value) (i : Nat) : Bool :=
  match encode (σ := List Cell) ⟨desc, wire⟩ value with
  | .ok cells => cells[i]? == some .padding
  | .error _ => false

/-- Cells that stand for bytes are written as these bytes, and as zero where they are padding. -/
theorem byte_of_covers {cells : List Cell} {bytes : List UInt8}
    (h : List.Forall₂ Covers cells bytes) {i : Nat} (hi : i < cells.length) :
    (cells.map Cell.byte)[i]? = if cells[i]? == some .padding then some 0 else bytes[i]? := by
  induction h generalizing i with
  | nil => cases hi
  | cons hc _ ih =>
      cases i with
      | zero => rcases hc with rfl | rfl <;> rfl
      | succ i => simpa using ih (by simpa using hi)

/-- Accepted input is canonical up to padding and what follows: the sample is encoded to a front
of it, with zeros for padding, and decoded from that again. -/
theorem serialize_of_deserialize {desc : Descriptor} {wire : WireFormat} {bytes : List UInt8}
    {sample : Value} (hd : desc.program.fieldsDistinct = true)
    (h : wire.deserialize desc bytes = .ok sample) :
    ∃ out, wire.serialize desc sample = .ok out ∧ out.length ≤ bytes.length ∧
      (∀ i < out.length,
        out[i]? = if wire.isPadding desc sample i then some 0 else bytes[i]?) ∧
      wire.deserialize desc out = .ok sample := by
  obtain ⟨start, hstart, h⟩ := bind_eq_ok.mp h
  obtain ⟨⟨found, after⟩, h, hfound⟩ := bind_eq_ok.mp h
  cases hfound
  have hstart := mapError_eq_ok.mp hstart
  obtain ⟨hs, cells, consumed, hcells, hcover, rfl⟩ :=
    decode_rewritten hd (Program.default_shaped hstart) h
  have hout : wire.serialize desc sample = .ok (cells.map Cell.byte) := by
    unfold serialize
    rw [encode_map Cell.bytes_hom, hcells]
    rfl
  have hl := hcover.length_eq
  refine ⟨_, hout, ?_, ?_, ?_⟩
  · rw [List.length_map, List.length_append]
    omega
  · intro i hi
    rw [List.length_map] at hi
    rw [byte_of_covers hcover hi, isPadding, hcells, List.getElem?_append_left (by omega)]
  · simpa using (deserialize_reads hstart hs hout).1 []

/-- A list of points, each a number and one that aligns to eight bytes. -/
def track : Descriptor where
  typeName := "Track"
  program := ⟨[
    Stream.assemble [(0, .single .bool, false), (1, .sequence (.struct 1), false),
      (2, .single (.string none), false)],
    Stream.assemble [(0, .single (.number .u16), false), (1, .single (.number .f64), false)]]⟩

def trackSample : Value :=
  .struct [(0, .scalar (.bool true)),
    (1, .sequence (.leaf track.program (.struct 1)) [.struct [(0, .scalar (.number .u16 258)),
      (1, .scalar (.number .f64 0x7ff8000000000001))]]),
    (2, .text "a")]

/-- With nines for padding and behind the end. -/
def trackBytes : List UInt8 :=
  [1, 9, 9, 9, 0, 0, 0, 1, 1, 2, 9, 9, 9, 9, 9, 9, 127, 248, 0, 0, 0, 0, 0, 1, 0, 0, 0, 2, 97, 0,
    9, 9]

theorem serialize_trackSample :
    track.program.fieldsDistinct = true ∧
      bigEndian.deserialize track trackBytes = .ok trackSample ∧
      ∃ out, bigEndian.serialize track trackSample = .ok out ∧
        out.length ≤ trackBytes.length ∧
        (∀ i < out.length,
          out[i]? = if bigEndian.isPadding track trackSample i then some 0 else trackBytes[i]?) ∧
        bigEndian.deserialize track out = .ok trackSample := by
  have hd : track.program.fieldsDistinct = true := by with_unfolding_all rfl
  have h : bigEndian.deserialize track trackBytes = .ok trackSample := by with_unfolding_all rfl
  exact ⟨hd, h, serialize_of_deserialize hd h⟩

end WireFormat
end TopicCodec
