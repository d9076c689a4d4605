import TopicCodec.Proofs.Canonical

/-!
# The check for room refuses nothing

A sequence is refused at once where the bytes left cannot hold as many elements as it
announces. Whoever leaves the check out accepts the same input with the same result: the
elements of a sequence that is read to its end have consumed at least what the check asks
for. This needs that the lower bounds in use are true, which they are however deep the
stream stood for which they were worked out, and that reading neither makes nor loses
bytes.

The walk that has been completed vouches for the bounds, so one lemma serves both
directions: what one walk accepts, every other walk over the same program accepts.
-/
namespace TopicCodec.Marshal

variable {walk : DecodeWalk} {enter : DecodeNested}

/-! ## What every read keeps, a run keeps -/

structure Kept (walk : DecodeWalk) (R : Reading → Reading → Prop) : Prop where
  refl : ∀ reading, R reading reading
  trans : ∀ first middle last, R first middle → R middle last → R first last
  take : ∀ path count before bytes after,
    before.read path (Cursor.take count) = .ok (bytes, after) → R before after
  number : ∀ path width before n after,
    before.read path (Cursor.number walk.wire width) = .ok (n, after) → R before after
  count : ∀ leaf path before n after,
    decodeCount walk leaf path before = .ok (n, after) → R before after

def KeptNested (R : Reading → Reading → Prop) (enter : DecodeNested) : Prop :=
  ∀ stream words start path before value after,
    enter stream words start path before = .ok (value, after) → R before after

namespace Kept

variable {R : Reading → Reading → Prop} (hk : Kept walk R)
include hk

theorem decodeText {bound : Option UInt32} {path : Path} {before after : Reading} {text : String}
    (h : decodeText walk.wire bound path before = .ok (text, after)) : R before after := by
  obtain ⟨length, middle, bytes, hl, _, hb, _⟩ := decodeText_eq_ok h
  apply hk.trans before middle after
  · exact hk.number path lengthWidth before length middle hl
  · exact hk.take path length middle bytes after hb

theorem decodeLeaf (he : KeptNested R enter) {stream : UInt32} {pc : Nat} {leaf : Leaf}
    {start value : Value} {path : Path} {before after : Reading}
    (h : decodeLeaf walk enter stream pc leaf start path before = .ok (value, after)) :
    R before after := by
  cases leafRead h with
  | number old bits hb =>
      have hb := Reading.read_eq_ok.mp hb
      apply hk.number path _ before bits.toNat after
      exact Reading.read_eq_ok.mpr ⟨Cursor.scalar_eq_ok.mp hb.1, hb.2⟩
  | bool old flag hb => exact hk.take path 1 before _ after (decodeBool_eq_ok hb)
  | text old text ht => exact hk.decodeText ht
  | struct hw hs => exact he _ _ _ _ before value after hs

theorem decodeElements (he : KeptNested R enter) {stream : UInt32} {pc : Nat} {leaf : Leaf}
    {starts values : List Value} {path : Path} {before after : Reading}
    (h : decodeElements walk enter stream pc leaf starts path before = .ok (values, after)) :
    R before after := by
  unfold Marshal.decodeElements at h
  generalize 0 = first at h
  induction starts generalizing values before first with
  | nil =>
      cases h
      exact hk.refl _
  | cons start starts ih =>
      obtain ⟨value, middle, rest, hv, hr, rfl⟩ := readAll_zipIdx_cons_eq_ok.mp h
      apply hk.trans before middle after
      · exact hk.decodeLeaf he hv
      · exact ih _ hr

theorem decodeShape (he : KeptNested R enter) {stream : UInt32} {pc : Nat} {shape : Shape}
    {start value : Value} {path : Path} {before after : Reading}
    (h : decodeShape walk enter stream pc shape start path before = .ok (value, after)) :
    R before after := by
  cases shapeRead h with
  | single hl => exact hk.decodeLeaf he hl
  | @sequence leaf _ _ _ _ _ count middle hc _ hd =>
      apply hk.trans before middle after
      · exact hk.count leaf path before count middle hc
      · exact hk.decodeElements he hd
  | array _ hd => exact hk.decodeElements he hd

theorem decodeStruct (fuel : Nat) : KeptNested R (decodeStruct walk fuel) := by
  induction fuel with
  | zero =>
      intro stream words start path before value after h
      cases h
  | succ fuel ih =>
      intro stream words start path before value after h
      replace h := (decodeStruct_succ_eq_ok.mp h).1
      generalize (Scan.read stream words).instructions = insns at h
      induction insns generalizing start before with
      | nil =>
          cases h
          exact hk.refl _
      | cons insn rest ihi =>
          obtain ⟨next, middle, hf, hr⟩ := decodeFields_cons_eq_ok.mp h
          obtain ⟨found, found', _, hd, _⟩ := decodeField_eq_ok hf
          apply hk.trans before middle after
          · exact hk.decodeShape ih hd
          · exact ihi next middle hr

end Kept

/-- Bytes consumed and bytes left, together. -/
def Reading.total (reading : Reading) : Nat := reading.cursor.offset + reading.cursor.remaining

theorem total_kept (walk : DecodeWalk) :
    Kept walk fun before after => before.total = after.total where
  refl _ := rfl
  trans _ _ _ h h' := h.trans h'
  take path count before bytes after h := by
    have ht := Cursor.take_eq_ok.mp (Reading.read_eq_ok.mp h).1
    simp only [Reading.total, Cursor.remaining, ht.1, ht.2.2, List.length_append, ht.2.1]
    omega
  number path width before n after h := by
    obtain ⟨skipped, bytes, hr, hs, hl, _, ho⟩ :=
      Cursor.number_eq_ok.mp (Reading.read_eq_ok.mp h).1
    simp only [Reading.total, Cursor.remaining, hr, ho, List.length_append, hs, hl]
    omega
  count leaf path before n after h := by
    obtain ⟨middle, hl, _, _, rfl⟩ := decodeCount_eq_ok h
    obtain ⟨skipped, bytes, hr, hs, hw, _, ho⟩ :=
      Cursor.number_eq_ok.mp (Reading.read_eq_ok.mp hl).1
    simp only [Reading.total, Cursor.remaining, hr, ho, List.length_append, hs, hw]
    omega

theorem sound_kept (walk : DecodeWalk) :
    Kept walk fun before after => Sound walk before.known → Sound walk after.known where
  refl _ h := h
  trans _ _ _ h h' hs := h' (h hs)
  take path count before bytes after h hs := (Reading.read_eq_ok.mp h).2 ▸ hs
  number path width before n after h hs := (Reading.read_eq_ok.mp h).2 ▸ hs
  count leaf path before n after h hs := by
    obtain ⟨middle, hl, _, _, rfl⟩ := decodeCount_eq_ok h
    have hm : Sound walk middle.known := (Reading.read_eq_ok.mp hl).2 ▸ hs
    exact (minElement_bound leaf hm).2

/-! ## From one walk to another -/

/-- The same walk with the check for room on or off. -/
def DecodeWalk.withCheck (walk : DecodeWalk) (check : Bool) : DecodeWalk :=
  { walk with checkRoom := check }

/-- What `enter` accepts as part of `walk`, `enter'` accepts with the same result. -/
def TransfersNested (walk : DecodeWalk) (enter enter' : DecodeNested) : Prop :=
  ∀ stream words start path before value after, Sound walk before.known →
    enter stream words start path before = .ok (value, after) →
    enter' stream words start path before = .ok (value, after)

section Transfer
variable {enter' : DecodeNested} (check : Bool)

theorem decodeLeaf_transfers (he : TransfersNested walk enter enter') {stream : UInt32} {pc : Nat}
    {leaf : Leaf} {start value : Value} {path : Path} {before after : Reading}
    (hs : Sound walk before.known)
    (h : decodeLeaf walk enter stream pc leaf start path before = .ok (value, after)) :
    decodeLeaf (walk.withCheck check) enter' stream pc leaf start path before =
      .ok (value, after) := by
  have hr : LeafRead (walk.withCheck check) enter' path before after leaf start value := by
    cases leafRead h with
    | number old bits hb => exact .number old bits hb
    | bool old flag hb => exact .bool old flag hb
    | text old text ht => exact .text old text ht
    | struct hw hr => exact .struct hw (he _ _ _ _ _ _ _ hs hr)
  exact hr.decodeLeaf_eq stream pc

theorem decodeElements_transfer (he : TransfersNested walk enter enter')
    (hk : KeptNested (fun before after => Sound walk before.known → Sound walk after.known) enter)
    {stream : UInt32} {pc : Nat} {leaf : Leaf} {starts values : List Value} {path : Path}
    {before after : Reading} (hs : Sound walk before.known)
    (h : decodeElements walk enter stream pc leaf starts path before = .ok (values, after)) :
    decodeElements (walk.withCheck check) enter' stream pc leaf starts path before =
      .ok (values, after) := by
  unfold decodeElements at h ⊢
  generalize 0 = first at h ⊢
  induction starts generalizing values before first with
  | nil => exact h
  | cons start starts ih =>
      obtain ⟨value, middle, rest, hv, hr, rfl⟩ := readAll_zipIdx_cons_eq_ok.mp h
      have hm : Sound walk middle.known := (sound_kept walk).decodeLeaf hk hv hs
      have hv' := decodeLeaf_transfers check he hs hv
      have hr' := ih hm _ hr
      exact readAll_zipIdx_cons_eq_ok.mpr ⟨value, middle, rest, hv', hr', rfl⟩

/-- A count passes the check of every walk once as many elements have been read. -/
theorem decodeCount_transfers {fuel : Nat} {stream : UInt32} {pc : Nat} {leaf : Leaf}
    {grown values : List Value} {path : Path} {before middle after : Reading}
    (hs : Sound walk before.known)
    (h : decodeCount walk leaf path before = .ok (grown.length, middle))
    (hd : decodeElements walk (decodeStruct walk fuel) stream pc leaf grown path middle =
      .ok (values, after)) :
    decodeCount (walk.withCheck check) leaf path before = .ok (grown.length, middle) := by
  obtain ⟨first, hl, hmax, _, rfl⟩ := decodeCount_eq_ok h
  have hf : Sound walk first.known := (Reading.read_eq_ok.mp hl).2 ▸ hs
  have hused := decodeElements_advances ((minElement_bound leaf hf).1 fuel) stream pc grown path
    _ _ after hd
  have htotal := (total_kept walk).decodeElements ((total_kept walk).decodeStruct fuel) hd
  have hsat := saturate_le (grown.length * (minElement walk.desc.program leaf first.known).1)
  simp only [Reading.total] at hused htotal
  have hroom : ¬ first.cursor.remaining <
      saturate (grown.length * (minElement walk.desc.program leaf first.known).1) := by
    omega
  have hcount := @decodeCount_of_read (walk.withCheck check) leaf path before first _ hl hmax
  simpa only [DecodeWalk.withCheck, hroom, decide_false, Bool.and_false, Bool.false_eq_true,
    if_false] using hcount

theorem decodeShape_transfers {fuel : Nat}
    (he : TransfersNested walk (decodeStruct walk fuel) enter') {stream : UInt32} {pc : Nat}
    {shape : Shape} {start value : Value} {path : Path} {before after : Reading}
    (hs : Sound walk before.known)
    (h : decodeShape walk (decodeStruct walk fuel) stream pc shape start path before =
      .ok (value, after)) :
    decodeShape (walk.withCheck check) enter' stream pc shape start path before =
      .ok (value, after) := by
  have hk := (sound_kept walk).decodeStruct fuel
  cases shapeRead h with
  | single hl => exact decodeLeaf_transfers check he hs hl
  | @sequence leaf _ _ _ _ _ count middle hc hr hd =>
      have hlength := Supply.length_resize hr
      subst hlength
      have hm : Sound walk middle.known := (sound_kept walk).count leaf path _ _ _ hc hs
      apply ShapeRead.decodeShape_eq
      exact .sequence (decodeCount_transfers check hs hc hd) hr
        (decodeElements_transfer check he hk hm hd)
  | array hc hd =>
      apply ShapeRead.decodeShape_eq
      exact .array hc (decodeElements_transfer check he hk hs hd)

theorem decodeStruct_transfers (fuel : Nat) :
    TransfersNested walk (decodeStruct walk fuel) (decodeStruct (walk.withCheck check) fuel) := by
  induction fuel with
  | zero =>
      intro stream words start path before value after _ h
      cases h
  | succ fuel ih =>
      intro stream words start path before value after hs h
      have hend := (decodeStruct_succ_eq_ok.mp h).2
      replace h := (decodeStruct_succ_eq_ok.mp h).1
      refine decodeStruct_succ_eq_ok.mpr ⟨?_, hend⟩
      clear hend
      generalize (Scan.read stream words).instructions = insns at h ⊢
      induction insns generalizing start before with
      | nil => exact h
      | cons insn rest ihi =>
          obtain ⟨next, middle, hf, hr⟩ := decodeFields_cons_eq_ok.mp h
          obtain ⟨found, found', hl, hd, rfl⟩ := decodeField_eq_ok hf
          have hm : Sound walk middle.known :=
            (sound_kept walk).decodeShape ((sound_kept walk).decodeStruct fuel) hd hs
          have hd' := decodeShape_transfers check ih hs hd
          refine decodeFields_cons_eq_ok.mpr ⟨_, middle, ?_, ihi _ middle hm hr⟩
          simp only [decodeField, hl, hd']
          rfl

theorem decode_transfers {start value : Value} {bytes : List UInt8} {after : Reading}
    (h : decode walk start bytes = .ok (value, after)) :
    decode (walk.withCheck check) start bytes = .ok (value, after) := by
  obtain ⟨words, hw, h⟩ := bind_eq_ok.mp h
  have h' := decodeStruct_transfers check (maxNesting + 1) _ _ _ _ _ _ _ (sound_nil walk) h
  exact bind_eq_ok.mpr ⟨words, hw, h'⟩

end Transfer

/-! ## Tables of lower bounds -/

/-- The tables that measuring streams leads to, from any depth and in any order. -/
inductive Measured (program : Program) : MinSizes → Prop
  | start : Measured program []
  | measure {known : MinSizes} (depth : Nat) (stream : UInt32) :
      Measured program known → Measured program (minStream program depth stream known).2

theorem Measured.sound {known : MinSizes} (h : Measured walk.desc.program known) :
    Sound walk known := by
  induction h with
  | start => exact sound_nil walk
  | measure depth stream _ ih => exact (minStream_measures depth stream _ ih).2

/-- The check for room refuses no input that is accepted without it, whatever the program and the
instance that is overwritten. For the lower bound of a stream that is worked out or remembered is
never more than what a successful read of that stream consumes. -/
theorem decode_eq_ok_iff_withoutCheck (desc : Descriptor) (wire : WireFormat) :
    (∀ start bytes value after,
      decode { desc, wire, checkRoom := true } start bytes = .ok (value, after) ↔
        decode { desc, wire, checkRoom := false } start bytes = .ok (value, after)) ∧
      ∀ check known depth stream size, Measured desc.program known →
        (minStream desc.program depth stream known).1 = size ∨ known.lookup stream = some size →
        ∀ fuel words start path before value after, desc.program.stream? stream = some words →
          decodeStruct { desc, wire, checkRoom := check } fuel stream words start path before =
            .ok (value, after) →
          before.cursor.offset + size ≤ after.cursor.offset := by
  constructor
  · intro start bytes value after
    constructor
    · intro h
      have h' := decode_transfers false h
      exact h'
    · intro h
      have h' := decode_transfers true h
      exact h'
  · intro check known depth stream size hm hsize fuel words start path before value after hw h
    have hs : Sound { desc, wire, checkRoom := check } known := hm.sound
    have hbound : StreamBound { desc, wire, checkRoom := check } stream size := by
      rcases hsize with rfl | hl
      · exact (minStream_measures depth stream known hs).1
      · exact hs stream size hl
    exact hbound fuel words start path hw before value after h

/-- Trees hold trees: the bound of a tree, a number and a count, is worked out from a stream that
refers to itself. -/
theorem decode_forestBytes_withoutCheck :
    ∃ start after,
      decode { desc := forest, wire := .bigEndian, checkRoom := true } start forestBytes =
          .ok (forestSample, after) ∧
        decode { desc := forest, wire := .bigEndian, checkRoom := false } start forestBytes =
          .ok (forestSample, after) ∧
        Measured forest.program after.known ∧ after.known.lookup 1 = some 8 ∧
        ∀ fuel words start path before value after, forest.program.stream? 1 = some words →
          decodeStruct { desc := forest, wire := .bigEndian, checkRoom := false } fuel 1 words start
            path before = .ok (value, after) →
          before.cursor.offset + 8 ≤ after.cursor.offset := by
  have hm : Measured forest.program [(1, 8)] := by
    have h : (minStream forest.program 2 1 []).2 = [(1, 8)] := by with_unfolding_all rfl
    exact h ▸ Measured.measure 2 1 .start
  have hknown : (decode { desc := forest, wire := .bigEndian } blankForest forestBytes).map
      (·.2.known) = .ok [(1, 8)] := by
    with_unfolding_all rfl
  have hvalue : (decode { desc := forest, wire := .bigEndian } blankForest forestBytes).map
      (·.1) = .ok forestSample := by
    have halike := forestSample_reachable.shaped.alike (Program.default_shaped default_forest)
    exact (WireFormat.deserializeInto_reads halike serialize_forestSample).1 []
  obtain ⟨⟨_, cursor, known⟩, hd, rfl⟩ := map_eq_ok.mp hvalue
  rw [hd] at hknown
  obtain rfl : known = [(1, 8)] := Except.ok.inj hknown
  have h := decode_eq_ok_iff_withoutCheck forest .bigEndian
  exact ⟨_, _, hd, (h.1 _ _ _ _).mp hd, hm, rfl, h.2 false _ 0 1 8 hm (.inr rfl)⟩

end TopicCodec.Marshal
