import TopicCodec.Proofs.Cursor
import TopicCodec.Proofs.Walk

/-!
# The fewest bytes of a structure are a lower bound

Before a sequence is grown, its count is held against the bytes that are left, given a
lower bound of the bytes of one element. Here the bounds are shown to be true: whatever
`minElement` answers, and whatever it has remembered at any depth, no successful read of
such an element consumes less. Nothing is asked of the program: streams may be malformed
or contain themselves.
-/
namespace TopicCodec.Marshal

variable {α β : Type}

/-- Every successful run moves the cursor on by at least `size` bytes. -/
def Advances (size : Nat) (read : Reading → Except CodecError (α × Reading)) : Prop :=
  ∀ before value after, read before = .ok (value, after) →
    before.cursor.offset + size ≤ after.cursor.offset

theorem Advances.mono {read : Reading → Except CodecError (α × Reading)} {size least : Nat}
    (h : Advances size read) (hl : least ≤ size) : Advances least read := by
  intro before value after hr
  exact Nat.le_trans (Nat.add_le_add_left hl _) (h before value after hr)

theorem read_take_advances (path : Path) (count : Nat) :
    Advances count fun reading => reading.read path (Cursor.take count) := by
  intro before bytes after h
  obtain ⟨_, _, ho⟩ := Cursor.take_eq_ok.mp (Reading.read_eq_ok.mp h).1
  omega

theorem read_number_advances (wire : WireFormat) (path : Path) (width : Nat) :
    Advances width fun reading => reading.read path (Cursor.number wire width) := by
  intro before n after h
  obtain ⟨_, _, _, _, _, _, ho⟩ := Cursor.number_eq_ok.mp (Reading.read_eq_ok.mp h).1
  omega

theorem read_scalar_advances (wire : WireFormat) (path : Path) (kind : ScalarKind) :
    Advances kind.width fun reading => reading.read path (Cursor.scalar wire kind) := by
  intro before bits after h
  obtain ⟨hb, hk⟩ := Reading.read_eq_ok.mp h
  exact read_number_advances wire path kind.width before _ after
    (Reading.read_eq_ok.mpr ⟨Cursor.scalar_eq_ok.mp hb, hk⟩)

theorem decodeText_advances (wire : WireFormat) (bound : Option UInt32) (path : Path) :
    Advances 5 (decodeText wire bound path) := by
  intro before text after h
  obtain ⟨length, middle, bytes, hl, ⟨hz, _⟩, hb, _⟩ := decodeText_eq_ok h
  have h₁ := read_number_advances wire path lengthWidth before length middle hl
  have h₂ := read_take_advances path length middle bytes after hb
  unfold lengthWidth at h₁
  omega

theorem decodeBool_advances (path : Path) : Advances 1 (decodeBool path) := by
  intro before flag after h
  exact read_take_advances path 1 before _ after (decodeBool_eq_ok h)

theorem readAll_advances {read : α → Reading → Except CodecError (β × Reading)} {size : Nat}
    {items : List α} (h : ∀ item ∈ items, Advances size (read item)) :
    Advances (items.length * size) (readAll read items) := by
  induction items with
  | nil =>
      intro before values after hr
      cases hr
      simp
  | cons first rest ih =>
      intro before values after hr
      obtain ⟨value, middle, tail, hv, ht, rfl⟩ := readAll_cons_eq_ok.mp hr
      have h₁ := h first (by simp) before value middle hv
      have h₂ := ih (fun item hi => h item (by simp [hi])) middle tail after ht
      rw [List.length_cons, Nat.succ_mul]
      omega

variable {walk : DecodeWalk} {enter : DecodeNested}

/-- No read of the leaf consumes less than `size` bytes. -/
def LeafBound (walk : DecodeWalk) (enter : DecodeNested) (leaf : Leaf) (size : Nat) : Prop :=
  ∀ stream pc value path, Advances size (decodeLeaf walk enter stream pc leaf value path)

theorem decodeElements_advances {leaf : Leaf} {size : Nat} (h : LeafBound walk enter leaf size)
    (stream : UInt32) (pc : Nat) (items : List Value) (path : Path) :
    Advances (items.length * size) (decodeElements walk enter stream pc leaf items path) := by
  intro before values after hr
  unfold decodeElements at hr
  have hl : items.length = items.zipIdx.length := List.length_zipIdx.symm
  rw [hl]
  refine readAll_advances ?_ before values after hr
  rintro ⟨item, i⟩ - before value after hv
  exact h stream pc item (path.element i) before value after (decodeElement_eq_ok.mp hv)

/-- A leaf that is no structure consumes its least size. -/
theorem leafBound_minSize (leaf : Leaf) (h : leaf.stream? = none) :
    LeafBound walk enter leaf leaf.minSize := by
  intro stream pc value path before value' after hr
  cases leafRead hr with
  | number old bits hb => exact read_scalar_advances walk.wire path _ before bits after hb
  | bool old flag hb => exact decodeBool_advances path before flag after hb
  | text old text ht => exact decodeText_advances walk.wire _ path before text after ht
  | struct => cases h

/-- Fewest bytes of a field, given those of one leaf. -/
def leastOf (size : Nat) : Shape → Nat
  | .single _ => size
  | .sequence _ => lengthWidth
  | .array _ count => size * count.toNat

theorem decodeShape_advances (shape : Shape) {size : Nat}
    (h : LeafBound walk enter shape.leaf size) (stream : UInt32) (pc : Nat) (value : Value)
    (path : Path) :
    Advances (leastOf size shape) (decodeShape walk enter stream pc shape value path) := by
  intro before value' after hr
  cases shapeRead hr with
  | single hl => exact h stream pc value path before value' after hl
  | sequence hc _ he =>
      obtain ⟨middle, hl, _, _, rfl⟩ := decodeCount_eq_ok hc
      have h₁ := read_number_advances walk.wire path lengthWidth before _ middle hl
      have h₂ := decodeElements_advances h stream pc _ path _ _ after he
      simp only [leastOf] at h₂ ⊢
      omega
  | array hc he =>
      have h₁ := decodeElements_advances h stream pc _ path before _ after he
      rw [hc, Nat.mul_comm] at h₁
      exact h₁

theorem decodeField_advances {insn : Instruction} {size : Nat}
    (h : ∀ stream pc value path,
      Advances size (decodeShape walk enter stream pc insn.shape value path))
    (stream : UInt32) (path : Path) (value : Value) :
    Advances size (decodeField walk enter stream path insn value) := by
  intro before value' after hr
  obtain ⟨found, found', _, hs, _⟩ := decodeField_eq_ok hr
  exact h stream insn.pc found (path.field insn.field) before found' after hs

/-- No read of the stream, however deep it stands, consumes less than `size` bytes. -/
def StreamBound (walk : DecodeWalk) (stream : UInt32) (size : Nat) : Prop :=
  ∀ fuel words value path, walk.desc.program.stream? stream = some words →
    Advances size (decodeStruct walk fuel stream words value path)

theorem leafBound_struct {stream : UInt32} {size : Nat}
    (h : ∀ words value path, walk.desc.program.stream? stream = some words →
      Advances size (enter stream words value path)) :
    LeafBound walk enter (.struct stream) size := by
  intro outer pc value path before value' after hr
  cases leafRead hr with
  | struct hs he => exact h _ _ path hs before value' after he

theorem decodeStruct_advances_zero (fuel : Nat) (stream : UInt32) (words : Stream) (value : Value)
    (path : Path) : Advances 0 (decodeStruct walk fuel stream words value path) := by
  induction fuel generalizing stream words value path with
  | zero =>
      intro before value' after h
      cases h
  | succ fuel ih =>
      have hleaf (leaf : Leaf) : LeafBound walk (decodeStruct walk fuel) leaf 0 := by
        intro outer pc value path before value' after h
        cases leaf with
        | struct target =>
            exact leafBound_struct (fun words value path _ => ih target words value path)
              outer pc value path before value' after h
        | _ =>
            exact (leafBound_minSize _ rfl outer pc value path).mono (Nat.zero_le _)
              before value' after h
      intro before value' after h
      replace h := (decodeStruct_succ_eq_ok.mp h).1
      generalize (Scan.read stream words).instructions = insns at h
      induction insns generalizing value before with
      | nil =>
          cases h
          exact Nat.le_refl _
      | cons insn rest ihi =>
          obtain ⟨next, middle, hf, hr⟩ := decodeFields_cons_eq_ok.mp h
          have h₁ := decodeField_advances (fun stream pc value path =>
            decodeShape_advances insn.shape (hleaf insn.shape.leaf) stream pc value path)
            stream path value before next middle hf
          have h₂ := ihi next middle hr
          omega

/-- Everything remembered is a lower bound. -/
def Sound (walk : DecodeWalk) (known : MinSizes) : Prop :=
  ∀ stream size, known.lookup stream = some size → StreamBound walk stream size

theorem sound_nil (walk : DecodeWalk) : Sound walk [] := by
  intro stream size h
  cases h

theorem Sound.cons {known : MinSizes} (h : Sound walk known) {stream : UInt32} {size : Nat}
    (hs : StreamBound walk stream size) : Sound walk ((stream, size) :: known) := by
  intro other found hl
  rw [List.lookup_cons] at hl
  split at hl
  · rename_i he
    cases hl
    rw [beq_iff_eq.mp he]
    exact hs
  · exact h other found hl

/-- A way to look up or work out the bounds of streams, which only gives true ones. -/
def Measures (walk : DecodeWalk) (measure : UInt32 → MinSizes → Nat × MinSizes) : Prop :=
  ∀ stream known, Sound walk known →
    StreamBound walk stream (measure stream known).1 ∧ Sound walk (measure stream known).2

theorem saturate_le (size : Nat) : saturate size ≤ size := Nat.min_le_left _ _

section Measures
variable {measure : UInt32 → MinSizes → Nat × MinSizes} (hm : Measures walk measure)
include hm

theorem minLeaf_bound (leaf : Leaf) {known : MinSizes} (hk : Sound walk known) :
    (∀ fuel, LeafBound walk (decodeStruct walk fuel) leaf (minLeaf measure leaf known).1) ∧
      Sound walk (minLeaf measure leaf known).2 := by
  cases leaf with
  | struct stream =>
      obtain ⟨hs, hk'⟩ := hm stream known hk
      exact ⟨fun fuel => leafBound_struct (hs fuel), hk'⟩
  | number kind => exact ⟨fun fuel => leafBound_minSize (.number kind) rfl, hk⟩
  | bool => exact ⟨fun fuel => leafBound_minSize .bool rfl, hk⟩
  | string bound => exact ⟨fun fuel => leafBound_minSize (.string bound) rfl, hk⟩

theorem minShape_bound (shape : Shape) {known : MinSizes} (hk : Sound walk known) :
    (∀ fuel stream pc value path, Advances (minShape measure shape known).1
      (decodeShape walk (decodeStruct walk fuel) stream pc shape value path)) ∧
      Sound walk (minShape measure shape known).2 := by
  cases shape with
  | single leaf =>
      obtain ⟨hl, hk'⟩ := minLeaf_bound hm leaf hk
      exact ⟨fun fuel => decodeShape_advances (.single leaf) (hl fuel), hk'⟩
  | sequence leaf =>
      have hl := (minLeaf_bound hm leaf hk).1
      exact ⟨fun fuel => decodeShape_advances (.sequence leaf) (hl fuel), hk⟩
  | array leaf count =>
      obtain ⟨hl, hk'⟩ := minLeaf_bound hm leaf hk
      exact ⟨fun fuel stream pc value path => (decodeShape_advances (.array leaf count)
        (hl fuel) stream pc value path).mono (saturate_le _), hk'⟩

theorem minShapes_bound (insns : List Instruction) (total : Nat) {known : MinSizes}
    (hk : Sound walk known) :
    (∀ fuel stream path value before value' after,
      decodeFields (decodeField walk (decodeStruct walk fuel) stream path) insns value before =
        .ok (value', after) →
      before.cursor.offset + (minShapes measure insns total known).1 ≤
        after.cursor.offset + total) ∧
      Sound walk (minShapes measure insns total known).2 := by
  induction insns generalizing total known with
  | nil =>
      refine ⟨?_, hk⟩
      intro fuel stream path value before value' after h
      cases h
      exact Nat.le_refl _
  | cons insn rest ih =>
      obtain ⟨hs, hk'⟩ := minShape_bound hm insn.shape hk
      obtain ⟨hr, hk''⟩ := ih (saturate (total + (minShape measure insn.shape known).1)) hk'
      refine ⟨?_, hk''⟩
      intro fuel stream path value before value' after h
      obtain ⟨next, middle, hf, ht⟩ := decodeFields_cons_eq_ok.mp h
      have h₁ := decodeField_advances (hs fuel) stream path value before next middle hf
      have h₂ := hr fuel stream path next middle value' after ht
      have h₃ := saturate_le (total + (minShape measure insn.shape known).1)
      simp only [minShapes]
      omega

end Measures

/-- Looking up and working out bounds gives true ones, at whatever depth it stops. -/
theorem minStream_measures (fuel : Nat) : Measures walk (minStream walk.desc.program fuel) := by
  have hzero (stream : UInt32) : StreamBound walk stream 0 :=
    fun fuel words value path _ => decodeStruct_advances_zero fuel stream words value path
  induction fuel with
  | zero =>
      intro stream known hk
      unfold minStream
      split
      · exact ⟨hk stream _ ‹_›, hk⟩
      · exact ⟨hzero stream, hk⟩
  | succ fuel ih =>
      intro stream known hk
      unfold minStream
      split
      · exact ⟨hk stream _ ‹_›, hk⟩
      · split
        · rename_i words hfuel hw
          cases hfuel
          dsimp only
          obtain ⟨hb, hk'⟩ :=
            minShapes_bound ih (Scan.readAll stream words).instructions 0 hk
          have hs : StreamBound walk stream (minShapes (minStream walk.desc.program fuel)
              (Scan.readAll stream words).instructions 0 known).1 := by
            intro depth found value path hf before value' after h
            rw [hw] at hf
            cases hf
            cases depth with
            | zero => cases h
            | succ depth =>
                have hd := (decodeStruct_succ_eq_ok.mp h).1
                rw [← Scan.instructions_readAll] at hd
                exact hb depth stream path value before value' after hd
          split
          · exact ⟨hs, hk'.cons hs⟩
          · exact ⟨hzero stream, hk'⟩
        · exact ⟨hzero stream, hk⟩

/-- Fewest bytes of an element: a lower bound, and what is remembered stays true. -/
theorem minElement_bound (leaf : Leaf) {known : MinSizes} (hk : Sound walk known) :
    (∀ fuel, LeafBound walk (decodeStruct walk fuel) leaf
      (minElement walk.desc.program leaf known).1) ∧
      Sound walk (minElement walk.desc.program leaf known).2 :=
  minLeaf_bound (minStream_measures walk.desc.program.length) leaf hk

end TopicCodec.Marshal
