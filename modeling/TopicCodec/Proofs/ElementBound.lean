import Mathlib.Algebra.Order.BigOperators.Group.List
import TopicCodec.Proofs.DataFaults
import TopicCodec.Proofs.FaultOffsets

/-!
# Elements are paid for with bytes

A count in the data says how many elements a sequence is to have, and inside each of them further
counts may stand. Still a decoder cannot be made to build more elements than there are bytes, if
an element of a sequence takes at least one. Every read adds at most as many elements to the
instance as it consumes bytes, less one if it consumes any (`Paid`). The byte that is left over
pays for the element itself if what was read is one, and the bytes of a count are left over for
the sequence.

Where a field is read more than once, what was there before counts as well; so the elements are
compared with those of the instance that is overwritten. A default instance has none.
-/
namespace TopicCodec

open Relation

namespace Value

mutual

/-- Elements of the sequences in a value, at all depths. -/
def elements : Value → Nat
  | struct fields => elementsFields fields
  | array items => elementsItems items
  | sequence _ items => items.length + elementsItems items
  | _ => 0

def elementsFields : List (UInt32 × Value) → Nat
  | [] => 0
  | (_, value) :: rest => elements value + elementsFields rest

def elementsItems : List Value → Nat
  | [] => 0
  | item :: rest => elements item + elementsItems rest

end

theorem elementsItems_eq (items : List Value) : elementsItems items = (items.map elements).sum := by
  induction items with
  | nil => rfl
  | cons item rest ih => rw [elementsItems, ih, List.map_cons, List.sum_cons]

theorem elementsFields_eq_zero {fields : List (UInt32 × Value)}
    (h : ∀ field ∈ fields, field.2.elements = 0) : elementsFields fields = 0 := by
  induction fields with
  | nil => rfl
  | cons field rest ih =>
      rw [elementsFields, h field List.mem_cons_self,
        ih fun other ho => h other (List.mem_cons_of_mem _ ho)]

theorem elementsFields_insertField {index : UInt32} {old : Value} (value : Value)
    {fields : List (UInt32 × Value)} (h : Ascending fields)
    (hold : fields.lookup index = some old) :
    elementsFields (insertField index value fields) + old.elements =
      elementsFields fields + value.elements := by
  induction fields with
  | nil => cases hold
  | cons field rest ih =>
      obtain ⟨other, kept⟩ := field
      have hfirst := h.first_le hold
      rw [lookup_cons] at hold
      unfold insertField
      split_ifs at hold ⊢ with hsame hbefore
      · cases hold
        simp only [elementsFields]
        omega
      · exact absurd (UInt32.lt_of_lt_of_le hbefore hfirst) (UInt32.lt_irrefl _)
      · have hrest := ih (List.pairwise_cons.mp h).2 hold
        simp only [elementsFields]
        omega

end Value

theorem Blank.elements_eq_zero {program : Program} {shape : Shape} {value : Value}
    (h : Blank program shape value) : value.elements = 0 := by
  induction h with
  | number | bool | text | sequence => rfl
  | @struct target words fields _ ha _ ih =>
      refine Value.elementsFields_eq_zero fun field hf => ?_
      have hlookup := ha.lookup_of_mem hf
      obtain ⟨shape, hshape⟩ := ha.exists_shape hlookup
      exact ih field.1 shape field.2 hshape hlookup
  | array count _ ih =>
      rw [Value.elements, Value.elementsItems_eq, List.map_replicate, ih, List.sum_replicate,
        Nat.nsmul_eq_mul, Nat.mul_zero]

/-- A sequence that is cut or grows has the elements that were inside its elements, or fewer. -/
theorem Supply.elements_resize {program : Program} {leaf : Leaf} {supply : Supply}
    {items grown : List Value} {length : Nat}
    (h : (Supply.leaf program leaf).resize items length = .ok (supply, grown)) :
    Value.elementsItems grown ≤ Value.elementsItems items := by
  simp only [Value.elementsItems_eq]
  obtain ⟨_, ⟨_, rfl⟩ | ⟨_, first, hfirst, rfl⟩⟩ := resize_leaf_eq_ok.mp h
  · rw [List.map_take]
    exact (List.take_sublist _ _).sum_le_sum fun _ _ => Nat.zero_le _
  · have hblank := Program.defaultElement_blank hfirst
    rw [List.map_append, List.sum_append, List.map_replicate, hblank.elements_eq_zero,
      List.sum_replicate, Nat.nsmul_eq_mul, Nat.mul_zero, Nat.add_zero]

namespace Marshal

/-! ## What a read pays -/

/-- Bytes that a read consumed. -/
def consumed (before after : Reading) : Nat := after.cursor.offset - before.cursor.offset

/-- A read moves on, and adds to `old` at most as many elements as it consumes bytes, but for one
byte. -/
structure Paid (old new : Nat) (before after : Reading) : Prop where
  forward : before.cursor.offset ≤ after.cursor.offset
  within : new ≤ old + (consumed before after - 1)

namespace Paid

variable {old new last : Nat} {before middle after : Reading}

theorem nothing (reading : Reading) (count : Nat) : Paid count count reading reading :=
  ⟨Nat.le_refl _, Nat.le_add_right _ _⟩

theorem of_le (hforward : before.cursor.offset ≤ after.cursor.offset) (h : new ≤ old) :
    Paid old new before after :=
  ⟨hforward, Nat.le_add_right_of_le h⟩

theorem trans (h : Paid old new before middle) (h' : Paid new last middle after) :
    Paid old last before after := by
  obtain ⟨hforward, hwithin⟩ := h
  obtain ⟨hforward', hwithin'⟩ := h'
  unfold consumed at hwithin hwithin'
  exact ⟨hforward.trans hforward', by unfold consumed; omega⟩

theorem beside (h : Paid old new before after) {total total' : Nat}
    (htotal : total' + old = total + new) : Paid total total' before after :=
  ⟨h.forward, by have := h.within; omega⟩

end Paid

variable {walk : DecodeWalk} {enter : DecodeNested}

/-- What is read into structures that the root leads to is paid for. -/
def PaysNested (walk : DecodeWalk) (enter : DecodeNested) : Prop :=
  ∀ target words start value path before after shape,
    ReflTransGen walk.desc.program.RefersTo 0 target →
    walk.desc.program.stream? target = some words →
    enter target words start path before = .ok (value, after) →
    Shaped walk.desc.program shape start → Paid start.elements value.elements before after

section Reads

variable (hp : PaysNested walk enter) {stream : UInt32} {pc : Nat} {leaf : Leaf}
  (ht : ∀ target, leaf = .struct target → ReflTransGen walk.desc.program.RefersTo 0 target)
  {path : Path} {before after : Reading} {shape : Shape}

include hp ht

theorem decodeLeaf_paid {start value : Value}
    (h : decodeLeaf walk enter stream pc leaf start path before = .ok (value, after))
    (hs : Shaped walk.desc.program shape start) :
    Paid start.elements value.elements before after := by
  have hforward (hleaf : leaf.stream? = none) : before.cursor.offset ≤ after.cursor.offset := by
    have hadvance := leafBound_minSize leaf hleaf stream pc start path before value after h
    omega
  cases leafRead h with
  | number old bits _ => exact .of_le (hforward rfl) (Nat.le_refl 0)
  | bool old flag _ => exact .of_le (hforward rfl) (Nat.le_refl 0)
  | text old text _ => exact .of_le (hforward rfl) (Nat.le_refl 0)
  | struct hw he => exact hp _ _ _ _ path before after shape (ht _ rfl) hw he hs

/-- Reading elements pays for what is inside them and, where each of them takes a byte, also for
the elements themselves. -/
theorem decodeElements_paid {starts values : List Value}
    (h : decodeElements walk enter stream pc leaf starts path before = .ok (values, after))
    (hs : ∀ start ∈ starts, Shaped walk.desc.program shape start) :
    Paid (Value.elementsItems starts) (Value.elementsItems values) before after ∧
      (LeafBound walk enter leaf 1 →
        values.length + Value.elementsItems values ≤
          Value.elementsItems starts + consumed before after) := by
  unfold decodeElements at h
  generalize 0 = first at h
  induction starts generalizing values before first with
  | nil =>
      cases h
      exact ⟨.nothing _ _, fun _ => Nat.zero_le _⟩
  | cons start starts ih =>
      obtain ⟨value, middle, rest, hv, hr, rfl⟩ := readAll_zipIdx_cons_eq_ok.mp h
      have hfirst := decodeLeaf_paid hp ht hv (hs start List.mem_cons_self)
      obtain ⟨hrest, heach⟩ := ih (fun other ho => hs other (List.mem_cons_of_mem _ ho)) _ hr
      simp only [Value.elementsItems, List.length_cons]
      constructor
      · have hhead : Paid (start.elements + Value.elementsItems starts)
            (value.elements + Value.elementsItems starts) before middle :=
          hfirst.beside (by omega)
        exact hhead.trans (hrest.beside (by omega))
      · intro hbound
        have hbyte := hbound stream pc start _ before value middle hv
        have hwithin := hfirst.within
        have hothers := heach hbound
        have hforward := hrest.forward
        unfold consumed at hwithin hothers ⊢
        omega

end Reads

theorem decodeShape_paid (hk : KeepsNested walk enter) (hp : PaysNested walk enter)
    {stream : UInt32} {pc : Nat} {shape : Shape}
    (ht : ∀ target, shape.leaf = .struct target →
      ReflTransGen walk.desc.program.RefersTo 0 target)
    (hbyte : ∀ leaf, shape = .sequence leaf → LeafBound walk enter leaf 1)
    {start value : Value} {path : Path} {before after : Reading} {target : Shape}
    (h : decodeShape walk enter stream pc shape start path before = .ok (value, after))
    (hs : Shaped walk.desc.program target start) :
    Paid start.elements value.elements before after := by
  cases shapeRead h with
  | single hl => exact decodeLeaf_paid hp ht hl hs
  | @sequence leaf supply supply' items grown items' count middle hc hr hd =>
      cases hs with
      | sequence hi hdefault =>
          cases (Shaped.sequence hi hdefault).resize hr with
          | sequence hg _ =>
              obtain ⟨reached, hlength, _, _, rfl⟩ := decodeCount_eq_ok hc
              have hcount : before.cursor.offset + lengthWidth ≤ reached.cursor.offset :=
                read_number_advances walk.wire path lengthWidth before count reached hlength
              have hinside := Supply.elements_resize hr
              obtain ⟨hpaid, heach⟩ := decodeElements_paid hp ht hd hg
              have hforward := hpaid.forward
              have htotal := heach (hbyte leaf rfl)
              simp only [Value.elements]
              unfold consumed at htotal
              unfold lengthWidth at hcount
              dsimp only at hforward htotal
              exact ⟨by omega, by unfold consumed; omega⟩
  | array _ hd =>
      cases hs with
      | array hi hlength =>
          have hia := fun item hm => (hi item hm).isArray_eq_false
          rw [Value.flattenItems_of_not_isArray hia] at hd
          obtain ⟨hl, hv⟩ := decodeElements_shaped hk hd hi
          have hva := fun value hm => (hv value hm).isArray_eq_false
          rw [Value.refillItems_of_not_isArray hl hia hva]
          exact (decodeElements_paid hp ht hd hi).1

theorem decodeField_paid (hk : KeepsNested walk enter) (hp : PaysNested walk enter)
    {stream : UInt32} {insn : Instruction}
    (ht : ∀ target, insn.leaf = .struct target →
      ReflTransGen walk.desc.program.RefersTo 0 target)
    (hbyte : ∀ leaf, insn.shape = .sequence leaf → LeafBound walk enter leaf 1)
    {start value : Value} {path : Path} {before after : Reading} {shape : Shape}
    (h : decodeField walk enter stream path insn start before = .ok (value, after))
    (hs : Shaped walk.desc.program shape start) :
    Paid start.elements value.elements before after := by
  obtain ⟨found, found', hfound, hd, rfl⟩ := decodeField_eq_ok h
  cases hs with
  | @struct _ _ fields _ ha hf =>
      have hlookup : fields.lookup insn.field = some found := hfound
      obtain ⟨own, hown⟩ := ha.exists_shape hlookup
      have hpaid := decodeShape_paid hk hp ht hbyte hd (hf insn.field own found hown hlookup)
      exact hpaid.beside (Value.elementsFields_insertField found' ha.ascending hlookup)
  | _ => cases hfound

theorem decodeFields_paid (hk : KeepsNested walk enter) {stream : UInt32} {path : Path}
    {insns : List Instruction} {shape : Shape}
    (hfield : ∀ insn ∈ insns, ∀ start value before after,
      decodeField walk enter stream path insn start before = .ok (value, after) →
      Shaped walk.desc.program shape start → Paid start.elements value.elements before after)
    {start value : Value} {before after : Reading}
    (h : decodeFields (decodeField walk enter stream path) insns start before = .ok (value, after))
    (hs : Shaped walk.desc.program shape start) :
    Paid start.elements value.elements before after := by
  induction insns generalizing start before with
  | nil =>
      cases h
      exact .nothing _ _
  | cons insn rest ih =>
      obtain ⟨next, middle, hf, hr⟩ := decodeFields_cons_eq_ok.mp h
      have hfirst := hfield insn List.mem_cons_self start next before middle hf hs
      exact hfirst.trans (ih (fun other ho => hfield other (List.mem_cons_of_mem _ ho)) hr
        (decodeField_shaped hk hf hs))

/-- Every element of a sequence that the root leads to takes a byte, as far as the decoder
reckons. -/
def ElementsTakeBytes (program : Program) : Prop :=
  ∀ leaf, program.HasSequence leaf → 1 ≤ (minElement program leaf []).1

theorem decodeStruct_paid (hleast : ElementsTakeBytes walk.desc.program) (fuel : Nat) :
    PaysNested walk (decodeStruct walk fuel) := by
  induction fuel with
  | zero =>
      intro target words start value path before after shape _ _ h
      cases h
  | succ fuel ih =>
      intro target words start value path before after shape hreach hw h hs
      have hk : KeepsNested walk (decodeStruct walk fuel) := decodeStruct_shaped fuel
      refine decodeFields_paid hk ?_ (decodeStruct_succ_eq_ok.mp h).1 hs
      intro insn hi start value before after hf hs
      refine decodeField_paid hk ih ?_ ?_ hf hs
      · exact fun next hnext => hreach.tail ⟨words, insn, hw, hi, hnext⟩
      · intro leaf hleaf stream pc value path
        have hbound := (minElement_bound leaf (sound_nil walk)).1 fuel stream pc value path
        exact hbound.mono (hleast leaf ⟨target, words, insn, hreach, hw, hi, hleaf⟩)

/-- Decoding into a sample adds no more elements than there are bytes. -/
theorem elements_decode_le {start value : Value} {bytes : List UInt8} {after : Reading}
    (hleast : ElementsTakeBytes walk.desc.program)
    (hs : Shaped walk.desc.program (.single (.struct 0)) start)
    (h : decode walk start bytes = .ok (value, after)) :
    value.elements ≤ start.elements + bytes.length := by
  have hend := ((decode_locates walk start bytes).ok value after h).inside
  obtain ⟨words, hw, hd⟩ := bind_eq_ok.mp h
  have hpaid := decodeStruct_paid hleast _ 0 words start value .root _ after _ .refl
    (Walk.root_eq_ok.mp hw) hd hs
  have hwithin := hpaid.within
  unfold consumed at hwithin
  omega

end Marshal

namespace WireFormat

open Marshal

/-- Decoded size is bounded by the input. If every sequence has elements of at least one byte, a
decoded sample has at most as many elements as there are bytes, all sequences at all depths taken
together, under every wire format and whatever counts the bytes claim. -/
theorem elements_deserialize_le {desc : Descriptor} (hleast : ElementsTakeBytes desc.program)
    {wire : WireFormat} {bytes : List UInt8} {value : Value}
    (h : wire.deserialize desc bytes = .ok value) : value.elements ≤ bytes.length := by
  obtain ⟨start, hstart, h⟩ := bind_eq_ok.mp h
  obtain ⟨⟨decoded, after⟩, hd, h⟩ := bind_eq_ok.mp h
  cases h
  have hblank := Program.default_blank (mapError_eq_ok.mp hstart)
  have hbound := elements_decode_le hleast hblank.shaped hd
  rwa [hblank.elements_eq_zero, Nat.zero_add] at hbound

/-- A pair of twigs, which have a length and further twigs. -/
def twigs : Descriptor where
  typeName := "Twigs"
  program := ⟨[
    Stream.assemble [(0, .array (.struct 1) 2, false)],
    Stream.assemble [(0, .single (.number .u8), false), (1, .sequence (.struct 1), false)]]⟩

def twig (length : ScalarKind.u8.Bits) (further : List Value) : Value :=
  .struct [(0, .scalar (.number .u8 length)),
    (1, .sequence (.leaf twigs.program (.struct 1)) further)]

theorem twigs_takeBytes : ElementsTakeBytes twigs.program := by
  rintro leaf ⟨id, words, insn, _, hw, hi, hleaf⟩
  have hwords : words ∈ twigs.program.streams := List.mem_of_getElem? hw
  simp only [twigs, List.mem_cons, List.not_mem_nil, or_false] at hwords
  rcases hwords with rfl | rfl
  all_goals
    rw [(Scan.read_of_instructions (Scan.instructions_assemble id _)).1] at hi
    simp only [Instruction.placed, List.mem_cons, List.not_mem_nil, or_false] at hi
  · rw [hi] at hleaf
    cases hleaf
  · rcases hi with rfl | rfl
    · cases hleaf
    · cases hleaf
      have hleast : (minElement twigs.program (.struct 1) []).1 = 5 := by with_unfolding_all rfl
      rw [hleast]
      decide

def twigsSample : Value :=
  .struct [(0, .array [twig 5 [twig 6 [twig 7 []], twig 8 []], twig 9 []])]

def twigsBytes : List UInt8 :=
  [5, 0, 0, 0, 0, 0, 0, 2, 6, 0, 0, 0, 0, 0, 0, 1, 7, 0, 0, 0, 0, 0, 0, 0,
    8, 0, 0, 0, 0, 0, 0, 0, 9, 0, 0, 0, 0, 0, 0, 0]

theorem twigsSample_reachable : Reachable twigs twigsSample :=
  ⟨.struct [(0, .array [twig 0 [], twig 0 []])],
    [.resize [.field 0, .element 0, .field 1] 2,
      .resize [.field 0, .element 0, .field 1, .element 0, .field 1] 1,
      .store [.field 0, .element 0, .field 0] (.scalar (.number .u8 5)),
      .store [.field 0, .element 0, .field 1, .element 0, .field 0] (.scalar (.number .u8 6)),
      .store [.field 0, .element 0, .field 1, .element 0, .field 1, .element 0, .field 0]
        (.scalar (.number .u8 7)),
      .store [.field 0, .element 0, .field 1, .element 1, .field 0] (.scalar (.number .u8 8)),
      .store [.field 0, .element 1, .field 0] (.scalar (.number .u8 9))],
    by with_unfolding_all rfl, by with_unfolding_all rfl⟩

theorem elements_twigsSample_le :
    ElementsTakeBytes twigs.program ∧ bigEndian.deserialize twigs twigsBytes = .ok twigsSample ∧
      twigsSample.elements = 3 ∧ twigsSample.elements ≤ twigsBytes.length := by
  have hbytes : bigEndian.serialize twigs twigsSample = .ok twigsBytes := by with_unfolding_all rfl
  have h : bigEndian.deserialize twigs twigsBytes = .ok twigsSample := by
    obtain ⟨_, _, hdefault, _⟩ := id twigsSample_reachable
    exact (deserialize_reads hdefault twigsSample_reachable.shaped hbytes).1 []
  exact ⟨twigs_takeBytes, h, by decide, elements_deserialize_le twigs_takeBytes h⟩

end WireFormat
end TopicCodec
