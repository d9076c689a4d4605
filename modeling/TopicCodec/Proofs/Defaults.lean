import TopicCodec.Proofs.Agreement
import TopicCodec.Proofs.Canonical
import TopicCodec.Proofs.Nesting

/-!
# Encoding defaults

A default instance has a value for every instruction of its streams, but where two
instructions address one field it is that of the last one. If these have one shape, there are
only two things left that can happen when a default is encoded: it is written, or its structures
stand too deep one inside the other. Which one is decided by the depth of the instance
(`Value.depth`). A description of the structures rules out that an index is used twice.
-/
namespace TopicCodec

open Relation

namespace Value

/-! ## Depth -/

mutual

/-- How many structures stand one inside the other. -/
def depth : Value → Nat
  | struct fields => depthFields fields + 1
  | array items => depthItems items
  | sequence _ items => depthItems items
  | _ => 0

def depthFields : List (UInt32 × Value) → Nat
  | [] => 0
  | (_, value) :: rest => max (depth value) (depthFields rest)

def depthItems : List Value → Nat
  | [] => 0
  | item :: rest => max (depth item) (depthItems rest)

end

theorem depthFields_le {fields : List (UInt32 × Value)} {n : Nat} :
    depthFields fields ≤ n ↔ ∀ field ∈ fields, field.2.depth ≤ n := by
  induction fields with
  | nil => simp [depthFields]
  | cons field rest ih => simp [depthFields, ih]

theorem depthItems_le {items : List Value} {n : Nat} :
    depthItems items ≤ n ↔ ∀ item ∈ items, item.depth ≤ n := by
  induction items with
  | nil => simp [depthItems]
  | cons item rest ih => simp [depthItems, ih]

theorem depth_struct_le {fields : List (UInt32 × Value)} {n : Nat} (h : Ascending fields) :
    (struct fields).depth ≤ n + 1 ↔
      ∀ index value, fields.lookup index = some value → value.depth ≤ n := by
  rw [depth, Nat.add_le_add_iff_right, depthFields_le]
  simp only [lookup_eq_some_iff_mem (h.imp UInt32.ne_of_lt), Prod.forall]

end Value

namespace Program

/-- The root stream, and all streams that it nests. -/
def Nested (program : Program) (id : UInt32) : Prop := ReflTransGen program.Nests 0 id.toNat

/-- Instructions for one field, of a stream that the root nests, have one shape. -/
def FieldsAgree (program : Program) : Prop :=
  ∀ id words, program.Nested id → program.stream? id = some words →
    ∀ insn ∈ (Scan.read id words).instructions, ∀ insn' ∈ (Scan.read id words).instructions,
      insn.field = insn'.field → insn.shape = insn'.shape

variable {program : Program}

theorem Nested.step (hreadable : program.Readable) {id : UInt32} {words : Stream}
    (h : program.Nested id) (hw : program.stream? id = some words) {insn : Instruction}
    (hi : insn ∈ (Scan.read id words).instructions) (hshape : insn.shape.isSequence = false)
    {target : UInt32} (ht : insn.leaf = .struct target) : program.Nested target := by
  obtain ⟨insns, hinsns, _⟩ := hreadable.instructions hw
  rw [(Scan.read_of_instructions hinsns).1] at hi
  apply ReflTransGen.tail h
  apply (nests_iff hw hinsns).mpr
  exact mem_containedIn.mpr ⟨insn, hi, target, ht, hshape, rfl⟩

theorem fieldsAgree_of_distinct (h : program.fieldsDistinct = true) : program.FieldsAgree := by
  intro id words _ hw insn hi insn' hi' hfield
  rw [List.inj_on_of_nodup_map (nodup_of_fieldsDistinct h hw) hi hi' hfield]

theorem FieldsAgree.fieldShape? (h : program.FieldsAgree) {id : UInt32} {words : Stream}
    (hid : program.Nested id) (hw : program.stream? id = some words) {insn : Instruction}
    (hi : insn ∈ (Scan.read id words).instructions) :
    fieldShape? (Scan.read id words).instructions insn.field = some insn.shape := by
  obtain ⟨shape, hshape⟩ := exists_fieldShape? hi
  obtain ⟨last, hm, hfield, rfl⟩ := mem_of_fieldShape? hshape
  rw [hshape, h id words hid hw last hm insn hi hfield]

end Program

namespace Marshal

/-! ## Written or too deep -/

section Outcomes

variable {α β : Type} {fits more : Prop}

/-- Something is written if it fits, and else refused for being nested too deep. -/
inductive Decided (fits : Prop) : Except CodecError α → Prop
  | written (a : α) : fits → Decided fits (.ok a)
  | tooDeep (path : Path) (position : Nat) : ¬fits →
      Decided fits (.error (.invalidEncoding path position .nesting))

theorem Decided.imp {outcome : Except CodecError α} (h : Decided fits outcome)
    (hiff : fits ↔ more) : Decided more outcome := by
  rwa [← propext hiff]

theorem Decided.bind {outcome : Except CodecError α} {next : α → Except CodecError β}
    (h : Decided fits outcome) (hn : ∀ a, Decided more (next a)) :
    Decided (fits ∧ more) (outcome >>= next) := by
  cases h with
  | written a hfits => exact (hn a).imp ⟨fun hmore => ⟨hfits, hmore⟩, And.right⟩
  | tooDeep path position hdeep => exact .tooDeep path position fun h => hdeep h.1

theorem Decided.exists_ok_iff {outcome : Except CodecError α} (h : Decided fits outcome) :
    (∃ a, outcome = .ok a) ↔ fits := by
  cases h with
  | written a hfits => simp [hfits]
  | tooDeep path position hdeep => simp [hdeep]

theorem Decided.exists_error {outcome : Except CodecError α} (h : Decided fits outcome)
    (hdeep : ¬fits) :
    ∃ path position, outcome = .error (.invalidEncoding path position .nesting) := by
  cases h with
  | written a hfits => exact absurd hfits hdeep
  | tooDeep path position _ => exact ⟨path, position, rfl⟩

theorem emitAll_decided {σ : Type} [Sink σ] {emit : α → Nat → Except CodecError σ}
    {room : α → Prop} {items : List α}
    (h : ∀ item ∈ items, ∀ position, Decided (room item) (emit item position)) (position : Nat) :
    Decided (∀ item ∈ items, room item) (emitAll emit items position) := by
  induction items generalizing position with
  | nil => exact .written _ fun item hi => by cases hi
  | cons first rest ih =>
      have hrest (position : Nat) := ih (fun item hi => h item (List.mem_cons_of_mem _ hi)) position
      have hfirst := h first List.mem_cons_self position
      apply (hfirst.bind fun chunk => (hrest _).bind fun tail => .written _ trivial).imp
      rw [List.forall_mem_cons, and_true]

end Outcomes

/-! ## Blank samples -/

variable {σ : Type} [Sink σ] {walk : Walk} {enter : EncodeNested σ} {fuel : Nat}

/-- Blank structures of streams that the root nests are written as far as the fuel goes. -/
def DecidesNested (walk : Walk) (fuel : Nat) (enter : EncodeNested σ) : Prop :=
  ∀ target words value path position, walk.desc.program.Nested target →
    walk.desc.program.stream? target = some words →
    Blank walk.desc.program (.single (.struct target)) value →
    Decided (value.depth ≤ fuel) (enter target words value path position)

theorem encodeLeaf_decided (hwire : 0 < walk.wire.maxStringLen.toNat)
    (he : DecidesNested walk fuel enter) {leaf : Leaf} {value : Value}
    (h : Blank walk.desc.program (.single leaf) value)
    (hn : ∀ target, leaf = .struct target → walk.desc.program.Nested target) (stream : UInt32)
    (pc : Nat) (path : Path) (position : Nat) :
    Decided (value.depth ≤ fuel) (encodeLeaf walk enter stream pc leaf value path position) := by
  cases id h with
  | number kind =>
      rw [Scalar.zero, (LeafWritten.number kind 0).encodeLeaf_eq]
      exact .written _ (Nat.zero_le _)
  | bool => exact .written _ (Nat.zero_le _)
  | text bound =>
      have hbound : bound.any (·.toNat < Utf8.size "") = false := by
        simp [Utf8.size, Utf8.encode]
      rw [(LeafWritten.text rfl hbound hwire).encodeLeaf_eq]
      exact .written _ (Nat.zero_le _)
  | @struct target words fields hw ha hb =>
      have hnested := he target words _ path position (hn target rfl) hw h
      simp only [encodeLeaf, Walk.nested, hw]
      exact hnested

theorem encodeElements_decided (hwire : 0 < walk.wire.maxStringLen.toNat)
    (he : DecidesNested walk fuel enter) {leaf : Leaf} {items : List Value}
    (h : ∀ item ∈ items, Blank walk.desc.program (.single leaf) item)
    (hn : ∀ target, leaf = .struct target → walk.desc.program.Nested target) (stream : UInt32)
    (pc : Nat) (path : Path) (position : Nat) :
    Decided (∀ item ∈ items, item.depth ≤ fuel)
      (encodeElements walk enter stream pc leaf items path position) := by
  have hplaces : ∀ place ∈ items.zipIdx, ∀ position, Decided (place.1.depth ≤ fuel)
      (encodeElement walk enter stream pc leaf path place position) := by
    rintro ⟨item, i⟩ hm position
    have hitem := h item (List.fst_mem_of_mem_zipIdx hm)
    have hleaf := encodeLeaf_decided hwire he hitem hn stream pc (path.element i) position
    cases item with
    | absent => cases hitem
    | _ => exact hleaf
  unfold encodeElements
  apply (emitAll_decided hplaces position).imp
  constructor
  · intro hall item hm
    obtain ⟨i, hi⟩ := List.mem_iff_getElem?.mp hm
    exact hall (item, i) (List.mem_zipIdx_iff_getElem?.mpr hi)
  · intro hall place hm
    exact hall place.1 (List.fst_mem_of_mem_zipIdx hm)

theorem encodeShape_decided (hwire : 0 < walk.wire.maxStringLen.toNat)
    (he : DecidesNested walk fuel enter) {shape : Shape} {value : Value}
    (h : Blank walk.desc.program shape value)
    (hn : shape.isSequence = false → ∀ target, shape.leaf = .struct target →
      walk.desc.program.Nested target) (stream : UInt32) (pc : Nat) (path : Path)
    (position : Nat) :
    Decided (value.depth ≤ fuel) (encodeShape walk enter stream pc shape value path position) := by
  cases shape with
  | single leaf => exact encodeLeaf_decided hwire he h (hn rfl) stream pc path position
  | sequence leaf =>
      cases h with
      | sequence => exact .written _ (Nat.zero_le _)
  | array leaf count =>
      cases h with
      | @array _ _ item hitem =>
          have hblank : ∀ element ∈ List.replicate count.toNat item,
              Blank walk.desc.program (.single leaf) element := by
            intro element hm
            rw [List.eq_of_mem_replicate hm]
            exact hitem
          have hflat : Value.flattenItems (List.replicate count.toNat item) =
              List.replicate count.toNat item := by
            apply Value.flattenItems_of_not_isArray
            intro element hm
            exact (hblank element hm).shaped.isArray_eq_false
          have hwritten := encodeElements_decided hwire he hblank (hn rfl) stream pc path position
          simp only [encodeShape, hflat, List.length_replicate, ne_eq, not_true_eq_false, if_false]
          apply hwritten.imp
          rw [Value.depth, Value.depthItems_le]

/-- A field of a blank structure is written by each instruction for it, since they have one
shape. -/
theorem encodeField_decided (hwire : 0 < walk.wire.maxStringLen.toNat)
    (hreadable : walk.desc.program.Readable) (hagree : walk.desc.program.FieldsAgree)
    (he : DecidesNested walk fuel enter) {stream : UInt32} {words : Stream}
    {fields : List (UInt32 × Value)} (hid : walk.desc.program.Nested stream)
    (hw : walk.desc.program.stream? stream = some words)
    (ha : Addressed (Scan.read stream words).instructions fields)
    (hb : ∀ index shape value,
      fieldShape? (Scan.read stream words).instructions index = some shape →
        fields.lookup index = some value → Blank walk.desc.program shape value)
    {insn : Instruction} (hi : insn ∈ (Scan.read stream words).instructions) (path : Path)
    (position : Nat) :
    Decided (∀ found, fields.lookup insn.field = some found → found.depth ≤ fuel)
      (encodeField walk enter stream (.struct fields) path insn position) := by
  have hshape := hagree.fieldShape? hid hw hi
  obtain ⟨found, hfound⟩ := ha.exists_value hshape
  have hwritten := encodeShape_decided hwire he (hb _ _ _ hshape hfound)
    (fun hs _ ht => hid.step hreadable hw hi hs ht) stream insn.pc (path.field insn.field) position
  have hfield : (Value.struct fields).field? insn.field = some found := hfound
  simp only [encodeField, hfield]
  apply hwritten.imp
  simp [hfound]

/-- A blank structure is written exactly if it is not deeper than the fuel. -/
theorem encodeStruct_decided (hwire : 0 < walk.wire.maxStringLen.toNat)
    (hreadable : walk.desc.program.Readable) (hagree : walk.desc.program.FieldsAgree)
    (fuel : Nat) : DecidesNested walk fuel (encodeStruct (σ := σ) walk fuel) := by
  induction fuel with
  | zero =>
      intro target words value path position _ _ h
      cases h with
      | struct _ _ _ => exact .tooDeep path position (by simp [Value.depth])
  | succ fuel ih =>
      intro target words value path position hid hw h
      cases h with
      | @struct _ _ fields hw' ha hb =>
          cases hw.symm.trans hw'
          have hfields := emitAll_decided (fun insn hi position =>
            encodeField_decided hwire hreadable hagree ih hid hw ha hb hi path position) position
          obtain ⟨insns, hinsns, _⟩ := hreadable.instructions hw
          obtain ⟨_, pc, hending⟩ := Scan.read_of_instructions hinsns
          simp only [encodeStruct, hending]
          apply (hfields.bind fun chunk => .written chunk trivial).imp
          rw [and_true, Value.depth_struct_le ha.ascending]
          constructor
          · intro hall index found hfound
            obtain ⟨shape, hshape⟩ := ha.exists_shape hfound
            obtain ⟨insn, hi, rfl, _⟩ := mem_of_fieldShape? hshape
            exact hall insn hi found hfound
          · intro hall insn _ found hfound
            exact hall insn.field found hfound

theorem encode_decided {desc : Descriptor} {wire : WireFormat}
    (hwire : 0 < wire.maxStringLen.toNat) (hagree : desc.program.FieldsAgree) {value : Value}
    (h : desc.program.default 0 = .ok value) :
    Decided (value.depth ≤ maxNesting + 1) (encode (σ := σ) ⟨desc, wire⟩ value) := by
  obtain ⟨_, hvalidate, _⟩ := bind_eq_ok.mp h
  obtain ⟨_, hreadable, _⟩ := Program.validate_eq_ok_iff.mp hvalidate
  have hblank := Program.default_blank h
  cases id hblank with
  | @struct _ words _ hw _ _ =>
      have hroot : Walk.root ⟨desc, wire⟩ = .ok words := Walk.root_eq_ok.mpr hw
      simp only [encode, hroot]
      exact encodeStruct_decided hwire hreadable hagree (maxNesting + 1) 0 words _ .root 0 .refl hw
        hblank

end Marshal

namespace Markup

/-! ## Described structures -/

variable {document : Document} {program : Program}

theorem ShapeAgrees.exists_resolved {scope : List String} {shape : Shape} {type : MemberType}
    (h : ShapeAgrees document scope shape type) {target : UInt32}
    (ht : shape.leaf = .struct target) :
    ∃ name found, type.reference? = some name ∧ document.resolve? scope name = some found := by
  have hleaf {leaf : Leaf} {type : MemberType} (h : LeafAgrees document scope leaf type)
      (ht : leaf = .struct target) :
      ∃ name found, type.reference? = some name ∧ document.resolve? scope name = some found := by
    cases h with
    | struct _ hfound => exact ⟨_, _, rfl, hfound⟩
    | _ => cases ht
  cases h with
  | single h => exact hleaf h ht
  | sequence h =>
      have helement := hleaf h ht
      exact helement
  | array _ _ _ h =>
      rw [MemberType.reference?_arrays]
      exact hleaf h ht

/-- What a stream nests that agrees with a structure is again paired with one. -/
theorem Pairing.Agrees.exists_refers {pair : Pairing} (h : pair.Agrees document program) {b : Nat}
    (hb : program.Nests pair.stream.toNat b) :
    ∃ next : Pairing, next.stream.toNat = b ∧ pair.Refers document program next := by
  obtain ⟨words, insns, hw, hinsns, hlength, hall⟩ := h
  obtain ⟨insn, hi, target, hleaf, _, rfl⟩ :=
    Program.mem_containedIn.mp ((Program.nests_iff hw hinsns).mp hb)
  obtain ⟨i, hinsn⟩ := List.mem_iff_getElem?.mp hi
  have hlt : i < pair.struct.members.length := by
    rw [← hlength]
    exact (List.getElem?_eq_some_iff.mp hinsn).1
  have hmember := List.getElem?_eq_getElem hlt
  obtain ⟨_, hagrees⟩ := hall i insn _ hinsn hmember
  obtain ⟨name, found, hname, hfound⟩ := hagrees.exists_resolved hleaf
  rw [← (Stream.instructions_eq_ok.mp hinsns).2] at hinsn
  exact ⟨⟨target, found.1, found.2⟩, rfl, words, i, insn, _, name, hw, hinsn, hmember, hleaf, hname,
    hfound⟩

/-- All streams that one nests are paired with structures, and the pairs agree. The streams before
it are not met again, since no stream nests itself. -/
theorem Pairing.exists_agrees (hacyclic : ∀ node, ¬TransGen program.Nests node node)
    {visited : List UInt32} {pair : Pairing}
    (hvisited : ∀ stream ∈ visited, TransGen program.Nests stream.toNat pair.stream.toNat)
    (h : ∀ last, pair.Chain document program visited last → last.Agrees document program)
    {node : Nat} (hnode : ReflTransGen program.Nests pair.stream.toNat node) :
    ∃ last : Pairing, last.stream.toNat = node ∧ last.Agrees document program := by
  generalize hstart : pair.stream.toNat = start at hnode
  induction hnode using ReflTransGen.head_induction_on generalizing visited pair with
  | refl =>
      have hnew : pair.stream ∉ visited := fun hm => hacyclic _ (hvisited _ hm)
      exact ⟨pair, hstart, h pair (.here hnew)⟩
  | head hab _ ih =>
      have hnew : pair.stream ∉ visited := fun hm => hacyclic _ (hvisited _ hm)
      rw [← hstart] at hab
      obtain ⟨next, hnext, hrefers⟩ := (h pair (.here hnew)).exists_refers hab
      rw [← hnext] at hab
      have hbefore : ∀ stream ∈ pair.stream :: visited,
          TransGen program.Nests stream.toNat next.stream.toNat := by
        intro stream hm
        rcases List.mem_cons.mp hm with rfl | hm
        · exact .single hab
        · exact (hvisited stream hm).tail hab
      exact ih hbefore (fun last hchain => h last (.step hnew hrefers hchain)) hnext

end Markup

/-! ## Defaults of any depth -/

namespace Program

/-- The fields of a structure in a tower of `n + 1`: the next one, but for the last. -/
def level (n i : Nat) : List (UInt32 × Shape × Bool) :=
  if i < n then [(0, .single (.struct (UInt32.ofNat (i + 1))), false)] else []

/-- Streams that each nest the next one. -/
def tower (n : Nat) : Program := ⟨(List.range (n + 1)).map fun i => Stream.assemble (level n i)⟩

theorem stream_tower {n i : Nat} {words : Stream} :
    (tower n).streams[i]? = some words ↔ i ≤ n ∧ Stream.assemble (level n i) = words := by
  simp only [tower, List.getElem?_map, Option.map_eq_some_iff, List.getElem?_eq_some_iff,
    List.length_range, List.getElem_range, Nat.lt_succ_iff]
  constructor
  · rintro ⟨_, ⟨hi, rfl⟩, rfl⟩
    exact ⟨hi, rfl⟩
  · rintro ⟨hi, rfl⟩
    exact ⟨i, ⟨hi, rfl⟩, rfl⟩

theorem stream_ofNat_tower {n i : Nat} (hn : n < UInt32.size) (hi : i ≤ n) :
    (tower n).stream? (UInt32.ofNat i) = some (Stream.assemble (level n i)) := by
  rw [stream?, UInt32.toNat_ofNat_of_lt' (by omega)]
  exact stream_tower.mpr ⟨hi, rfl⟩

theorem nests_tower {n a b : Nat} (hn : n < UInt32.size) (h : (tower n).Nests a b) :
    b = a + 1 ∧ a < n := by
  obtain ⟨fields, field, shape, key, target, hw, hm, _, hleaf, rfl⟩ := h
  obtain ⟨_, hfields⟩ := stream_tower.mp hw
  cases Stream.assemble_injective hfields
  unfold level at hm
  split_ifs at hm with ha
  · cases List.mem_singleton.mp hm
    cases hleaf
    exact ⟨UInt32.toNat_ofNat_of_lt' (by omega), ha⟩
  · cases hm

theorem validate_tower {n : Nat} (hn : n < UInt32.size) : (tower n).validate = .ok () := by
  have hlength : (tower n).length = n + 1 := by simp [tower, length]
  apply validate_eq_ok_iff.mpr
  refine ⟨?_, ⟨?_, ?_⟩, ?_⟩
  · simp [tower]
  · intro words hm
    obtain ⟨i, hw⟩ := List.mem_iff_getElem?.mp hm
    obtain ⟨_, hwords⟩ := stream_tower.mp hw
    exact ⟨_, hwords.symm⟩
  · intro fields hm field shape key target hfield hleaf
    obtain ⟨i, hw⟩ := List.mem_iff_getElem?.mp hm
    obtain ⟨_, hfields⟩ := stream_tower.mp hw
    cases Stream.assemble_injective hfields
    unfold level at hfield
    split_ifs at hfield with hi
    · cases List.mem_singleton.mp hfield
      cases hleaf
      rw [hlength, UInt32.toNat_ofNat_of_lt' (by omega)]
      omega
    · cases hfield
  · intro node hnode
    have hup : ∀ a b, TransGen (tower n).Nests a b → a < b := by
      intro a b hab
      induction hab with
      | single hab =>
          have := nests_tower hn hab
          omega
      | tail _ hbc ih =>
          have := nests_tower hn hbc
          omega
    exact Nat.lt_irrefl _ (hup node node hnode)

theorem fieldsAgree_tower (n : Nat) : (tower n).FieldsAgree := by
  intro id words _ hw insn hi insn' hi' _
  obtain ⟨_, rfl⟩ := stream_tower.mp hw
  rw [(Scan.read_of_instructions (Scan.instructions_assemble id (level n id.toNat))).1] at hi hi'
  unfold level at hi hi'
  split_ifs at hi hi'
  · simp only [Instruction.placed, List.mem_singleton] at hi hi'
    rw [hi, hi']
  · cases hi

/-- Structures with one field each, one inside the other. -/
def nest : Nat → Value
  | 0 => .struct []
  | n + 1 => .struct [(0, nest n)]

theorem depth_nest (n : Nat) : (nest n).depth = n + 1 := by
  induction n with
  | zero => rfl
  | succ n ih => simp [nest, Value.depth, Value.depthFields, ih]

theorem defaultStruct_tower {n i k fuel : Nat} (hn : n < UInt32.size) (hk : i + k = n)
    (hfuel : k < fuel) (budget : Nat) :
    ∃ left, (tower n).defaultStruct fuel (UInt32.ofNat i) budget = .ok (nest k, left) := by
  induction k generalizing i fuel budget with
  | zero =>
      obtain ⟨fuel, rfl⟩ := Nat.exists_eq_succ_of_ne_zero (Nat.ne_of_gt hfuel)
      have hw := stream_ofNat_tower hn (show i ≤ n by omega)
      have hlevel : level n i = [] := if_neg (by omega)
      obtain ⟨⟨pc, hpc⟩, hread⟩ :=
        Stream.instructions_eq_ok.mp (Scan.instructions_assemble (UInt32.ofNat i) (level n i))
      rw [hlevel] at hw hpc hread
      simp only [defaultStruct, hw, hpc, hread]
      exact ⟨budget, rfl⟩
  | succ k ih =>
      obtain ⟨fuel, rfl⟩ := Nat.exists_eq_succ_of_ne_zero (Nat.ne_of_gt (Nat.zero_lt_of_lt hfuel))
      have hw := stream_ofNat_tower hn (show i ≤ n by omega)
      have hlevel : level n i = [(0, .single (.struct (UInt32.ofNat (i + 1))), false)] :=
        if_pos (by omega)
      obtain ⟨⟨pc, hpc⟩, hread⟩ :=
        Stream.instructions_eq_ok.mp (Scan.instructions_assemble (UInt32.ofNat i) (level n i))
      have hnext : i + 1 + k = n := by omega
      obtain ⟨left, hinner⟩ := ih hnext (Nat.lt_of_succ_lt_succ hfuel) (budget - 1)
      rw [hlevel] at hw hpc hread
      simp only [defaultStruct, hw, hpc, hread, Instruction.placed, defaultFields, defaultField,
        defaultLeaf, hinner]
      exact ⟨left, rfl⟩

theorem default_tower {n : Nat} (hn : n < UInt32.size) : (tower n).default 0 = .ok (nest n) := by
  have hlength : (tower n).length = n + 1 := by simp [tower, length]
  obtain ⟨left, hmade⟩ := defaultStruct_tower hn (Nat.zero_add n) (Nat.lt_succ_of_lt n.lt_succ_self)
    maxDefaultValues
  apply bind_eq_ok.mpr
  refine ⟨(), validate_tower hn, bind_eq_ok.mpr ⟨(nest n, left), ?_, rfl⟩⟩
  rw [hlength]
  exact hmade

end Program

/-! ## Valid descriptors -/

namespace Descriptor

variable {desc : Descriptor}

/-- In a valid descriptor with a description all instructions of a stream that the root nests are
for different fields. -/
theorem fieldsAgree_of_markup (h : desc.validate = .ok ()) (hm : desc.markup ≠ "") :
    desc.program.FieldsAgree := by
  obtain ⟨_, hvalid⟩ := valid_of_validate h
  obtain ⟨_, _, hacyclic⟩ := Program.validate_eq_ok_iff.mp hvalid.program
  obtain ⟨document, _, hcheck⟩ := bind_eq_ok.mp (hvalid.markup hm)
  obtain ⟨start, ⟨hroot, _⟩, hagrees⟩ := Markup.Document.check_eq_ok_iff.mp hcheck
  intro id words hid hw insn hi insn' hi' hfield
  have hid : ReflTransGen desc.program.Nests start.stream.toNat id.toNat := by
    rw [hroot]
    exact hid
  obtain ⟨last, hlast, words', insns, hw', hinsns, hlength, hall⟩ :=
    Markup.Pairing.exists_agrees hacyclic (fun _ h => absurd h List.not_mem_nil) hagrees hid
  rw [UInt32.toNat_inj.mp hlast] at hw' hinsns
  cases hw.symm.trans hw'
  rw [(Scan.read_of_instructions hinsns).1] at hi hi'
  have hplace {insn : Instruction} (hi : insn ∈ insns) : insns[insn.field.toNat]? = some insn := by
    obtain ⟨i, hinsn⟩ := List.mem_iff_getElem?.mp hi
    have hlt : i < last.struct.members.length := by
      rw [← hlength]
      exact (List.getElem?_eq_some_iff.mp hinsn).1
    rw [(hall i insn _ hinsn (List.getElem?_eq_getElem hlt)).1]
    exact hinsn
  have hsame := hplace hi
  rw [hfield, hplace hi'] at hsame
  rw [Option.some.inj hsame]

theorem serialize_decided (hagree : desc.program.FieldsAgree) {value : Value}
    (h : desc.program.default 0 = .ok value) :
    Marshal.Decided (value.depth ≤ maxNesting + 1) (({} : WireFormat).serialize desc value) :=
  Marshal.encode_decided (by decide) hagree h

/-- A valid descriptor writes its own default, unless that is nested too deep: if it has a
description, or else if no stream that the root nests addresses one field with two shapes, the
default is encoded exactly if its structures stand at most 257 deep one inside the other, and else
refused for just this. -/
theorem serialize_default_iff {value : Value} (h : desc.validate = .ok ())
    (hvalue : desc.program.default 0 = .ok value)
    (hagree : desc.markup = "" → desc.program.FieldsAgree) :
    ((∃ bytes, ({} : WireFormat).serialize desc value = .ok bytes) ↔
      value.depth ≤ maxNesting + 1) ∧
    (maxNesting + 1 < value.depth → ∃ path position, ({} : WireFormat).serialize desc value =
      .error (.invalidEncoding path position .nesting)) := by
  have hfields : desc.program.FieldsAgree := by
    by_cases hm : desc.markup = ""
    · exact hagree hm
    · exact fieldsAgree_of_markup h hm
  have hdecided := serialize_decided hfields hvalue
  refine ⟨hdecided.exists_ok_iff, fun hdeep => hdecided.exists_error ?_⟩
  omega

/-- Three pairs of a number and a text, and any number of further ones. -/
def rack : Descriptor where
  typeName := "Rack"
  flags := .variableSize
  program := ⟨[
    Stream.assemble [(0, .array (.struct 1) 3, false), (1, .sequence (.struct 1), false)],
    Stream.assemble [(0, .single (.number .u16), false), (1, .single (.string (some 8)), false)]]⟩

def rackDefault : Value :=
  .struct [(0, .array (List.replicate 3
      (.struct [(0, .scalar (.zero .u16)), (1, .text "")]))),
    (1, .sequence (.leaf rack.program (.struct 1)) [])]

theorem serialize_rackDefault :
    rack.validate = .ok () ∧ rack.program.default 0 = .ok rackDefault ∧
      ∃ bytes, ({} : WireFormat).serialize rack rackDefault = .ok bytes := by
  have hvalidate : rack.validate = .ok () := by with_unfolding_all rfl
  have hdefault : rack.program.default 0 = .ok rackDefault := by with_unfolding_all rfl
  have hagree : rack.program.FieldsAgree :=
    Program.fieldsAgree_of_distinct (by with_unfolding_all rfl)
  have hwritten := serialize_default_iff hvalidate hdefault fun _ => hagree
  exact ⟨hvalidate, hdefault, hwritten.1.mpr (by decide)⟩

/-- Structures that stand 258 deep one inside the other. -/
def tower : Descriptor where
  typeName := "Tower"
  flags := .variableSize
  program := .tower 257

/-- A number of one byte and one of four, for one field. -/
def clash : Descriptor where
  typeName := "Clash"
  program := ⟨[Stream.assemble [(0, .single (.number .u8), false),
    (0, .single (.number .u32), false)]]⟩

theorem validate_tower : tower.validate = .ok () := by
  have hprogram : tower.program.validate = .ok () := Program.validate_tower (by decide)
  unfold validate
  rw [hprogram]
  rfl

/-- Two valid descriptors that do not write their own defaults. -/
theorem serialize_default_refused :
    (tower.validate = .ok () ∧ ∃ value, tower.program.default 0 = .ok value ∧
      ∀ bytes, ({} : WireFormat).serialize tower value ≠ .ok bytes) ∧
    (clash.validate = .ok () ∧ ∃ value, clash.program.default 0 = .ok value ∧
      ∀ bytes, ({} : WireFormat).serialize clash value ≠ .ok bytes) := by
  have hnest : tower.program.default 0 = .ok (Program.nest 257) :=
    Program.default_tower (by decide)
  refine ⟨⟨validate_tower, Program.nest 257, hnest, ?_⟩, by with_unfolding_all rfl,
    .struct [(0, .scalar (.zero .u32))], by with_unfolding_all rfl, ?_⟩
  · intro bytes hbytes
    have hfits := (serialize_decided (Program.fieldsAgree_tower 257) hnest).exists_ok_iff.mp
      ⟨bytes, hbytes⟩
    rw [Program.depth_nest] at hfits
    exact absurd hfits (by decide)
  · intro bytes hbytes
    have hnone : (({} : WireFormat).serialize clash
        (.struct [(0, .scalar (.zero .u32))])).toOption = none := by with_unfolding_all rfl
    rw [hbytes] at hnone
    cases hnone

end Descriptor
end TopicCodec
