import Mathlib.Algebra.Group.Nat.Defs
import Mathlib.Data.List.Forall2
import Mathlib.Data.Nat.Basic
import Mathlib.Order.Basic
import TopicCodec.Declaration
import TopicCodec.Proofs.Validity

/-!
# What assembling lays out

The words of an instruction are read back as the instruction, so a stream put together from
instructions is read as these. A program that took in another one (`Contains`) has the streams
of the other with their references moved. The program of a declared structure describes its
members one by one, and contains the programs of the structures among them. A structure of
described types is described, and the check of its description finds each field under the
number of its place.
-/
namespace TopicCodec

/-! ## Streams put together -/

theorem Leaf.code_lt (leaf : Leaf) : leaf.code < 0x100 := by
  cases leaf with
  | number kind => cases kind <;> decide
  | bool => exact (by decide : Code.bool < 0x100)
  | string bound =>
      cases bound with
      | none => exact (by decide : Code.string < 0x100)
      | some bound => exact (by decide : Code.boundedString < 0x100)
  | struct stream => exact (by decide : Code.struct < 0x100)

theorem Leaf.isSingle_code (leaf : Leaf) : Code.isSingle leaf.code = true := by
  cases leaf with
  | number kind => cases kind <;> rfl
  | bool => rfl
  | string bound => cases bound <;> rfl
  | struct stream => rfl

namespace Instruction

/-- The flags in the head word of an instruction. -/
def headFlags (key : Bool) (leaf : Leaf) : Flags := if key then leaf.flags ∪ .key else leaf.flags

theorem headFlags_cases (key : Bool) (leaf : Leaf) :
    (∃ kind, leaf = .number kind) ∨ headFlags key leaf = if key then .empty ∪ .key else .empty := by
  cases leaf with
  | number kind => exact .inl ⟨kind, rfl⟩
  | _ => exact .inr rfl

theorem headFlags_lt (key : Bool) (leaf : Leaf) : (headFlags key leaf).bits.toNat < 8 := by
  rcases headFlags_cases key leaf with ⟨kind, rfl⟩ | h
  · cases key <;> cases kind <;> decide
  · rw [h]
    cases key <;> decide

theorem contains_key_headFlags (key : Bool) (leaf : Leaf) :
    (headFlags key leaf).contains .key = key := by
  rcases headFlags_cases key leaf with ⟨kind, rfl⟩ | h
  · cases key <;> cases kind <;> decide
  · rw [h]
    cases key <;> decide

theorem codes_lt (shape : Shape) : shape.codes.1 < 0x100 ∧ shape.codes.2 < 0x100 := by
  cases shape with
  | single leaf => exact ⟨leaf.code_lt, (by decide : 0 < 0x100)⟩
  | sequence leaf => exact ⟨(by decide : Code.sequence < 0x100), leaf.code_lt⟩
  | array leaf count => exact ⟨(by decide : Code.array < 0x100), leaf.code_lt⟩

theorem toNat_head (key : Bool) (shape : Shape) :
    (head key shape).toNat =
      0x01000000 + shape.codes.1 * 0x10000 + shape.codes.2 * 0x100 +
        (headFlags key shape.leaf).bits.toNat := by
  have hcodes := codes_lt shape
  have hflags := headFlags_lt key shape.leaf
  apply UInt32.toNat_ofNat_of_lt'
  change 0x01000000 + shape.codes.1 * 0x10000 + shape.codes.2 * 0x100 +
    (headFlags key shape.leaf).bits.toNat < 4294967296
  omega

end Instruction

namespace Op

theorem readLeaf_operands (stream : UInt32) (pc : Nat) (key : Bool) (leaf : Leaf)
    (rest : List UInt32) :
    readLeaf stream pc leaf.code (Instruction.headFlags key leaf) (leaf.operands ++ rest) =
      .ok leaf := by
  rcases Instruction.headFlags_cases key leaf with ⟨kind, rfl⟩ | h
  · cases key <;> cases kind <;> rfl
  · have hplain : ((Instruction.headFlags key leaf).contains .signed ||
        (Instruction.headFlags key leaf).contains .float) = false := by
      rw [h]
      cases key <;> decide
    unfold readLeaf
    simp only [hplain]
    cases leaf with
    | number kind => cases key <;> cases kind <;> rfl
    | bool => rfl
    | string bound => cases bound <;> rfl
    | struct target => rfl

theorem readShape_operands (stream : UInt32) (pc : Nat) (key : Bool) (shape : Shape)
    (rest : List UInt32) :
    readShape stream pc shape.codes.1 shape.codes.2 (Instruction.headFlags key shape.leaf)
      (shape.operands ++ rest) = .ok shape := by
  cases shape with
  | single leaf =>
      have hsingle := leaf.isSingle_code
      have hs : leaf.code ≠ Code.sequence := by
        intro hc
        rw [hc] at hsingle
        cases hsingle
      have ha : leaf.code ≠ Code.array := by
        intro hc
        rw [hc] at hsingle
        cases hsingle
      simp only [readShape, Shape.codes, hs, ha, hsingle, if_true, if_false, ne_eq,
        not_true_eq_false, Shape.operands, Shape.leaf, readLeaf_operands, Except.map]
  | sequence leaf =>
      simp only [readShape, Shape.codes, if_true, Shape.operands, Shape.leaf, readLeaf_operands,
        Except.map]
  | array leaf count =>
      have hne : Code.array ≠ Code.sequence := by decide
      simp only [readShape, Shape.codes, hne, if_true, if_false, Shape.operands, Shape.leaf,
        List.cons_append, readLeaf_operands, Except.map]

theorem read_words (stream : UInt32) (pc : Nat) (field : UInt32) (shape : Shape) (key : Bool)
    (rest : List UInt32) :
    read stream pc (Instruction.words field shape key ++ rest) =
      .ok (.field ⟨pc, field, key, shape⟩) := by
  have hhead := Instruction.toNat_head key shape
  have hcodes := Instruction.codes_lt shape
  have hflags := Instruction.headFlags_lt key shape.leaf
  have hne : Instruction.head key shape ≠ 0 := by
    intro hz
    rw [hz] at hhead
    change 0 = _ at hhead
    omega
  have htype : (Instruction.head key shape).toNat / 0x10000 % 0x100 = shape.codes.1 := by omega
  have hsub : (Instruction.head key shape).toNat / 0x100 % 0x100 = shape.codes.2 := by omega
  have hlow : (Instruction.head key shape).toNat % 0x100 =
      (Instruction.headFlags key shape.leaf).bits.toNat := by omega
  have hop : (Instruction.head key shape).toNat / 0x1000000 = 1 := by omega
  have hread := readShape_operands stream pc key shape rest
  have hkey := Instruction.contains_key_headFlags key shape.leaf
  simp only [Instruction.words, List.cons_append, read, hne, hop, hlow, htype, hsub, if_false,
    ne_eq, not_true_eq_false, Nat.not_le.mpr hflags, UInt32.ofNat_toNat, hread, Except.map, hkey]

end Op

namespace Instruction

/-- Field, shape and key mark of an instruction, wherever it stands. -/
def content (insn : Instruction) : UInt32 × Shape × Bool := (insn.field, insn.shape, insn.key)

/-- Instructions one after the other, from a position on. -/
def placed (pc : Nat) : List (UInt32 × Shape × Bool) → List Instruction
  | [] => []
  | (field, shape, key) :: rest => ⟨pc, field, key, shape⟩ :: placed (pc + shape.length) rest

theorem map_content_placed (pc : Nat) (fields : List (UInt32 × Shape × Bool)) :
    (placed pc fields).map content = fields := by
  induction fields generalizing pc with
  | nil => rfl
  | cons field rest ih => rw [placed, List.map_cons, ih]; rfl

end Instruction

namespace Scan

theorem readFrom_assemble (id : UInt32) (pc : Nat) (fields : List (UInt32 × Shape × Bool)) :
    ∃ last, readFrom id pc (Stream.assemble fields) =
        ⟨Instruction.placed pc fields, .ok last⟩ ∧
      last + 1 = pc + (Stream.assemble fields).length := by
  induction fields generalizing pc with
  | nil =>
      refine ⟨pc, ?_, rfl⟩
      rw [Stream.assemble, List.flatMap_nil, List.nil_append, readFrom]
      rfl
  | cons first rest ih =>
      obtain ⟨field, shape, key⟩ := first
      obtain ⟨last, ih, hlast⟩ := ih (pc + shape.length)
      have hwords : Stream.assemble ((field, shape, key) :: rest) =
          Instruction.words field shape key ++ Stream.assemble rest := by
        simp [Stream.assemble]
      have hread := Op.read_words id pc field shape key (Stream.assemble rest)
      have hdrop : ((field :: shape.operands) ++ Stream.assemble rest).drop (shape.length - 1) =
          Stream.assemble rest := by
        have hlength : shape.length - 1 = (field :: shape.operands).length := by
          simp only [Shape.length, List.length_cons]
          omega
        rw [hlength, List.drop_left]
      refine ⟨last, ?_, ?_⟩
      · rw [hwords]
        simp only [Instruction.words, List.cons_append] at hread hdrop ⊢
        rw [readFrom, hread]
        simp only [Instruction.length, hdrop, ih, cons, Instruction.placed]
      · rw [hlast, hwords, List.length_append]
        simp only [Instruction.words, Shape.length, List.length_cons]
        omega

/-- A stream put together from instructions is read as these. -/
theorem instructions_assemble (id : UInt32) (fields : List (UInt32 × Shape × Bool)) :
    Stream.instructions id (Stream.assemble fields) = .ok (Instruction.placed 0 fields) := by
  obtain ⟨last, hread, hlast⟩ := readFrom_assemble id 0 fields
  have hend : last + 1 = (Stream.assemble fields).length := by omega
  simp only [Stream.instructions, readAll, read, hread, hend, if_true, complete, Except.map]

theorem read_of_instructions {id : UInt32} {words : Stream} {insns : List Instruction}
    (h : Stream.instructions id words = .ok insns) :
    (read id words).instructions = insns ∧ ∃ pc, (read id words).ending = .ok pc := by
  obtain ⟨⟨pc, hpc⟩, hinsns⟩ := Stream.instructions_eq_ok.mp h
  rw [instructions_readAll] at hinsns
  refine ⟨hinsns, ?_⟩
  unfold readAll at hpc
  dsimp only at hpc
  split at hpc
  · exact ⟨pc, hpc⟩
  · rename_i last hread
    exact ⟨last, hread⟩

end Scan

/-! ## Programs taken in -/

theorem forall₂_of_mapM {ε α β : Type} {f : α → Except ε β} {xs : List α} {ys : List β}
    (h : xs.mapM f = .ok ys) : List.Forall₂ (fun x y => f x = .ok y) xs ys := by
  induction xs generalizing ys with
  | nil =>
      cases h
      exact .nil
  | cons x xs ih =>
      rw [List.mapM_cons] at h
      obtain ⟨y, hy, h⟩ := bind_eq_ok.mp h
      obtain ⟨rest, hr, h⟩ := bind_eq_ok.mp h
      cases h
      exact .cons hy (ih hr)

theorem exists_mapM {ε α β : Type} {f : α → Except ε β} {items : List α}
    (h : ∀ item ∈ items, ∃ b, f item = .ok b) : ∃ bs, items.mapM f = .ok bs := by
  induction items with
  | nil => exact ⟨[], rfl⟩
  | cons first rest ih =>
      obtain ⟨b, hb⟩ := h first List.mem_cons_self
      obtain ⟨bs, hbs⟩ := ih fun item hi => h item (List.mem_cons_of_mem _ hi)
      refine ⟨b :: bs, ?_⟩
      rw [List.mapM_cons, hb, hbs]
      rfl

theorem exists_of_mem_mapM {ε α β : Type} {f : α → Except ε β} {xs : List α} {ys : List β}
    (h : xs.mapM f = .ok ys) {y : β} (hy : y ∈ ys) : ∃ x ∈ xs, f x = .ok y := by
  have hall := forall₂_of_mapM h
  clear h
  induction hall with
  | nil => cases hy
  | cons hfirst _ ih =>
      rcases List.mem_cons.mp hy with rfl | hy
      · exact ⟨_, List.mem_cons_self, hfirst⟩
      · obtain ⟨x, hx, hfx⟩ := ih hy
        exact ⟨x, List.mem_cons_of_mem _ hx, hfx⟩

theorem exists_of_mapM_error {ε α β : Type} {f : α → Except ε β} {items : List α} {error : ε}
    (h : items.mapM f = .error error) : ∃ item ∈ items, f item = .error error := by
  induction items with
  | nil => cases h
  | cons first rest ih =>
      rw [List.mapM_cons] at h
      obtain hfirst | ⟨b, _, hrest⟩ := bind_eq_error h
      · exact ⟨first, List.mem_cons_self, hfirst⟩
      obtain hrest | ⟨bs, _, hdone⟩ := bind_eq_error hrest
      · obtain ⟨item, hi, herror⟩ := ih hrest
        exact ⟨item, List.mem_cons_of_mem _ hi, herror⟩
      · cases hdone

theorem getElem?_of_forall₂ {α β : Type} {r : α → β → Prop} {xs : List α} {ys : List β}
    (h : List.Forall₂ r xs ys) {i : Nat} {x : α} (hx : xs[i]? = some x) :
    ∃ y, ys[i]? = some y ∧ r x y := by
  induction h generalizing i with
  | nil => cases hx
  | cons hr _ ih =>
      cases i with
      | zero =>
          cases hx
          exact ⟨_, rfl, hr⟩
      | succ i => exact ih hx

namespace Program

structure Contains (program : Program) (base : UInt32) (other : Program) : Prop where
  length_le : other.length ≤ program.length
  stream : ∀ id words, other.stream? id = some words →
    0 < base.toNat ∧ id.toNat + base.toNat < UInt32.size ∧
      ∃ moved, program.stream? (id + base) = some moved ∧
        rebaseStream base id words = .ok moved

structure Kept (program program' : Program) : Prop where
  length_le : program.length ≤ program'.length
  stream : ∀ id words, id ≠ 0 → program.stream? id = some words →
    program'.stream? id = some words

theorem toNat_add_of_lt {a b : UInt32} (h : a.toNat + b.toNat < UInt32.size) :
    (a + b).toNat = a.toNat + b.toNat := by
  rw [UInt32.toNat_add]
  exact Nat.mod_eq_of_lt h

variable {program program' other : Program} {base : UInt32}

theorem kept_of_extends (h : program.streams <+: program'.streams) : Kept program program' where
  length_le := h.length_le
  stream id words _ hw := by
    obtain ⟨rest, hrest⟩ := h
    change program'.streams[id.toNat]? = some words
    rw [← hrest]
    rwa [List.getElem?_append_left (List.getElem?_eq_some_iff.mp hw).1]

theorem Contains.keep (h : Contains program base other) (hk : Kept program program') :
    Contains program' base other where
  length_le := h.length_le.trans hk.length_le
  stream id words hw := by
    obtain ⟨hpos, hlt, moved, hm, hrebase⟩ := h.stream id words hw
    refine ⟨hpos, hlt, moved, hk.stream _ _ ?_ hm, hrebase⟩
    intro hz
    have hnat := toNat_add_of_lt hlt
    rw [hz] at hnat
    change 0 = _ at hnat
    omega

theorem graft_extends (h : program.graft other = .ok (program', base)) :
    program.streams <+: program'.streams := by
  obtain ⟨imported, _, h⟩ := bind_eq_ok.mp h
  cases h
  exact List.prefix_append _ _

theorem length_graft (h : program.graft other = .ok (program', base)) :
    program'.length = program.length + other.length := by
  obtain ⟨imported, himported, h⟩ := bind_eq_ok.mp h
  cases h
  have hlength : imported.length = other.length := by
    rw [← (forall₂_of_mapM himported).length_eq, numbered, List.length_mapIdx]
    rfl
  rw [← hlength]
  exact List.length_append

/-- Numbers of streams start over where a program has more streams than there are numbers. -/
theorem toNat_base_of_graft (h : program.graft other = .ok (program', base)) :
    base.toNat = program.length % UInt32.size := by
  obtain ⟨_, _, h⟩ := bind_eq_ok.mp h
  cases h
  exact UInt32.toNat_ofNat'

/-- Each stream that was taken in stands as far behind the old ones as it stood from the start. -/
theorem stream_graft (h : program.graft other = .ok (program', base))
    (hsize : program'.length ≤ UInt32.size) {id : UInt32} {words : Stream}
    (hw : other.stream? id = some words) :
    id.toNat + base.toNat < UInt32.size ∧ ∃ moved, program'.stream? (id + base) = some moved ∧
      rebaseStream base id words = .ok moved := by
  have hid : id.toNat < other.length := (List.getElem?_eq_some_iff.mp hw).1
  have htotal := length_graft h
  have hbase := (toNat_base_of_graft h).trans (Nat.mod_eq_of_lt (by omega))
  obtain ⟨imported, himported, h⟩ := bind_eq_ok.mp h
  cases h
  have hlt : id.toNat + (UInt32.ofNat program.length).toNat < UInt32.size := by omega
  obtain ⟨moved, hm, hrebase⟩ :=
    getElem?_of_forall₂ (forall₂_of_mapM himported) (numbered_of_stream? hw)
  refine ⟨hlt, moved, ?_, hrebase⟩
  change (program.streams ++ imported)[(id + UInt32.ofNat program.length).toNat]? = some moved
  have hplace : (id + UInt32.ofNat program.length).toNat - program.streams.length = id.toNat := by
    rw [toNat_add_of_lt hlt, hbase]
    exact Nat.add_sub_cancel _ _
  rw [List.getElem?_append_right, hplace, hm]
  rw [toNat_add_of_lt hlt, hbase]
  exact Nat.le_add_left _ _

theorem graft_contains (h : program.graft other = .ok (program', base))
    (hpos : 0 < program.length) (hsize : program'.length ≤ UInt32.size) :
    Contains program' base other := by
  have htotal := length_graft h
  refine ⟨by omega, ?_⟩
  intro id words hw
  have hid : id.toNat < other.length := (List.getElem?_eq_some_iff.mp hw).1
  have hbase := (toNat_base_of_graft h).trans (Nat.mod_eq_of_lt (by omega))
  exact ⟨by omega, stream_graft h hsize hw⟩

end Program

/-! ## Declared structures -/

namespace FieldType

/-- Descriptors of the structures in a type. -/
def descriptors : FieldType → List Descriptor
  | struct desc => [desc]
  | sequence elem => elem.descriptors
  | array _ elem => elem.descriptors
  | _ => []

/-- A member of this type is described by this shape, given which streams describe which
structures. -/
inductive Laid (refers : UInt32 → Descriptor → Prop) : Shape → FieldType → Prop
  | number (kind : ScalarKind) : Laid refers (.single (.number kind)) (.number kind)
  | bool : Laid refers (.single .bool) .bool
  | string (bound : Option UInt32) : Laid refers (.single (.string bound)) (.string bound)
  | struct {base : UInt32} {desc : Descriptor} :
      refers base desc → Laid refers (.single (.struct base)) (.struct desc)
  | sequence {leaf : Leaf} {elem : FieldType} :
      Laid refers (.single leaf) elem → Laid refers (.sequence leaf) (.sequence elem)
  | array {leaf : Leaf} {elem : FieldType} {dims : List UInt32} {count : UInt32} :
      Assembly.elementCount? dims = some count → Laid refers (.single leaf) elem →
      Laid refers (.array leaf count) (.array dims elem)

theorem Laid.imp {refers refers' : UInt32 → Descriptor → Prop} {shape : Shape} {type : FieldType}
    (h : Laid refers shape type)
    (himp : ∀ base, ∀ desc ∈ type.descriptors, refers base desc → refers' base desc) :
    Laid refers' shape type := by
  induction h with
  | number kind => exact .number kind
  | bool => exact .bool
  | string bound => exact .string bound
  | struct hr => exact .struct (himp _ _ (List.mem_singleton.mpr rfl) hr)
  | sequence _ ih => exact .sequence (ih himp)
  | array hd _ ih => exact .array hd (ih himp)

/-- A member of this type is described by this shape in a program that took in the programs of
structures. -/
abbrev LaidIn (program : Program) : Shape → FieldType → Prop :=
  Laid fun base desc => program.Contains base desc.program

theorem LaidIn.keep {program program' : Program} {shape : Shape} {type : FieldType}
    (h : LaidIn program shape type) (hk : program.Kept program') : LaidIn program' shape type :=
  h.imp fun _ _ _ hc => hc.keep hk

end FieldType

namespace Assembly

variable {assembly assembly' : Assembly}

theorem toNat_elementCount? {dims : List UInt32} {count : UInt32}
    (h : elementCount? dims = some count) : count.toNat = (dims.map UInt32.toNat).prod := by
  suffices ∀ (first : UInt32), dims.foldlM (fun (count dim : UInt32) =>
      if count.toNat * dim.toNat < UInt32.size then some (count * dim) else none) first =
        some count → count.toNat = first.toNat * (dims.map UInt32.toNat).prod by
    simpa using this 1 h
  clear h
  induction dims with
  | nil =>
      intro first h
      cases h
      simp
  | cons dim dims ih =>
      intro first h
      obtain ⟨next, hn, h⟩ := Option.bind_eq_some_iff.mp h
      dsimp only at hn
      split_ifs at hn with hlt
      cases hn
      have hmul : (first * dim).toNat = first.toNat * dim.toNat := by
        rw [UInt32.toNat_mul]
        exact Nat.mod_eq_of_lt hlt
      rw [ih _ h, hmul, List.map_cons, List.prod_cons, Nat.mul_assoc]

theorem elementCount?_append {first rest : List UInt32} {count : UInt32}
    (h : elementCount? (first ++ rest) = some count) : ∃ part, elementCount? first = some part := by
  unfold elementCount? at h
  rw [List.foldlM_append] at h
  obtain ⟨part, hp, _⟩ := Option.bind_eq_some_iff.mp h
  exact ⟨part, hp⟩

/-- The stream of a type is known under its name, or its program and its description are taken
in. -/
theorem streamFor_cases {desc : Descriptor} {id : UInt32}
    (h : assembly.streamFor desc = .ok (id, assembly')) :
    (assembly.grafted.lookup desc.canonicalName = some id ∧ assembly' = assembly) ∨
      (assembly.grafted.lookup desc.canonicalName = none ∧
        assembly.program.graft desc.program = .ok (assembly'.program, id) ∧
        assembly'.grafted = (desc.canonicalName, id) :: assembly.grafted ∧
        (desc.markup ≠ "" → assembly'.described = assembly.described ∧
          ∃ known, Markup.Document.read desc.markup = .ok known ∧
            assembly'.document = assembly.document.merge known)) := by
  unfold streamFor at h
  dsimp only at h
  split at h
  · rename_i known hknown
    cases h
    exact .inl ⟨hknown, rfl⟩
  · rename_i hnone
    obtain ⟨⟨program, base⟩, hg, h⟩ := bind_eq_ok.mp h
    dsimp only at h
    split at h
    · rename_i hempty
      cases h
      exact .inr ⟨hnone, hg, rfl, fun hm => absurd hempty hm⟩
    · obtain ⟨known, hread, h⟩ := bind_eq_ok.mp h
      cases h
      exact .inr ⟨hnone, hg, rfl, fun _ => ⟨rfl, known, mapError_eq_ok.mp hread, rfl⟩⟩

/-- What is known by a name is a type of this name, and its program is there as long as streams
can be numbered. -/
structure Sound (nested : Descriptor → Prop) (assembly : Assembly) : Prop where
  root : 0 < assembly.program.length
  grafted : assembly.program.length ≤ UInt32.size → ∀ name id,
    assembly.grafted.lookup name = some id →
    ∃ desc, nested desc ∧ desc.canonicalName = name ∧ assembly.program.Contains id desc.program

structure Lays (nested : Descriptor → Prop) (assembly assembly' : Assembly)
    (laid : Program → Prop) : Prop where
  extended : assembly.program.streams <+: assembly'.program.streams
  sound : Sound nested assembly'
  laid : assembly'.program.length ≤ UInt32.size → laid assembly'.program

variable {nested : Descriptor → Prop}

theorem Sound.start : Sound nested start where
  root := by decide
  grafted _ _ _ h := by cases h

theorem Lays.refl {laid : Program → Prop} (hs : Sound nested assembly)
    (h : assembly.program.length ≤ UInt32.size → laid assembly.program) :
    Lays nested assembly assembly laid :=
  ⟨List.prefix_rfl, hs, h⟩

theorem Lays.imp {laid laid' : Program → Prop} (h : Lays nested assembly assembly' laid)
    (hi : ∀ program, laid program → laid' program) : Lays nested assembly assembly' laid' :=
  ⟨h.extended, h.sound, fun hsize => hi _ (h.laid hsize)⟩

section Steps

variable (hnames : ∀ desc desc', nested desc → nested desc' →
  desc.canonicalName = desc'.canonicalName → desc = desc')

include hnames

theorem streamFor_lays {desc : Descriptor} {id : UInt32} (hs : Sound nested assembly)
    (hd : nested desc) (h : assembly.streamFor desc = .ok (id, assembly')) :
    Lays nested assembly assembly' fun program => program.Contains id desc.program := by
  rcases streamFor_cases h with ⟨hknown, rfl⟩ | ⟨_, hg, hgrafted, _⟩
  · refine .refl hs fun hsize => ?_
    obtain ⟨other, ho, hname, hc⟩ := hs.grafted hsize _ _ hknown
    rwa [hnames desc other hd ho hname.symm]
  · have hextended := Program.graft_extends hg
    have hcontains (hsize : assembly'.program.length ≤ UInt32.size) :=
      Program.graft_contains hg hs.root hsize
    refine ⟨hextended, ⟨?_, ?_⟩, hcontains⟩
    · exact Nat.lt_of_lt_of_le hs.root hextended.length_le
    · intro hsize name other hother
      rw [hgrafted, List.lookup_cons] at hother
      by_cases hname : name = desc.canonicalName
      · simp only [hname, beq_self_eq_true, Option.some.injEq] at hother
        subst hother
        exact ⟨desc, hd, hname.symm, hcontains hsize⟩
      · simp only [beq_false_of_ne hname] at hother
        obtain ⟨found, hf, hn, hc⟩ := hs.grafted (hextended.length_le.trans hsize) name other hother
        exact ⟨found, hf, hn, hc.keep (Program.kept_of_extends hextended)⟩

theorem leaf_lays {type : FieldType} {leaf : Leaf} (hs : Sound nested assembly)
    (hd : ∀ desc ∈ type.descriptors, nested desc)
    (h : assembly.leaf type = .ok (leaf, assembly')) :
    Lays nested assembly assembly' fun program => FieldType.LaidIn program (.single leaf) type := by
  cases type with
  | number kind =>
      cases h
      exact .refl hs fun _ => .number kind
  | bool =>
      cases h
      exact .refl hs fun _ => .bool
  | string bound =>
      cases h
      exact .refl hs fun _ => .string bound
  | struct desc =>
      obtain ⟨⟨id, last⟩, hf, h⟩ := map_eq_ok.mp h
      cases h
      have hstream := streamFor_lays hnames hs (hd desc (List.mem_singleton.mpr rfl)) hf
      exact hstream.imp fun _ hc => .struct hc
  | sequence elem => cases h
  | array dims elem => cases h

theorem shape_lays {type : FieldType} {shape : Shape} (hs : Sound nested assembly)
    (hd : ∀ desc ∈ type.descriptors, nested desc)
    (h : assembly.shape type = .ok (shape, assembly')) :
    Lays nested assembly assembly' fun program => FieldType.LaidIn program shape type := by
  unfold Assembly.shape at h
  split at h
  · rename_i elem
    obtain ⟨⟨leaf, last⟩, hl, h⟩ := map_eq_ok.mp h
    cases h
    have helem : ∀ desc ∈ elem.descriptors, nested desc := hd
    exact (leaf_lays hnames hs helem hl).imp fun _ hlaid => .sequence hlaid
  · rename_i dims elem
    split at h
    · cases h
    · rename_i count hcount
      obtain ⟨⟨leaf, last⟩, hl, h⟩ := map_eq_ok.mp h
      cases h
      have helem : ∀ desc ∈ elem.descriptors, nested desc := hd
      exact (leaf_lays hnames hs helem hl).imp fun _ hlaid => .array hcount hlaid
  · obtain ⟨⟨leaf, last⟩, hl, h⟩ := map_eq_ok.mp h
    cases h
    exact leaf_lays hnames hs hd hl

theorem shapes_lay {types : List FieldType} {shapes : List Shape} (hs : Sound nested assembly)
    (hd : ∀ type ∈ types, ∀ desc ∈ type.descriptors, nested desc)
    (h : assembly.shapes types = .ok (shapes, assembly')) :
    Lays nested assembly assembly' fun program =>
      List.Forall₂ (FieldType.LaidIn program) shapes types := by
  induction types generalizing assembly shapes with
  | nil =>
      cases h
      exact .refl hs fun _ => .nil
  | cons type rest ih =>
      obtain ⟨⟨shape, middle⟩, hfirst, h⟩ := bind_eq_ok.mp h
      obtain ⟨⟨others, last⟩, hrest, h⟩ := bind_eq_ok.mp h
      cases h
      have hhead := shape_lays hnames hs (hd type List.mem_cons_self) hfirst
      have htail := ih hhead.sound (fun type hm => hd type (List.mem_cons_of_mem _ hm)) hrest
      refine ⟨hhead.extended.trans htail.extended, htail.sound, fun hsize => ?_⟩
      have hlaid := hhead.laid (htail.extended.length_le.trans hsize)
      have hkept := Program.kept_of_extends htail.extended
      exact .cons (FieldType.LaidIn.keep hlaid hkept) (htail.laid hsize)

end Steps

theorem leaf_cases {type : FieldType} {leaf : Leaf}
    (h : assembly.leaf type = .ok (leaf, assembly')) :
    (type.descriptors = [] ∧ assembly' = assembly) ∨
      ∃ desc id, type.descriptors = [desc] ∧ assembly.streamFor desc = .ok (id, assembly') := by
  cases type with
  | struct desc =>
      obtain ⟨⟨id, last⟩, hf, h⟩ := map_eq_ok.mp h
      cases h
      exact .inr ⟨desc, id, rfl, hf⟩
  | number kind | bool | string bound =>
      cases h
      exact .inl ⟨rfl, rfl⟩
  | sequence elem | array dims elem => cases h

theorem shape_cases {type : FieldType} {shape : Shape}
    (h : assembly.shape type = .ok (shape, assembly')) :
    (type.descriptors = [] ∧ assembly' = assembly) ∨
      ∃ desc id, type.descriptors = [desc] ∧ assembly.streamFor desc = .ok (id, assembly') := by
  unfold Assembly.shape at h
  split at h
  · obtain ⟨⟨leaf, last⟩, hl, h⟩ := map_eq_ok.mp h
    cases h
    have helem := leaf_cases hl
    exact helem
  · split at h
    · cases h
    · obtain ⟨⟨leaf, last⟩, hl, h⟩ := map_eq_ok.mp h
      cases h
      have helem := leaf_cases hl
      exact helem
  · obtain ⟨⟨leaf, last⟩, hl, h⟩ := map_eq_ok.mp h
    cases h
    exact leaf_cases hl

/-- What taking in one type keeps, taking in the types of all members keeps. -/
theorem shapes_keep {motive : Assembly → Prop} {types : List FieldType} {shapes : List Shape}
    (hstep : ∀ type ∈ types, ∀ desc ∈ type.descriptors, ∀ id before after,
      before.streamFor desc = .ok (id, after) → motive before → motive after)
    (h : assembly.shapes types = .ok (shapes, assembly')) (hm : motive assembly) :
    motive assembly' := by
  induction types generalizing assembly shapes with
  | nil =>
      cases h
      exact hm
  | cons type rest ih =>
      obtain ⟨⟨shape, middle⟩, hfirst, h⟩ := bind_eq_ok.mp h
      obtain ⟨⟨others, last⟩, hrest, h⟩ := bind_eq_ok.mp h
      cases h
      refine ih (fun type ht => hstep type (List.mem_cons_of_mem _ ht)) hrest ?_
      rcases shape_cases hfirst with ⟨_, rfl⟩ | ⟨desc, id, hdesc, hf⟩
      · exact hm
      · exact hstep type List.mem_cons_self desc (hdesc ▸ List.mem_singleton.mpr rfl) id _ _ hf hm

/-- What takes in described types only is described. -/
theorem shapes_described {types : List FieldType} {shapes : List Shape}
    (hm : ∀ type ∈ types, ∀ desc ∈ type.descriptors, desc.markup ≠ "")
    (h : assembly.shapes types = .ok (shapes, assembly')) :
    assembly'.described = assembly.described := by
  refine shapes_keep (motive := fun last => last.described = assembly.described) ?_ h rfl
  intro type ht desc hd id before after hf hbefore
  rcases streamFor_cases hf with ⟨_, rfl⟩ | ⟨_, _, _, hkept⟩
  · exact hbefore
  · exact (hkept (hm type ht desc hd)).1.trans hbefore

end Assembly

theorem Markup.Document.write_ne_empty (document : Document) : document.write ≠ "" := fun h => by
  unfold Document.write at h
  have hclosing := (String.append_eq_empty_iff.mp h).2
  exact absurd hclosing (by decide)

namespace Declaration

variable {declaration : Declaration} {desc : Descriptor}

theorem build_steps (h : declaration.build = .ok desc) :
    declaration.parts ≠ [] ∧ duplicate? [] (declaration.members.map (·.name)) = none ∧
    ∃ order shapes assembly flags, declaration.keyOrder = .ok order ∧
      Assembly.start.shapes (declaration.members.map DeclaredMember.type) =
        .ok (shapes, assembly) ∧
      impliedFlags (declaration.assembled order shapes assembly) = .ok flags ∧
      desc = { declaration.assembled order shapes assembly with flags } ∧
      desc.validate = .ok () := by
  unfold build at h
  split_ifs at h with hparts
  split at h
  · cases h
  rename_i hdistinct
  obtain ⟨order, horder, h⟩ := bind_eq_ok.mp h
  obtain ⟨⟨shapes, assembly⟩, hshapes, h⟩ := bind_eq_ok.mp h
  obtain ⟨flags, hflags, h⟩ := bind_eq_ok.mp h
  obtain ⟨_, hvalid, h⟩ := bind_eq_ok.mp h
  cases h
  exact ⟨fun hnil => hparts (by rw [hnil]; rfl), hdistinct, order, shapes, assembly, flags, horder,
    hshapes, mapError_eq_ok.mp hflags, rfl, hvalid⟩

theorem build_assembled (h : declaration.build = .ok desc) :
    declaration.parts ≠ [] ∧ ∃ order shapes assembly flags,
      Assembly.start.shapes (declaration.members.map DeclaredMember.type) =
        .ok (shapes, assembly) ∧
      desc = { declaration.assembled order shapes assembly with flags } ∧
      desc.validate = .ok () := by
  obtain ⟨hparts, _, order, shapes, assembly, flags, _, hshapes, _, hdesc⟩ := build_steps h
  exact ⟨hparts, order, shapes, assembly, flags, hshapes, hdesc⟩

theorem build_cases (h : declaration.build = .ok desc) :
    ∃ shapes assembly order,
      Assembly.start.shapes (declaration.members.map DeclaredMember.type) =
        .ok (shapes, assembly) ∧
      desc.program = ⟨rootWords shapes order :: assembly.program.streams.drop 1⟩ ∧
      desc.typeName = Name.canonical declaration.typeName ∧
      (assembly.described = true → desc.markup ≠ "") ∧ desc.validate = .ok () := by
  obtain ⟨_, order, shapes, assembly, flags, hshapes, rfl, hvalid⟩ := build_assembled h
  refine ⟨shapes, assembly, order, hshapes, rfl, rfl, fun hdescribed => ?_, hvalid⟩
  have hmarkup : (declaration.assembled order shapes assembly).markup =
      (assembly.document.insert declaration.scope declaration.described).1.write :=
    if_pos hdescribed
  rw [hmarkup]
  exact Markup.Document.write_ne_empty _

theorem build_described (h : declaration.build = .ok desc)
    (hm : ∀ member ∈ declaration.members, ∀ desc ∈ member.type.descriptors, desc.markup ≠ "") :
    desc.markup ≠ "" := by
  obtain ⟨shapes, assembly, order, hshapes, _, _, hmarkup, _⟩ := build_cases h
  apply hmarkup
  have hmembers : ∀ type ∈ declaration.members.map DeclaredMember.type,
      ∀ desc ∈ type.descriptors, desc.markup ≠ "" := by
    intro type ht
    obtain ⟨member, hmember, rfl⟩ := List.mem_map.mp ht
    exact hm member hmember
  rw [Assembly.shapes_described hmembers hshapes]
  rfl

theorem kept_root (program : Program) (words : Stream) (h : 0 < program.length) :
    program.Kept ⟨words :: program.streams.drop 1⟩ where
  length_le := by
    simp only [Program.length, List.length_cons, List.length_drop] at h ⊢
    omega
  stream id found hid hf := by
    have hpos : 0 < id.toNat := by
      by_contra hz
      exact hid (UInt32.toNat_inj.mp (Nat.eq_zero_of_not_pos hz))
    change (words :: program.streams.drop 1)[id.toNat]? = some found
    obtain ⟨n, hn⟩ := Nat.exists_eq_succ_of_ne_zero hpos.ne'
    have hf : program.streams[id.toNat]? = some found := hf
    rw [hn] at hf ⊢
    rw [List.getElem?_cons_succ, List.getElem?_drop, Nat.add_comm]
    exact hf

/-- A root stream with what was taken in for the types of its members has one instruction for each
of them, in order, as long as streams can be numbered and nested types of one name are one type. -/
theorem laid_of_shapes {types : List FieldType} {shapes : List Shape} {assembly : Assembly}
    {order : List Nat} {program : Program}
    (h : Assembly.start.shapes types = .ok (shapes, assembly))
    (hprogram : program = ⟨rootWords shapes order :: assembly.program.streams.drop 1⟩)
    (hnames : ∀ type ∈ types, ∀ other ∈ types, ∀ desc ∈ type.descriptors,
      ∀ desc' ∈ other.descriptors, desc.canonicalName = desc'.canonicalName → desc = desc')
    (hsize : program.length ≤ UInt32.size) :
    ∃ words insns, program.stream? 0 = some words ∧ Stream.instructions 0 words = .ok insns ∧
      insns.map Instruction.field = (List.range types.length).map UInt32.ofNat ∧
      List.Forall₂ (fun insn type => FieldType.LaidIn program insn.shape type) insns types := by
  let nested (desc : Descriptor) : Prop := ∃ type ∈ types, desc ∈ type.descriptors
  have hunique : ∀ desc desc', nested desc → nested desc' →
      desc.canonicalName = desc'.canonicalName → desc = desc' := by
    rintro desc desc' ⟨type, ht, hd⟩ ⟨other, ho, hd'⟩ hname
    exact hnames type ht other ho desc hd desc' hd' hname
  have hlays := Assembly.shapes_lay hunique .start (fun type ht _ hd => ⟨type, ht, hd⟩) h
  have hkept := kept_root assembly.program (rootWords shapes order) hlays.sound.root
  rw [← hprogram] at hkept
  have hlaid := hlays.laid (hkept.length_le.trans hsize)
  have hinsns := Scan.instructions_assemble 0
    (shapes.zipIdx.map fun place => (UInt32.ofNat place.2, place.1, decide (place.2 ∈ order)))
  generalize hplaced : Instruction.placed 0 _ = insns at hinsns
  have hcontent := Instruction.map_content_placed 0
    (shapes.zipIdx.map fun place => (UInt32.ofNat place.2, place.1, decide (place.2 ∈ order)))
  rw [hplaced] at hcontent
  refine ⟨rootWords shapes order, insns, by rw [hprogram]; rfl, hinsns, ?_, ?_⟩
  · calc insns.map Instruction.field
        = (insns.map Instruction.content).map Prod.fst := by rw [List.map_map]; rfl
      _ = (shapes.zipIdx.map Prod.snd).map UInt32.ofNat := by
          rw [hcontent, List.map_map, List.map_map]; rfl
      _ = (List.range types.length).map UInt32.ofNat := by
          rw [List.zipIdx_map_snd, hlaid.length_eq, List.range_eq_range']
  · have hshape : insns.map Instruction.shape = shapes := by
      calc insns.map Instruction.shape
          = (insns.map Instruction.content).map (fun content => content.2.1) := by
            rw [List.map_map]; rfl
        _ = shapes.zipIdx.map Prod.fst := by rw [hcontent, List.map_map]; rfl
        _ = shapes := List.zipIdx_map_fst 0 shapes
    rw [← hshape, List.forall₂_map_left_iff] at hlaid
    exact hlaid.imp fun insn type h => FieldType.LaidIn.keep h hkept

/-- The program of a declared structure has one instruction for each member. -/
theorem build_lays (h : declaration.build = .ok desc)
    (hnames : ∀ member ∈ declaration.members, ∀ other ∈ declaration.members,
      ∀ desc ∈ member.type.descriptors, ∀ desc' ∈ other.type.descriptors,
        desc.canonicalName = desc'.canonicalName → desc = desc')
    (hsize : desc.program.length ≤ UInt32.size) :
    ∃ words insns last, desc.program.stream? 0 = some words ∧
      Scan.read 0 words = ⟨insns, .ok last⟩ ∧
      insns.map Instruction.field = (List.range declaration.members.length).map UInt32.ofNat ∧
      List.Forall₂ (fun insn member => FieldType.LaidIn desc.program insn.shape member.type) insns
        declaration.members := by
  obtain ⟨shapes, assembly, order, hshapes, hprogram, _, _, _⟩ := build_cases h
  obtain ⟨words, insns, hw, hinsns, hfields, hlaid⟩ :=
    laid_of_shapes hshapes hprogram (by simpa only [List.forall_mem_map] using hnames) hsize
  obtain ⟨hread, last, hend⟩ := Scan.read_of_instructions hinsns
  refine ⟨words, insns, last, hw, ?_, ?_, List.forall₂_map_right_iff.mp hlaid⟩
  · rw [← hread, ← hend]
  · rw [hfields, List.length_map]

end Declaration
end TopicCodec
