import TopicCodec.Proofs.DataFaults
import TopicCodec.Proofs.Grammar

/-!
# Nested structures are written inline

A structure inside another leaves no trace of its own on the wire: its fields are written
one after the other, from the position where it stands, as fields of the outer structure
would be. So replacing the instruction for a nested structure by the instructions of its
stream, under new field numbers, and the field by its fields under the same numbers, changes
no byte.

What is written does not depend on the path, and what can be written with some nesting
allowed can be written with more (`Carries`): the inner fields are one level less deep than
they were.
-/
namespace TopicCodec

/-! ## The flattened structure -/

/-- The instruction for a field of another number. -/
def Instruction.refield (number : UInt32 → UInt32) (insn : Instruction) : Instruction :=
  { insn with field := number insn.field }

/-- The descriptor with these instructions in its root stream. -/
def Descriptor.withRoot (desc : Descriptor) (insns : List Instruction) : Descriptor :=
  { desc with program := ⟨desc.program.streams.set 0 (Stream.ofInstructions insns)⟩ }

namespace Value

/-- The fields together with others under new numbers. -/
def insertAll (number : UInt32 → UInt32) (others fields : List (UInt32 × Value)) :
    List (UInt32 × Value) :=
  others.foldr (fun other kept => insertField (number other.1) other.2 kept) fields

/-- The structure with a field, a structure itself, replaced by its fields under new numbers. -/
def inlineField (field : UInt32) (number : UInt32 → UInt32) : Value → Value
  | struct fields =>
      match fields.lookup field with
      | some (struct inner) => struct (insertAll number inner (fields.filter (·.1 ≠ field)))
      | _ => struct fields
  | other => other

end Value

/-- New numbers for the fields of a structure: different fields get different ones, and none that
another instruction uses. -/
structure FreshNumbers (number : UInt32 → UInt32) (inner others : List Instruction) : Prop where
  injective : ∀ a ∈ inner, ∀ b ∈ inner, number a.field = number b.field → a.field = b.field
  unused : ∀ a ∈ inner, ∀ b ∈ others, number a.field ≠ b.field

namespace Value

variable {number : UInt32 → UInt32} {others fields : List (UInt32 × Value)} {index : UInt32}

theorem lookup_insertAll_of_ne (h : ∀ other ∈ others, number other.1 ≠ index) :
    (insertAll number others fields).lookup index = fields.lookup index := by
  induction others with
  | nil => rfl
  | cons other rest ih =>
      have hfirst : index ≠ number other.1 := (h other List.mem_cons_self).symm
      have hrest := ih fun other ho => h other (List.mem_cons_of_mem _ ho)
      rw [insertAll, List.foldr_cons, lookup_insertField, if_neg hfirst]
      exact hrest

theorem lookup_insertAll {found : Value} (h : ∀ other ∈ others, number other.1 = number index →
    other.1 = index) (hf : others.lookup index = some found) :
    (insertAll number others fields).lookup (number index) = some found := by
  induction others with
  | nil => cases hf
  | cons other rest ih =>
      rw [insertAll, List.foldr_cons, lookup_insertField]
      rw [lookup_cons other.1 other.2] at hf
      by_cases hsame : index = other.1
      · rw [if_pos hsame] at hf
        rw [if_pos (congrArg number hsame), hf]
      · have hother : number index ≠ number other.1 :=
          fun heq => hsame (h other List.mem_cons_self heq.symm).symm
        rw [if_neg hsame] at hf
        rw [if_neg hother]
        exact ih (fun other ho => h other (List.mem_cons_of_mem _ ho)) hf

theorem lookup_filter_ne {field : UInt32} (h : index ≠ field) :
    (fields.filter (·.1 ≠ field)).lookup index = fields.lookup index := by
  induction fields with
  | nil => rfl
  | cons first rest ih =>
      by_cases hfirst : first.1 = field
      · have hindex : index ≠ first.1 := hfirst ▸ h
        rw [List.filter_cons_of_neg (by simpa using hfirst), ih, lookup_cons first.1 first.2,
          if_neg hindex]
      · rw [List.filter_cons_of_pos (by simpa using hfirst), lookup_cons first.1 first.2,
          lookup_cons first.1 first.2, ih]

section Inline

variable {field : UInt32} {inner : List (UInt32 × Value)}
  (hf : fields.lookup field = some (.struct inner))
include hf

theorem field?_inlineField_of_ne (hne : index ≠ field)
    (hfresh : ∀ entry ∈ inner, number entry.1 ≠ index) :
    ((struct fields).inlineField field number).field? index = (struct fields).field? index := by
  simp only [inlineField, hf, field?]
  rw [lookup_insertAll_of_ne hfresh, lookup_filter_ne hne]

theorem field?_inlineField {found : Value}
    (hinjective : ∀ entry ∈ inner, number entry.1 = number index → entry.1 = index)
    (hfound : (struct inner).field? index = some found) :
    ((struct fields).inlineField field number).field? (number index) = some found := by
  simp only [inlineField, hf, field?]
  exact lookup_insertAll hinjective hfound

end Inline

end Value

namespace Marshal

/-! ## Written here, written there -/

/-- Whatever one encoder writes the other writes too. -/
def Carries (emit emit' : Nat → Except CodecError (List UInt8)) : Prop :=
  ∀ position chunk, emit position = .ok chunk → emit' position = .ok chunk

theorem emitAll_carries {α β : Type} {emit : α → Nat → Except CodecError (List UInt8)}
    {emit' : β → Nat → Except CodecError (List UInt8)} {items : List α} {items' : List β}
    (h : List.Forall₂ (fun a b => Carries (emit a) (emit' b)) items items') :
    Carries (emitAll emit items) (emitAll emit' items') := by
  induction h with
  | nil => exact fun _ _ hchunk => hchunk
  | cons hfirst _ ih =>
      intro position chunk hchunk
      obtain ⟨head, tail, hhead, htail, rfl⟩ := emitAll_cons_eq_ok.mp hchunk
      exact emitAll_cons_eq_ok.mpr ⟨head, tail, hfirst _ _ hhead, ih _ _ htail, rfl⟩

theorem emitAll_append_eq_ok {α : Type} {emit : α → Nat → Except CodecError (List UInt8)}
    {front rest : List α} {position : Nat} {chunk : List UInt8} :
    emitAll emit (front ++ rest) position = .ok chunk ↔
      ∃ head tail, emitAll emit front position = .ok head ∧
        emitAll emit rest (position + head.length) = .ok tail ∧ chunk = head ++ tail := by
  induction front generalizing position chunk with
  | nil =>
      constructor
      · exact fun h => ⟨[], chunk, rfl, h, rfl⟩
      · rintro ⟨_, tail, ⟨⟩, htail, rfl⟩
        exact htail
  | cons item front ih =>
      rw [List.cons_append, emitAll_cons_eq_ok]
      constructor
      · rintro ⟨head, _, hhead, hboth, rfl⟩
        obtain ⟨middle, tail, hmiddle, htail, rfl⟩ := ih.mp hboth
        refine ⟨head ++ middle, tail, emitAll_cons_eq_ok.mpr ⟨head, middle, hhead, hmiddle, rfl⟩,
          ?_, (List.append_assoc head middle tail).symm⟩
        rw [List.length_append, ← Nat.add_assoc]
        exact htail
      · rintro ⟨_, tail, hfront, htail, rfl⟩
        obtain ⟨head, middle, hhead, hmiddle, rfl⟩ := emitAll_cons_eq_ok.mp hfront
        refine ⟨head, middle ++ tail, hhead, ih.mpr ⟨middle, tail, hmiddle, ?_, rfl⟩,
          List.append_assoc head middle tail⟩
        change emitAll emit rest (position + (head ++ middle).length) = .ok tail at htail
        rw [List.length_append, ← Nat.add_assoc] at htail
        exact htail

/-- The second walk has the wire format of the first and the streams of it that are inside; no
others are referred to. -/
structure Shares (inside : UInt32 → Prop) (walk walk' : Walk) : Prop where
  wire : walk'.wire = walk.wire
  streams : ∀ id words, inside id → walk.desc.program.stream? id = some words →
    walk'.desc.program.stream? id = some words
  closed : ∀ id target, walk.desc.program.RefersTo id target → inside target

theorem Shares.refl (walk : Walk) : Shares (fun _ => True) walk walk where
  wire := rfl
  streams _ _ _ hwords := hwords
  closed _ _ _ := trivial

theorem Shares.inside_of_leaf {inside : UInt32 → Prop} {walk walk' : Walk}
    (h : Shares inside walk walk') {id : UInt32} {words : Stream}
    (hid : walk.desc.program.stream? id = some words) {insn : Instruction}
    (hi : insn ∈ (Scan.read id words).instructions) (target : UInt32)
    (hleaf : insn.leaf = .struct target) : inside target :=
  h.closed id target ⟨words, insn, hid, hi, hleaf⟩

/-- Nested structures that are written in one way are written in the other, at any path. -/
def NestedCarries (walk : Walk) (enter enter' : EncodeNested (List UInt8)) : Prop :=
  ∀ id words value path path', walk.desc.program.stream? id = some words →
    Carries (enter id words value path) (enter' id words value path')

section Carries

variable {inside : UInt32 → Prop} {walk walk' : Walk} {enter enter' : EncodeNested (List UInt8)}
  (hw : Shares inside walk walk') (he : NestedCarries walk enter enter')
  (stream stream' : UInt32) (pc pc' : Nat)
include hw he

theorem encodeLeaf_carries {leaf : Leaf}
    (hleaf : ∀ target, leaf = .struct target → inside target) (value : Value)
    (path path' : Path) :
    Carries (encodeLeaf walk enter stream pc leaf value path)
      (encodeLeaf walk' enter' stream' pc' leaf value path') := by
  intro position chunk h
  apply LeafWritten.encodeLeaf_eq
  cases leafWritten h with
  | number kind bits =>
      rw [← hw.wire]
      exact .number kind bits
  | bool flag =>
      rw [← hw.wire]
      exact .bool flag
  | text hzero hbound hlength =>
      rw [← hw.wire] at hlength ⊢
      exact .text hzero hbound hlength
  | @struct target words fields _ hwords hchunk =>
      exact .struct (hw.streams target words (hleaf target rfl) hwords)
        (he target words _ path path' hwords position chunk hchunk)

theorem encodeElements_carries {leaf : Leaf}
    (hleaf : ∀ target, leaf = .struct target → inside target) (items : List Value)
    (path path' : Path) :
    Carries (encodeElements walk enter stream pc leaf items path)
      (encodeElements walk' enter' stream' pc' leaf items path') := by
  intro position chunk h
  unfold encodeElements at h ⊢
  refine emitAll_carries (List.forall₂_same.mpr fun place _ position chunk h => ?_) position chunk h
  obtain ⟨item, i⟩ := place
  rw [encodeElement_eq_ok] at h ⊢
  exact encodeLeaf_carries hw he stream stream' pc pc' hleaf item _ _ position chunk h

theorem encodeShape_carries {shape : Shape}
    (hleaf : ∀ target, shape.leaf = .struct target → inside target) (value : Value)
    (path path' : Path) :
    Carries (encodeShape walk enter stream pc shape value path)
      (encodeShape walk' enter' stream' pc' shape value path') := by
  intro position chunk h
  apply ShapeWritten.encodeShape_eq
  cases shapeWritten h with
  | single hchunk =>
      exact .single (encodeLeaf_carries hw he stream stream' pc pc' hleaf _ path path' _ _ hchunk)
  | sequence hcount hbody =>
      rw [← hw.wire] at hcount hbody ⊢
      exact .sequence hcount
        (encodeElements_carries hw he stream stream' pc pc' hleaf _ path path' _ _ hbody)
  | array hcount hchunk =>
      exact .array hcount
        (encodeElements_carries hw he stream stream' pc pc' hleaf _ path path' _ _ hchunk)

theorem encodeField_carries {insn insn' : Instruction}
    (hleaf : ∀ target, insn.leaf = .struct target → inside target)
    (hshape : insn'.shape = insn.shape) {value value' : Value}
    (hfield : ∀ found, value.field? insn.field = some found →
      value'.field? insn'.field = some found) (path path' : Path) :
    Carries (encodeField walk enter stream value path insn)
      (encodeField walk' enter' stream' value' path' insn') := by
  intro position chunk h
  obtain ⟨found, hfound, hchunk⟩ := encodeField_eq_ok h
  simp only [encodeField, hfield found hfound, hshape]
  exact encodeShape_carries hw he stream stream' insn.pc insn'.pc hleaf found _ _ position chunk
    hchunk

end Carries

variable {inside : UInt32 → Prop} {walk walk' : Walk}

/-- What is written of a structure is written with more nesting allowed too. -/
theorem encodeStruct_carries (hw : Shares inside walk walk') {fuel fuel' : Nat}
    (hfuel : fuel ≤ fuel') :
    NestedCarries walk (encodeStruct walk fuel) (encodeStruct walk' fuel') := by
  induction fuel generalizing fuel' with
  | zero =>
      intro id words value path path' _ position chunk h
      cases h
  | succ fuel ih =>
      intro id words value path path' hid position chunk h
      cases fuel' with
      | zero => cases hfuel
      | succ fuel' =>
          obtain ⟨hfields, hending⟩ := encodeStruct_succ_eq_ok.mp h
          refine encodeStruct_succ_eq_ok.mpr ⟨?_, hending⟩
          refine emitAll_carries (List.forall₂_same.mpr fun insn hi => ?_) position chunk hfields
          exact encodeField_carries hw (ih (Nat.le_of_succ_le_succ hfuel)) id id
            (hw.inside_of_leaf hid hi) rfl (fun found hfound => hfound) path path'

/-! ## One structure flattened -/

theorem forall₂_placed (pc : Nat) (insns : List Instruction) :
    List.Forall₂ (fun insn insn' => insn'.field = insn.field ∧ insn'.shape = insn.shape) insns
      (Instruction.placed pc (insns.map Instruction.content)) := by
  induction insns generalizing pc with
  | nil => exact .nil
  | cons insn rest ih => exact .cons ⟨rfl, rfl⟩ (ih _)

theorem encodeStruct_ofInstructions {insns : List Instruction} {fuel : Nat} {stream : UInt32}
    {value : Value} {path : Path} {position : Nat} {chunk : List UInt8}
    (h : emitAll (encodeField walk (encodeStruct walk fuel) stream value path) insns position =
      .ok chunk) :
    encodeStruct walk (fuel + 1) stream (Stream.ofInstructions insns) value path position =
      .ok chunk := by
  obtain ⟨hread, hending⟩ := Scan.read_of_instructions
    (Scan.instructions_assemble stream (insns.map Instruction.content))
  rw [encodeStruct_succ_eq_ok, Stream.ofInstructions_eq_assemble, hread]
  refine ⟨emitAll_carries ((forall₂_placed 0 insns).imp fun insn insn' hsame => ?_) _ _ h, hending⟩
  have hnested : NestedCarries walk (encodeStruct walk fuel) (encodeStruct walk fuel) :=
    encodeStruct_carries (.refl walk) le_rfl
  refine encodeField_carries (.refl walk) hnested stream stream (fun _ _ => trivial) hsame.2 ?_ path
    path
  rw [hsame.1]
  exact fun found hfound => hfound

section Inlined

variable (hw : Shares inside walk walk') {number : UInt32 → UInt32} {value value' : Value}
include hw

/-- Instructions of a stream, under other field numbers and in a structure with the same contents
under these, write the same. -/
theorem emitAll_refield_carries {fuel fuel' : Nat} (hfuel : fuel ≤ fuel') {stream : UInt32}
    {words : Stream} (hid : walk.desc.program.stream? stream = some words)
    {insns : List Instruction} (hsub : insns ⊆ (Scan.read stream words).instructions)
    (hfields : ∀ insn ∈ insns, ∀ found, value.field? insn.field = some found →
      value'.field? (number insn.field) = some found) (stream' : UInt32) (path path' : Path) :
    Carries (emitAll (encodeField walk (encodeStruct walk fuel) stream value path) insns)
      (emitAll (encodeField walk' (encodeStruct walk' fuel') stream' value' path')
        (insns.map (Instruction.refield number))) := by
  refine emitAll_carries ?_
  rw [List.forall₂_map_right_iff]
  refine List.forall₂_same.mpr fun insn hi => ?_
  have hsame : (insn.refield number).shape = insn.shape := rfl
  exact encodeField_carries hw (encodeStruct_carries hw hfuel) stream stream'
    (hw.inside_of_leaf hid (hsub hi)) hsame (hfields insn hi) path path'

/-- The fields of a nested structure, one level further out and at a shorter path, write the
structure. -/
theorem encodeField_inlined {target : UInt32} {words : Stream} {insn : Instruction}
    (hshape : insn.shape = .single (.struct target))
    (htarget : walk.desc.program.stream? target = some words) {inner : List (UInt32 × Value)}
    (hvalue : value.field? insn.field = some (.struct inner))
    (hfields : ∀ other ∈ (Scan.read target words).instructions, ∀ found,
      (Value.struct inner).field? other.field = some found →
        value'.field? (number other.field) = some found)
    (stream : UInt32) (fuel : Nat) (path : Path) :
    Carries (encodeField walk (encodeStruct walk fuel) stream value path insn)
      (emitAll (encodeField walk' (encodeStruct walk' fuel) stream value' path)
        ((Scan.read target words).instructions.map (Instruction.refield number))) := by
  intro position chunk h
  obtain ⟨found, hfound, h⟩ := encodeField_eq_ok h
  cases hvalue.symm.trans hfound
  rw [hshape] at h
  cases shapeWritten h with
  | single hleaf =>
      cases leafWritten hleaf with
      | struct hwords hchunk =>
          cases htarget.symm.trans hwords
          cases fuel with
          | zero => cases hchunk
          | succ fuel =>
              obtain ⟨hinner, _⟩ := encodeStruct_succ_eq_ok.mp hchunk
              exact emitAll_refield_carries hw (Nat.le_succ fuel) htarget (List.Subset.refl _)
                hfields stream _ path position chunk hinner

/-- A stream writes the same with the fields of a nested structure in the place of the structure. -/
theorem emitAll_inlined {stream target : UInt32} {words innerWords : Stream}
    {front rest : List Instruction} {insn : Instruction}
    (hid : walk.desc.program.stream? stream = some words)
    (hsplit : (Scan.read stream words).instructions = front ++ insn :: rest)
    (hshape : insn.shape = .single (.struct target))
    (htarget : walk.desc.program.stream? target = some innerWords)
    {inner : List (UInt32 × Value)} (hvalue : value.field? insn.field = some (.struct inner))
    (hkept : ∀ other ∈ front ++ rest, value'.field? other.field = value.field? other.field)
    (hfields : ∀ other ∈ (Scan.read target innerWords).instructions, ∀ found,
      (Value.struct inner).field? other.field = some found →
        value'.field? (number other.field) = some found) (fuel : Nat) (path : Path) :
    Carries
      (emitAll (encodeField walk (encodeStruct walk fuel) stream value path)
        (front ++ insn :: rest))
      (emitAll (encodeField walk' (encodeStruct walk' fuel) stream value' path)
        (front ++ ((Scan.read target innerWords).instructions.map (Instruction.refield number) ++
          rest))) := by
  have hothers : ∀ others, others ⊆ front ++ rest → Carries
      (emitAll (encodeField walk (encodeStruct walk fuel) stream value path) others)
      (emitAll (encodeField walk' (encodeStruct walk' fuel) stream value' path) others) := by
    intro others hsub
    have hmem : others ⊆ (Scan.read stream words).instructions := by
      intro other ho
      have hkeep := List.mem_append.mp (hsub ho)
      rw [hsplit, List.mem_append, List.mem_cons]
      exact hkeep.imp_right .inr
    have hfound : ∀ other ∈ others, ∀ found, value.field? other.field = some found →
        value'.field? (id other.field) = some found :=
      fun other ho found hfound => (hkept other (hsub ho)).trans hfound
    have hcarries := emitAll_refield_carries hw (le_refl fuel) hid hmem hfound stream path path
    have hsame : others.map (Instruction.refield id) = others := List.map_id _
    rw [hsame] at hcarries
    exact hcarries
  intro position chunk h
  obtain ⟨head, tail, hhead, htail, rfl⟩ := emitAll_append_eq_ok.mp h
  obtain ⟨middle, last, hmiddle, hlast, rfl⟩ := emitAll_cons_eq_ok.mp htail
  have hhead' := hothers front (List.subset_append_left _ _) _ _ hhead
  have hmiddle' := encodeField_inlined hw hshape htarget hvalue hfields stream fuel path _ _ hmiddle
  have hlast' := hothers rest (List.subset_append_right _ _) _ _ hlast
  have htail' := emitAll_append_eq_ok.mpr ⟨middle, last, hmiddle', hlast', rfl⟩
  exact emitAll_append_eq_ok.mpr ⟨head, middle ++ last, hhead', htail', rfl⟩

end Inlined

end Marshal

theorem Descriptor.stream?_withRoot (desc : Descriptor) {words : Stream}
    (h : desc.program.stream? 0 = some words) (insns : List Instruction) :
    (desc.withRoot insns).program.stream? 0 = some (Stream.ofInstructions insns) := by
  obtain ⟨hlt, _⟩ := List.getElem?_eq_some_iff.mp h
  exact List.getElem?_set_self hlt

/-- Another root stream changes nothing for the streams that instructions refer to. -/
theorem Descriptor.shares_withRoot {desc : Descriptor} (h : ∀ id, ¬desc.program.RefersTo id 0)
    (wire : WireFormat) (insns : List Instruction) :
    Marshal.Shares (· ≠ 0) ⟨desc, wire⟩ ⟨desc.withRoot insns, wire⟩ where
  wire := rfl
  streams id words hid hwords := by
    have hne : 0 ≠ id.toNat := fun heq => hid (UInt32.toNat_inj.mp heq.symm)
    change (desc.program.streams.set 0 _)[id.toNat]? = some words
    rw [List.getElem?_set_ne hne]
    exact hwords
  closed id target hrefers := by
    rintro rfl
    exact h id hrefers

theorem Program.not_refersTo {program : Program} {target : UInt32}
    (h : (program.numbered.all fun entry =>
      (Scan.read entry.1 entry.2).instructions.all (·.leaf ≠ .struct target)) = true)
    (id : UInt32) : ¬program.RefersTo id target := by
  rintro ⟨words, insn, hwords, hi, hleaf⟩
  have hstream := List.all_eq_true.mp h _ (List.mem_of_getElem? (numbered_of_stream? hwords))
  exact of_decide_eq_true (List.all_eq_true.mp hstream insn hi) hleaf

/-- One of several instructions for different fields addresses none of the other fields. -/
theorem ne_of_nodup_fields {front rest : List Instruction} {insn other : Instruction}
    (h : ((front ++ insn :: rest).map (·.field)).Nodup) (ho : other ∈ front ++ rest) :
    other.field ≠ insn.field := by
  rw [List.map_append, List.map_cons, List.nodup_middle, ← List.map_append, List.nodup_cons] at h
  intro heq
  exact h.1 (heq ▸ List.mem_map_of_mem ho)

namespace WireFormat

open Marshal

/-- Nested structures are inlined on the wire. In a descriptor where nothing refers to the root
stream and no stream addresses a field twice, let an instruction of the root stream describe a
nested structure. Replace it by the instructions of the nested structure under any fresh field
numbers, and in a sample replace the field by its fields under these numbers. If the sample can be
encoded, so can the flattened one, to the same bytes. -/
theorem serialize_inlined {desc : Descriptor} (hapart : ∀ id, ¬desc.program.RefersTo id 0)
    (hd : desc.program.fieldsDistinct = true) {words innerWords : Stream}
    {front rest : List Instruction} {insn : Instruction} {target : UInt32}
    (hroot : desc.program.stream? 0 = some words)
    (hsplit : (Scan.read 0 words).instructions = front ++ insn :: rest)
    (hshape : insn.shape = .single (.struct target))
    (hinner : desc.program.stream? target = some innerWords) {number : UInt32 → UInt32}
    (hfresh : FreshNumbers number (Scan.read target innerWords).instructions (front ++ rest))
    (wire : WireFormat) {sample : Value} (hs : Shaped desc.program (.single (.struct 0)) sample)
    {bytes : List UInt8} (h : wire.serialize desc sample = .ok bytes) :
    wire.serialize
      (desc.withRoot (front ++
        ((Scan.read target innerWords).instructions.map (Instruction.refield number) ++ rest)))
      (sample.inlineField insn.field number) = .ok bytes := by
  cases id hs with
  | @struct _ found fields hfound _ _ =>
      cases hroot.symm.trans hfound
      have hmem : insn ∈ (Scan.read 0 words).instructions := by simp [hsplit]
      obtain ⟨nested, hnested, hshaped⟩ := hs.exists_field hd hroot hmem
      rw [hshape] at hshaped
      cases hshaped with
      | @struct _ found inner hfound ha _ =>
          cases hinner.symm.trans hfound
          have hnodup := Program.nodup_of_fieldsDistinct hd hroot
          rw [hsplit] at hnodup
          obtain ⟨root, hw, hfields⟩ := bind_eq_ok.mp h
          cases hroot.symm.trans (Walk.root_eq_ok.mp hw)
          obtain ⟨hfields, _⟩ := encodeStruct_succ_eq_ok.mp hfields
          rw [hsplit] at hfields
          have hvalue : (Value.struct fields).field? insn.field = some (.struct inner) := hnested
          refine bind_eq_ok.mpr ⟨_, Walk.root_eq_ok.mpr (desc.stream?_withRoot hroot _),
            encodeStruct_ofInstructions (emitAll_inlined (desc.shares_withRoot hapart wire _) hroot
              hsplit hshape hinner hvalue ?_ ?_ maxNesting _ _ _ hfields)⟩
          · intro other ho
            apply Value.field?_inlineField_of_ne hnested
            · exact ne_of_nodup_fields hnodup ho
            · intro entry hentry
              obtain ⟨a, hma, hfield⟩ := ha.exists_insn hentry
              rw [← hfield]
              exact hfresh.unused a hma other ho
          · intro other ho found hfound
            apply Value.field?_inlineField hnested _ hfound
            intro entry hentry heq
            obtain ⟨a, hma, hfield⟩ := ha.exists_insn hentry
            rw [← hfield] at heq ⊢
            exact hfresh.injective a hma other ho heq

/-- A parcel with a label, and notes in it. -/
def parcel : Descriptor where
  typeName := "Parcel"
  program := ⟨[
    Stream.assemble [(0, .single (.number .u8), false), (4, .single (.struct 1), false),
      (7, .single (.number .u16), false)],
    Stream.assemble [(0, .single (.number .u32), false), (1, .sequence (.struct 2), false)],
    Stream.assemble [(0, .single (.string none), false)]]⟩

/-- The parcel that has the fields of the label itself. -/
def flatParcel : Descriptor where
  typeName := "Parcel"
  program := ⟨[
    Stream.assemble [(0, .single (.number .u8), false), (10, .single (.number .u32), false),
      (11, .sequence (.struct 2), false), (7, .single (.number .u16), false)],
    Stream.assemble [(0, .single (.number .u32), false), (1, .sequence (.struct 2), false)],
    Stream.assemble [(0, .single (.string none), false)]]⟩

def parcelNotes : Value :=
  .sequence (.leaf parcel.program (.struct 2)) [.struct [(0, .text "hi")]]

def parcelSample : Value :=
  .struct [(0, .scalar (.number .u8 1)),
    (4, .struct [(0, .scalar (.number .u32 2)), (1, parcelNotes)]),
    (7, .scalar (.number .u16 3))]

def flatParcelSample : Value :=
  .struct [(0, .scalar (.number .u8 1)), (7, .scalar (.number .u16 3)),
    (10, .scalar (.number .u32 2)), (11, parcelNotes)]

theorem parcelSample_reachable : Reachable parcel parcelSample :=
  ⟨.struct [(0, .scalar (.zero .u8)),
      (4, .struct [(0, .scalar (.zero .u32)),
        (1, .sequence (.leaf parcel.program (.struct 2)) [])]),
      (7, .scalar (.zero .u16))],
    [.resize [.field 4, .field 1] 1,
      .store [.field 0] (.scalar (.number .u8 1)),
      .store [.field 4, .field 0] (.scalar (.number .u32 2)),
      .store [.field 4, .field 1, .element 0, .field 0] (.text "hi"),
      .store [.field 7] (.scalar (.number .u16 3))],
    by with_unfolding_all rfl, by with_unfolding_all rfl⟩

theorem serialize_parcelSample_flat :
    (∀ id, ¬parcel.program.RefersTo id 0) ∧ parcel.program.fieldsDistinct = true ∧
      Shaped parcel.program (.single (.struct 0)) parcelSample ∧
      bigEndian.serialize parcel parcelSample =
        .ok [1, 0, 0, 0, 0, 0, 0, 2, 0, 0, 0, 1, 0, 0, 0, 3, 104, 105, 0, 0, 0, 3] ∧
      bigEndian.serialize flatParcel flatParcelSample =
        .ok [1, 0, 0, 0, 0, 0, 0, 2, 0, 0, 0, 1, 0, 0, 0, 3, 104, 105, 0, 0, 0, 3] := by
  have hbytes : bigEndian.serialize parcel parcelSample =
      .ok [1, 0, 0, 0, 0, 0, 0, 2, 0, 0, 0, 1, 0, 0, 0, 3, 104, 105, 0, 0, 0, 3] := by
    with_unfolding_all rfl
  have hapart : ∀ id, ¬parcel.program.RefersTo id 0 :=
    Program.not_refersTo (by with_unfolding_all rfl)
  have hd : parcel.program.fieldsDistinct = true := by with_unfolding_all rfl
  have hsplit : (Scan.read 0 (Stream.assemble [(0, .single (.number .u8), false),
        (4, .single (.struct 1), false), (7, .single (.number .u16), false)])).instructions =
      [⟨0, 0, false, .single (.number .u8)⟩] ++ ⟨2, 4, false, .single (.struct 1)⟩ ::
        [⟨5, 7, false, .single (.number .u16)⟩] := by
    with_unfolding_all rfl
  have hinner : (Scan.read 1 (Stream.assemble [(0, .single (.number .u32), false),
        (1, .sequence (.struct 2), false)])).instructions =
      [⟨0, 0, false, .single (.number .u32)⟩, ⟨2, 1, false, .sequence (.struct 2)⟩] := by
    with_unfolding_all rfl
  have hfresh : FreshNumbers (· + 10)
      [⟨0, 0, false, .single (.number .u32)⟩, ⟨2, 1, false, .sequence (.struct 2)⟩]
      ([⟨0, 0, false, .single (.number .u8)⟩] ++ [⟨5, 7, false, .single (.number .u16)⟩]) :=
    ⟨by decide, by decide⟩
  rw [← hinner] at hfresh
  have hflat := serialize_inlined hapart hd rfl hsplit rfl rfl hfresh bigEndian
    parcelSample_reachable.shaped hbytes
  rw [hinner] at hflat
  exact ⟨hapart, hd, parcelSample_reachable.shaped, hbytes, hflat⟩

end WireFormat
end TopicCodec
