import Mathlib.Data.List.Nodup
import TopicCodec.Proofs.Grammar
import TopicCodec.Proofs.KeySize

/-!
# What a declaration becomes

Members and keys of a declaration are matched by position: the instruction of a member has the
number of its place, a key is the word position at which the instruction of its member was put,
and the key order holds places of members. The instructions have different lengths, and a key
is looked up by reading the finished stream again. Here the three ways of counting are shown to
agree, so that a descriptor that was built says of each member and of each key what was
declared (`Declaration.Lowers`).
-/
namespace TopicCodec

/-! ## Shapes of members -/

namespace FieldType

/-- The shape is of the kind of the type, wherever its structures are described. -/
abbrev IsOfKind : Shape → FieldType → Prop := Laid fun _ _ => True

theorem IsOfKind.count {dims : List UInt32} {elem : FieldType} {shape : Shape}
    (h : IsOfKind shape (.array dims elem)) :
    ∃ leaf count, shape = .array leaf count ∧ count.toNat = (dims.map UInt32.toNat).prod := by
  cases h with
  | array hcount _ => exact ⟨_, _, rfl, Assembly.toNat_elementCount? hcount⟩

end FieldType

namespace Assembly

variable {assembly assembly' : Assembly}

theorem leaf_isOfKind {type : FieldType} {leaf : Leaf}
    (h : assembly.leaf type = .ok (leaf, assembly')) : FieldType.IsOfKind (.single leaf) type := by
  cases type with
  | number kind =>
      cases h
      exact .number kind
  | bool =>
      cases h
      exact .bool
  | string bound =>
      cases h
      exact .string bound
  | struct desc =>
      obtain ⟨⟨id, last⟩, _, h⟩ := map_eq_ok.mp h
      cases h
      exact .struct trivial
  | sequence elem => cases h
  | array dims elem => cases h

theorem shape_isOfKind {type : FieldType} {shape : Shape}
    (h : assembly.shape type = .ok (shape, assembly')) : FieldType.IsOfKind shape type := by
  unfold Assembly.shape at h
  split at h
  · obtain ⟨⟨leaf, last⟩, hl, h⟩ := map_eq_ok.mp h
    cases h
    exact .sequence (leaf_isOfKind hl)
  · split at h
    · cases h
    · rename_i count hcount
      obtain ⟨⟨leaf, last⟩, hl, h⟩ := map_eq_ok.mp h
      cases h
      exact .array hcount (leaf_isOfKind hl)
  · obtain ⟨⟨leaf, last⟩, hl, h⟩ := map_eq_ok.mp h
    cases h
    exact leaf_isOfKind hl

theorem shapes_areOfKind {types : List FieldType} {shapes : List Shape}
    (h : assembly.shapes types = .ok (shapes, assembly')) :
    List.Forall₂ FieldType.IsOfKind shapes types := by
  induction types generalizing assembly shapes with
  | nil =>
      cases h
      exact .nil
  | cons type rest ih =>
      obtain ⟨⟨shape, middle⟩, hfirst, h⟩ := bind_eq_ok.mp h
      obtain ⟨⟨others, last⟩, hrest, h⟩ := bind_eq_ok.mp h
      cases h
      exact .cons (shape_isOfKind hfirst) (ih hrest)

end Assembly

/-! ## Word positions -/

theorem Shape.two_le_length (shape : Shape) : 2 ≤ shape.length := by
  unfold Shape.length
  omega

namespace Instruction

theorem getElem?_placed {pc i : Nat} {fields : List (UInt32 × Shape × Bool)} {insn : Instruction}
    (h : (placed pc fields)[i]? = some insn) : fields[i]? = some insn.content := by
  rw [← map_content_placed pc fields, List.getElem?_map, h]
  rfl

/-- Instructions stand at or behind the start, each at least as far as its place in the list, and
before the end of the words. -/
theorem pc_bounds {pc i : Nat} {fields : List (UInt32 × Shape × Bool)} {insn : Instruction}
    (h : (placed pc fields)[i]? = some insn) :
    pc + i ≤ insn.pc ∧ insn.pc < pc + (Stream.assemble fields).length := by
  induction fields generalizing pc i with
  | nil => cases h
  | cons first rest ih =>
      obtain ⟨field, shape, key⟩ := first
      have hlength : (Stream.assemble ((field, shape, key) :: rest)).length =
          shape.length + (Stream.assemble rest).length := by
        simp only [Stream.assemble, List.flatMap_cons, List.append_assoc, List.length_append,
          words, List.length_cons, Shape.length]
        omega
      have hpos := shape.two_le_length
      cases i with
      | zero =>
          cases h
          dsimp only
          omega
      | succ i =>
          obtain ⟨hlow, hhigh⟩ := ih h
          omega

theorem pairwise_pc_placed (pc : Nat) (fields : List (UInt32 × Shape × Bool)) :
    (placed pc fields).Pairwise fun a b => a.pc < b.pc := by
  induction fields generalizing pc with
  | nil => exact .nil
  | cons first rest ih =>
      obtain ⟨field, shape, key⟩ := first
      refine List.pairwise_cons.mpr ⟨fun insn hi => ?_, ih _⟩
      obtain ⟨i, hi⟩ := List.mem_iff_getElem?.mp hi
      have hlow := (pc_bounds hi).1
      have hpos := shape.two_le_length
      dsimp only
      omega

theorem find?_pc {insns : List Instruction} (h : insns.Pairwise fun a b => a.pc < b.pc)
    {insn : Instruction} (hi : insn ∈ insns) :
    insns.find? (insn.pc ≤ ·.pc) = some insn := by
  induction insns with
  | nil => cases hi
  | cons first rest ih =>
      obtain ⟨hfirst, hrest⟩ := List.pairwise_cons.mp h
      rcases List.mem_cons.mp hi with rfl | hi
      · simp
      · have hbefore := hfirst insn hi
        rw [List.find?_cons_of_neg (by simpa using hbefore)]
        exact ih hrest hi

end Instruction

namespace Declaration

/-- The fields of the root stream, given the shapes of the members and which of them are keys. -/
def rootFields (shapes : List Shape) (order : List Nat) : List (UInt32 × Shape × Bool) :=
  shapes.zipIdx.map fun place => (UInt32.ofNat place.2, place.1, decide (place.2 ∈ order))

/-- The instructions of the root stream. -/
abbrev rootInstructions (shapes : List Shape) (order : List Nat) : List Instruction :=
  Instruction.placed 0 (rootFields shapes order)

variable {shapes : List Shape} {order : List Nat} {i : Nat}

theorem getElem?_rootFields :
    (rootFields shapes order)[i]? =
      shapes[i]?.map fun shape => (UInt32.ofNat i, shape, decide (i ∈ order)) := by
  rw [rootFields, List.getElem?_map, List.getElem?_zipIdx, Option.map_map, Nat.zero_add]
  rfl

theorem getElem?_rootInstructions {insn : Instruction}
    (h : (rootInstructions shapes order)[i]? = some insn) :
    insn.field = UInt32.ofNat i ∧ shapes[i]? = some insn.shape ∧ insn.key = decide (i ∈ order) := by
  have hfield := Instruction.getElem?_placed h
  rw [getElem?_rootFields] at hfield
  obtain ⟨shape, hshape, hcontent⟩ := Option.map_eq_some_iff.mp hfield
  obtain ⟨hindex, hcontent⟩ := Prod.mk.inj hcontent
  obtain ⟨rfl, hkey⟩ := Prod.mk.inj hcontent
  exact ⟨hindex.symm, hshape, hkey.symm⟩

theorem length_rootInstructions (shapes : List Shape) (order : List Nat) :
    (rootInstructions shapes order).length = shapes.length := by
  rw [← List.length_map Instruction.content, Instruction.map_content_placed, rootFields,
    List.length_map, List.length_zipIdx]

theorem positions_map_shape (pc : Nat) (fields : List (UInt32 × Shape × Bool)) :
    positions pc (fields.map fun field => field.2.1) =
      (Instruction.placed pc fields).map Instruction.pc := by
  induction fields generalizing pc with
  | nil => rfl
  | cons first rest ih =>
      rw [List.map_cons, positions, ih]
      rfl

theorem positions_eq_map_pc (shapes : List Shape) (order : List Nat) :
    positions 0 shapes = (rootInstructions shapes order).map Instruction.pc := by
  have hshapes : (rootFields shapes order).map (fun field => field.2.1) = shapes := by
    rw [rootFields, List.map_map]
    exact List.zipIdx_map_fst 0 shapes
  rw [← positions_map_shape, hshapes]

end Declaration

namespace Descriptor

variable {desc : Descriptor} {words : Stream} {insns : List Instruction}

theorem keyInstruction_eq (hw : desc.program.root? = some words)
    (hinsns : Stream.instructions 0 words = .ok insns) {insn : Instruction} (hi : insn ∈ insns)
    (hsize : insn.pc < UInt32.size) (name : String) :
    desc.keyInstruction ⟨name, UInt32.ofNat insn.pc⟩ = .ok insn := by
  obtain ⟨_, hread⟩ := Stream.instructions_eq_ok.mp hinsns
  obtain ⟨fields, _, rfl⟩ := Stream.instructions_eq_ok_iff.mp hinsns
  have hpc : (UInt32.ofNat insn.pc).toNat = insn.pc := UInt32.toNat_ofNat_of_lt' hsize
  have hfind := Instruction.find?_pc (Instruction.pairwise_pc_placed 0 fields) hi
  have hat : desc.rootInstructionAt (UInt32.ofNat insn.pc) = .ok (some insn) := by
    simp only [rootInstructionAt, hw, hread, hpc, hfind, if_true]
  simp only [keyInstruction, hat]
  rfl

end Descriptor

/-! ## Keys -/

namespace Declaration

variable {declaration : Declaration} {shapes : List Shape} {order : List Nat} {i : Nat}

/-- Names of the key members in key order. -/
def keyNames (declaration : Declaration) : List String :=
  declaration.keyList.getD ((declaration.members.filter (·.key)).map (·.name))

/-- The key list names the member or, where there is no key list, the member is marked. -/
def IsKey (declaration : Declaration) (member : DeclaredMember) : Prop :=
  match declaration.keyList with
  | some names => member.name ∈ names
  | none => member.key = true

/-- A member of this name stands at this place. -/
def StandsAt (members : List DeclaredMember) (name : String) (i : Nat) : Prop :=
  ∃ member, members[i]? = some member ∧ member.name = name

theorem nodup_of_duplicate? {seen names : List String} (h : duplicate? seen names = none) :
    names.Nodup ∧ ∀ name ∈ names, name ∉ seen := by
  induction names generalizing seen with
  | nil => exact ⟨List.nodup_nil, fun _ hn => by cases hn⟩
  | cons name rest ih =>
      unfold duplicate? at h
      split_ifs at h with hseen
      obtain ⟨hrest, hnew⟩ := ih h
      constructor
      · exact List.nodup_cons.mpr ⟨fun hn => hnew name hn List.mem_cons_self, hrest⟩
      · intro other ho
        rcases List.mem_cons.mp ho with rfl | ho
        · exact hseen
        · exact fun hs => hnew other ho (List.mem_cons_of_mem _ hs)

theorem keyPositions_eq_ok {members : List DeclaredMember} {order result : List Nat}
    {names : List String} (h : keyPositions members order names = .ok result) :
    ∃ places, result = order ++ places ∧ List.Forall₂ (StandsAt members) names places := by
  induction names generalizing order with
  | nil =>
      cases h
      exact ⟨[], (List.append_nil _).symm, .nil⟩
  | cons name rest ih =>
      unfold keyPositions at h
      split at h
      · cases h
      · rename_i i hi
        split_ifs at h
        obtain ⟨places, rfl, hplaces⟩ := ih h
        obtain ⟨hlt, hname, _⟩ := List.findIdx?_eq_some_iff_getElem.mp hi
        refine ⟨i :: places, List.append_assoc order [i] places, .cons ?_ hplaces⟩
        exact ⟨members[i], List.getElem?_eq_getElem hlt, beq_iff_eq.mp hname⟩

/-- The key order holds the places of the key members, in the order of their names. -/
theorem keyOrder_stands (h : declaration.keyOrder = .ok order) :
    List.Forall₂ (StandsAt declaration.members) declaration.keyNames order := by
  unfold keyOrder at h
  unfold keyNames
  split at h
  · rename_i names hnames
    obtain ⟨places, rfl, hplaces⟩ := keyPositions_eq_ok h
    rw [hnames]
    exact hplaces
  · rename_i hnone
    cases h
    have hmarked : declaration.members.filter (·.key) =
        (declaration.members.zipIdx.filter fun place => place.1.key).map Prod.fst := by
      conv_lhs => rw [← List.zipIdx_map_fst 0 declaration.members]
      rw [List.filter_map]
      rfl
    rw [hnone, Option.getD_none, hmarked, List.map_map, List.forall₂_map_left_iff,
      List.forall₂_map_right_iff, List.forall₂_same]
    intro place hplace
    have hmem := (List.mem_filter.mp hplace).1
    exact ⟨place.1, List.mem_zipIdx_iff_getElem?.mp hmem, rfl⟩

/-- If no two members have one name, the places in the key order are those of the key members. -/
theorem mem_keyOrder_iff (hnames : (declaration.members.map (·.name)).Nodup)
    (h : declaration.keyOrder = .ok order) {member : DeclaredMember}
    (hm : declaration.members[i]? = some member) : i ∈ order ↔ declaration.IsKey member := by
  have hstands := keyOrder_stands h
  have hplace : i ∈ order ↔ member.name ∈ declaration.keyNames := by
    constructor
    · intro hi
      obtain ⟨k, hk⟩ := List.mem_iff_getElem?.mp hi
      obtain ⟨name, hname, found, hfound, rfl⟩ := getElem?_of_forall₂ hstands.flip hk
      cases hm.symm.trans hfound
      exact List.mem_of_getElem? hname
    · intro hn
      obtain ⟨k, hk⟩ := List.mem_iff_getElem?.mp hn
      obtain ⟨j, hj, found, hfound, hname⟩ := getElem?_of_forall₂ hstands hk
      have hsame : j = i := by
        have hlt := (List.getElem?_eq_some_iff.mp hfound).1
        refine (List.getElem?_inj (by rwa [List.length_map]) hnames).mp ?_
        rw [List.getElem?_map, List.getElem?_map, hfound, hm]
        exact congrArg some hname
      exact hsame ▸ List.mem_of_getElem? hj
  rw [hplace]
  unfold keyNames IsKey
  cases declaration.keyList with
  | some names => rfl
  | none =>
      simp only [Option.getD_none, List.mem_map, List.mem_filter]
      constructor
      · rintro ⟨other, ⟨ho, hkey⟩, hname⟩
        have hsame := List.inj_on_of_nodup_map hnames ho (List.mem_of_getElem? hm) hname
        exact hsame ▸ hkey
      · exact fun hkey => ⟨member, ⟨List.mem_of_getElem? hm, hkey⟩, rfl⟩

/-- The entry of the key table for the member at a place. -/
def keyAt (members : List DeclaredMember) (pcs : List Nat) (i : Nat) : Option Key :=
  match members[i]?, pcs[i]? with
  | some member, some pc => some ⟨member.name, UInt32.ofNat pc⟩
  | _, _ => none

theorem keys_assembled (order : List Nat) (shapes : List Shape) (assembly : Assembly) :
    (declaration.assembled order shapes assembly).keys =
      order.filterMap (keyAt declaration.members (positions 0 shapes)) := by
  unfold keyAt
  rfl

/-- If each member has an instruction, and a key at its position is looked up as this instruction,
then the key table names the members at the places of the key order, and its lookup finds their
instructions. -/
theorem lookup_keys {members : List DeclaredMember} {pcs : List Nat} {insns : List Instruction}
    {look : Key → Except Defect Instruction}
    (hlook : ∀ (i : Nat) (member : DeclaredMember), members[i]? = some member →
      ∃ insn, insns[i]? = some insn ∧ pcs[i]? = some insn.pc ∧
        look ⟨member.name, UInt32.ofNat insn.pc⟩ = .ok insn)
    {names : List String} (h : List.Forall₂ (StandsAt members) names order) :
    (order.filterMap (keyAt members pcs)).map Key.name = names ∧
      ∃ found, (order.filterMap (keyAt members pcs)).mapM look = .ok found ∧
        List.Forall₂ (fun name insn => ∃ i, StandsAt members name i ∧ insns[i]? = some insn)
          names found := by
  induction h with
  | nil => exact ⟨rfl, [], rfl, .nil⟩
  | @cons _ i _ _ hstands _ ih =>
      obtain ⟨member, hm, rfl⟩ := hstands
      obtain ⟨insn, hi, hpc, hfound⟩ := hlook i member hm
      obtain ⟨hnames, found, hrest, hall⟩ := ih
      have hkey : keyAt members pcs i = some ⟨member.name, UInt32.ofNat insn.pc⟩ := by
        rw [keyAt, hm, hpc]
      rw [List.filterMap_cons_some hkey, List.map_cons, hnames, List.mapM_cons, hfound, hrest]
      exact ⟨rfl, insn :: found, rfl, .cons ⟨i, ⟨member, hm, rfl⟩, hi⟩ hall⟩

/-! ## Flags -/

theorem contains_impliedFlags {desc : Descriptor} {flags : Flags}
    (h : impliedFlags desc = .ok flags) :
    (flags.contains .variableSize = true ↔ desc.fixedSize? {} = .ok none) ∧
      (flags.contains .fixedKey = true ↔ desc.keys ≠ [] ∧ desc.keyFits = .ok true) := by
  obtain ⟨size, hsize, h⟩ := bind_eq_ok.mp h
  rw [hsize]
  cases hkeys : desc.keys with
  | nil =>
      rw [hkeys] at h
      cases h
      cases size <;> simp <;> decide
  | cons key rest =>
      rw [hkeys] at h
      obtain ⟨fits, hfits, h⟩ := bind_eq_ok.mp h
      rw [hfits]
      cases h
      cases size <;> cases fits <;> simp <;> decide

/-! ## Descriptors that were built -/

structure Lowers (declaration : Declaration) (desc : Descriptor) (insns : List Instruction) :
    Prop where
  root : ∃ words, desc.program.root? = some words ∧ Stream.instructions 0 words = .ok insns
  length_eq : insns.length = declaration.members.length
  /-- A name stands at one place only. -/
  distinct : (declaration.members.map (·.name)).Nodup
  /-- The instruction at a place is for the field of this number, is of the kind of the member
  there, and is marked as a key exactly if the member is one. -/
  member : ∀ (i : Nat) (insn : Instruction) (member : DeclaredMember), insns[i]? = some insn →
    declaration.members[i]? = some member →
      insn.field.toNat = i ∧ FieldType.IsOfKind insn.shape member.type ∧
        (insn.key = true ↔ declaration.IsKey member)
  /-- An array has as many elements as its dimensions make. -/
  count : ∀ (i : Nat) (insn : Instruction) (member : DeclaredMember), insns[i]? = some insn →
    declaration.members[i]? = some member → ∀ dims elem, member.type = .array dims elem →
      ∃ leaf count, insn.shape = .array leaf count ∧ count.toNat = (dims.map UInt32.toNat).prod
  keyNames : desc.keys.map Key.name = declaration.keyNames
  /-- The keys are looked up as the instructions of the members with their names. -/
  keyInstructions : ∃ found, desc.keyInstructions = .ok found ∧
    List.Forall₂ (fun name insn => ∃ i, StandsAt declaration.members name i ∧
      insns[i]? = some insn) declaration.keyNames found
  variableSize : desc.flags.contains .variableSize = true ↔ desc.fixedSize? {} = .ok none
  fixedKey : desc.flags.contains .fixedKey = true ↔
    desc.keys ≠ [] ∧ ∃ size, desc.maxKeySize? = .ok (some size) ∧ size ≤ keyHashSize

theorem isOfKind_rootInstructions {assembly : Assembly}
    (h : Assembly.start.shapes (declaration.members.map DeclaredMember.type) =
      .ok (shapes, assembly))
    {insn : Instruction} (hi : (rootInstructions shapes order)[i]? = some insn)
    {member : DeclaredMember} (hm : declaration.members[i]? = some member) :
    FieldType.IsOfKind insn.shape member.type := by
  have hkinds := List.forall₂_map_right_iff.mp (Assembly.shapes_areOfKind h)
  obtain ⟨_, hfound, hkind⟩ := getElem?_of_forall₂ hkinds (getElem?_rootInstructions hi).2.1
  cases hm.symm.trans hfound
  exact hkind

/-- A key with the position that was given out for a member is looked up as the instruction of this
member. -/
theorem keyInstruction_assembled {assembly : Assembly}
    (hsize : (rootWords shapes order).length < UInt32.size) {insn : Instruction}
    (hi : (rootInstructions shapes order)[i]? = some insn) (name : String) :
    (declaration.assembled order shapes assembly).keyInstruction ⟨name, UInt32.ofNat insn.pc⟩ =
      .ok insn := by
  have hend : insn.pc < 0 + (rootWords shapes order).length := (Instruction.pc_bounds hi).2
  rw [Nat.zero_add] at hend
  exact Descriptor.keyInstruction_eq rfl (Scan.instructions_assemble 0 _)
    (List.mem_of_getElem? hi) (hend.trans hsize) name

/-- A declaration is lowered faithfully: what is built has, for every member, an instruction at its
place that says what the member says, keys that are the key members in their order and lead to
their instructions, and the flags that the sizes imply. -/
theorem build_lowers {desc : Descriptor} (h : declaration.build = .ok desc)
    (hwords : ∀ words, desc.program.root? = some words → words.length < UInt32.size) :
    ∃ insns, declaration.Lowers desc insns := by
  obtain ⟨_, hdistinct, order, shapes, assembly, flags, horder, hshapes, hflags, rfl, _⟩ :=
    build_steps h
  have hsize := hwords (rootWords shapes order) rfl
  have hnames := (nodup_of_duplicate? hdistinct).1
  have hlength : (rootInstructions shapes order).length = declaration.members.length := by
    rw [length_rootInstructions, (Assembly.shapes_areOfKind hshapes).length_eq, List.length_map]
  have hlook : ∀ (i : Nat) (member : DeclaredMember), declaration.members[i]? = some member →
      ∃ insn, (rootInstructions shapes order)[i]? = some insn ∧
        (positions 0 shapes)[i]? = some insn.pc ∧
        (declaration.assembled order shapes assembly).keyInstruction
          ⟨member.name, UInt32.ofNat insn.pc⟩ = .ok insn := by
    intro i member hm
    have hi := List.getElem?_eq_getElem (hlength ▸ (List.getElem?_eq_some_iff.mp hm).1)
    refine ⟨_, hi, ?_, keyInstruction_assembled hsize hi member.name⟩
    rw [positions_eq_map_pc shapes order, List.getElem?_map, hi]
    rfl
  obtain ⟨hkeyNames, found, hfound, hall⟩ := lookup_keys hlook (keyOrder_stands horder)
  rw [← keys_assembled order shapes assembly] at hkeyNames hfound
  obtain ⟨hvariable, hfixed⟩ := contains_impliedFlags hflags
  exact ⟨rootInstructions shapes order, {
    root := ⟨_, rfl, Scan.instructions_assemble 0 _⟩
    length_eq := hlength
    distinct := hnames
    member := by
      intro i insn member hi hm
      obtain ⟨hfield, _, hkey⟩ := getElem?_rootInstructions hi
      refine ⟨?_, isOfKind_rootInstructions hshapes hi hm, ?_⟩
      · have hpc := Instruction.pc_bounds hi
        have hend : (Stream.assemble (rootFields shapes order)).length < UInt32.size := hsize
        rw [hfield]
        exact UInt32.toNat_ofNat_of_lt' (by omega)
      · rw [hkey, decide_eq_true_iff]
        exact mem_keyOrder_iff hnames horder hm
    count := by
      intro i insn member hi hm dims elem htype
      exact (htype ▸ isOfKind_rootInstructions hshapes hi hm).count
    keyNames := hkeyNames
    keyInstructions := ⟨found, hfound, hall⟩
    variableSize := hvariable
    fixedKey := hfixed.trans (and_congr_right fun _ => Descriptor.keyFits_iff) }⟩

/-- A type that is known without a description. -/
def item : Descriptor where
  typeName := "Depot::Item"
  program := ⟨[Stream.assemble [(0, .single (.number .u16), false)]]⟩

/-- Members with instructions of different lengths. The key list puts the last of them first, and
takes the place of the mark at the second. -/
def parcel : Declaration where
  typeName := "Depot::Parcel"
  members := [
    ⟨"slots", .array [2, 3] .bool, false⟩,
    ⟨"weight", .number .f64, true⟩,
    ⟨"items", .sequence (.struct item), false⟩,
    ⟨"serial", .string (some 4), false⟩,
    ⟨"stamp", .number .u32, false⟩]
  keyList := some ["stamp", "slots"]

def parcelBuilt : Descriptor where
  typeName := "Depot::Parcel"
  flags := .variableSize ∪ .fixedKey
  keyCount := 2
  keys := [⟨"stamp", 11⟩, ⟨"slots", 0⟩]
  program := ⟨[
    Stream.assemble [
      (0, .array .bool 6, true),
      (1, .single (.number .f64), false),
      (2, .sequence (.struct 1), false),
      (3, .single (.string (some 4)), false),
      (4, .single (.number .u32), true)],
    Stream.assemble [(0, .single (.number .u16), false)]]⟩

theorem parcel_lowers :
    parcel.build = .ok parcelBuilt ∧ (∃ insns, parcel.Lowers parcelBuilt insns) ∧
      parcelBuilt.keyInstructions = .ok [
        ⟨11, 4, true, .single (.number .u32)⟩, ⟨0, 0, true, .array .bool 6⟩] := by
  have hbuild : parcel.build = .ok parcelBuilt := by with_unfolding_all rfl
  refine ⟨hbuild, build_lowers hbuild fun words hw => ?_, by with_unfolding_all rfl⟩
  cases hw
  decide

end Declaration
end TopicCodec
