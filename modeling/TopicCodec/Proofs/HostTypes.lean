import TopicCodec.Proofs.Grafting
import TopicCodec.Proofs.HostValues

/-!
# Declared types are marshalled by their own descriptors

The program in the descriptor of a declared structure fits the structure. The proof follows
the type: what a type appears as in a declaration has the elements of nested arrays under one
list of dimensions, assembling lays it out, and a program taken in fits what it fitted before
its references were moved.

A nested structure is found again by the canonical name of its descriptor, so names have to
be distinct. Dimensions, fields and streams have 32-bit numbers. The check of the description
refuses a structure with more fields than that. Nothing refuses a program with more streams:
the number of the next one is 0 again, and a sequence of that type passes for one of the
structure itself.
-/
namespace TopicCodec

/-! ## Programs taken in -/

theorem Fits.embed {program other : Program} {number : UInt32 → UInt32}
    (he : program.Embeds number other) {shape : Shape} {type : HostType}
    (h : Fits other shape type) : Fits program (shape.renumber number) type := by
  induction h with
  | number kind => exact .number kind
  | bool => exact .bool
  | text bound => exact .text bound
  | @struct target words insns last name keyList fields hw hread hfields hsize _ ih =>
      obtain ⟨moved, insns', hw', hinsns, hmoved⟩ := he target words hw
      have hsame : insns' = insns := by
        rw [← (Scan.read_of_instructions hinsns).1, hread]
      subst hsame
      obtain ⟨hread', last', hend⟩ := Scan.read_of_instructions hmoved
      have hscan : Scan.read (number target) moved =
          ⟨insns'.map (Instruction.renumber number), .ok last'⟩ := by rw [← hread', ← hend]
      refine .struct hw' hscan ?_ hsize ?_
      · rw [List.map_map, ← hfields]
        rfl
      · intro i insn field hi hfield
        rw [List.getElem?_map] at hi
        obtain ⟨insn, hinsn, rfl⟩ := Option.map_eq_some_iff.mp hi
        exact ih i insn field hinsn hfield
  | sequence _ ih => exact .sequence ih
  | array _ hcount ih => exact .array ih hcount

/-! ## Members -/

namespace FieldType

/-- The type with its strings bounded, if there is a bound. -/
def bounded (type : FieldType) : Option UInt32 → FieldType
  | some bound => type.withStringBound bound
  | none => type

/-- Dimensions and elements; anything but an array is its own only element. -/
def split : FieldType → List UInt32 × FieldType
  | array dims elem => (dims, elem)
  | type => ([], type)

theorem descriptors_withStringBound (bound : UInt32) (type : FieldType) :
    (type.withStringBound bound).descriptors = type.descriptors := by
  induction type with
  | sequence elem ih => exact ih
  | array dims elem ih => exact ih
  | _ => rfl

theorem descriptors_bounded (type : FieldType) (bound : Option UInt32) :
    (type.bounded bound).descriptors = type.descriptors := by
  cases bound with
  | none => rfl
  | some bound => exact descriptors_withStringBound bound type

theorem descriptors_split (type : FieldType) : type.split.2.descriptors = type.descriptors := by
  cases type <;> rfl

end FieldType

namespace HostType

open FieldType (LaidIn)

/-- What a declared structure is declared with. -/
def declaration (name : String) (keyList : Option String) (members : List DeclaredMember) :
    Declaration :=
  { typeName := name, members, keyList := keyList.map Text.listed }

theorem fieldType_array (count : Nat) (elem : HostType) :
    fieldType (.array count elem) = (fieldType elem).map fun type =>
      .array (UInt32.ofNat count :: type.split.1) type.split.2 := by
  rw [fieldType]
  cases fieldType elem with
  | error error => rfl
  | ok type => cases type <;> rfl

theorem fieldType_struct {name : String} {keyList : Option String} {fields : List HostField}
    {type : FieldType} (h : fieldType (.struct name keyList fields) = .ok type) :
    ∃ members desc, declaredMembers fields = .ok members ∧
      (declaration name keyList members).build = .ok desc ∧ type = .struct desc := by
  rw [fieldType] at h
  split at h
  · cases h
  · rename_i members hmembers
    dsimp only at h
    split at h
    · rename_i desc hdesc
      cases h
      exact ⟨members, desc, hmembers, hdesc, rfl⟩
    · cases h

theorem eq_struct_of_fieldType : (type : HostType) → {desc : Descriptor} →
    fieldType type = .ok (.struct desc) → ∃ name keyList fields, type = .struct name keyList fields
  | .struct name keyList fields, _, _ => ⟨name, keyList, fields, rfl⟩
  | .array count elem, _, h => by
      rw [fieldType_array] at h
      obtain ⟨_, _, h⟩ := map_eq_ok.mp h
      cases h
  | .growable elem, _, h => by
      obtain ⟨_, _, h⟩ := map_eq_ok.mp h
      cases h

theorem declaredMembers_forall₂ {fields : List HostField} {members : List DeclaredMember}
    (h : declaredMembers fields = .ok members) :
    List.Forall₂ (fun field member => ∃ type, fieldType field.type = .ok type ∧
      member.type = type.bounded field.bound) fields members := by
  induction fields generalizing members with
  | nil =>
      cases h
      exact .nil
  | cons field rest ih =>
      obtain ⟨name, type, key, bound⟩ := field
      rw [declaredMembers] at h
      split at h
      · rename_i found others hf ho
        cases h
        refine .cons ⟨found, hf, ?_⟩ (ih ho)
        cases bound <;> rfl
      · cases h
      · cases h

/-! ## Types that can be told apart and counted -/

mutual

/-- Each dimension of an array is a 32-bit number. -/
def countable : HostType → Bool
  | array count elem => decide (count < UInt32.size) && countable elem
  | growable elem => countable elem
  | struct _ _ fields => countableFields fields
  | _ => true

def countableFields : List HostField → Bool
  | [] => true
  | .mk _ type _ _ :: rest => countable type && countableFields rest

end

mutual

/-- The structures in a type, itself included. -/
def structs : HostType → List HostType
  | array _ elem => structs elem
  | growable elem => structs elem
  | struct name keyList fields => struct name keyList fields :: fieldStructs fields
  | _ => []

def fieldStructs : List HostField → List HostType
  | [] => []
  | .mk _ type _ _ :: rest => structs type ++ fieldStructs rest

end

/-- The canonical name in the descriptor of a structure. -/
def canonicalName : HostType → String
  | struct name _ _ => Name.canonical (Name.canonical name)
  | _ => ""

/-- Different structures in a type have different canonical names. -/
def NamesDistinct (type : HostType) : Prop :=
  ∀ a ∈ type.structs, ∀ b ∈ type.structs, a.canonicalName = b.canonicalName → a = b

theorem countable_of_mem {fields : List HostField} (h : countableFields fields = true)
    {field : HostField} (hm : field ∈ fields) : countable field.type = true := by
  induction fields with
  | nil => cases hm
  | cons first rest ih =>
      obtain ⟨name, type, key, bound⟩ := first
      rw [countableFields, Bool.and_eq_true] at h
      rcases List.mem_cons.mp hm with rfl | hm
      · exact h.1
      · exact ih h.2 hm

theorem structs_subset_of_mem {fields : List HostField} {field : HostField}
    (hm : field ∈ fields) : field.type.structs ⊆ fieldStructs fields := by
  induction fields with
  | nil => cases hm
  | cons first rest ih =>
      obtain ⟨name, type, key, bound⟩ := first
      rw [fieldStructs]
      rcases List.mem_cons.mp hm with rfl | hm
      · exact List.subset_append_left _ _
      · exact List.Subset.trans (ih hm) (List.subset_append_right _ _)

theorem NamesDistinct.of_subset {type inner : HostType} (h : type.NamesDistinct)
    (hs : inner.structs ⊆ type.structs) : inner.NamesDistinct :=
  fun a ha b hb => h a (hs ha) b (hs hb)

theorem exists_struct_of_descriptors : (type : HostType) → {found : FieldType} →
    fieldType type = .ok found → ∀ desc ∈ found.descriptors,
      ∃ inner ∈ type.structs, fieldType inner = .ok (.struct desc)
  | .struct name keyList fields, found, h => by
      obtain ⟨members, desc, _, _, rfl⟩ := fieldType_struct h
      intro other ho
      cases List.mem_singleton.mp ho
      exact ⟨_, List.mem_cons_self, h⟩
  | .array count elem, found, h => by
      rw [fieldType_array] at h
      obtain ⟨type, ht, rfl⟩ := map_eq_ok.mp h
      intro desc hd
      change desc ∈ type.split.2.descriptors at hd
      rw [FieldType.descriptors_split] at hd
      exact exists_struct_of_descriptors elem ht desc hd
  | .growable elem, found, h => by
      obtain ⟨type, ht, rfl⟩ := map_eq_ok.mp h
      intro desc hd
      exact exists_struct_of_descriptors elem ht desc hd
  | .number kind, found, h | .bool, found, h | .text, found, h => by
      cases h
      intro desc hd
      cases hd

theorem exists_struct_of_member {fields : List HostField} {members : List DeclaredMember}
    (h : declaredMembers fields = .ok members) {member : DeclaredMember} (hm : member ∈ members)
    {desc : Descriptor} (hd : desc ∈ member.type.descriptors) :
    ∃ inner ∈ fieldStructs fields, fieldType inner = .ok (.struct desc) := by
  obtain ⟨i, hi⟩ := List.mem_iff_getElem?.mp hm
  obtain ⟨field, hf, type, ht, htype⟩ := getElem?_of_forall₂ (declaredMembers_forall₂ h).flip hi
  rw [htype, FieldType.descriptors_bounded] at hd
  obtain ⟨inner, hin, hstruct⟩ := exists_struct_of_descriptors field.type ht desc hd
  exact ⟨inner, structs_subset_of_mem (List.mem_of_getElem? hf) hin, hstruct⟩

mutual

/-- Structures are described, since the structures in their fields are. -/
theorem structs_described : (type : HostType) → ∀ inner ∈ type.structs, ∀ desc,
    fieldType inner = .ok (.struct desc) → desc.markup ≠ ""
  | .struct name keyList fields, inner, hi, desc, h => by
      rcases List.mem_cons.mp hi with rfl | hi
      · obtain ⟨members, found, hmembers, hbuild, heq⟩ := fieldType_struct h
        cases heq
        refine Declaration.build_described hbuild ?_
        intro member hm other ho
        obtain ⟨inner, hin, hstruct⟩ := exists_struct_of_member hmembers hm ho
        exact fieldStructs_described fields inner hin other hstruct
      · exact fieldStructs_described fields inner hi desc h
  | .array _ elem, inner, hi, desc, h => structs_described elem inner hi desc h
  | .growable elem, inner, hi, desc, h => structs_described elem inner hi desc h
  | .number _, _, hi, _, _ | .bool, _, hi, _, _ | .text, _, hi, _, _ => by cases hi

theorem fieldStructs_described : (fields : List HostField) → ∀ inner ∈ fieldStructs fields,
    ∀ desc, fieldType inner = .ok (.struct desc) → desc.markup ≠ ""
  | [], inner, hi, _, _ => by cases hi
  | .mk _ type _ _ :: rest, inner, hi, desc, h => by
      rcases List.mem_append.mp hi with hi | hi
      · exact structs_described type inner hi desc h
      · exact fieldStructs_described rest inner hi desc h

end

theorem canonicalName_eq {type : HostType} {desc : Descriptor}
    (h : fieldType type = .ok (.struct desc)) : desc.canonicalName = type.canonicalName := by
  obtain ⟨name, keyList, fields, rfl⟩ := eq_struct_of_fieldType type h
  obtain ⟨members, found, _, hbuild, heq⟩ := fieldType_struct h
  cases heq
  obtain ⟨_, _, _, _, _, hname, _, _⟩ := Declaration.build_cases hbuild
  rw [Descriptor.canonicalName, hname]
  rfl

/-- Descriptors of one name in the members of a structure are one descriptor. -/
theorem descriptors_unique {name : String} {keyList : Option String} {fields : List HostField}
    {members : List DeclaredMember} (hn : (struct name keyList fields).NamesDistinct)
    (h : declaredMembers fields = .ok members) :
    ∀ member ∈ members, ∀ other ∈ members, ∀ desc ∈ member.type.descriptors,
      ∀ desc' ∈ other.type.descriptors, desc.canonicalName = desc'.canonicalName →
        desc = desc' := by
  intro member hm other ho desc hd desc' hd' hname
  obtain ⟨a, ha, hstruct⟩ := exists_struct_of_member h hm hd
  obtain ⟨b, hb, hstruct'⟩ := exists_struct_of_member h ho hd'
  rw [canonicalName_eq hstruct, canonicalName_eq hstruct'] at hname
  have hsame := hn a (List.mem_cons_of_mem _ ha) b (List.mem_cons_of_mem _ hb) hname
  subst hsame
  rw [hstruct] at hstruct'
  cases hstruct'
  rfl

/-! ## Nested arrays -/

theorem countable_leafType : (type : HostType) → countable type = true →
    countable type.leafType = true
  | .array _ elem, h => by
      rw [countable, Bool.and_eq_true] at h
      exact countable_leafType elem h.2
  | .number _, h | .bool, h | .text, h | .growable _, h | .struct .., h => h

theorem structs_leafType : (type : HostType) → type.leafType.structs = type.structs
  | .array _ elem => structs_leafType elem
  | .number _ | .bool | .text | .growable _ | .struct .. => rfl

/-- Arrays of arrays appear as one array of the innermost type with all dimensions. -/
theorem fieldType_split : (type : HostType) → {found : FieldType} →
    fieldType type = .ok found → countable type = true →
    fieldType type.leafType = .ok found.split.2 ∧
      (found.split.1.map UInt32.toNat).prod = type.leafCount
  | .array count elem, found, h, hc => by
      rw [countable, Bool.and_eq_true, decide_eq_true_eq] at hc
      rw [fieldType_array] at h
      obtain ⟨type, ht, rfl⟩ := map_eq_ok.mp h
      obtain ⟨hleaf, hprod⟩ := fieldType_split elem ht hc.2
      refine ⟨hleaf, ?_⟩
      change ((UInt32.ofNat count :: type.split.1).map UInt32.toNat).prod = count * elem.leafCount
      rw [List.map_cons, List.prod_cons, hprod, UInt32.toNat_ofNat_of_lt' hc.1]
  | .struct name keyList fields, found, h, _ => by
      obtain ⟨_, _, _, _, rfl⟩ := fieldType_struct h
      exact ⟨h, rfl⟩
  | .growable elem, found, h, _ => by
      obtain ⟨_, _, rfl⟩ := map_eq_ok.mp (id h)
      exact ⟨h, rfl⟩
  | .number kind, found, h, _ | .bool, found, h, _ | .text, found, h, _ => by
      cases h
      exact ⟨rfl, rfl⟩

/-! ## Programs fit the types they were assembled for -/

/-- A program that has a member of this type laid out fits the type. -/
def Described (type : HostType) : Prop :=
  ∀ found bound program shape, fieldType type = .ok found → countable type = true →
    type.NamesDistinct → program.length ≤ UInt32.size →
    LaidIn program shape (found.bounded bound) → Fits program shape type

/-- The program of a structure fits it at the root, given that its fields are described. -/
theorem fits_root {name : String} {keyList : Option String} {fields : List HostField}
    {desc : Descriptor} (hfields : ∀ field ∈ fields, Described field.type)
    (h : fieldType (.struct name keyList fields) = .ok (.struct desc))
    (hc : countable (.struct name keyList fields) = true)
    (hn : (struct name keyList fields).NamesDistinct) (hsize : desc.program.length ≤ UInt32.size) :
    Fits desc.program (.single (.struct 0)) (.struct name keyList fields) := by
  obtain ⟨members, found, hmembers, hbuild, heq⟩ := fieldType_struct h
  cases heq
  have hdeclared := declaredMembers_forall₂ hmembers
  have hunique := descriptors_unique hn hmembers
  obtain ⟨words, insns, last, hw, hread, hnumbers, hlaid⟩ :=
    Declaration.build_lays hbuild hunique hsize
  have hlength : (declaration name keyList members).members.length = fields.length :=
    hdeclared.length_eq.symm
  have hcount : fields.length ≤ UInt32.size := by
    obtain ⟨_, _, _, _, _, _, _, hvalid⟩ := Declaration.build_cases hbuild
    have hself : struct name keyList fields ∈ (struct name keyList fields).structs :=
      List.mem_cons_self
    have hmarkup := structs_described _ _ hself desc h
    have hroot := Descriptor.length_root_le hvalid hmarkup hw
    rwa [hread, hlaid.length_eq, hlength] at hroot
  refine .struct hw hread (by rw [hnumbers, hlength]) hcount ?_
  intro i insn field hinsn hfield
  obtain ⟨member, hm, hlaid⟩ := getElem?_of_forall₂ hlaid hinsn
  obtain ⟨_, hm', type, htype, hbounded⟩ := getElem?_of_forall₂ hdeclared hfield
  cases hm.symm.trans hm'
  rw [hbounded] at hlaid
  have hmem := List.mem_of_getElem? hfield
  have hinner : field.type.structs ⊆ (struct name keyList fields).structs :=
    List.subset_cons_of_subset _ (structs_subset_of_mem hmem)
  exact hfields field hmem type field.bound desc.program insn.shape htype
    (countable_of_mem hc hmem) (hn.of_subset hinner) hsize hlaid

mutual

theorem described : (type : HostType) → Described type ∧ Described type.leafType
  | .number kind => by
      have h : Described (.number kind) := by
        intro found bound program shape hf _ _ _ hl
        cases hf
        cases bound <;> cases hl <;> exact .number kind
      exact ⟨h, h⟩
  | .bool => by
      have h : Described .bool := by
        intro found bound program shape hf _ _ _ hl
        cases hf
        cases bound <;> cases hl <;> exact .bool
      exact ⟨h, h⟩
  | .text => by
      have h : Described .text := by
        intro found bound program shape hf _ _ _ hl
        cases hf
        cases bound <;> cases hl <;> exact .text _
      exact ⟨h, h⟩
  | .growable elem => by
      have h : Described (.growable elem) := by
        intro found bound program shape hf hc hn hsize hl
        obtain ⟨type, htype, rfl⟩ := map_eq_ok.mp hf
        have hbounded : (FieldType.sequence type).bounded bound =
            .sequence (type.bounded bound) := by
          cases bound <;> rfl
        rw [hbounded] at hl
        cases hl with
        | sequence hl =>
            exact .sequence ((described elem).1 type bound program _ htype hc hn hsize hl)
      exact ⟨h, h⟩
  | .array count elem => by
      refine ⟨?_, (described elem).2⟩
      intro found bound program shape hf hc hn hsize hl
      obtain ⟨hleaf, hprod⟩ := fieldType_split _ hf hc
      rw [fieldType_array] at hf
      obtain ⟨type, htype, rfl⟩ := map_eq_ok.mp hf
      have hbounded : (FieldType.array (UInt32.ofNat count :: type.split.1)
          type.split.2).bounded bound =
            .array (UInt32.ofNat count :: type.split.1) (type.split.2.bounded bound) := by
        cases bound <;> rfl
      rw [hbounded] at hl
      cases hl with
      | array hcount hl =>
          have hcl := countable_leafType _ hc
          have hnl : elem.leafType.NamesDistinct := by
            unfold NamesDistinct
            rw [structs_leafType]
            exact hn
          refine .array ((described elem).2 _ bound program _ hleaf hcl hnl hsize hl) ?_
          rw [Assembly.toNat_elementCount? hcount]
          exact hprod
  | .struct name keyList fields => by
      have h : Described (.struct name keyList fields) := by
        intro found bound program shape hf hc hn hsize hl
        obtain ⟨_, desc, _, _, rfl⟩ := fieldType_struct hf
        have hbounded : (FieldType.struct desc).bounded bound = .struct desc := by
          cases bound <;> rfl
        rw [hbounded] at hl
        cases hl with
        | @struct base _ hcontains =>
            have hroot := fits_root (describedFields fields) hf hc hn
              (hcontains.length_le.trans hsize)
            have hmoved := hroot.embed hcontains.embeds
            rwa [Shape.renumber, Leaf.renumber, UInt32.zero_add] at hmoved
      exact ⟨h, h⟩

theorem describedFields : (fields : List HostField) → ∀ field ∈ fields, Described field.type
  | [], field, hm => by cases hm
  | .mk name type key bound :: rest, field, hm => by
      rcases List.mem_cons.mp hm with rfl | hm
      · exact (described type).1
      · exact describedFields rest field hm

end

theorem fieldType_of_descriptor? {type : HostType} {desc : Descriptor}
    (h : type.descriptor? = .ok (some desc)) : fieldType type = .ok (.struct desc) := by
  obtain ⟨found, hf, h⟩ := map_eq_ok.mp h
  cases found with
  | struct other =>
      cases h
      exact hf
  | _ => cases h

theorem fits_descriptor {type : HostType} {desc : Descriptor}
    (h : type.descriptor? = .ok (some desc)) (hc : countable type = true)
    (hn : type.NamesDistinct) (hsize : desc.program.length ≤ UInt32.size) :
    Fits desc.program (.single (.struct 0)) type := by
  have hf := fieldType_of_descriptor? h
  obtain ⟨name, keyList, fields, rfl⟩ := eq_struct_of_fieldType type hf
  exact fits_root (describedFields fields) hf hc hn hsize

/-- Values of a declared structure suit its descriptor, and what they are encoded to is decoded
to them again, over any value of the structure and whatever new elements of sequences are. There
are no more streams than numbers for them: in a larger program numbers would start over
(`Program.toNat_base_of_graft`), and streams could not be told apart. -/
theorem deserialize_serialize_declared {fresh : HostType → Value}
    (hfresh : ∀ type : HostType, type.Holds fresh (fresh type)) {type : HostType}
    {desc : Descriptor} {wire : WireFormat} {start value : Value}
    (h : type.descriptor? = .ok (some desc)) (hc : countable type = true)
    (hn : type.NamesDistinct) (hsize : desc.program.length ≤ UInt32.size)
    (hs : type.Holds fresh start) (hv : type.Holds fresh value) :
    (∀ typeName defect,
      wire.serialize desc value ≠ .error (.configuration typeName defect)) ∧
      ∀ bytes, wire.serialize desc value = .ok bytes →
        wire.deserializeInto desc start bytes = .ok value := by
  have hfits := fits_descriptor h hc hn hsize
  constructor
  · exact Marshal.encode_suits hfits hv
  · intro bytes hbytes
    have halike := hfits.alike hfresh hs hv
    simpa using (WireFormat.deserializeInto_reads halike hbytes).1 []

def label : HostType := .struct "L" none [.mk "t" .text false none]

/-- Labels in two dimensions, and more labels. -/
def sheet : HostType :=
  .struct "S" none [.mk "g" (.array 2 (.array 1 label)) false none,
    .mk "m" (.growable label) false none]

def sheetDescriptor : Descriptor where
  typeName := "S"
  flags := .variableSize
  program := ⟨[
    Stream.assemble [(0, .array (.struct 1) 2, false), (1, .sequence (.struct 1), false)],
    Stream.assemble [(0, .single (.string none), false)]]⟩
  markup :=
    "<MetaData version=\"1.0.0\">" ++
    "<Struct name=\"L\"><Member name=\"t\"><String/></Member></Struct>" ++
    "<Struct name=\"S\"><Member name=\"g\"><Array size=\"2\"><Array size=\"1\">" ++
    "<Type name=\"L\"/></Array></Array></Member>" ++
    "<Member name=\"m\"><Sequence><Type name=\"L\"/></Sequence></Member></Struct></MetaData>"

def labelValue (text : String) : Value := .struct (Value.numbered 0 [.text text])

/-- A sheet with two labels in its rows and more behind them. -/
def sheetValue (first second : String) (more : List String) : Value :=
  .struct (Value.numbered 0 [
    .array [.array [labelValue first], .array [labelValue second]],
    .sequence (.copies label.default) (more.map labelValue)])

def sheetBytes : List UInt8 :=
  [0, 0, 0, 1, 0, 0, 0, 0, 0, 0, 0, 2, 97, 0, 0, 0, 0, 0, 0, 1, 0, 0, 0, 4, 110, 195, 169, 0]

theorem holds_struct {fresh : HostType → Value} {name : String} {keyList : Option String}
    {fields : List HostField} {items : List Value}
    (h : List.Forall₂ (fun field item => field.type.Holds fresh item) fields items) :
    (struct name keyList fields).Holds fresh (.struct (Value.numbered 0 items)) := by
  refine .struct h.length_eq.symm fun i field item hf hi => ?_
  obtain ⟨found, hfound, hholds⟩ := getElem?_of_forall₂ h hf
  cases hi.symm.trans hfound
  exact hholds

theorem labelValue_holds (text : String) : label.Holds default (labelValue text) :=
  holds_struct (.cons (.text text) .nil)

theorem sheetValue_holds (first second : String) (more : List String) :
    sheet.Holds default (sheetValue first second more) := by
  have hrow (text : String) : (array 1 label).Holds default (.array [labelValue text]) :=
    .array rfl fun item hi => List.mem_singleton.mp hi ▸ labelValue_holds text
  refine holds_struct (.cons (.array rfl ?_) (.cons (.growable ?_) .nil))
  · intro row hr
    simp only [List.mem_cons, List.not_mem_nil, or_false] at hr
    rcases hr with rfl | rfl <;> exact hrow _
  · intro item hi
    obtain ⟨text, _, rfl⟩ := List.mem_map.mp hi
    exact labelValue_holds text

theorem sheet_namesDistinct : sheet.NamesDistinct := by
  have hne : sheet.canonicalName ≠ label.canonicalName := by decide
  have hmem : ∀ inner ∈ sheet.structs, inner = sheet ∨ inner = label := by
    intro inner hi
    simpa [sheet, label, structs, fieldStructs] using hi
  intro a ha b hb hname
  rcases hmem a ha with rfl | rfl <;> rcases hmem b hb with rfl | rfl
  · rfl
  · exact absurd hname hne
  · exact absurd hname hne.symm
  · rfl

/-- Decoded over a sheet with other labels, of which there are too many in one place. -/
theorem deserialize_sheetBytes :
    sheet.descriptor? = .ok (some sheetDescriptor) ∧
      WireFormat.bigEndian.serialize sheetDescriptor (sheetValue "" "a" ["né"]) =
        .ok sheetBytes ∧
      WireFormat.bigEndian.deserializeInto sheetDescriptor (sheetValue "b" "" ["c", "d"])
        sheetBytes = .ok (sheetValue "" "a" ["né"]) := by
  have hdesc : sheet.descriptor? = .ok (some sheetDescriptor) :=
    eq_ok_of_toOption (by decide +kernel)
  have hbytes : WireFormat.bigEndian.serialize sheetDescriptor (sheetValue "" "a" ["né"]) =
      .ok sheetBytes := eq_ok_of_toOption (by with_unfolding_all rfl)
  refine ⟨hdesc, hbytes, ?_⟩
  exact (deserialize_serialize_declared default_holds hdesc (by decide) sheet_namesDistinct
    (by decide) (sheetValue_holds "b" "" ["c", "d"]) (sheetValue_holds "" "a" ["né"])).2 sheetBytes
    hbytes

end HostType
end TopicCodec
