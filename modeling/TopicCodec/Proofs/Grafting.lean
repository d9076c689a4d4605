import TopicCodec.Proofs.Patching

/-!
# Nested types keep their layouts

A program that took in another one has its streams, instruction by instruction, under other
numbers (`Program.Embeds`), and an encoding walk makes the same of them. A declared structure
takes in one program for each canonical name among the types of its members. It is the one of
the first member whose type has the name; what other descriptors of the name hold is not looked
at.
-/
namespace TopicCodec

/-! ## Programs under other numbers -/

namespace Program

variable {program other : Program} {base : UInt32}

/-- The streams of another program stand in a program under other numbers, with the same
instructions but for the numbers. -/
def Embeds (program : Program) (number : UInt32 → UInt32) (other : Program) : Prop :=
  ∀ id words, other.stream? id = some words →
    ∃ moved insns, program.stream? (number id) = some moved ∧
      Stream.instructions id words = .ok insns ∧
      Stream.instructions (number id) moved = .ok (insns.map (Instruction.renumber number))

theorem Contains.embeds (h : Contains program base other) : program.Embeds (· + base) other := by
  intro id words hw
  obtain ⟨_, _, moved, hm, hrebase⟩ := h.stream id words hw
  obtain ⟨insns, hinsns, hmoved⟩ := instructions_rebaseStream hrebase
  exact ⟨moved, insns, hm, hinsns, hmoved _⟩

theorem stream_of_validate (h : program.validate = .ok ()) {id : UInt32} {words : Stream}
    (hw : program.stream? id = some words) {insn : Instruction}
    (hi : insn ∈ (Scan.readAll id words).instructions) {target : UInt32}
    (ht : insn.leaf = .struct target) : ∃ found, program.stream? target = some found := by
  obtain ⟨_, h⟩ := check_eq_ok.mp h
  obtain ⟨edges, hedges, _⟩ := bind_eq_ok.mp h
  obtain ⟨_, _, hstream⟩ :=
    getElem?_of_forall₂ (forall₂_of_mapM hedges) (numbered_of_stream? hw)
  unfold validateStream at hstream
  dsimp only at hstream
  split at hstream
  · cases hstream
  · rename_i hnone
    have hinsn := List.findSome?_eq_none_iff.mp hnone insn hi
    simp only [ht, Leaf.stream?, ite_eq_right_iff, reduceCtorEq, imp_false, Nat.not_le] at hinsn
    exact ⟨_, List.getElem?_eq_getElem hinsn⟩

end Program

namespace Marshal

variable {desc other : Descriptor} {number : UInt32 → UInt32}

/-- Through the streams of the embedded program and through the same streams under their new
numbers the walks go along with each other. -/
theorem lockstep_of_embeds (h : desc.program.Embeds number other.program) (wire : WireFormat) :
    Lockstep (fun error => error.isRecoverable = true) (fun _ => True) number ⟨other, wire⟩
      ⟨desc, wire⟩ where
  recoverable _ hk := hk
  byteOrder := rfl
  maxAlign := rfl
  strings := le_rfl
  sequences := le_rfl
  lengths _ _ _ _ _ := rfl
  streams id words _ hw := by
    obtain ⟨moved, insns, hm, hinsns, hmoved⟩ := h id words hw
    obtain ⟨hread, hend⟩ := Scan.read_of_instructions hinsns
    obtain ⟨hread', hend'⟩ := Scan.read_of_instructions hmoved
    refine ⟨moved, hm, ?_, fun _ _ _ _ => trivial, fun _ _ => hend'⟩
    rw [hread', hread]

/-- The same in the other direction, through streams of the embedded program whose references
stay among them, if they can be told apart under their new numbers. -/
theorem lockstep_back_of_embeds (h : desc.program.Embeds number other.program)
    {back : UInt32 → UInt32} (hback : ∀ target, back (number target) = target)
    {inside : UInt32 → Prop}
    (hold : ∀ id moved, inside id → desc.program.stream? (number id) = some moved →
      ∃ words, other.program.stream? id = some words)
    (htargets : ∀ id words, other.program.stream? id = some words →
      ∀ insn ∈ (Scan.read id words).instructions, ∀ target, insn.leaf = .struct target →
        inside target) (wire : WireFormat) :
    Lockstep (fun error => error.isRecoverable = true)
      (fun target => ∃ inner, inside inner ∧ number inner = target) back ⟨desc, wire⟩
      ⟨other, wire⟩ where
  recoverable _ hk := hk
  byteOrder := rfl
  maxAlign := rfl
  strings := le_rfl
  sequences := le_rfl
  lengths _ _ _ _ _ := rfl
  streams := by
    rintro _ moved ⟨inner, hinner, rfl⟩ hm
    obtain ⟨words, hw⟩ := hold inner moved hinner hm
    obtain ⟨found, insns, hfound, hinsns, hmoved⟩ := h inner words hw
    cases hm.symm.trans hfound
    obtain ⟨hread, hend⟩ := Scan.read_of_instructions hinsns
    obtain ⟨hread', _⟩ := Scan.read_of_instructions hmoved
    have hrestore : Instruction.renumber back ∘ Instruction.renumber number = id := by
      rw [Instruction.renumber_comp, show back ∘ number = id from funext hback]
      exact Instruction.renumber_id
    rw [hback]
    refine ⟨words, hw, ?_, ?_, fun _ _ => hend⟩
    · rw [hread, hread', List.map_map, hrestore, List.map_id]
    · rw [hread']
      intro moved hmoved target ht
      obtain ⟨insn, hi, rfl⟩ := List.mem_map.mp hmoved
      obtain ⟨inner', hleaf, rfl⟩ := Instruction.leaf_renumber_eq_struct ht
      rw [← hread] at hi
      exact ⟨inner', htargets inner words hw insn hi inner' hleaf, rfl⟩

/-- What a structure is written as by its own descriptor, it is written as inside a program that
has its streams. The converse needs that its references do not lead out of it. -/
theorem encodeStruct_embedded {σ : Type} [Sink σ] (h : desc.program.Embeds number other.program)
    (hinj : Function.Injective number) (wire : WireFormat) (fuel : Nat) {words moved : Stream}
    (hw : other.program.stream? 0 = some words)
    (hm : desc.program.stream? (number 0) = some moved) (value : Value) (path : Path)
    (position : Nat) :
    Keeps (fun error => error.isRecoverable = true)
        (encodeStruct (σ := σ) ⟨other, wire⟩ fuel 0 words value path position)
        (encodeStruct ⟨desc, wire⟩ fuel (number 0) moved value path position) ∧
      (other.program.validate = .ok () →
        Keeps (fun error => error.isRecoverable = true)
          (encodeStruct (σ := σ) ⟨desc, wire⟩ fuel (number 0) moved value path position)
          (encodeStruct ⟨other, wire⟩ fuel 0 words value path position)) := by
  constructor
  · exact (lockstep_of_embeds h wire).encodeStruct fuel 0 words moved trivial hw hm value path
      position
  · intro hclosed
    obtain ⟨back, hback⟩ := hinj.hasLeftInverse
    have hlockstep := lockstep_back_of_embeds h hback (fun _ _ hold _ => hold)
      (fun id words hw insn hi target ht => Program.stream_of_validate hclosed hw
        (by rwa [Scan.instructions_readAll]) ht) wire
    have hkeeps := hlockstep.encodeStruct (σ := σ) fuel (number 0) moved words
      ⟨0, ⟨words, hw⟩, rfl⟩ hm
    rw [hback 0] at hkeeps
    exact hkeeps hw value path position

end Marshal

/-! ## Sharing by name -/

namespace FieldType

/-- The type with other descriptors for its structures. -/
def retype (choose : Descriptor → Descriptor) : FieldType → FieldType
  | struct desc => struct (choose desc)
  | sequence elem => sequence (elem.retype choose)
  | array dims elem => array dims (elem.retype choose)
  | type => type

theorem descriptors_retype (choose : Descriptor → Descriptor) (type : FieldType) :
    (type.retype choose).descriptors = type.descriptors.map choose := by
  induction type with
  | sequence elem ih => exact ih
  | array dims elem ih => exact ih
  | _ => rfl

theorem Laid.refers {refers : UInt32 → Descriptor → Prop} {shape : Shape} {type : FieldType}
    (h : Laid refers shape type) {desc : Descriptor} (hd : desc ∈ type.descriptors) :
    ∃ base, shape.leaf = .struct base ∧ refers base desc := by
  induction h with
  | number kind | bool | string bound => cases hd
  | struct hc =>
      cases List.mem_singleton.mp hd
      exact ⟨_, rfl, hc⟩
  | sequence _ ih => exact ih hd
  | array _ _ ih => exact ih hd

end FieldType

namespace Descriptor

/-- The first of some descriptors that has the canonical name of a given one. -/
def firstNamed? (descs : List Descriptor) (desc : Descriptor) : Option Descriptor :=
  descs.find? (·.canonicalName == desc.canonicalName)

theorem canonicalName_of_firstNamed? {descs : List Descriptor} {desc first : Descriptor}
    (h : desc.firstNamed? descs = some first) : first.canonicalName = desc.canonicalName := by
  unfold firstNamed? at h
  have hfound := List.find?_some h
  exact beq_iff_eq.mp hfound

theorem exists_firstNamed? {descs : List Descriptor} {desc : Descriptor} (h : desc ∈ descs) :
    ∃ first, desc.firstNamed? descs = some first :=
  Option.isSome_iff_exists.mp (List.find?_isSome.mpr ⟨desc, h, beq_self_eq_true _⟩)

end Descriptor

namespace Assembly

variable {assembly assembly' : Assembly} {choose : Descriptor → Descriptor}

theorem leaf_retype {type : FieldType}
    (h : ∀ desc ∈ type.descriptors, assembly.streamFor (choose desc) = assembly.streamFor desc) :
    assembly.leaf (type.retype choose) = assembly.leaf type := by
  cases type with
  | struct desc => simp only [FieldType.retype, leaf, h desc (List.mem_singleton.mpr rfl)]
  | _ => rfl

theorem shape_retype {type : FieldType}
    (h : ∀ desc ∈ type.descriptors, assembly.streamFor (choose desc) = assembly.streamFor desc) :
    assembly.shape (type.retype choose) = assembly.shape type := by
  cases type with
  | sequence elem =>
      have helem : assembly.leaf (elem.retype choose) = assembly.leaf elem := leaf_retype h
      simp only [FieldType.retype, shape, helem]
  | array dims elem =>
      have helem : assembly.leaf (elem.retype choose) = assembly.leaf elem := leaf_retype h
      simp only [FieldType.retype, shape, helem]
  | struct desc => simp only [FieldType.retype, shape, leaf, h desc (List.mem_singleton.mpr rfl)]
  | number kind | bool | string bound => rfl

/-- Of two types with one name that is known already none is looked at. -/
theorem streamFor_of_known {desc desc' : Descriptor}
    (hname : desc'.canonicalName = desc.canonicalName)
    (hknown : (assembly.grafted.lookup desc.canonicalName).isSome) :
    assembly.streamFor desc' = assembly.streamFor desc := by
  obtain ⟨id, hid⟩ := Option.isSome_iff_exists.mp hknown
  simp only [streamFor, hname, hid]

theorem isSome_lookup_of_streamFor {desc : Descriptor} {id : UInt32}
    (h : assembly.streamFor desc = .ok (id, assembly')) {name : String}
    (hname : (assembly.grafted.lookup name).isSome ∨ desc.canonicalName = name) :
    (assembly'.grafted.lookup name).isSome := by
  rcases streamFor_cases h with ⟨hknown, rfl⟩ | ⟨_, _, hgrafted, _⟩
  · rcases hname with hname | rfl
    · exact hname
    · rw [hknown]
      rfl
  · rw [hgrafted, List.lookup_cons]
    by_cases heq : name = desc.canonicalName
    · simp only [heq, beq_self_eq_true, Option.isSome_some]
    · simp only [beq_false_of_ne heq]
      exact hname.resolve_right (Ne.symm heq)

/-- It makes no difference to give each member, of all descriptors with the canonical name of its
own, the one that comes first. -/
theorem shapes_retype {types : List FieldType} {shapes : List Shape} (seen : List Descriptor)
    (hseen : ∀ desc ∈ seen, (assembly.grafted.lookup desc.canonicalName).isSome)
    (hchoose : ∀ desc ∈ types.flatMap FieldType.descriptors,
      desc.firstNamed? (seen ++ types.flatMap FieldType.descriptors) = some (choose desc))
    (h : assembly.shapes types = .ok (shapes, assembly')) :
    assembly.shapes (types.map (FieldType.retype choose)) = .ok (shapes, assembly') := by
  induction types generalizing assembly shapes seen with
  | nil => exact h
  | cons type rest ih =>
      obtain ⟨⟨shape, middle⟩, hfirst, h⟩ := bind_eq_ok.mp h
      obtain ⟨⟨others, last⟩, hrest, h⟩ := bind_eq_ok.mp h
      cases h
      rw [List.flatMap_cons] at hchoose
      have hhead : assembly.shape (type.retype choose) = .ok (shape, middle) := by
        rw [← hfirst]
        apply shape_retype
        intro desc hd
        have hfound := hchoose desc (List.mem_append_left _ hd)
        have hname := Descriptor.canonicalName_of_firstNamed? hfound
        by_cases hknown : (assembly.grafted.lookup desc.canonicalName).isSome
        · exact streamFor_of_known hname hknown
        · have hnew : seen.find? (·.canonicalName == desc.canonicalName) = none := by
            apply List.find?_eq_none.mpr
            intro other ho heq
            rw [← beq_iff_eq.mp heq] at hknown
            exact hknown (hseen other ho)
          have hsingle : type.descriptors = [desc] := by
            rcases shape_cases hfirst with ⟨hnone, _⟩ | ⟨found, id, hone, _⟩
            · rw [hnone] at hd
              cases hd
            · rw [hone] at hd ⊢
              rw [List.mem_singleton.mp hd]
          rw [Descriptor.firstNamed?, List.find?_append, hnew, hsingle, Option.none_or,
            List.singleton_append, List.find?_cons, beq_self_eq_true] at hfound
          rw [← Option.some.inj hfound]
      have hmiddle : ∀ desc ∈ seen ++ type.descriptors,
          (middle.grafted.lookup desc.canonicalName).isSome := by
        intro desc hd
        rcases shape_cases hfirst with ⟨hnone, rfl⟩ | ⟨found, id, hone, hf⟩
        · rw [hnone, List.append_nil] at hd
          exact hseen desc hd
        · rw [hone, List.mem_append, List.mem_singleton] at hd
          apply isSome_lookup_of_streamFor hf
          rcases hd with hd | rfl
          · exact .inl (hseen desc hd)
          · exact .inr rfl
      have htail : middle.shapes (rest.map (FieldType.retype choose)) =
          .ok (others, assembly') := by
        apply ih (seen ++ type.descriptors) hmiddle _ hrest
        intro desc hd
        rw [List.append_assoc]
        exact hchoose desc (List.mem_append_right _ hd)
      simp only [List.map_cons, shapes, hhead, htail, bind, Except.bind]
      rfl

end Assembly

namespace Declaration

variable {declaration : Declaration} {desc : Descriptor}

/-- Descriptors of the structures in the members, in order. -/
def nestedTypes (declaration : Declaration) : List Descriptor :=
  declaration.members.flatMap fun member => member.type.descriptors

/-- The instruction of a member that has a structure in it refers to the program of the first
descriptor of its name, as long as streams can be numbered. -/
theorem build_lays_first (h : declaration.build = .ok desc)
    (hsize : desc.program.length ≤ UInt32.size) {i : Nat} {member : DeclaredMember}
    (hmember : declaration.members[i]? = some member) {nested : Descriptor}
    (hnested : nested ∈ member.type.descriptors) :
    ∃ first words insns insn base, nested.firstNamed? declaration.nestedTypes = some first ∧
      desc.program.stream? 0 = some words ∧ Stream.instructions 0 words = .ok insns ∧
      insns[i]? = some insn ∧ insn.field = UInt32.ofNat i ∧ insn.leaf = .struct base ∧
      desc.program.Contains base first.program := by
  obtain ⟨shapes, assembly, order, hshapes, hprogram, _, _, _⟩ := build_cases h
  let choose (nested : Descriptor) : Descriptor :=
    (nested.firstNamed? declaration.nestedTypes).getD nested
  have hchoose : ∀ nested ∈ declaration.nestedTypes,
      nested.firstNamed? declaration.nestedTypes = some (choose nested) := by
    intro nested hn
    obtain ⟨first, hfirst⟩ := Descriptor.exists_firstNamed? hn
    simp only [choose, hfirst, Option.getD_some]
  have htypes : (declaration.members.map DeclaredMember.type).flatMap FieldType.descriptors =
      declaration.nestedTypes := List.flatMap_map ..
  have hmem : ∀ member ∈ declaration.members, ∀ nested ∈ member.type.descriptors,
      nested ∈ declaration.nestedTypes :=
    fun member hm nested hn => List.mem_flatMap.mpr ⟨member, hm, hn⟩
  have hshared : Assembly.start.shapes
      ((declaration.members.map DeclaredMember.type).map (FieldType.retype choose)) =
        .ok (shapes, assembly) :=
    Assembly.shapes_retype [] (by simp) (by rwa [htypes]) hshapes
  have hnames : ∀ type ∈ (declaration.members.map DeclaredMember.type).map (·.retype choose),
      ∀ other ∈ (declaration.members.map DeclaredMember.type).map (·.retype choose),
      ∀ nested ∈ type.descriptors, ∀ nested' ∈ other.descriptors,
        nested.canonicalName = nested'.canonicalName → nested = nested' := by
    simp only [List.forall_mem_map, FieldType.descriptors_retype]
    intro member hm other ho nested hn nested' hn' hname
    have hn := hchoose nested (hmem member hm nested hn)
    have hn' := hchoose nested' (hmem other ho nested' hn')
    rw [Descriptor.canonicalName_of_firstNamed? hn,
      Descriptor.canonicalName_of_firstNamed? hn'] at hname
    unfold Descriptor.firstNamed? at hn hn'
    rw [hname] at hn
    exact Option.some.inj (hn.symm.trans hn')
  obtain ⟨words, insns, hw, hinsns, hfields, hlaid⟩ :=
    laid_of_shapes hshared hprogram hnames hsize
  rw [List.map_map, List.forall₂_map_right_iff] at hlaid
  obtain ⟨insn, hinsn, hlaid⟩ := getElem?_of_forall₂ hlaid.flip hmember
  have hretyped : choose nested ∈ (member.type.retype choose).descriptors := by
    rw [FieldType.descriptors_retype]
    exact List.mem_map_of_mem hnested
  obtain ⟨base, hleaf, hcontains⟩ := hlaid.refers hretyped
  have hfield : insn.field = UInt32.ofNat i := by
    have hplace := congrArg (·[i]?) hfields
    have hi := (List.getElem?_eq_some_iff.mp hmember).1
    simp only [List.getElem?_map, hinsn, List.length_map, List.getElem?_range hi] at hplace
    exact Option.some.inj hplace
  exact ⟨choose nested, words, insns, insn, base,
    hchoose nested (hmem member (List.mem_of_getElem? hmember) nested hnested), hw, hinsns, hinsn,
    hfield, hleaf, hcontains⟩

/-- A declared structure keeps the layout of each structure in it, up to the numbers of streams,
and values of it are written the same. Where several descriptors have one canonical name, this
is the layout of the first of them. -/
theorem build_keeps_layouts (σ : Type) [Sink σ] (h : declaration.build = .ok desc)
    (hsize : desc.program.length ≤ UInt32.size) {i : Nat} {member : DeclaredMember}
    (hmember : declaration.members[i]? = some member) {nested : Descriptor}
    (hnested : nested ∈ member.type.descriptors) :
    ∃ first words insns insn number, nested.firstNamed? declaration.nestedTypes = some first ∧
      desc.program.stream? 0 = some words ∧ Stream.instructions 0 words = .ok insns ∧
      insns[i]? = some insn ∧ insn.field = UInt32.ofNat i ∧ insn.leaf = .struct (number 0) ∧
      Function.Injective number ∧ desc.program.Embeds number first.program ∧
      ∀ words moved, first.program.stream? 0 = some words →
        desc.program.stream? (number 0) = some moved →
        ∀ wire fuel value path position,
          Marshal.Keeps (fun error => error.isRecoverable = true)
              (Marshal.encodeStruct (σ := σ) ⟨first, wire⟩ fuel 0 words value path position)
              (Marshal.encodeStruct ⟨desc, wire⟩ fuel (number 0) moved value path position) ∧
            (first.program.validate = .ok () →
              Marshal.Keeps (fun error => error.isRecoverable = true)
                (Marshal.encodeStruct (σ := σ) ⟨desc, wire⟩ fuel (number 0) moved value path
                  position)
                (Marshal.encodeStruct ⟨first, wire⟩ fuel 0 words value path position)) := by
  obtain ⟨first, words, insns, insn, base, hfirst, hw, hinsns, hinsn, hfield, hleaf, hcontains⟩ :=
    build_lays_first h hsize hmember hnested
  have hinj : Function.Injective (· + base) := fun _ _ heq => (UInt32.add_left_inj base).mp heq
  refine ⟨first, words, insns, insn, (· + base), hfirst, hw, hinsns, hinsn, hfield, ?_, hinj,
    hcontains.embeds, ?_⟩
  · rw [hleaf]
    exact congrArg _ (UInt32.zero_add base).symm
  · intro words moved hw hm wire fuel value path position
    exact Marshal.encodeStruct_embedded hcontains.embeds hinj wire fuel hw hm value path position

/-! Two structures of one name that differ, and one that has lists of itself. -/

def narrow : Descriptor where
  typeName := "T"
  program := ⟨[Stream.assemble [(0, .single (.number .u8), false)]]⟩

def wide : Descriptor where
  typeName := "T"
  program := ⟨[Stream.assemble [(0, .single (.number .u32), false)]]⟩

def chain : Descriptor where
  typeName := "M.Chain"
  program := ⟨[
    Stream.assemble [(0, .sequence (.struct 1), false), (1, .single .bool, false)],
    Stream.assemble [(0, .single (.number .u16), false), (1, .sequence (.struct 1), false)]]⟩

/-- Lists and an array of chains, under two spellings of their name. -/
def links : Declaration where
  typeName := "Links"
  members := [⟨"small", .struct narrow, false⟩, ⟨"lists", .sequence (.struct chain), false⟩,
    ⟨"block", .array [2, 3] (.struct { chain with typeName := "::M::Chain" }), false⟩]

/-- What is built of it: the chain is there once, from stream 2 on. -/
def linksBuilt : Descriptor where
  typeName := "Links"
  flags := .variableSize
  program := ⟨[
    Stream.assemble [(0, .single (.struct 1), false), (1, .sequence (.struct 2), false),
      (2, .array (.struct 2) 6, false)],
    Stream.assemble [(0, .single (.number .u8), false)],
    Stream.assemble [(0, .sequence (.struct 3), false), (1, .single .bool, false)],
    Stream.assemble [(0, .single (.number .u16), false), (1, .sequence (.struct 3), false)]]⟩

theorem build_links_keeps_chain :
    links.build = .ok linksBuilt ∧
      ∃ number, number 0 = 2 ∧ Function.Injective number ∧
        linksBuilt.program.Embeds number chain.program := by
  have hbuild : links.build = .ok linksBuilt := eq_ok_of_toOption (by with_unfolding_all rfl)
  obtain ⟨first, words, insns, insn, number, hfirst, hw, hinsns, hinsn, _, hleaf, hinj, hembeds,
    _⟩ := build_keeps_layouts (List UInt8) hbuild (by decide) (i := 2) rfl
      (List.mem_singleton.mpr rfl)
  have hchain : first = chain := by
    have hnamed : Descriptor.firstNamed? links.nestedTypes
        { chain with typeName := "::M::Chain" } = some chain := rfl
    exact Option.some.inj (hfirst.symm.trans hnamed)
  have htarget : insn.leaf = .struct 2 := by
    cases hw
    rw [Scan.instructions_assemble] at hinsns
    cases hinsns
    cases hinsn
    rfl
  refine ⟨hbuild, number, ?_, hinj, hchain ▸ hembeds⟩
  rw [hleaf] at htarget
  exact Leaf.struct.inj htarget

def twins : Declaration where
  typeName := "Twins"
  members := [⟨"small", .struct narrow, false⟩, ⟨"large", .struct wide, false⟩]

def twinsBuilt : Descriptor where
  typeName := "Twins"
  program := ⟨[
    Stream.assemble [(0, .single (.struct 1), false), (1, .single (.struct 1), false)],
    Stream.assemble [(0, .single (.number .u8), false)]]⟩

/-- The second member refers to a stream that is not the one of its descriptor. -/
theorem build_twins_shares_narrow :
    twins.build = .ok twinsBuilt ∧
      Stream.instructions 0 (Stream.assemble
        [(0, .single (.struct 1), false), (1, .single (.struct 1), false)]) =
        .ok [⟨0, 0, false, .single (.struct 1)⟩, ⟨3, 1, false, .single (.struct 1)⟩] ∧
      ¬∃ number, number 0 = 1 ∧ twinsBuilt.program.Embeds number wide.program := by
  refine ⟨eq_ok_of_toOption (by with_unfolding_all rfl), Scan.instructions_assemble 0 _, ?_⟩
  rintro ⟨number, hzero, hembeds⟩
  obtain ⟨moved, insns, hm, hinsns, hmoved⟩ := hembeds 0 _ rfl
  rw [hzero] at hm hmoved
  cases hm
  rw [Scan.instructions_assemble] at hinsns hmoved
  cases hinsns
  cases hmoved

end Declaration
end TopicCodec
