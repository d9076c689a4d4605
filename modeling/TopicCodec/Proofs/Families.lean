import TopicCodec.Proofs.Grafting
import TopicCodec.Proofs.References

/-!
# Families of declared types

Types are declared one after the other, each with a name of its own and with members of earlier
types (`Family`). The description of a type has its structure and those of all types it is made
of, and nothing else (`Family.described`). Its program has a stream for each reference, which
describes the structure referred to (`Program.Describes`, `Family.describes_root`).
-/
namespace TopicCodec

-- The parts of a name that is not known are never computed here.
attribute [local irreducible] Name.parts

/-! ## Families -/

structure DeclaredType where
  declaration : Declaration
  desc : Descriptor

/-- An array has a dimension. One without is described like its element, but counted in the
program. -/
def FieldType.Dimensioned : FieldType → Prop
  | array dims _ => dims ≠ []
  | _ => True

namespace Declaration

structure Within (declaration : Declaration) (known : List DeclaredType) : Prop where
  name : Name.Spelt declaration.parts
  members : ∀ member ∈ declaration.members, Xml.Plain member.name
  dims : ∀ member ∈ declaration.members, member.type.Dimensioned
  nested : ∀ desc ∈ declaration.nestedTypes, ∃ type ∈ known, type.desc = desc

structure Joins (declaration : Declaration) (known : List DeclaredType) : Prop
    extends declaration.Within known where
  fresh : ∀ type ∈ known, type.declaration.parts ≠ declaration.parts

/-- A member of a declared structure has a structure of the other declaration in it. -/
def Refers (known : List DeclaredType) (declaration target : Declaration) : Prop :=
  ∃ type ∈ known, type.declaration = target ∧ type.desc ∈ declaration.nestedTypes

/-- A declared structure is the other one or is made of it. -/
def Uses (known : List DeclaredType) : Declaration → Declaration → Prop :=
  Relation.ReflTransGen (Refers known)

theorem within_of_identifiers {declaration : Declaration} {known : List DeclaredType}
    (hparts : declaration.parts ≠ []) (hname : declaration.parts.all Name.isIdentifier = true)
    (hmembers : (declaration.members.map (·.name)).all Name.isIdentifier = true)
    (hdims : ∀ member ∈ declaration.members, member.type.Dimensioned)
    (hnested : ∀ desc ∈ declaration.nestedTypes, ∃ type ∈ known, type.desc = desc) :
    declaration.Within known where
  name := Name.spelt_of_identifiers hparts hname
  members member hm := by
    have hne : declaration.members.map (·.name) ≠ [] :=
      List.ne_nil_of_mem (List.mem_map_of_mem hm)
    exact (Name.spelt_of_identifiers hne hmembers).plain _ (List.mem_map_of_mem hm)
  dims := hdims
  nested := hnested

theorem canonicalName_of_build {declaration : Declaration} {desc : Descriptor}
    (h : declaration.build = .ok desc) : desc.canonicalName = Name.join declaration.parts := by
  obtain ⟨_, _, _, _, _, hname, _⟩ := build_cases h
  rw [Descriptor.canonicalName, hname]
  rfl

theorem mem_nestedTypes {declaration : Declaration} {desc : Descriptor} :
    desc ∈ declaration.nestedTypes ↔
      ∃ member ∈ declaration.members, desc ∈ member.type.descriptors :=
  List.mem_flatMap

end Declaration

open Declaration (Within Joins Refers Uses Distinct Captures)

/-- Types declared one after the other, the last one first. -/
inductive Family : List DeclaredType → Prop
  | nil : Family []
  | cons {known : List DeclaredType} {type : DeclaredType} :
      Family known → type.declaration.Joins known →
      type.declaration.build = .ok type.desc → Family (type :: known)

variable {known : List DeclaredType}

theorem Declaration.Within.mono {declaration : Declaration} {known' : List DeclaredType}
    (h : declaration.Within known) (hsub : known ⊆ known') : declaration.Within known' where
  name := h.name
  members := h.members
  dims := h.dims
  nested desc hd := by
    obtain ⟨type, ht, hdesc⟩ := h.nested desc hd
    exact ⟨type, hsub ht, hdesc⟩

namespace Family

theorem within (h : Family known) {type : DeclaredType} (ht : type ∈ known) :
    type.declaration.Within known ∧ type.declaration.build = .ok type.desc := by
  induction h with
  | nil => cases ht
  | cons _ hjoins hbuild ih =>
      rcases List.mem_cons.mp ht with rfl | ht
      · exact ⟨hjoins.toWithin.mono (List.subset_cons_self _ _), hbuild⟩
      · obtain ⟨hwithin, hbuild⟩ := ih ht
        exact ⟨hwithin.mono (List.subset_cons_self _ _), hbuild⟩

theorem unique (h : Family known) {type other : DeclaredType} (ht : type ∈ known)
    (ho : other ∈ known) (hparts : type.declaration.parts = other.declaration.parts) :
    type = other := by
  induction h with
  | nil => cases ht
  | cons _ hjoins _ ih =>
      rcases List.mem_cons.mp ht with rfl | ht' <;> rcases List.mem_cons.mp ho with rfl | ho'
      · rfl
      · exact absurd hparts.symm (hjoins.fresh other ho')
      · exact absurd hparts (hjoins.fresh type ht')
      · exact ih ht' ho'

/-- What holds of a type if it holds of the types of its members holds of all types. -/
theorem induction {motive : DeclaredType → Prop} (h : Family known)
    (step : ∀ type ∈ known, (∀ desc ∈ type.declaration.nestedTypes,
      ∃ inner ∈ known, inner.desc = desc ∧ motive inner) → motive type) :
    ∀ type ∈ known, motive type := by
  suffices hall : ∀ earlier, Family earlier → earlier ⊆ known → ∀ type ∈ earlier, motive type from
    hall known h (List.Subset.refl known)
  intro earlier he hsub
  induction he with
  | nil => exact fun type ht => nomatch ht
  | cons _ hjoins _ ih =>
      have hearlier := ih (List.Subset.trans (List.subset_cons_self _ _) hsub)
      intro type ht
      rcases List.mem_cons.mp ht with rfl | ht
      · refine step type (hsub List.mem_cons_self) fun desc hd => ?_
        obtain ⟨inner, hi, hdesc⟩ := hjoins.nested desc hd
        exact ⟨inner, hsub (List.mem_cons_of_mem _ hi), hdesc, hearlier inner hi⟩
      · exact hearlier type ht

theorem canonicalName (h : Family known) {type : DeclaredType} (ht : type ∈ known) :
    Name.Spelt type.declaration.parts ∧
      type.desc.canonicalName = Name.join type.declaration.parts := by
  obtain ⟨hwithin, hbuild⟩ := h.within ht
  exact ⟨hwithin.name, Declaration.canonicalName_of_build hbuild⟩

/-- Types are told apart by the canonical names of their descriptors. -/
theorem eq_of_canonicalName (h : Family known) {type other : DeclaredType} (ht : type ∈ known)
    (ho : other ∈ known) (hname : type.desc.canonicalName = other.desc.canonicalName) :
    type = other := by
  obtain ⟨hspelt, htype⟩ := h.canonicalName ht
  obtain ⟨hspelt', hother⟩ := h.canonicalName ho
  apply h.unique ht ho
  rw [htype, hother] at hname
  rw [← Name.parts_join hspelt.solid, hname, Name.parts_join hspelt'.solid]

end Family

namespace Declaration

variable {declaration d : Declaration}

/-- All that a declaration uses is known, itself aside. -/
theorem Uses.cases (h : Uses known declaration d) :
    d = declaration ∨ ∃ type ∈ known, type.declaration = d := by
  rcases Relation.ReflTransGen.cases_tail h with rfl | ⟨_, _, type, ht, htarget, _⟩
  · exact .inl rfl
  · exact .inr ⟨type, ht, htarget⟩

theorem Uses.within (hfamily : Family known) (hwithin : declaration.Within known)
    (h : Uses known declaration d) : d.Within known := by
  rcases h.cases with rfl | ⟨type, ht, rfl⟩
  · exact hwithin
  · exact (hfamily.within ht).1

theorem Within.plain_described (hfamily : Family known) (h : declaration.Within known) :
    ∀ name ∈ declaration.described.names, Xml.Plain name := by
  refine Declaration.plain_described h.name h.members fun member hm desc hd => ?_
  obtain ⟨type, ht, rfl⟩ := h.nested desc (mem_nestedTypes.mpr ⟨member, hm, hd⟩)
  exact ⟨_, hfamily.canonicalName ht⟩

theorem Joins.distinct (hfamily : Family known) (h : declaration.Joins known) :
    Distinct (Uses known declaration) where
  spelt d hd := (hd.within hfamily h.toWithin).name
  unique d d' hd hd' hparts := by
    rcases hd.cases with rfl | ⟨type, ht, rfl⟩ <;> rcases hd'.cases with rfl | ⟨type', ht', rfl⟩
    · rfl
    · exact absurd hparts.symm (h.fresh type' ht')
    · exact absurd hparts (h.fresh type ht)
    · rw [hfamily.unique ht ht' hparts]

end Declaration

/-! ## Descriptions put together -/

namespace Assembly

variable {assembly assembly' : Assembly} {nested : Descriptor → Prop}
  {used : Descriptor → Declaration → Prop}

theorem isSome_lookup_of_shapes {types : List FieldType} {shapes : List Shape}
    (h : assembly.shapes types = .ok (shapes, assembly')) {name : String}
    (hname : (assembly.grafted.lookup name).isSome ∨
      ∃ type ∈ types, ∃ desc ∈ type.descriptors, desc.canonicalName = name) :
    (assembly'.grafted.lookup name).isSome := by
  induction types generalizing assembly shapes with
  | nil =>
      cases h
      exact hname.resolve_right fun ⟨type, ht, _⟩ => nomatch ht
  | cons first rest ih =>
      obtain ⟨⟨shape, middle⟩, hfirst, h⟩ := bind_eq_ok.mp h
      obtain ⟨⟨others, last⟩, hrest, h⟩ := bind_eq_ok.mp h
      cases h
      apply ih hrest
      have hstep (hknown : (assembly.grafted.lookup name).isSome ∨
          ∃ desc ∈ first.descriptors, desc.canonicalName = name) :
          (middle.grafted.lookup name).isSome := by
        rcases shape_cases hfirst with ⟨hnone, rfl⟩ | ⟨desc, id, hdesc, hf⟩
        · rw [hnone] at hknown
          exact hknown.resolve_right fun ⟨desc, hd, _⟩ => nomatch hd
        · rw [hdesc] at hknown
          apply isSome_lookup_of_streamFor hf
          rcases hknown with hknown | ⟨other, ho, hname⟩
          · exact .inl hknown
          · exact .inr (List.mem_singleton.mp ho ▸ hname)
      rcases hname with hknown | ⟨type, ht, hdesc⟩
      · exact .inl (hstep (.inl hknown))
      · rcases List.mem_cons.mp ht with rfl | ht
        · exact .inl (hstep (.inr hdesc))
        · exact .inr ⟨type, ht, hdesc⟩

/-- The assembly has the structures of the types taken in. -/
def Gathers (nested : Descriptor → Prop) (used : Descriptor → Declaration → Prop)
    (assembly : Assembly) : Prop :=
  assembly.document.Describes fun d => ∃ desc, nested desc ∧
    (assembly.grafted.lookup desc.canonicalName).isSome ∧ used desc d

theorem gathers_start : Gathers nested used start := by
  refine Markup.Document.describes_empty.congr fun d => ⟨False.elim, ?_⟩
  rintro ⟨desc, _, hknown, _⟩
  cases hknown

section Steps

variable (hnames : ∀ desc desc', nested desc → nested desc' →
    desc.canonicalName = desc'.canonicalName → desc = desc')
  (hread : ∀ desc, nested desc → desc.markup ≠ "" ∧ ∃ document,
    Markup.Document.read desc.markup = .ok document ∧ document.Describes (used desc))

include hnames hread

theorem streamFor_gathers {desc : Descriptor} {id : UInt32} (hd : nested desc)
    (hg : Gathers nested used assembly) (h : assembly.streamFor desc = .ok (id, assembly')) :
    Gathers nested used assembly' := by
  rcases streamFor_cases h with ⟨_, rfl⟩ | ⟨_, _, hgrafted, hmerged⟩
  · exact hg
  · obtain ⟨hmarkup, document, hdocument, hdescribes⟩ := hread desc hd
    obtain ⟨_, found, hfound, hmerge⟩ := hmerged hmarkup
    cases hdocument.symm.trans hfound
    unfold Gathers
    rw [hmerge]
    refine (hg.merge hdescribes).congr fun d => ⟨?_, ?_⟩
    · rintro (⟨other, ho, hknown, hused⟩ | hused)
      · exact ⟨other, ho, isSome_lookup_of_streamFor h (.inl hknown), hused⟩
      · exact ⟨desc, hd, isSome_lookup_of_streamFor h (.inr rfl), hused⟩
    · rintro ⟨other, ho, hknown, hused⟩
      by_cases hname : other.canonicalName = desc.canonicalName
      · exact .inr (hnames other desc ho hd hname ▸ hused)
      · rw [hgrafted, List.lookup_cons, beq_false_of_ne hname] at hknown
        exact .inl ⟨other, ho, hknown, hused⟩

theorem shapes_gather {types : List FieldType} {shapes : List Shape}
    (hd : ∀ type ∈ types, ∀ desc ∈ type.descriptors, nested desc)
    (hg : Gathers nested used assembly) (h : assembly.shapes types = .ok (shapes, assembly')) :
    Gathers nested used assembly' := by
  refine shapes_keep ?_ h hg
  intro type ht desc hdesc id before after hf hbefore
  exact streamFor_gathers hnames hread (hd type ht desc hdesc) hbefore hf

end Steps

end Assembly

/-- The descriptor of a type has a description, which is one of all that the type uses. -/
def DeclaredType.Described (known : List DeclaredType) (type : DeclaredType) : Prop :=
  type.desc.markup ≠ "" ∧ ∃ document, Markup.Document.read type.desc.markup = .ok document ∧
    document.Describes (Uses known type.declaration)

namespace Declaration

variable {declaration : Declaration}

theorem Within.unique_nested (hfamily : Family known) (h : declaration.Within known)
    (desc desc' : Descriptor) (hd : desc ∈ declaration.nestedTypes)
    (hd' : desc' ∈ declaration.nestedTypes) (hname : desc.canonicalName = desc'.canonicalName) :
    desc = desc' := by
  obtain ⟨type, ht, rfl⟩ := h.nested desc hd
  obtain ⟨type', ht', rfl⟩ := h.nested desc' hd'
  rw [hfamily.eq_of_canonicalName ht ht' hname]

theorem uses_iff {d : Declaration} :
    Uses known declaration d ↔
      (∃ inner ∈ known, inner.desc ∈ declaration.nestedTypes ∧ Uses known inner.declaration d) ∨
        d = declaration := by
  refine Relation.ReflTransGen.cases_head_iff.trans ⟨?_, ?_⟩
  · rintro (rfl | ⟨_, ⟨inner, hi, rfl, hd⟩, huses⟩)
    · exact .inr rfl
    · exact .inl ⟨inner, hi, hd, huses⟩
  · rintro (⟨inner, hi, hd, huses⟩ | rfl)
    · exact .inr ⟨_, ⟨inner, hi, rfl, hd⟩, huses⟩
    · exact .inl rfl

/-- The description of a declaration, given those of the types taken in. -/
def document (declaration : Declaration) (assembly : Assembly) : Markup.Document :=
  (assembly.document.insert declaration.scope declaration.described).1

/-- What is made of described types is described, by a text that is read as its description. -/
theorem Within.described_assembled (hfamily : Family known) (h : declaration.Within known)
    (hnested : ∀ desc ∈ declaration.nestedTypes, ∃ inner ∈ known,
      inner.desc = desc ∧ inner.Described known)
    (order : List Nat) {shapes : List Shape} {assembly : Assembly}
    (hshapes : Assembly.start.shapes (declaration.members.map DeclaredMember.type) =
      .ok (shapes, assembly)) :
    (declaration.assembled order shapes assembly).markup ≠ "" ∧
      Markup.Document.read (declaration.assembled order shapes assembly).markup =
        .ok (declaration.document assembly) ∧
      (declaration.document assembly).Describes (Uses known declaration) := by
  let used (desc : Descriptor) (d : Declaration) : Prop :=
    ∃ inner ∈ known, inner.desc = desc ∧ Uses known inner.declaration d
  have hread : ∀ desc ∈ declaration.nestedTypes, desc.markup ≠ "" ∧ ∃ document,
      Markup.Document.read desc.markup = .ok document ∧ document.Describes (used desc) := by
    intro desc hd
    obtain ⟨inner, hi, rfl, hmarkup, document, hread, hdescribes⟩ := hnested desc hd
    refine ⟨hmarkup, document, hread, hdescribes.congr fun d => ⟨?_, ?_⟩⟩
    · exact fun hu => ⟨inner, hi, rfl, hu⟩
    · rintro ⟨other, ho, hdesc, hu⟩
      rwa [← hfamily.eq_of_canonicalName ho hi (by rw [hdesc])]
  have htypes : ∀ type ∈ declaration.members.map DeclaredMember.type,
      ∀ desc ∈ type.descriptors, desc ∈ declaration.nestedTypes := by
    simp only [List.forall_mem_map]
    exact fun member hm desc hd => mem_nestedTypes.mpr ⟨member, hm, hd⟩
  have hgathers := Assembly.shapes_gather (h.unique_nested hfamily) hread htypes
    Assembly.gathers_start hshapes
  have hdescribed : assembly.described = true :=
    Assembly.shapes_described (fun type ht desc hd => (hread desc (htypes type ht desc hd)).1)
      hshapes
  have hmarkup : (declaration.assembled order shapes assembly).markup =
      (declaration.document assembly).write := if_pos hdescribed
  have hdescribes : (declaration.document assembly).Describes (Uses known declaration) := by
    refine (hgathers.insert h.name).congr fun d => ?_
    rw [uses_iff]
    refine or_congr ⟨?_, ?_⟩ Iff.rfl
    · rintro ⟨desc, hd, _, inner, hi, rfl, hu⟩
      exact ⟨inner, hi, hd, hu⟩
    · rintro ⟨inner, hi, hd, hu⟩
      refine ⟨inner.desc, hd, ?_, inner, hi, rfl, hu⟩
      obtain ⟨member, hm, hdesc⟩ := mem_nestedTypes.mp hd
      exact Assembly.isSome_lookup_of_shapes hshapes
        (.inr ⟨_, List.mem_map_of_mem hm, _, hdesc, rfl⟩)
  have hplain : ∀ d, Uses known declaration d → ∀ name ∈ d.described.names, Xml.Plain name :=
    fun d hd => (hd.within hfamily h).plain_described hfamily
  rw [hmarkup]
  exact ⟨Markup.Document.write_ne_empty _, hdescribes.read_write hplain, hdescribes⟩

end Declaration

theorem Family.described (h : Family known) :
    ∀ type ∈ known, type.Described known := by
  refine h.induction fun type ht hnested => ?_
  obtain ⟨hwithin, hbuild⟩ := h.within ht
  obtain ⟨_, order, shapes, assembly, _, hshapes, hdesc, _⟩ := Declaration.build_assembled hbuild
  obtain ⟨hmarkup, hread, hdescribes⟩ := hwithin.described_assembled h hnested order hshapes
  have hsame : type.desc.markup = (type.declaration.assembled order shapes assembly).markup := by
    rw [hdesc]
  rw [← hsame] at hmarkup hread
  exact ⟨hmarkup, _, hread, hdescribes⟩

theorem Declaration.Within.nested_described {declaration : Declaration} (hfamily : Family known)
    (h : declaration.Within known) :
    ∀ desc ∈ declaration.nestedTypes, ∃ inner ∈ known,
      inner.desc = desc ∧ inner.Described known := by
  intro desc hd
  obtain ⟨inner, hi, hdesc⟩ := h.nested desc hd
  exact ⟨inner, hi, hdesc, hfamily.described inner hi⟩

/-! ## Programs of declared structures -/

theorem FieldType.Laid.renumber {refers : UInt32 → Descriptor → Prop} {shape : Shape}
    {type : FieldType} (h : Laid refers shape type) (number : UInt32 → UInt32) :
    Laid (fun target desc => ∃ inner, number inner = target ∧ refers inner desc)
      (shape.renumber number) type := by
  induction h with
  | number kind => exact .number kind
  | bool => exact .bool
  | string bound => exact .string bound
  | struct hr => exact .struct ⟨_, rfl, hr⟩
  | sequence _ ih => exact .sequence ih
  | array hd _ ih => exact .array hd ih

namespace Program

/-- A stream has one instruction for each member of a declaration, in order and of its type, given
which streams describe which declarations. -/
def DescribesBy (program : Program) (known : List DeclaredType)
    (owner : UInt32 → Declaration → Prop) (id : UInt32) (d : Declaration) : Prop :=
  ∃ words insns, program.stream? id = some words ∧ Stream.instructions id words = .ok insns ∧
    insns.length = d.members.length ∧
    ∀ (i : Nat) (insn : Instruction) (member : DeclaredMember), insns[i]? = some insn →
      d.members[i]? = some member → insn.field = UInt32.ofNat i ∧
        FieldType.Laid (fun target desc => ∃ type ∈ known, type.desc = desc ∧
          owner target type.declaration) insn.shape member.type

/-- A stream describes a declaration, and so do the streams that it refers to those of the
members. This is the largest relation that passes on along references. -/
def Describes (program : Program) (known : List DeclaredType) (id : UInt32) (d : Declaration) :
    Prop :=
  ∃ owner : UInt32 → Declaration → Prop, owner id d ∧
    ∀ id d, owner id d → program.DescribesBy known owner id d

variable {program other : Program} {owner owner' : UInt32 → Declaration → Prop} {id : UInt32}
  {d : Declaration}

theorem DescribesBy.imp (h : program.DescribesBy known owner id d)
    (himp : ∀ id d, owner id d → owner' id d) : program.DescribesBy known owner' id d := by
  obtain ⟨words, insns, hw, hinsns, hlength, hmembers⟩ := h
  refine ⟨words, insns, hw, hinsns, hlength, fun i insn member hi hm => ?_⟩
  obtain ⟨hfield, hlaid⟩ := hmembers i insn member hi hm
  refine ⟨hfield, hlaid.imp fun target desc _ => ?_⟩
  rintro ⟨type, ht, hdesc, howner⟩
  exact ⟨type, ht, hdesc, himp _ _ howner⟩

theorem Describes.by_self (h : program.Describes known id d) :
    program.DescribesBy known (program.Describes known) id d := by
  obtain ⟨owner, howner, hstep⟩ := h
  exact (hstep id d howner).imp fun id d ho => ⟨owner, ho, hstep⟩

theorem DescribesBy.describes (h : program.DescribesBy known (program.Describes known) id d) :
    program.Describes known id d := by
  refine ⟨fun id' d' => program.Describes known id' d' ∨ id' = id ∧ d' = d, .inr ⟨rfl, rfl⟩, ?_⟩
  rintro id' d' (hdescribes | ⟨rfl, rfl⟩)
  · exact hdescribes.by_self.imp fun _ _ h => .inl h
  · exact h.imp fun _ _ h => .inl h

theorem Describes.embed (h : other.Describes known id d) {number : UInt32 → UInt32}
    (hembeds : program.Embeds number other) : program.Describes known (number id) d := by
  obtain ⟨owner, howner, hstep⟩ := h
  refine ⟨fun id d => ∃ inner, number inner = id ∧ owner inner d, ⟨id, rfl, howner⟩, ?_⟩
  rintro _ d ⟨inner, rfl, ho⟩
  obtain ⟨words, insns, hw, hinsns, hlength, hmembers⟩ := hstep inner d ho
  obtain ⟨moved, insns', hm, hinsns', hmoved⟩ := hembeds inner words hw
  cases hinsns.symm.trans hinsns'
  refine ⟨moved, _, hm, hmoved, by rw [List.length_map, hlength], fun i insn member hi hm => ?_⟩
  rw [List.getElem?_map] at hi
  obtain ⟨insn, hinsn, rfl⟩ := Option.map_eq_some_iff.mp hi
  obtain ⟨hfield, hlaid⟩ := hmembers i insn member hinsn hm
  refine ⟨hfield, (hlaid.renumber number).imp fun target desc _ => ?_⟩
  rintro ⟨inner, hinner, type, ht, hdesc, ho⟩
  exact ⟨type, ht, hdesc, inner, hinner, ho⟩

end Program

/-- The root stream of what is made of known types describes the declaration, as long as streams
can be numbered. -/
theorem Declaration.Within.describes_root {declaration : Declaration} (hfamily : Family known)
    (h : declaration.Within known) {order : List Nat} {shapes : List Shape} {assembly : Assembly}
    (hshapes : Assembly.start.shapes (declaration.members.map DeclaredMember.type) =
      .ok (shapes, assembly))
    {program : Program}
    (hprogram : program = ⟨Declaration.rootWords shapes order :: assembly.program.streams.drop 1⟩)
    (hsize : program.length ≤ UInt32.size)
    (hnested : ∀ desc ∈ declaration.nestedTypes, ∃ inner ∈ known, inner.desc = desc ∧
      (desc.program.length ≤ UInt32.size → desc.program.Describes known 0 inner.declaration)) :
    program.Describes known 0 declaration := by
  have hnames : ∀ member ∈ declaration.members, ∀ other ∈ declaration.members,
      ∀ desc ∈ member.type.descriptors, ∀ desc' ∈ other.type.descriptors,
        desc.canonicalName = desc'.canonicalName → desc = desc' :=
    fun member hm other ho desc hd desc' hd' => h.unique_nested hfamily desc desc'
      (Declaration.mem_nestedTypes.mpr ⟨member, hm, hd⟩)
      (Declaration.mem_nestedTypes.mpr ⟨other, ho, hd'⟩)
  obtain ⟨words, insns, hw, hinsns, hfields, hlaid⟩ := Declaration.laid_of_shapes hshapes hprogram
    (by simpa only [List.forall_mem_map] using hnames) hsize
  have hlength : insns.length = declaration.members.length := by
    rw [hlaid.length_eq, List.length_map]
  refine Program.DescribesBy.describes ⟨words, insns, hw, hinsns, hlength, ?_⟩
  intro i insn member hi hm
  constructor
  · have hfield := congrArg (·[i]?) hfields
    have hrange : i < (List.map DeclaredMember.type declaration.members).length := by
      rw [List.length_map]
      exact (List.getElem?_eq_some_iff.mp hm).1
    simpa only [List.getElem?_map, hi, List.getElem?_range hrange, Option.map_some,
      Option.some.injEq] using hfield
  · obtain ⟨_, hm', hlaid⟩ := getElem?_of_forall₂ (List.forall₂_map_right_iff.mp hlaid) hi
    cases hm.symm.trans hm'
    refine hlaid.imp fun base desc hd hcontains => ?_
    obtain ⟨inner, hinner, hdesc, hdescribes⟩ := hnested desc
      (Declaration.mem_nestedTypes.mpr ⟨member, List.mem_of_getElem? hm, hd⟩)
    refine ⟨inner, hinner, hdesc, ?_⟩
    have hroot := (hdescribes (hcontains.length_le.trans hsize)).embed hcontains.embeds
    rwa [UInt32.zero_add] at hroot

theorem Family.describes_root (h : Family known) :
    ∀ type ∈ known, type.desc.program.length ≤ UInt32.size →
      type.desc.program.Describes known 0 type.declaration := by
  refine h.induction fun type ht hnested hsize => ?_
  obtain ⟨hwithin, hbuild⟩ := h.within ht
  obtain ⟨shapes, assembly, order, hshapes, hprogram, _⟩ := Declaration.build_cases hbuild
  refine hwithin.describes_root h hshapes hprogram hsize fun desc hd => ?_
  obtain ⟨inner, hi, rfl, hdescribes⟩ := hnested desc hd
  exact ⟨inner, hi, rfl, hdescribes⟩

end TopicCodec
