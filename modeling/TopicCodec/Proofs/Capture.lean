import Mathlib.Algebra.Order.BigOperators.Group.List
import TopicCodec.Proofs.Blame
import TopicCodec.Proofs.Families

/-!
# Names that are captured

The check of a description against its own program follows the references of both at once. As
long as each name means the structure it was made for, it comes to no pair but those of a
declaration: a stream that describes it, and its structure (`Pairing.Matches`). So it passes, and
a declaration in a family is never refused because of its own description. A name that another
structure captures is followed to that one, and the check then fails although the declarations
are sound.
-/
namespace TopicCodec

-- The parts of a name that is not known are never computed here.
attribute [local irreducible] Name.parts

open Declaration (Within Joins Refers Uses Distinct Captures)

variable {known : List DeclaredType}

/-! ## Pairs that references lead to -/

theorem Assembly.dimsFit_of_elementCount? {dims : List UInt32} {count : UInt32}
    (h : elementCount? dims = some count) : Markup.MemberType.DimsFit 1 dims := by
  rintro first ⟨rest, rfl⟩
  obtain ⟨part, hpart⟩ := elementCount?_append h
  rw [Nat.one_mul, ← toNat_elementCount? hpart]
  exact part.toNat_lt.trans (by decide)

namespace FieldType

open Markup (LeafAgrees ShapeAgrees)

variable {refers : UInt32 → Descriptor → Prop} {document : Markup.Document} {scope : List String}
  {type : FieldType}

theorem Laid.leafAgrees {leaf : Leaf} (h : Laid refers (.single leaf) type)
    (hfound : ∀ desc ∈ type.descriptors, ∃ name found,
      (FieldType.struct desc).markup scope = .named name ∧
        document.resolve? scope name = some found) :
    LeafAgrees document scope leaf (type.markup scope) := by
  cases h with
  | number kind => exact .number kind
  | bool => exact .bool
  | string bound => exact .string bound
  | struct _ =>
      obtain ⟨name, found, hname, hresolve⟩ := hfound _ (List.mem_singleton.mpr rfl)
      rw [hname]
      exact .struct _ hresolve

theorem Laid.shapeAgrees {shape : Shape} (h : Laid refers shape type) (hdims : type.Dimensioned)
    (hfound : ∀ desc ∈ type.descriptors, ∃ name found,
      (FieldType.struct desc).markup scope = .named name ∧
        document.resolve? scope name = some found) :
    ShapeAgrees document scope shape (type.markup scope) := by
  cases h with
  | sequence helem => exact .sequence (helem.leafAgrees hfound)
  | array hcount helem =>
      exact .array hdims (Assembly.dimsFit_of_elementCount? hcount)
        (Assembly.toNat_elementCount? hcount).symm (helem.leafAgrees hfound)
  | number kind => exact .single (.number kind)
  | bool => exact .single .bool
  | string bound => exact .single (.string bound)
  | struct hr => exact .single ((Laid.struct hr).leafAgrees hfound)

end FieldType

namespace Markup

/-- The references of the declarations in use mean in the document what they were made for. -/
def Document.ResolvesAll (document : Document) (known : List DeclaredType)
    (used : Declaration → Prop) : Prop :=
  ∀ d, used d → ∀ type ∈ known, type.desc ∈ d.nestedTypes → ∃ name,
    (FieldType.struct type.desc).markup d.scope = .named name ∧
      document.resolve? d.scope name = some (type.declaration.scope, type.declaration.described)

namespace Pairing

/-- The pair of a declaration in use: a stream that describes it, and its structure. -/
def Matches (pair : Pairing) (program : Program) (known : List DeclaredType)
    (declaration : Declaration) : Prop :=
  ∃ d, Uses known declaration d ∧ program.Describes known pair.stream d ∧
    pair.scope = d.scope ∧ pair.struct = d.described

variable {pair next last : Pairing} {program : Program} {declaration : Declaration}
  {document : Document}

theorem Matches.agrees (h : pair.Matches program known declaration)
    (hresolves : document.ResolvesAll known (Uses known declaration))
    (hdims : ∀ d, Uses known declaration d → ∀ member ∈ d.members, member.type.Dimensioned)
    (hcount : ∀ d, Uses known declaration d → d.members.length ≤ UInt32.size) :
    pair.Agrees document program := by
  obtain ⟨stream, scope, struct⟩ := pair
  obtain ⟨d, hused, hdescribes, rfl, rfl⟩ := h
  obtain ⟨words, insns, hw, hinsns, hlength, hmembers⟩ := hdescribes.by_self
  refine ⟨words, insns, hw, hinsns, hlength.trans (List.length_map _).symm, ?_⟩
  intro i insn member hi hm
  have hm : (d.members.map _)[i]? = some member := hm
  rw [List.getElem?_map] at hm
  obtain ⟨declared, hdeclared, rfl⟩ := Option.map_eq_some_iff.mp hm
  obtain ⟨hfield, hlaid⟩ := hmembers i insn declared hi hdeclared
  have hmem := List.mem_of_getElem? hdeclared
  constructor
  · have hlt := (List.getElem?_eq_some_iff.mp hdeclared).1
    rw [hfield]
    exact UInt32.toNat_ofNat_of_lt' (hlt.trans_le (hcount d hused))
  · refine hlaid.shapeAgrees (hdims d hused declared hmem) fun desc hd => ?_
    obtain ⟨_, _, type, ht, rfl, _⟩ := hlaid.refers hd
    obtain ⟨name, hname, hresolve⟩ := hresolves d hused type ht
      (Declaration.mem_nestedTypes.mpr ⟨declared, hmem, hd⟩)
    exact ⟨name, _, hname, hresolve⟩

theorem Matches.refers (h : pair.Matches program known declaration)
    (hresolves : document.ResolvesAll known (Uses known declaration))
    (hrefers : pair.Refers document program next) : next.Matches program known declaration := by
  obtain ⟨stream, scope, struct⟩ := pair
  obtain ⟨d, hused, hdescribes, rfl, rfl⟩ := h
  obtain ⟨words, i, insn, member, name, hw, hi, hm, hleaf, hreference, hresolve⟩ := hrefers
  obtain ⟨words', insns, hw', hinsns, _, hmembers⟩ := hdescribes.by_self
  cases hw.symm.trans hw'
  rw [(Stream.instructions_eq_ok.mp hinsns).2] at hi
  have hm : (d.members.map _)[i]? = some member := hm
  rw [List.getElem?_map] at hm
  obtain ⟨declared, hdeclared, rfl⟩ := Option.map_eq_some_iff.mp hm
  obtain ⟨_, hlaid⟩ := hmembers i insn declared hi hdeclared
  obtain ⟨desc, hd, hname⟩ := FieldType.reference?_markup.mp hreference
  obtain ⟨base, hbase, type, ht, rfl, hnext⟩ := hlaid.refers hd
  have hnested : type.desc ∈ d.nestedTypes :=
    Declaration.mem_nestedTypes.mpr ⟨declared, List.mem_of_getElem? hdeclared, hd⟩
  obtain ⟨name', hname', hresolve'⟩ := hresolves d hused type ht hnested
  cases hname.symm.trans hname'
  cases hbase.symm.trans hleaf
  obtain ⟨hscope, hstruct⟩ := Prod.mk.inj (Option.some.inj (hresolve.symm.trans hresolve'))
  exact ⟨type.declaration, hused.tail ⟨type, ht, rfl, hnested⟩, hnext, hscope, hstruct⟩

/-- All that references lead to are pairs of declarations in use. -/
theorem Matches.chain {visited : List UInt32} (hchain : pair.Chain document program visited last)
    (hresolves : document.ResolvesAll known (Uses known declaration))
    (h : pair.Matches program known declaration) : last.Matches program known declaration := by
  induction hchain with
  | here _ => exact h
  | step _ hrefers _ ih => exact ih (h.refers hresolves hrefers)

end Pairing

end Markup

/-! ## Numbers of members and streams -/

namespace Assembly

variable {assembly assembly' : Assembly} {nested : Descriptor → Prop}

theorem length_shapes {types : List FieldType} {shapes : List Shape}
    (h : assembly.shapes types = .ok (shapes, assembly')) : shapes.length = types.length := by
  induction types generalizing assembly shapes with
  | nil =>
      cases h
      rfl
  | cons type rest ih =>
      obtain ⟨⟨shape, middle⟩, _, h⟩ := bind_eq_ok.mp h
      obtain ⟨⟨others, last⟩, hrest, h⟩ := bind_eq_ok.mp h
      cases h
      rw [List.length_cons, List.length_cons, ih hrest]

/-- The program has the root and the streams of some types, no two of them with one name. -/
def Counts (nested : Descriptor → Prop) (assembly : Assembly) : Prop :=
  ∃ taken : List Descriptor, (taken.map Descriptor.canonicalName).Nodup ∧
    (∀ desc ∈ taken, nested desc ∧ (assembly.grafted.lookup desc.canonicalName).isSome) ∧
    assembly.program.length = (taken.map fun desc => desc.program.length).sum + 1

theorem streamFor_counts {desc : Descriptor} {id : UInt32} (hd : nested desc)
    (hc : Counts nested assembly) (h : assembly.streamFor desc = .ok (id, assembly')) :
    Counts nested assembly' := by
  rcases streamFor_cases h with ⟨_, rfl⟩ | ⟨hnone, hgraft, _, _⟩
  · exact hc
  · obtain ⟨taken, hnodup, htaken, hlength⟩ := hc
    refine ⟨desc :: taken, ?_, ?_, ?_⟩
    · refine List.nodup_cons.mpr ⟨fun hmem => ?_, hnodup⟩
      obtain ⟨other, ho, hname⟩ := List.mem_map.mp hmem
      have hknown := (htaken other ho).2
      rw [hname, hnone] at hknown
      cases hknown
    · intro other ho
      rcases List.mem_cons.mp ho with rfl | ho
      · exact ⟨hd, isSome_lookup_of_streamFor h (.inr rfl)⟩
      · exact ⟨(htaken other ho).1, isSome_lookup_of_streamFor h (.inl (htaken other ho).2)⟩
    · rw [Program.length_graft hgraft, hlength, List.map_cons, List.sum_cons]
      omega

theorem length_le_of_shapes {types : List FieldType} {shapes : List Shape}
    (h : start.shapes types = .ok (shapes, assembly)) {distinct : List Descriptor}
    (hd : ∀ type ∈ types, ∀ desc ∈ type.descriptors, desc ∈ distinct) :
    assembly.program.length ≤ (distinct.map fun desc => desc.program.length).sum + 1 := by
  have hstart : Counts (· ∈ distinct) start := ⟨[], List.nodup_nil, (fun _ h => nomatch h), rfl⟩
  have hcounts : Counts (· ∈ distinct) assembly := by
    refine shapes_keep ?_ h hstart
    intro type ht desc hdesc id before after hf hbefore
    exact streamFor_counts (hd type ht desc hdesc) hbefore hf
  obtain ⟨taken, hnodup, htaken, hlength⟩ := hcounts
  obtain ⟨chosen, hperm, hchosen⟩ :=
    List.subperm_of_subset hnodup.of_map fun desc hd => (htaken desc hd).1
  rw [hlength, ← (hperm.map _).sum_eq]
  exact Nat.succ_le_succ ((hchosen.map _).sum_le_sum fun _ _ => Nat.zero_le _)

end Assembly

theorem Assembly.streamFor_of_read {assembly : Assembly} {desc : Descriptor}
    (hnew : assembly.grafted.lookup desc.canonicalName = none) {program : Program} {id : UInt32}
    (hgraft : assembly.program.graft desc.program = .ok (program, id)) (hmarkup : desc.markup ≠ "")
    {document : Markup.Document} (hread : Markup.Document.read desc.markup = .ok document) :
    assembly.streamFor desc = .ok (id, { assembly with
      program
      grafted := (desc.canonicalName, id) :: assembly.grafted
      document := assembly.document.merge document }) := by
  unfold streamFor
  dsimp only
  rw [hnew, hgraft, hread]
  exact if_neg hmarkup

theorem Descriptor.validate_eq_checkMarkup {desc : Descriptor} (hmarkup : desc.markup ≠ "")
    (hvalid : ({ desc with markup := "" } : Descriptor).validate = .ok ()) :
    desc.validate = desc.checkMarkup.mapError .markup := by
  obtain ⟨_, hprogram, h⟩ := bind_eq_ok.mp hvalid
  obtain ⟨hcount, h⟩ := check_eq_ok.mp h
  obtain ⟨insns, hinsns, h⟩ := bind_eq_ok.mp h
  obtain ⟨_, hkeys, h⟩ := bind_eq_ok.mp h
  obtain ⟨_, hsize, h⟩ := bind_eq_ok.mp h
  obtain ⟨_, hkey, _⟩ := bind_eq_ok.mp h
  have hprogram : desc.program.validate = .ok () := hprogram
  have hinsns : desc.keyInstructions = .ok insns := hinsns
  have hsize : desc.checkSize = .ok () := hsize
  have hkey : desc.checkKeySize = .ok () := hkey
  unfold validate
  rw [hprogram, hinsns]
  simp only [bind, Except.bind]
  rw [if_neg hcount, hkeys, hsize, hkey]
  exact if_pos hmarkup

namespace Declaration

/-- Members and streams can be numbered. A type that several members have counts once. -/
structure Fits (declaration : Declaration) : Prop where
  members : declaration.members.length ≤ UInt32.size
  streams : ∃ distinct, declaration.nestedTypes ⊆ distinct ∧
    (distinct.map fun desc => desc.program.length).sum < UInt32.size

variable {declaration : Declaration} {desc : Descriptor}

/-- What was built has no more members than can be numbered, or its check would have failed. -/
theorem length_members_le (h : declaration.build = .ok desc) (hm : desc.markup ≠ "") :
    declaration.members.length ≤ UInt32.size := by
  obtain ⟨shapes, assembly, order, hshapes, hprogram, _, _, hvalid⟩ := build_cases h
  have hw : desc.program.stream? 0 = some (rootWords shapes order) := by
    rw [hprogram]
    rfl
  have hroot := Descriptor.length_root_le hvalid hm hw
  have hcontent := Instruction.map_content_placed 0
    (shapes.zipIdx.map fun place => (UInt32.ofNat place.2, place.1, decide (place.2 ∈ order)))
  have hlength := congrArg List.length hcontent
  have hshapes := Assembly.length_shapes hshapes
  rw [rootWords, (Scan.read_of_instructions (Scan.instructions_assemble 0 _)).1] at hroot
  simp only [List.length_map, List.length_zipIdx] at hlength hshapes
  rwa [hlength, hshapes] at hroot

theorem length_assembled_le (h : declaration.Fits) (order : List Nat) {shapes : List Shape}
    {assembly : Assembly}
    (hshapes : Assembly.start.shapes (declaration.members.map DeclaredMember.type) =
      .ok (shapes, assembly)) :
    (declaration.assembled order shapes assembly).program.length ≤ UInt32.size := by
  obtain ⟨distinct, hdistinct, hsum⟩ := h.streams
  have htypes : ∀ type ∈ declaration.members.map DeclaredMember.type,
      ∀ desc ∈ type.descriptors, desc ∈ distinct := by
    simp only [List.forall_mem_map]
    exact fun member hm desc hd => hdistinct (mem_nestedTypes.mpr ⟨member, hm, hd⟩)
  have hlength := Assembly.length_le_of_shapes hshapes htypes
  have hroot : (declaration.assembled order shapes assembly).program.length =
      (assembly.program.streams.drop 1).length + 1 := List.length_cons
  have hdrop : (assembly.program.streams.drop 1).length = assembly.program.length - 1 :=
    List.length_drop
  omega

/-- What is built of a declaration that is sound but for its description is decided by the check
of the description. -/
theorem build_eq_checkMarkup (hparts : declaration.parts ≠ [])
    (hnames : duplicate? [] (declaration.members.map (·.name)) = none) {order : List Nat}
    (horder : declaration.keyOrder = .ok order) {shapes : List Shape} {assembly : Assembly}
    (hshapes : Assembly.start.shapes (declaration.members.map DeclaredMember.type) =
      .ok (shapes, assembly))
    (hmarkup : (declaration.assembled order shapes assembly).markup ≠ "") {flags : Flags}
    (hflags : impliedFlags (declaration.assembled order shapes assembly) = .ok flags)
    (hvalid : ({ declaration.assembled order shapes assembly with flags, markup := "" } :
      Descriptor).validate = .ok ()) :
    declaration.build = ((declaration.assembled order shapes assembly).checkMarkup.mapError
      .markup).map fun _ => { declaration.assembled order shapes assembly with flags } := by
  have hchecked : Descriptor.validate { declaration.assembled order shapes assembly with flags } =
      (declaration.assembled order shapes assembly).checkMarkup.mapError .markup :=
    Descriptor.validate_eq_checkMarkup hmarkup hvalid
  unfold build
  rw [if_neg (by simpa using hparts), hnames, horder]
  simp only [hshapes, bind, Except.bind, hflags, Except.mapError, hchecked]
  cases (declaration.assembled order shapes assembly).checkMarkup <;> rfl

/-! ## Captured names -/

/-- A reference means what it was made for exactly if it is not captured. -/
theorem Joins.resolve?_iff (hfamily : Family known) (h : declaration.Joins known)
    {document : Markup.Document} (hdocument : document.Describes (Uses known declaration))
    {d : Declaration} (hused : Uses known declaration d) {type : DeclaredType} (ht : type ∈ known)
    (hd : type.desc ∈ d.nestedTypes) :
    ∃ name, (FieldType.struct type.desc).markup d.scope = .named name ∧
      (document.resolve? d.scope name =
          some (type.declaration.scope, type.declaration.described) ↔
        ¬Captures (Uses known declaration) d.scope type.declaration.parts) := by
  obtain ⟨hspelt, hname⟩ := hfamily.canonicalName ht
  have hscope : ∀ part ∈ d.scope, Name.Solid part := fun part hp =>
    (hused.within hfamily h.toWithin).name.solid part (List.mem_of_mem_dropLast hp)
  exact ⟨_, FieldType.markup_struct hspelt hname _, Markup.Document.resolve?_reference hdocument
    (h.distinct hfamily) hscope (hused.tail ⟨type, ht, rfl, hd⟩)⟩

/-- The description of what is made of known types passes the check if no name is captured. -/
theorem Joins.checkMarkup_assembled (hfamily : Family known) (h : declaration.Joins known)
    (hfits : declaration.Fits)
    (hfree : ∀ referrer target, Uses known declaration referrer → Refers known referrer target →
      ¬Captures (Uses known declaration) referrer.scope target.parts)
    {order : List Nat} {shapes : List Shape} {assembly : Assembly}
    (hshapes : Assembly.start.shapes (declaration.members.map DeclaredMember.type) =
      .ok (shapes, assembly)) :
    (declaration.assembled order shapes assembly).checkMarkup = .ok () := by
  obtain ⟨_, hread, hdescribes⟩ :=
    h.described_assembled hfamily (h.nested_described hfamily) order hshapes
  have hwithin (d : Declaration) (hd : Uses known declaration d) := hd.within hfamily h.toWithin
  have hresolves : (declaration.document assembly).ResolvesAll known (Uses known declaration) := by
    intro d hused type ht hd
    obtain ⟨name, hname, hiff⟩ := h.resolve?_iff hfamily hdescribes hused ht hd
    exact ⟨name, hname, hiff.mpr (hfree d _ hused ⟨type, ht, rfl, hd⟩)⟩
  have hcount : ∀ d, Uses known declaration d → d.members.length ≤ UInt32.size := by
    intro d hused
    rcases hused.cases with rfl | ⟨type, ht, rfl⟩
    · exact hfits.members
    · exact length_members_le (hfamily.within ht).2 (hfamily.described type ht).1
  have hroot : (declaration.assembled order shapes assembly).program.Describes known 0
      declaration := by
    have hsize := length_assembled_le hfits order hshapes
    refine h.describes_root hfamily hshapes rfl hsize fun desc hd => ?_
    obtain ⟨inner, hi, rfl⟩ := h.nested desc hd
    exact ⟨inner, hi, rfl, hfamily.describes_root inner hi⟩
  refine bind_eq_ok.mpr ⟨_, hread, Markup.Document.check_eq_ok_iff.mpr ?_⟩
  refine ⟨⟨0, declaration.scope, declaration.described⟩, ⟨rfl, ?_⟩, fun last hchain => ?_⟩
  · exact (Markup.Document.findParts?_eq_some_iff hdescribes (h.distinct hfamily)).mpr
      ⟨declaration, .refl, rfl, rfl⟩
  · have hlast := Markup.Pairing.Matches.chain hchain hresolves
      ⟨declaration, .refl, hroot, rfl, rfl⟩
    exact hlast.agrees hresolves (fun d hd => (hwithin d hd).dims) hcount

/-- If no name is captured, what is sound but for its description is built. -/
theorem Joins.build_eq_assembled (hfamily : Family known) (h : declaration.Joins known)
    (hfits : declaration.Fits)
    (hfree : ∀ referrer target, Uses known declaration referrer → Refers known referrer target →
      ¬Captures (Uses known declaration) referrer.scope target.parts)
    (hnames : duplicate? [] (declaration.members.map (·.name)) = none) {order : List Nat}
    (horder : declaration.keyOrder = .ok order) {shapes : List Shape} {assembly : Assembly}
    (hshapes : Assembly.start.shapes (declaration.members.map DeclaredMember.type) =
      .ok (shapes, assembly)) {flags : Flags}
    (hflags : impliedFlags (declaration.assembled order shapes assembly) = .ok flags)
    (hvalid : ({ declaration.assembled order shapes assembly with flags, markup := "" } :
      Descriptor).validate = .ok ()) :
    declaration.build = .ok { declaration.assembled order shapes assembly with flags } := by
  have hmarkup := (h.described_assembled hfamily (h.nested_described hfamily) order hshapes).1
  rw [build_eq_checkMarkup h.name.ne_nil hnames horder hshapes hmarkup hflags hvalid,
    h.checkMarkup_assembled hfamily hfits hfree hshapes]
  rfl

/-- A declaration that joins a family is never refused because of its description if no name is
captured: neither one of its own references nor one of a type it is made of. What is built
describes all types in use, and each of its references means what it was made for exactly if it
is not captured. -/
theorem build_unless_captured (hfamily : Family known) (h : declaration.Joins known) :
    (declaration.Fits →
      (∀ referrer target, Uses known declaration referrer → Refers known referrer target →
        ¬Captures (Uses known declaration) referrer.scope target.parts) →
      ∀ error, declaration.build ≠ .error (.markup error)) ∧
    ∀ desc, declaration.build = .ok desc → ∃ document,
      Markup.Document.read desc.markup = .ok document ∧
      document.Describes (Uses known declaration) ∧
      ∀ referrer, Uses known declaration referrer → ∀ member ∈ referrer.members,
        ∀ type ∈ known, type.desc ∈ member.type.descriptors → ∃ name,
          (member.type.markup referrer.scope).reference? = some name ∧
          (document.resolve? referrer.scope name =
              some (type.declaration.scope, type.declaration.described) ↔
            ¬Captures (Uses known declaration) referrer.scope type.declaration.parts) := by
  constructor
  · intro hfits hfree error hbuild
    have hread : ∀ member ∈ declaration.members, ∀ desc ∈ member.type.descriptors,
        desc.markup ≠ "" → ∃ document, Markup.Document.read desc.markup = .ok document := by
      intro member hm desc hd _
      obtain ⟨inner, _, rfl, _, document, hread, _⟩ :=
        h.nested_described hfamily desc (mem_nestedTypes.mpr ⟨member, hm, hd⟩)
      exact ⟨document, hread⟩
    have hspares := spares_build hread fun order shapes assembly hshapes _ =>
      h.checkMarkup_assembled hfamily hfits hfree hshapes
    cases hspares _ hbuild
  · intro desc hbuild
    obtain ⟨_, order, shapes, assembly, _, hshapes, rfl, _⟩ := build_assembled hbuild
    obtain ⟨_, hread, hdescribes⟩ :=
      h.described_assembled hfamily (h.nested_described hfamily) order hshapes
    refine ⟨_, hread, hdescribes, fun referrer hused member hm type ht hd => ?_⟩
    obtain ⟨name, hname, hiff⟩ := h.resolve?_iff hfamily hdescribes hused ht
      (mem_nestedTypes.mpr ⟨member, hm, hd⟩)
    exact ⟨name, FieldType.reference?_markup.mpr ⟨_, hd, hname⟩, hiff⟩

-- An array without dimensions has a count in the program and none in the description.
example : ({ typeName := "T", members := [⟨"a", .array [] .bool, false⟩] } : Declaration).build =
    .error (.markup (.mismatch "T.a" "stream has bool[1], markup has bool")) := by decide +kernel

/-! Two structures named `X`, one in `B` and one in `A::B`, and a third one made of both: in `B`
the names mean what they should, in `A::B` the full name of the first is captured by the second. -/

/-- A structure of one number, and what is built of it. -/
def oneNumber (typeName : String) (kind : ScalarKind) : DeclaredType :=
  let declaration : Declaration := { typeName, members := [⟨"a", .number kind, false⟩] }
  ⟨declaration, declaration.assembled [] [.single (.number kind)] .start⟩

def shallow : DeclaredType := oneNumber "B::X" .u8

def deep : DeclaredType := oneNumber "A::B::X" .u32

/-- A structure made of both, in the module that its name leads to. -/
def madeOfBoth (typeName : String) : Declaration where
  typeName
  members := [⟨"p", .struct shallow.desc, false⟩, ⟨"q", .struct deep.desc, false⟩]

/-- What is taken in for the first member, and for both. -/
def oneTaken : Assembly where
  program := ⟨[[], Stream.assemble [(0, .single (.number .u8), false)]]⟩
  grafted := [(shallow.desc.canonicalName, 1)]
  document := Markup.Document.empty.merge (shallow.declaration.document .start)
  described := true

def bothTaken : Assembly where
  program := ⟨[[], Stream.assemble [(0, .single (.number .u8), false)],
    Stream.assemble [(0, .single (.number .u32), false)]]⟩
  grafted := [(deep.desc.canonicalName, 2), (shallow.desc.canonicalName, 1)]
  document := oneTaken.document.merge (deep.declaration.document .start)
  described := true

theorem within_oneNumber {typeName : String} {kind : ScalarKind}
    (hparts : (oneNumber typeName kind).declaration.parts ≠ [])
    (hname : (oneNumber typeName kind).declaration.parts.all Name.isIdentifier = true)
    (known : List DeclaredType) : (oneNumber typeName kind).declaration.Within known := by
  refine within_of_identifiers hparts hname
    (rfl : ["a"].all Name.isIdentifier = true) ?_ (fun desc hd => nomatch hd)
  intro member hm
  cases List.mem_singleton.mp hm
  trivial

theorem build_oneNumber {typeName : String} {kind : ScalarKind} (hfamily : Family known)
    (h : (oneNumber typeName kind).declaration.Joins known)
    (hflags : impliedFlags (oneNumber typeName kind).desc = .ok .empty)
    (hvalid : ({ (oneNumber typeName kind).desc with markup := "" } : Descriptor).validate =
      .ok ()) :
    (oneNumber typeName kind).declaration.build = .ok (oneNumber typeName kind).desc := by
  have hfits : (oneNumber typeName kind).declaration.Fits :=
    ⟨(by decide : 1 ≤ UInt32.size), [], List.Subset.refl _, by decide⟩
  refine h.build_eq_assembled hfamily hfits ?_ rfl rfl rfl hflags hvalid
  rintro referrer target hused ⟨type, _, _, hd⟩
  rcases uses_iff.mp hused with ⟨_, _, hnested, _⟩ | rfl
  · cases hnested
  · cases hd

theorem family_shallow_deep : Family [deep, shallow] := by
  have hshallow : shallow.declaration.Joins [] :=
    ⟨within_oneNumber (by decide +kernel) (by with_unfolding_all rfl) [], fun _ h => nomatch h⟩
  have hdeep : deep.declaration.Joins [shallow] := by
    refine ⟨within_oneNumber (by decide +kernel) (by with_unfolding_all rfl) _, fun type ht => ?_⟩
    cases List.mem_singleton.mp ht
    decide +kernel
  have hfamily : Family [shallow] :=
    .cons .nil hshallow (build_oneNumber .nil hshallow (by decide +kernel) (by decide +kernel))
  exact .cons hfamily hdeep
    (build_oneNumber hfamily hdeep (by with_unfolding_all rfl) (by with_unfolding_all rfl))

theorem joins_madeOfBoth {typeName : String} (hparts : (madeOfBoth typeName).parts ≠ [])
    (hname : (madeOfBoth typeName).parts.all Name.isIdentifier = true)
    (hdeep : deep.declaration.parts ≠ (madeOfBoth typeName).parts)
    (hshallow : shallow.declaration.parts ≠ (madeOfBoth typeName).parts) :
    (madeOfBoth typeName).Joins [deep, shallow] := by
  have hnested : ∀ desc ∈ (madeOfBoth typeName).nestedTypes,
      ∃ type ∈ [deep, shallow], type.desc = desc := by
    have hboth : (madeOfBoth typeName).nestedTypes = [shallow.desc, deep.desc] := rfl
    rw [hboth]
    simp
  refine ⟨within_of_identifiers hparts hname
    (rfl : ["p", "q"].all Name.isIdentifier = true) ?_ hnested, ?_⟩
  · simp [madeOfBoth, FieldType.Dimensioned]
  · simp [hdeep, hshallow]

theorem fits_madeOfBoth (typeName : String) : (madeOfBoth typeName).Fits :=
  ⟨(by decide : 2 ≤ UInt32.size), [shallow.desc, deep.desc], List.Subset.refl _, by decide +kernel⟩

theorem read_oneNumber {typeName : String} {kind : ScalarKind} (hfamily : Family known)
    (h : oneNumber typeName kind ∈ known) :
    (oneNumber typeName kind).desc.markup ≠ "" ∧
      Markup.Document.read (oneNumber typeName kind).desc.markup =
        .ok ((oneNumber typeName kind).declaration.document .start) := by
  have hwithin := (hfamily.within h).1
  obtain ⟨hmarkup, hread, _⟩ := hwithin.described_assembled hfamily
    (hwithin.nested_described hfamily) [] rfl
  exact ⟨hmarkup, hread⟩

theorem shapes_madeOfBoth :
    Assembly.start.shapes [.struct shallow.desc, .struct deep.desc] =
      .ok ([.single (.struct 1), .single (.struct 2)], bothTaken) := by
  obtain ⟨hmarkup, hread⟩ := read_oneNumber family_shallow_deep
    (List.mem_cons_of_mem _ List.mem_cons_self : shallow ∈ _)
  obtain ⟨hmarkup', hread'⟩ := read_oneNumber family_shallow_deep
    (List.mem_cons_self : deep ∈ _)
  have hfirst : Assembly.start.streamFor shallow.desc = .ok (1, oneTaken) :=
    Assembly.streamFor_of_read rfl (by decide +kernel) hmarkup hread
  have hsecond : oneTaken.streamFor deep.desc = .ok (2, bothTaken) :=
    Assembly.streamFor_of_read (by with_unfolding_all rfl) (by with_unfolding_all rfl) hmarkup'
      hread'
  simp only [Assembly.shapes, Assembly.shape, Assembly.leaf, hfirst, hsecond, Except.map, bind,
    Except.bind]
  rfl

/-- What is built of both, or would be. -/
def bothBuilt (typeName : String) : Descriptor :=
  (madeOfBoth typeName).assembled [] [.single (.struct 1), .single (.struct 2)] bothTaken

/-- Below `B` there is no second structure that a full name could mean. -/
theorem not_captures_beside (referrer target : Declaration)
    (hused : Uses [deep, shallow] (madeOfBoth "B::T") referrer)
    (hrefers : Refers [deep, shallow] referrer target) :
    ¬Captures (Uses [deep, shallow] (madeOfBoth "B::T")) referrer.scope target.parts := by
  obtain ⟨type, ht, rfl, hd⟩ := hrefers
  rintro ⟨_, front, hne, hfront, other, hother, hparts⟩
  have hreferrer : referrer = madeOfBoth "B::T" := by
    rcases hused.cases with rfl | ⟨inner, hi, rfl⟩
    · rfl
    · simp only [List.mem_cons, List.not_mem_nil, or_false] at hi
      rcases hi with rfl | rfl <;> cases hd
  have hscope : (madeOfBoth "B::T").scope = ["B"] := by with_unfolding_all rfl
  rw [hreferrer, hscope] at hfront
  have hfront : front = ["B"] := by
    rcases List.prefix_cons_iff.mp hfront with rfl | ⟨rest, rfl, hrest⟩
    · exact absurd rfl hne
    · rw [List.prefix_nil.mp hrest]
  have hnone : ∀ parts ∈ (madeOfBoth "B::T").parts :: [deep, shallow].map (·.declaration.parts),
      ∀ other ∈ [deep, shallow].map (·.declaration.parts), parts ≠ ["B"] ++ other := by
    decide +kernel
  rw [hfront] at hparts
  refine hnone other.parts ?_ type.declaration.parts ?_ hparts
  · rcases hother.cases with rfl | ⟨inner, hi, rfl⟩
    · exact List.mem_cons_self
    · exact List.mem_cons_of_mem _ (List.mem_map_of_mem hi)
  · exact List.mem_map_of_mem ht

theorem build_beside_resolves :
    Family [deep, shallow] ∧ (madeOfBoth "B::T").Joins [deep, shallow] ∧
      (∀ error, (madeOfBoth "B::T").build ≠ .error (.markup error)) ∧
      (madeOfBoth "B::T").build = .ok (bothBuilt "B::T") ∧
      ∃ document, Markup.Document.read (bothBuilt "B::T").markup = .ok document ∧
        document.resolve? ["B"] "X" =
          some (shallow.declaration.scope, shallow.declaration.described) ∧
        document.resolve? ["B"] "A::B::X" =
          some (deep.declaration.scope, deep.declaration.described) := by
  have hjoins : (madeOfBoth "B::T").Joins [deep, shallow] :=
    joins_madeOfBoth (by decide +kernel) (by with_unfolding_all rfl) (by decide +kernel)
      (by decide +kernel)
  have hbuild : (madeOfBoth "B::T").build = .ok (bothBuilt "B::T") :=
    hjoins.build_eq_assembled family_shallow_deep (fits_madeOfBoth _) not_captures_beside rfl rfl
      shapes_madeOfBoth (by with_unfolding_all rfl : impliedFlags (bothBuilt "B::T") = .ok .empty)
      (by with_unfolding_all rfl)
  obtain ⟨hspares, hbuilt⟩ := build_unless_captured family_shallow_deep hjoins
  obtain ⟨document, hread, _, hresolves⟩ := hbuilt _ hbuild
  have hscope : (madeOfBoth "B::T").scope = ["B"] := by with_unfolding_all rfl
  have hfirst : ((FieldType.struct shallow.desc).markup ["B"]).reference? = some "X" := by
    with_unfolding_all rfl
  have hsecond : ((FieldType.struct deep.desc).markup ["B"]).reference? = some "A::B::X" := by
    with_unfolding_all rfl
  have hfree (type : DeclaredType) (ht : type ∈ [deep, shallow])
      (hd : type.desc ∈ (madeOfBoth "B::T").nestedTypes) :=
    not_captures_beside _ _ .refl ⟨type, ht, rfl, hd⟩
  obtain ⟨name, hname, hp⟩ := hresolves _ .refl ⟨"p", .struct shallow.desc, false⟩
    List.mem_cons_self shallow (List.mem_cons_of_mem _ List.mem_cons_self)
    (List.mem_singleton.mpr rfl)
  obtain ⟨name', hname', hq⟩ := hresolves _ .refl ⟨"q", .struct deep.desc, false⟩
    (List.mem_cons_of_mem _ List.mem_cons_self) deep List.mem_cons_self
    (List.mem_singleton.mpr rfl)
  replace hp := hp.mpr
    (hfree shallow (List.mem_cons_of_mem _ List.mem_cons_self) List.mem_cons_self)
  replace hq := hq.mpr (hfree deep List.mem_cons_self (List.mem_cons_of_mem _ List.mem_cons_self))
  rw [hscope] at hname hname' hp hq
  cases hfirst.symm.trans hname
  cases hsecond.symm.trans hname'
  exact ⟨family_shallow_deep, hjoins, hspares (fits_madeOfBoth _) not_captures_beside, hbuild,
    document, hread, hp, hq⟩

/-- The full name `B::X` is searched for below `A::B` and `A` before it is at the root. -/
theorem build_crossing_fails :
    Family [deep, shallow] ∧ (madeOfBoth "A::B::T").Joins [deep, shallow] ∧
      (madeOfBoth "A::B::T").Fits ∧
      (madeOfBoth "A::B::T").build =
        .error (.markup (.mismatch "A::B::T.p.a" "stream has u8, markup has u32")) := by
  have hjoins : (madeOfBoth "A::B::T").Joins [deep, shallow] :=
    joins_madeOfBoth (by decide +kernel) (by with_unfolding_all rfl) (by decide +kernel)
      (by decide +kernel)
  refine ⟨family_shallow_deep, hjoins, fits_madeOfBoth _, ?_⟩
  obtain ⟨hmarkup, hread, _⟩ := hjoins.described_assembled family_shallow_deep
    (hjoins.nested_described family_shallow_deep) [] shapes_madeOfBoth
  have hcheck : (bothBuilt "A::B::T").checkMarkup =
      .error (.mismatch "A::B::T.p.a" "stream has u8, markup has u32") := by
    have hfails : ((madeOfBoth "A::B::T").document bothTaken).check
        (bothBuilt "A::B::T").typeName (bothBuilt "A::B::T").program =
          .error (.mismatch "A::B::T.p.a" "stream has u8, markup has u32") := by decide +kernel
    rw [Descriptor.checkMarkup, bothBuilt, hread]
    exact hfails
  have hbuild := build_eq_checkMarkup hjoins.name.ne_nil rfl
    (rfl : (madeOfBoth "A::B::T").keyOrder = .ok []) shapes_madeOfBoth hmarkup
    (by with_unfolding_all rfl : impliedFlags (bothBuilt "A::B::T") = .ok .empty)
    (by with_unfolding_all rfl)
  rw [hbuild]
  exact congrArg (fun outcome => (Except.mapError Defect.markup outcome).map
    fun _ => bothBuilt "A::B::T") hcheck

end Declaration

end TopicCodec
