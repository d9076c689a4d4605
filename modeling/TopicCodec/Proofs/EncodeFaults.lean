import TopicCodec.Proofs.Defaults

/-!
# Where encoding stops

The encoder meets the values of a sample one after the other: a structure before its fields, which
come in the order of their instructions, and a collection before its elements. `Program.places`
lists them with their paths. At each of them there is at most one thing to object to: a text or a
sequence that the wire format has no room for, or a structure that stands too deep
(`Place.fits`). A sample is encoded if every place fits, and else the failure names the first that
does not.
-/
namespace TopicCodec

structure Place where
  path : Path
  shape : Shape
  depth : Nat
  value : Value

/-- Whether there is nothing to object to a value, what is inside it apart. -/
def Place.fits (wire : WireFormat) (place : Place) : Bool :=
  match place.shape, place.value with
  | .single (.struct _), _ => decide (place.depth ≤ maxNesting)
  | .single (.string bound), .text text =>
      !(Utf8.encode text).contains 0 && bound.all (Utf8.size text ≤ ·.toNat) &&
        decide (Utf8.size text < wire.maxStringLen.toNat)
  | .sequence _, .sequence _ items => decide (items.length ≤ wire.maxSequenceLen.toNat)
  | _, _ => true

namespace Program

/-! ## The order of the walk -/

/-- Lists the places inside a structure: its stream, the structure and its path. -/
abbrev Inside := UInt32 → Value → Path → List Place

/-- A leaf and the places inside it, with `depth` structures around it. -/
def leafPlaces (inside : Inside) (depth : Nat) (leaf : Leaf) (value : Value) (path : Path) :
    List Place :=
  ⟨path, .single leaf, depth, value⟩ ::
    match leaf with
    | .struct target => inside target value path
    | _ => []

def elementPlaces (inside : Inside) (depth : Nat) (leaf : Leaf) (items : List Value)
    (path : Path) : List Place :=
  items.zipIdx.flatMap fun entry =>
    leafPlaces inside depth leaf entry.1 (path.element entry.2)

def shapePlaces (inside : Inside) (depth : Nat) (shape : Shape) (value : Value) (path : Path) :
    List Place :=
  match shape with
  | .single leaf => leafPlaces inside depth leaf value path
  | .sequence leaf | .array leaf _ =>
      ⟨path, shape, depth, value⟩ ::
        elementPlaces inside depth leaf (value.items?.getD []) path

def fieldPlaces (inside : Inside) (depth : Nat) (value : Value) (path : Path)
    (insn : Instruction) : List Place :=
  match value.field? insn.field with
  | none => []
  | some found => shapePlaces inside depth insn.shape found (path.field insn.field)

/-- The places inside a structure, with `depth` structures around them, itself included. The fuel
bounds the depth of the structure. -/
def structPlaces (program : Program) : (fuel depth : Nat) → Inside
  | 0, _, _, _, _ => []
  | fuel + 1, depth, stream, value, path =>
      match program.stream? stream with
      | none => []
      | some words =>
          (Scan.read stream words).instructions.flatMap
            (fieldPlaces (structPlaces program fuel (depth + 1)) depth value path)

/-- The values of a sample in the order in which they are encoded. -/
def places (program : Program) (sample : Value) : List Place :=
  leafPlaces (program.structPlaces sample.depth 1) 0 (.struct 0) sample .root

end Program

namespace Marshal

open Program

/-! ## Walks over places -/

section Walks

variable {α β : Type} {wire : WireFormat} {places more : List Place}

/-- How a walk over places ends: nothing is objected to, or the first place that does not fit is
blamed. -/
inductive Walked (wire : WireFormat) (places : List Place) : Except CodecError α → Prop
  | written (a : α) : places.find? (!·.fits wire) = none → Walked wire places (.ok a)
  | refused {place : Place} {error : CodecError} : places.find? (!·.fits wire) = some place →
      error.isRecoverable = true → error.field? = some place.path →
      Walked wire places (.error error)

/-- Only the first place that does not fit counts. -/
theorem Walked.congr {outcome : Except CodecError α} (h : Walked wire places outcome)
    (hsame : more.find? (!·.fits wire) = places.find? (!·.fits wire)) :
    Walked wire more outcome := by
  cases h with
  | written a hnone => exact .written a (hsame.trans hnone)
  | refused hfirst hrecoverable hfield =>
      exact .refused (hsame.trans hfirst) hrecoverable hfield

theorem Walked.bind {outcome : Except CodecError α} {next : α → Except CodecError β}
    (h : Walked wire places outcome) (hn : ∀ a, Walked wire more (next a)) :
    Walked wire (places ++ more) (outcome >>= next) := by
  cases h with
  | written a hnone =>
      refine (hn a).congr ?_
      rw [List.find?_append, hnone, Option.none_or]
  | refused hfirst hrecoverable hfield =>
      refine .refused ?_ hrecoverable hfield
      rw [List.find?_append, hfirst, Option.some_or]

theorem Walked.map {outcome : Except CodecError α} {next : α → Except CodecError β}
    (h : Walked wire places outcome) (hn : ∀ a, ∃ b, next a = .ok b) :
    Walked wire places (outcome >>= next) := by
  rw [← List.append_nil places]
  apply h.bind
  intro a
  obtain ⟨b, hb⟩ := hn a
  rw [hb]
  exact .written b rfl

theorem Walked.cons {place : Place} {outcome : Except CodecError α}
    (hfits : place.fits wire = true) (h : Walked wire places outcome) :
    Walked wire (place :: places) outcome :=
  h.congr (by simp [hfits])

theorem Walked.first {place : Place} {error : CodecError} (hfits : place.fits wire = false)
    (hrecoverable : error.isRecoverable = true) (hfield : error.field? = some place.path) :
    Walked wire (place :: places) (.error error : Except CodecError α) :=
  .refused (by simp [hfits]) hrecoverable hfield

theorem emitAll_walked {σ : Type} [Sink σ] {emit : α → Nat → Except CodecError σ}
    {around : α → List Place} {items : List α}
    (h : ∀ item ∈ items, ∀ position, Walked wire (around item) (emit item position))
    (position : Nat) : Walked wire (items.flatMap around) (emitAll emit items position) := by
  induction items generalizing position with
  | nil => exact .written _ rfl
  | cons first rest ih =>
      rw [List.flatMap_cons]
      apply (h first List.mem_cons_self position).bind
      intro chunk
      have hrest := ih (fun item hi => h item (List.mem_cons_of_mem _ hi))
        (position + Sink.size chunk)
      exact hrest.map fun tail => ⟨_, rfl⟩

end Walks

/-! ## Encoding samples -/

variable {σ : Type} [Sink σ] {walk : Walk} {enter : EncodeNested σ} {inside : Inside}
  {fuel depth : Nat}

theorem encodeText_walked (wire : WireFormat) (bound : Option UInt32) (text : String)
    (path : Path) (position depth : Nat) :
    Walked wire [⟨path, .single (.string bound), depth, .text text⟩]
      (encodeText (σ := σ) wire bound text path position) := by
  unfold encodeText
  dsimp only
  split_ifs with hzero hbound hlength
  · exact .first (by simp only [Place.fits, hzero, Bool.not_true, Bool.false_and]) rfl rfl
  · refine .first ?_ rfl rfl
    cases bound with
    | none => cases hbound
    | some bound => simp_all [Place.fits]
  · exact .first (by simp [Place.fits, hlength]) rfl rfl
  · refine .cons ?_ (.written _ rfl)
    cases bound with
    | none => simp_all [Place.fits]
    | some bound => simp_all [Place.fits]

/-- Structures no deeper than the fuel are walked over, with `depth` structures around them. -/
def WalksNested (walk : Walk) (fuel depth : Nat) (enter : EncodeNested σ) (inside : Inside) :
    Prop :=
  ∀ target words value path position, walk.desc.program.stream? target = some words →
    Shaped walk.desc.program (.single (.struct target)) value → value.depth ≤ fuel →
    Walked walk.wire (leafPlaces inside depth (.struct target) value path)
      (enter target words value path position)

theorem encodeLeaf_walked (he : WalksNested walk fuel depth enter inside) {leaf : Leaf}
    {value : Value} (hs : Shaped walk.desc.program (.single leaf) value)
    (hdepth : value.depth ≤ fuel) (stream : UInt32) (pc : Nat) (path : Path) (position : Nat) :
    Walked walk.wire (leafPlaces inside depth leaf value path)
      (encodeLeaf walk enter stream pc leaf value path position) := by
  cases id hs with
  | number kind bits =>
      rw [(LeafWritten.number kind bits).encodeLeaf_eq]
      exact .cons rfl (.written _ rfl)
  | bool flag => exact .cons rfl (.written _ rfl)
  | text bound text => exact encodeText_walked walk.wire bound text path position depth
  | @struct target words fields hw _ _ =>
      simp only [encodeLeaf, Walk.nested, hw]
      exact he target words _ path position hw hs hdepth

theorem encodeElements_walked (he : WalksNested walk fuel depth enter inside) {leaf : Leaf}
    {items : List Value} (hs : ∀ item ∈ items, Shaped walk.desc.program (.single leaf) item)
    (hdepth : ∀ item ∈ items, item.depth ≤ fuel) (stream : UInt32) (pc : Nat) (path : Path)
    (position : Nat) :
    Walked walk.wire (elementPlaces inside depth leaf items path)
      (encodeElements walk enter stream pc leaf items path position) := by
  unfold encodeElements
  apply emitAll_walked
  intro entry hm position
  obtain ⟨item, i⟩ := entry
  have hitem := List.fst_mem_of_mem_zipIdx hm
  have hpresent : encodeElement walk enter stream pc leaf path (item, i) position =
      encodeLeaf walk enter stream pc leaf item (path.element i) position := by
    cases hs item hitem <;> rfl
  rw [hpresent]
  exact encodeLeaf_walked he (hs item hitem) (hdepth item hitem) stream pc _ position

theorem encodeShape_walked (he : WalksNested walk fuel depth enter inside) {shape : Shape}
    {value : Value} (hs : Shaped walk.desc.program shape value) (hdepth : value.depth ≤ fuel)
    (stream : UInt32) (pc : Nat) (path : Path) (position : Nat) :
    Walked walk.wire (shapePlaces inside depth shape value path)
      (encodeShape walk enter stream pc shape value path position) := by
  cases shape with
  | single leaf => exact encodeLeaf_walked he hs hdepth stream pc path position
  | sequence leaf =>
      cases hs with
      | @sequence _ items hi _ =>
          have hitems := Value.depthItems_le.mp hdepth
          simp only [encodeShape, shapePlaces, Value.items?, Option.getD_some]
          split_ifs with hlong
          · exact .first (by simp [Place.fits, hlong]) rfl rfl
          · refine .cons (by simpa [Place.fits] using hlong) ?_
            exact (encodeElements_walked he hi hitems stream pc path _).map fun body => ⟨_, rfl⟩
  | array leaf count =>
      cases hs with
      | @array _ _ items hi hlength =>
          have hitems := Value.depthItems_le.mp hdepth
          have hflat := Value.flattenItems_of_not_isArray fun item hm =>
            (hi item hm).isArray_eq_false
          simp only [encodeShape, hflat, hlength, ne_eq, not_true_eq_false, if_false]
          exact .cons rfl (encodeElements_walked he hi hitems stream pc path position)

theorem encodeStruct_walked (hreadable : walk.desc.program.Readable)
    (hd : walk.desc.program.fieldsDistinct = true) {allowed : Nat}
    (hsum : allowed + depth = maxNesting + 1) :
    WalksNested walk fuel depth (encodeStruct (σ := σ) walk allowed)
      (walk.desc.program.structPlaces fuel (depth + 1)) := by
  induction fuel generalizing allowed depth with
  | zero =>
      intro target words value path position _ hs hdepth
      cases hs with
      | struct _ _ _ => simp [Value.depth] at hdepth
  | succ fuel ih =>
      intro target words value path position hw hs hdepth
      cases allowed with
      | zero => exact .first (by simp [Place.fits]; omega) rfl rfl
      | succ allowed =>
          refine .cons (by simp [Place.fits]; omega) ?_
          obtain ⟨insns, hinsns, _⟩ := hreadable.instructions hw
          obtain ⟨_, pc, hending⟩ := Scan.read_of_instructions hinsns
          simp only [encodeStruct, structPlaces, hw, hending]
          refine Walked.map (emitAll_walked ?_ position) fun chunk => ⟨chunk, rfl⟩
          intro insn hi position
          cases id hs with
          | @struct _ _ fields _ ha _ =>
              obtain ⟨found, hfound, hshape⟩ := hs.exists_field hd hw hi
              have hfield : (Value.struct fields).field? insn.field = some found := hfound
              have hinner := (Value.depth_struct_le ha.ascending).mp hdepth _ _ hfound
              simp only [encodeField, fieldPlaces, hfield]
              exact encodeShape_walked (ih (by omega)) hshape hinner target insn.pc _ position

end Marshal

/-! ## Where the paths lead -/

theorem Value.get?_append (front back : List PathStep) (value : Value) :
    value.get? (front ++ back) = (value.get? front).bind (Value.get? back) := by
  induction front generalizing value with
  | nil => rfl
  | cons step front ih =>
      simp only [List.cons_append, Value.get?, Option.bind_assoc]
      exact Option.bind_congr fun inner _ => ih inner

theorem Value.get?_push {root value inner : Value} {path : Path} {step : PathStep}
    (h : root.get? path.steps = some value) (hstep : value.step? step = some inner) :
    root.get? (path.push step).steps = some inner := by
  simp [Path.push, Value.get?_append, h, Value.get?, hstep]

namespace Program

variable {program : Program} {root : Value} {inside : Inside} {depth : Nat}

/-- The paths of places lead to their values. -/
def Lead (root : Value) (places : List Place) : Prop :=
  ∀ place ∈ places, root.get? place.path.steps = some place.value

/-- The places inside structures have paths that lead to their values. -/
def LeadInside (program : Program) (root : Value) (inside : Inside) : Prop :=
  ∀ target value path, Shaped program (.single (.struct target)) value →
    root.get? path.steps = some value → Lead root (inside target value path)

theorem leafPlaces_lead (hinside : LeadInside program root inside) {leaf : Leaf} {value : Value}
    {path : Path} (hs : Shaped program (.single leaf) value)
    (h : root.get? path.steps = some value) :
    Lead root (leafPlaces inside depth leaf value path) := by
  intro place hm
  rcases List.mem_cons.mp hm with rfl | hm
  · exact h
  · cases leaf with
    | struct target => exact hinside target value path hs h place hm
    | _ => cases hm

theorem elementPlaces_lead (hinside : LeadInside program root inside) {leaf : Leaf}
    {value : Value} {items : List Value} {path : Path} (hi : value.items? = some items)
    (hs : ∀ item ∈ items, Shaped program (.single leaf) item)
    (h : root.get? path.steps = some value) :
    Lead root (elementPlaces inside depth leaf items path) := by
  intro place hm
  obtain ⟨⟨item, i⟩, hentry, hm⟩ := List.mem_flatMap.mp hm
  have hitem : items[i]? = some item := List.mem_zipIdx_iff_getElem?.mp hentry
  have hshape := hs item (List.mem_of_getElem? hitem)
  have hpresent : item.present? = some item := by cases hshape <;> rfl
  refine leafPlaces_lead hinside hshape (Value.get?_push h ?_) place hm
  simp [Value.step?, Value.element?, hi, hitem, hpresent]

theorem shapePlaces_lead (hinside : LeadInside program root inside) {shape : Shape}
    {value : Value} {path : Path} (hs : Shaped program shape value)
    (h : root.get? path.steps = some value) :
    Lead root (shapePlaces inside depth shape value path) := by
  cases shape with
  | single leaf => exact leafPlaces_lead hinside hs h
  | sequence leaf =>
      cases hs with
      | sequence hi _ => exact List.forall_mem_cons.mpr ⟨h, elementPlaces_lead hinside rfl hi h⟩
  | array leaf count =>
      cases hs with
      | array hi _ => exact List.forall_mem_cons.mpr ⟨h, elementPlaces_lead hinside rfl hi h⟩

theorem structPlaces_lead (hd : program.fieldsDistinct = true) (fuel depth : Nat) :
    LeadInside program root (program.structPlaces fuel depth) := by
  induction fuel generalizing depth with
  | zero => intro _ _ _ _ _ place hm; cases hm
  | succ fuel ih =>
      intro target value path hs h place hm
      cases id hs with
      | @struct _ words fields hw _ _ =>
          simp only [structPlaces, hw] at hm
          obtain ⟨insn, hi, hm⟩ := List.mem_flatMap.mp hm
          obtain ⟨found, hfound, hshape⟩ := hs.exists_field hd hw hi
          have hfield : (Value.struct fields).field? insn.field = some found := hfound
          simp only [fieldPlaces, hfield] at hm
          have hlead : root.get? (path.field insn.field).steps = some found :=
            Value.get?_push h hfield
          exact shapePlaces_lead (ih (depth + 1)) hshape hlead place hm

theorem places_lead (hd : program.fieldsDistinct = true) {sample : Value}
    (hs : Shaped program (.single (.struct 0)) sample) : Lead sample (program.places sample) :=
  leafPlaces_lead (structPlaces_lead hd sample.depth 1) hs rfl

end Program

namespace WireFormat

open Marshal

theorem serialize_walked {desc : Descriptor} {sample : Value} (hv : desc.validate = .ok ())
    (hd : desc.program.fieldsDistinct = true)
    (hs : Shaped desc.program (.single (.struct 0)) sample) (wire : WireFormat) :
    Walked wire (desc.program.places sample) (wire.serialize desc sample) := by
  obtain ⟨_, hvalid⟩ := Descriptor.valid_of_validate hv
  obtain ⟨_, hreadable, _⟩ := Program.validate_eq_ok_iff.mp hvalid.program
  cases id hs with
  | @struct _ words fields hw _ _ =>
      have hroot : Walk.root ⟨desc, wire⟩ = .ok words := Walk.root_eq_ok.mpr hw
      have hnested : WalksNested (σ := List UInt8) ⟨desc, wire⟩ (Value.struct fields).depth 0
          (encodeStruct ⟨desc, wire⟩ (maxNesting + 1))
          (desc.program.structPlaces (Value.struct fields).depth 1) :=
        encodeStruct_walked hreadable hd rfl
      simp only [serialize, encode, hroot]
      exact hnested 0 words _ .root 0 hw hs le_rfl

/-- Under a valid descriptor none of whose streams addresses a field twice, a sample is encoded
exactly if every place in it fits. If not, the failure is one of the data, and its path leads to
the first place that does not fit, a structure or a collection before what is inside it. -/
theorem serialize_ok_iff_places_fit {desc : Descriptor} {sample : Value}
    (hv : desc.validate = .ok ()) (hd : desc.program.fieldsDistinct = true)
    (hs : Shaped desc.program (.single (.struct 0)) sample) (wire : WireFormat) :
    ((∃ bytes, wire.serialize desc sample = .ok bytes) ↔
      ∀ place ∈ desc.program.places sample, place.fits wire = true) ∧
    ∀ error, wire.serialize desc sample = .error error →
      error.isRecoverable = true ∧
      ∃ place, (desc.program.places sample).find? (!·.fits wire) = some place ∧
        error.field? = some place.path ∧ sample.get? place.path.steps = some place.value := by
  have hlead := Program.places_lead hd hs
  have hwalked := serialize_walked hv hd hs wire
  generalize wire.serialize desc sample = outcome at hwalked
  cases hwalked with
  | written bytes hnone =>
      refine ⟨?_, by simp⟩
      simpa using hnone
  | @refused place error hfirst hrecoverable hfield =>
      have hm := List.mem_of_find?_eq_some hfirst
      have hunfit := List.find?_some hfirst
      refine ⟨⟨by simp, fun hfits => ?_⟩, ?_⟩
      · simp [hfits place hm] at hunfit
      · rintro _ ⟨⟩
        exact ⟨hrecoverable, place, hfirst, hfield, hlead place hm⟩

/-- Letters with lines of any length, and a text of at most two bytes after them. -/
def letters : Descriptor where
  typeName := "Letters"
  flags := .variableSize
  program := ⟨[
    Stream.assemble [(0, .sequence (.struct 1), false), (1, .single (.string (some 2)), false)],
    Stream.assemble [(3, .sequence (.string none), false)]]⟩

def letter (lines : List String) : Value :=
  .struct [(3, .sequence (.leaf letters.program (.string none)) (lines.map .text))]

/-- With no room for four bytes, the last line of the second letter is too long; the text after the
letters would be, too. -/
def lettersSample : Value :=
  .struct [(0, .sequence (.leaf letters.program (.struct 1))
      [letter ["ab"], letter ["c", "def"]]),
    (1, .text "ghi")]

theorem lettersSample_reachable : Reachable letters lettersSample :=
  ⟨.struct [(0, .sequence (.leaf letters.program (.struct 1)) []), (1, .text "")],
    [.resize [.field 0] 2, .resize [.field 0, .element 0, .field 3] 1,
      .resize [.field 0, .element 1, .field 3] 2,
      .store [.field 0, .element 0, .field 3, .element 0] (.text "ab"),
      .store [.field 0, .element 1, .field 3, .element 0] (.text "c"),
      .store [.field 0, .element 1, .field 3, .element 1] (.text "def"),
      .store [.field 1] (.text "ghi")],
    by with_unfolding_all rfl, by with_unfolding_all rfl⟩

theorem serialize_lettersSample :
    letters.validate = .ok () ∧ letters.program.fieldsDistinct = true ∧
      Shaped letters.program (.single (.struct 0)) lettersSample ∧
      ∃ place ∈ letters.program.places lettersSample,
        place.path = ⟨[.field 0, .element 1, .field 3, .element 1]⟩ ∧
        place.fits { maxStringLen := 3 } = false ∧
        lettersSample.get? place.path.steps = some place.value := by
  have hv : letters.validate = .ok () := by with_unfolding_all rfl
  have hd : letters.program.fieldsDistinct = true := by with_unfolding_all rfl
  have hs := lettersSample_reachable.shaped
  have herror : serialize { maxStringLen := 3 } letters lettersSample =
      .error (.malformedLength ⟨[.field 0, .element 1, .field 3, .element 1]⟩ 26 4
        .stringTooLong) := by
    with_unfolding_all rfl
  obtain ⟨_, place, hfirst, hfield, hlead⟩ :=
    (serialize_ok_iff_places_fit hv hd hs { maxStringLen := 3 }).2 _ herror
  refine ⟨hv, hd, hs, place, List.mem_of_find?_eq_some hfirst, (Option.some.inj hfield).symm, ?_,
    hlead⟩
  simpa using List.find?_some hfirst

end WireFormat
end TopicCodec
