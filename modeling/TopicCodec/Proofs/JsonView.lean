import TopicCodec.View
import TopicCodec.Proofs.Canonical
import TopicCodec.Proofs.MarkupText
import TopicCodec.Proofs.Nesting
import TopicCodec.Proofs.Widening

/-!
# Samples survive as JSON

Reading the JSON form of a sample gives the sample back. Objects bring this about only if the
names at each level tell the fields apart (`View.NamesDistinct`), and numbers only if they are
finite (`Value.isFinite`), since there is no JSON form for others; a `binary32` number is written
as a `binary64` one, which is exact. Reading looks through the rows of an array, so it does not
matter if the description declares rows that the array does not have. But it must be possible to
count the elements of a row (`View.RowsFit`): where it is not, writing is cut off.

What is read is read over a given value, of which only the shape matters: `ReadsBack` says that of
one JSON value. The proof follows the writer, by induction on the height of the sample.
-/
namespace TopicCodec

open Ieee

/-! ## Finite samples -/

/-- A number with a JSON form. -/
def Scalar.isFinite : Scalar → Bool
  | .number .f32 bits => binary32.isFinite (binary32.magnitude bits.toNat)
  | .number .f64 bits => binary64.isFinite (binary64.magnitude bits.toNat)
  | _ => true

namespace Value

mutual

/-- Every number in a value has a JSON form. -/
def isFinite : Value → Bool
  | scalar content => content.isFinite
  | struct fields => isFiniteFields fields
  | array items | sequence _ items => isFiniteItems items
  | text _ | absent => true

def isFiniteFields : List (UInt32 × Value) → Bool
  | [] => true
  | (_, value) :: rest => isFinite value && isFiniteFields rest

def isFiniteItems : List Value → Bool
  | [] => true
  | item :: rest => isFinite item && isFiniteItems rest

end

theorem isFinite_of_mem {items : List Value} (h : isFiniteItems items = true) {item : Value}
    (hm : item ∈ items) : item.isFinite = true := by
  induction items with
  | nil => cases hm
  | cons first rest ih =>
      rw [isFiniteItems, Bool.and_eq_true] at h
      rcases List.mem_cons.mp hm with rfl | hm
      · exact h.1
      · exact ih h.2 hm

theorem isFinite_of_lookup {fields : List (UInt32 × Value)} (h : isFiniteFields fields = true)
    {index : UInt32} {found : Value} (hl : fields.lookup index = some found) :
    found.isFinite = true := by
  induction fields with
  | nil => cases hl
  | cons field rest ih =>
      rw [isFiniteFields, Bool.and_eq_true] at h
      rw [lookup_cons] at hl
      split_ifs at hl
      · cases hl
        exact h.1
      · exact ih h.2 hl

end Value

namespace View

/-! ## Heights -/

theorem height_pos (value : Value) : 0 < height value := by
  cases value <;> simp [height]

theorem height_le_of_mem {items : List Value} {item : Value} (hm : item ∈ items) :
    height item ≤ heightItems items := by
  induction items with
  | nil => cases hm
  | cons first rest ih =>
      rw [heightItems]
      rcases List.mem_cons.mp hm with rfl | hm
      · exact le_max_left _ _
      · exact (ih hm).trans (le_max_right _ _)

theorem height_le_of_lookup {fields : List (UInt32 × Value)} {index : UInt32} {found : Value}
    (hl : fields.lookup index = some found) : height found ≤ heightFields fields := by
  induction fields with
  | nil => cases hl
  | cons field rest ih =>
      rw [heightFields]
      rw [Value.lookup_cons] at hl
      split_ifs at hl
      · cases hl
        exact le_max_left _ _
      · exact (ih hl).trans (le_max_right _ _)

theorem jsonHeight_le_of_lookup {members : List (String × Json)} {name : String} {json : Json}
    (hl : members.lookup name = some json) : jsonHeight json ≤ jsonHeightMembers members := by
  induction members with
  | nil => cases hl
  | cons member rest ih =>
      rw [jsonHeightMembers]
      rw [List.lookup_cons] at hl
      split at hl
      · cases hl
        exact le_max_left _ _
      · exact (ih hl).trans (le_max_right _ _)

mutual

theorem jsonHeight_le_of_mem_flatten (json : Json) {element : Json} (hm : element ∈ flatten json) :
    jsonHeight element ≤ jsonHeight json := by
  cases json with
  | array items => exact (jsonHeight_le_of_mem_flattenItems items hm).trans (Nat.le_succ _)
  | _ =>
      cases List.mem_singleton.mp hm
      exact le_rfl

theorem jsonHeight_le_of_mem_flattenItems (items : List Json) {element : Json}
    (hm : element ∈ flattenItems items) : jsonHeight element ≤ jsonHeightItems items := by
  cases items with
  | nil => cases hm
  | cons item rest =>
      rw [jsonHeightItems]
      rcases List.mem_append.mp hm with hm | hm
      · exact (jsonHeight_le_of_mem_flatten item hm).trans (le_max_left _ _)
      · exact (jsonHeight_le_of_mem_flattenItems rest hm).trans (le_max_right _ _)

end

/-! ## Rows -/

theorem jsonHeight_le_of_rows {rows jsons : List Json} (hrows : flattenItems rows = jsons)
    {fuel : Nat} (hfuel : jsonHeight (.array rows) ≤ fuel) :
    ∀ json ∈ jsons, jsonHeight json ≤ fuel := by
  intro json hm
  have hinside : json ∈ flatten (.array rows) := by rwa [flatten, hrows]
  exact (jsonHeight_le_of_mem_flatten _ hinside).trans hfuel

def isArray : Json → Bool
  | .array _ => true
  | _ => false

theorem flatten_of_not_isArray {json : Json} (h : isArray json = false) :
    flatten json = [json] := by
  cases json <;> first | rfl | cases h

theorem flattenItems_eq (items : List Json) : flattenItems items = items.flatMap flatten := by
  induction items with
  | nil => rfl
  | cons item rest ih => rw [flattenItems, ih, List.flatMap_cons]

theorem flattenItems_of_not_isArray {items : List Json} (h : ∀ item ∈ items, isArray item = false) :
    flattenItems items = items := by
  rw [flattenItems_eq]
  calc items.flatMap flatten = items.flatMap fun item => [item] :=
        List.flatMap_congr fun item hm => flatten_of_not_isArray (h item hm)
    _ = items := List.flatMap_singleton' items

theorem flatten_chunks {α : Type} {size : Nat} (hsize : 0 < size) (fuel : Nat) (list : List α)
    (hfuel : list.length ≤ fuel) : (chunks size fuel list).flatten = list := by
  induction fuel generalizing list with
  | zero => exact (List.eq_nil_of_length_eq_zero (Nat.le_zero.mp hfuel)).symm
  | succ fuel ih =>
      cases list with
      | nil => rfl
      | cons first rest =>
          have hrest : ((first :: rest).drop size).length ≤ fuel := by
            rw [List.length_drop]
            omega
          rw [chunks, List.isEmpty_cons, if_neg Bool.false_ne_true, List.flatten_cons, ih _ hrest,
            List.take_append_drop]

theorem countable_of_le {dims : List UInt32} {few many row : Nat} (hle : few ≤ many)
    (h : dims.foldlM (fun size dim => Abort.multiply size dim.toNat) many = .ok row) :
    ∃ row, dims.foldlM (fun size dim => Abort.multiply size dim.toNat) few = .ok row := by
  induction dims generalizing few many with
  | nil => exact ⟨few, rfl⟩
  | cons dim rest ih =>
      obtain ⟨more, hmore, h⟩ := bind_eq_ok.mp h
      obtain ⟨hlt, rfl⟩ := Abort.multiply_eq_ok.mp hmore
      have hmul := Nat.mul_le_mul_right dim.toNat hle
      obtain ⟨row, hrow⟩ := ih hmul h
      exact ⟨row, bind_eq_ok.mpr ⟨_, Abort.multiply_eq_ok.mpr ⟨by omega, rfl⟩, hrow⟩⟩

theorem eq_zero_of_foldlM {dims : List UInt32} {row : Nat}
    (h : dims.foldlM (fun size dim => Abort.multiply size dim.toNat) 0 = .ok row) : row = 0 := by
  induction dims with
  | nil => exact (Except.ok.inj h).symm
  | cons dim rest ih =>
      obtain ⟨none, hnone, h⟩ := bind_eq_ok.mp h
      obtain ⟨_, rfl⟩ := Abort.multiply_eq_ok.mp hnone
      rw [Nat.zero_mul] at h
      exact ih h

theorem exists_rowSize_of_cons {dim : UInt32} {dims : List UInt32} {row : Nat}
    (h : rowSize (dim :: dims) = .ok row) (hrow : row ≠ 0) : ∃ row, rowSize dims = .ok row := by
  obtain ⟨first, hfirst, h⟩ := bind_eq_ok.mp h
  obtain ⟨_, rfl⟩ := Abort.multiply_eq_ok.mp hfirst
  rw [Nat.one_mul] at h
  have hpos : 1 ≤ dim.toNat := by
    rcases Nat.eq_zero_or_pos dim.toNat with hzero | hpos
    · rw [hzero] at h
      exact absurd (eq_zero_of_foldlM h) hrow
    · exact hpos
  exact countable_of_le hpos h

theorem mapM_eq_ok {α β ε : Type} {f : α → Except ε β} {g : α → β} {items : List α}
    (h : ∀ item ∈ items, f item = .ok (g item)) : items.mapM f = .ok (items.map g) := by
  induction items with
  | nil => rfl
  | cons item rest ih =>
      rw [List.mapM_cons, h item List.mem_cons_self,
        ih fun item hm => h item (List.mem_cons_of_mem _ hm)]
      rfl

/-- Rows of any dimensions that can be counted have the elements that they were made of. -/
theorem flatten_nest {dims : List UInt32} {row : Nat} (hrow : rowSize dims.tail = .ok row)
    {flat : List Json} (h : ∀ json ∈ flat, isArray json = false) :
    ∃ rows, nest dims flat = .ok (.array rows) ∧ flattenItems rows = flat := by
  induction dims generalizing flat row with
  | nil => exact ⟨flat, rfl, flattenItems_of_not_isArray h⟩
  | cons dim inner ih =>
      rw [List.tail_cons] at hrow
      simp only [nest, hrow, bind, Except.bind]
      split_ifs with hflat
      · exact ⟨flat, rfl, flattenItems_of_not_isArray h⟩
      · rw [Bool.or_eq_true, decide_eq_true_eq, not_or] at hflat
        obtain ⟨row', hrow'⟩ : ∃ row, rowSize inner.tail = .ok row := by
          cases inner with
          | nil => exact absurd rfl hflat.1
          | cons dim inner => exact exists_rowSize_of_cons hrow hflat.2
        have hchunks := flatten_chunks (Nat.pos_of_ne_zero hflat.2) flat.length flat le_rfl
        have hpart : ∀ chunk ∈ chunks row flat.length flat, ∃ rows,
            nest inner chunk = .ok (.array rows) ∧ flattenItems rows = chunk :=
          fun chunk hchunk => ih hrow' fun json hm =>
            h json (hchunks ▸ List.mem_flatten_of_mem hchunk hm)
        choose! rows hnest hrows using hpart
        rw [mapM_eq_ok hnest]
        refine ⟨_, rfl, ?_⟩
        rw [flattenItems_eq, List.flatMap_map]
        conv_rhs => rw [← hchunks, ← List.flatMap_id]
        exact List.flatMap_congr hrows

theorem foldlM_multiply_eq_error {dims : List UInt32} {start : Nat} {abort : Abort}
    (h : dims.foldlM (fun size dim => Abort.multiply size dim.toNat) start = .error abort) :
    abort = .product := by
  induction dims generalizing start with
  | nil => cases h
  | cons dim rest ih =>
      rw [List.foldlM_cons, Abort.multiply] at h
      split_ifs at h
      · exact ih h
      · cases h
        rfl

theorem nest_eq_error {dims : List UInt32} (h : ∀ row, rowSize dims.tail ≠ .ok row)
    (flat : List Json) : nest dims flat = .error .product := by
  cases dims with
  | nil => exact absurd rfl (h 1)
  | cons dim inner =>
      rw [List.tail_cons] at h
      cases hrow : rowSize inner with
      | ok row => exact absurd hrow (h row)
      | error abort =>
          cases foldlM_multiply_eq_error hrow
          rw [nest, hrow]
          rfl

/-! ## Scalars -/

theorem ofInt?_of_bits {kind : ScalarKind} (hfloat : kind.isFloat = false) (bits : kind.Bits) :
    kind.ofInt? (if kind.isSigned then bits.toInt else (bits.toNat : Int)) = some bits := by
  unfold ScalarKind.ofInt?
  cases hsigned : kind.isSigned <;> simp [hfloat]

theorem floatToJson_of_finite {bits : BitVec 64}
    (h : binary64.isFinite (binary64.magnitude bits.toNat) = true) :
    floatToJson bits = .float bits :=
  if_pos h

/-- A finite number is read back, over any number of its kind. -/
theorem scalarFromJson?_number {kind : ScalarKind} (old bits : kind.Bits)
    (hfinite : (Scalar.number kind bits).isFinite = true) :
    scalarFromJson? (.number kind old) (scalarToJson (.number kind bits)) =
      some (.number kind bits) := by
  cases kind with
  | f32 =>
      obtain ⟨hwide, hlt, hback⟩ := Format.binary32_extends.convert_convert bits.isLt hfinite
      have hbits : (BitVec.ofNat 64 (binary32.convert binary64 bits.toNat)).toNat =
          binary32.convert binary64 bits.toNat := Nat.mod_eq_of_lt hlt
      have hjson : scalarToJson (.number .f32 bits) =
          .float (BitVec.ofNat 64 (binary32.convert binary64 bits.toNat)) :=
        floatToJson_of_finite (by rw [hbits, hwide])
      simp only [hjson, scalarFromJson?, toFloat?, Option.map_some, hbits, hback,
        BitVec.ofNat_toNat, BitVec.setWidth_eq]
  | f64 =>
      have hjson : scalarToJson (.number .f64 bits) = .float bits := floatToJson_of_finite hfinite
      rw [hjson]
      rfl
  | _ => exact congrArg (Option.map (Scalar.number _)) (ofInt?_of_bits rfl bits)

/-! ## Names -/

/-- The type of the described member at a position. -/
def memberType? (level : Option Level) (position : Nat) : Option Markup.MemberType :=
  (member? level position).map (·.type)

/-- The structures that objects stand for: streams with what describes them, from the root on. -/
inductive Reaches (view : View) : UInt32 → Option Level → Prop
  | root : Reaches view 0 view.rootLevel?
  | nested {stream target : UInt32} {level : Option Level} {words : Stream} {insn : Instruction}
      {position : Nat} : Reaches view stream level →
      view.desc.program.stream? stream = some words →
      (insn, position) ∈ (Scan.read stream words).instructions.zipIdx →
      insn.shape.leaf = .struct target →
      Reaches view target (view.nestedLevel? level (memberType? level position))

/-- Name of the field that an instruction with its position describes. -/
def entryName (level : Option Level) (entry : Instruction × Nat) : String :=
  fieldName level entry.2 entry.1

/-- No two fields of an object have one name. -/
def NamesDistinct (view : View) : Prop :=
  ∀ stream level words, view.Reaches stream level →
    view.desc.program.stream? stream = some words →
    ((Scan.read stream words).instructions.mapIdx (fieldName level)).Nodup

theorem mapIdx_fieldName (level : Option Level) (insns : List Instruction) :
    insns.mapIdx (fieldName level) = insns.zipIdx.map (entryName level) :=
  List.mapIdx_eq_zipIdx_map

theorem lookup_insertMember (name : String) (json : Json) (members : List (String × Json))
    (other : String) :
    (Json.insertMember name json members).lookup other =
      if other = name then some json else members.lookup other := by
  induction members with
  | nil => grind [Json.insertMember]
  | cons member rest ih => grind [Json.insertMember]

theorem instructions_eq {view : View} (hreadable : view.desc.program.Readable) {stream : UInt32}
    {words : Stream} (hw : view.desc.program.stream? stream = some words) :
    view.instructions stream = .ok (Scan.read stream words).instructions := by
  obtain ⟨insns, hinsns, _⟩ := hreadable.instructions hw
  obtain ⟨hread, _⟩ := Scan.read_of_instructions hinsns
  simp only [instructions, hw, hinsns, hread]
  rfl

/-! ## Rows that can be counted -/

/-- The elements in the rows of every array can be counted, as the description declares them. -/
def RowsFit (view : View) : Prop :=
  ∀ stream level words insn position leaf count, view.Reaches stream level →
    view.desc.program.stream? stream = some words →
    (insn, position) ∈ (Scan.read stream words).instructions.zipIdx →
    insn.shape = .array leaf count →
    ∃ row, rowSize (dimensions (memberType? level position)).tail = .ok row

/-- Writing has a result, and it is as said; or it was cut off, since not all rows can be
counted. -/
def Written {α : Type} (view : View) (good : α → Prop) (outcome : Except ViewError α) : Prop :=
  (∃ result, outcome = .ok result ∧ good result) ∨
    ¬view.RowsFit ∧ outcome = .error (.aborted .product)

namespace Written

variable {view : View} {α β : Type} {good : α → Prop} {good' : β → Prop}

theorem ok {result : α} (h : good result) : Written view good (.ok result) :=
  .inl ⟨result, rfl, h⟩

theorem bind {outcome : Except ViewError α} {next : α → Except ViewError β}
    (h : Written view good outcome)
    (h' : ∀ result, good result → Written view good' (next result)) :
    Written view good' (outcome >>= next) := by
  rcases h with ⟨result, rfl, hgood⟩ | ⟨hrows, rfl⟩
  · exact h' result hgood
  · exact .inr ⟨hrows, rfl⟩

theorem map {outcome : Except ViewError α} {f : α → β} (h : Written view good outcome)
    (h' : ∀ result, good result → good' (f result)) : Written view good' (outcome.map f) := by
  rcases h with ⟨result, rfl, hgood⟩ | ⟨hrows, rfl⟩
  · exact .ok (h' result hgood)
  · exact .inr ⟨hrows, rfl⟩

theorem imp {outcome : Except ViewError α} {better : α → Prop} (h : Written view good outcome)
    (h' : ∀ result, good result → better result) : Written view better outcome := by
  rcases h with ⟨result, rfl, hgood⟩ | hcut
  · exact .ok (h' result hgood)
  · exact .inr hcut

end Written

/-! ## Leaves and collections -/

variable {view : View} {enter : WriteNested} {level : Option Level}
  {type : Option Markup.MemberType} {limit : Nat}

/-- A JSON value that is read as the given value, over any value of the shape. -/
def ReadsBack (view : View) (level : Option Level) (type : Option Markup.MemberType)
    (shape : Shape) (json : Json) (value : Value) : Prop :=
  ∀ fuel slot path, jsonHeight json ≤ fuel → Shaped view.desc.program shape slot →
    shapeFromJson view (structFromJson view fuel) level type shape json slot path = .ok value

/-- Structures up to a height are written as objects that they are read back from. -/
def WritesBack (view : View) (limit : Nat) (enter : WriteNested) : Prop :=
  ∀ stream level value, view.Reaches stream level →
    Shaped view.desc.program (.single (.struct stream)) value → value.isFinite = true →
    height value ≤ limit →
    view.Written (fun json => isArray json = false ∧
      ∀ fuel slot path, jsonHeight json ≤ fuel →
        Shaped view.desc.program (.single (.struct stream)) slot →
        structFromJson view fuel stream json slot level path = .ok value)
      (enter stream value level)

/-- The structures inside a leaf of a member are reached. -/
def ReachesLeaf (view : View) (level : Option Level) (type : Option Markup.MemberType)
    (leaf : Leaf) : Prop :=
  ∀ target, leaf = .struct target → view.Reaches target (view.nestedLevel? level type)

theorem leafToJson_readsBack (he : WritesBack view limit enter) {leaf : Leaf} {value : Value}
    (hreach : ReachesLeaf view level type leaf)
    (hs : Shaped view.desc.program (.single leaf) value) (hfinite : value.isFinite = true)
    (hheight : height value ≤ limit) :
    view.Written (fun json => isArray json = false ∧
      ReadsBack view level type (.single leaf) json value)
      (leafToJson view enter level type leaf value) := by
  cases id hs with
  | number kind bits =>
      have hjson : isArray (scalarToJson (.number kind bits)) = false := by
        cases kind <;> simp only [scalarToJson, floatToJson] <;> split_ifs <;> rfl
      refine .ok ⟨hjson, fun fuel slot path _ hslot => ?_⟩
      cases hslot with
      | number _ old =>
          simp only [shapeFromJson, leafFromJson, scalarFromJson?_number old bits hfinite]
  | bool flag =>
      refine .ok ⟨rfl, fun fuel slot path _ hslot => ?_⟩
      cases hslot with
      | bool old => rfl
  | text bound text =>
      refine .ok ⟨rfl, fun fuel slot path _ hslot => ?_⟩
      cases hslot with
      | text _ old => rfl
  | @struct target words fields hw _ _ =>
      refine (he target _ _ (hreach target rfl) hs hfinite hheight).imp fun json ⟨harray, hback⟩ =>
        ⟨harray, fun fuel slot path hfuel hslot => ?_⟩
      have hread := hback fuel slot path hfuel hslot
      cases hslot with
      | struct _ _ _ => exact hread

theorem elementsToJson_readBack (he : WritesBack view limit enter) {leaf : Leaf}
    {items : List Value} (hreach : ReachesLeaf view level type leaf)
    (hs : ∀ item ∈ items, Shaped view.desc.program (.single leaf) item)
    (hfinite : ∀ item ∈ items, item.isFinite = true)
    (hheight : ∀ item ∈ items, height item ≤ limit) :
    view.Written (fun jsons => (∀ json ∈ jsons, isArray json = false) ∧
      List.Forall₂ (ReadsBack view level type (.single leaf)) jsons items)
      (items.mapM (leafToJson view enter level type leaf)) := by
  induction items with
  | nil => exact .ok ⟨by simp, .nil⟩
  | cons item rest ih =>
      simp only [List.forall_mem_cons] at hs hfinite hheight
      have hfirst := leafToJson_readsBack he hreach hs.1 hfinite.1 hheight.1
      have hrest := ih hs.2 hfinite.2 hheight.2
      rw [List.mapM_cons]
      refine hfirst.bind fun json ⟨harray, hback⟩ => hrest.bind fun jsons ⟨harrays, hbacks⟩ => ?_
      exact .ok ⟨List.forall_mem_cons.mpr ⟨harray, harrays⟩, .cons hback hbacks⟩

theorem elementsFromJson_eq {leaf : Leaf} {jsons : List Json} {items slots : List Value}
    (hback : List.Forall₂ (ReadsBack view level type (.single leaf)) jsons items) {fuel : Nat}
    (hfuel : ∀ json ∈ jsons, jsonHeight json ≤ fuel) (hlength : slots.length = jsons.length)
    (hslots : ∀ slot ∈ slots, Shaped view.desc.program (.single leaf) slot) (path : String)
    (position : Nat) :
    elementsFromJson view (structFromJson view fuel) level type leaf path position jsons slots =
      .ok items := by
  induction hback generalizing slots position with
  | nil =>
      cases List.eq_nil_of_length_eq_zero hlength
      rfl
  | @cons json item jsons items hread _ ih =>
      cases slots with
      | nil => cases hlength
      | cons slot slots =>
          simp only [List.forall_mem_cons] at hfuel hslots
          have hfirst : leafFromJson view (structFromJson view fuel) level type leaf json slot
              s!"{path}[{position}]" = .ok item :=
            hread fuel slot _ hfuel.1 hslots.1
          have hrest := ih hfuel.2 (Nat.succ.inj hlength) hslots.2 (position + 1)
          simp only [elementsFromJson, hfirst, hrest]
          rfl

theorem nest_written {dims : List UInt32}
    (hfit : view.RowsFit → ∃ row, rowSize dims.tail = .ok row) {flat : List Json}
    (h : ∀ json ∈ flat, isArray json = false) :
    view.Written (fun json => ∃ rows, json = .array rows ∧ flattenItems rows = flat)
      ((nest dims flat).mapError .aborted) := by
  by_cases hrow : ∃ row, rowSize dims.tail = .ok row
  · obtain ⟨row, hrow⟩ := hrow
    obtain ⟨rows, hnest, hrows⟩ := flatten_nest hrow h
    rw [hnest]
    exact .ok ⟨rows, rfl, hrows⟩
  · rw [nest_eq_error (fun row hr => hrow ⟨row, hr⟩)]
    exact .inr ⟨fun hrows => hrow (hfit hrows), rfl⟩

theorem shapeToJson_readsBack (he : WritesBack view limit enter) {shape : Shape} {value : Value}
    (hreach : ReachesLeaf view level type shape.leaf)
    (hfit : view.RowsFit → ∀ leaf count, shape = .array leaf count →
      ∃ row, rowSize (dimensions type).tail = .ok row)
    (hs : Shaped view.desc.program shape value) (hfinite : value.isFinite = true)
    (hheight : height value ≤ limit) (name : String) :
    view.Written (fun json => ReadsBack view level type shape json value)
      (shapeToJson view enter level type name shape value) := by
  cases shape with
  | single leaf => exact (leafToJson_readsBack he hreach hs hfinite hheight).imp fun _ h => h.2
  | sequence leaf =>
      cases hs with
      | @sequence _ items hi hd =>
          have hreach : ReachesLeaf view level type leaf := hreach
          have helements := elementsToJson_readBack he hreach hi
            (fun item hm => Value.isFinite_of_mem hfinite hm)
            (fun item hm => (height_le_of_mem hm).trans ((Nat.le_succ _).trans hheight))
          refine helements.map fun jsons ⟨harrays, hback⟩ fuel slot path hfuel hslot => ?_
          cases id hslot with
          | @sequence _ old _ _ =>
              have hgrows : old.length < jsons.length → items ≠ [] := by
                rintro hlt rfl
                simp [hback.length_eq] at hlt
              obtain ⟨grown, hgrown, hlength⟩ := Supply.resize_leaf old jsons.length
                fun hlt => hd (hgrows hlt)
              have hread := jsonHeight_le_of_rows (flattenItems_of_not_isArray harrays) hfuel
              cases hslot.resize hgrown with
              | sequence hslots _ =>
                  have helements := elementsFromJson_eq hback hread hlength hslots path 0
                  rw [shapeFromJson, hgrown]
                  exact bind_eq_ok.mpr ⟨_, rfl, bind_eq_ok.mpr ⟨items, helements, rfl⟩⟩
  | array leaf count =>
      cases hs with
      | @array _ _ items hi hlength =>
          have hreach : ReachesLeaf view level type leaf := hreach
          have helements := elementsToJson_readBack he hreach hi
            (fun item hm => Value.isFinite_of_mem hfinite hm)
            (fun item hm => (height_le_of_mem hm).trans ((Nat.le_succ _).trans hheight))
          refine helements.bind fun jsons ⟨harrays, hback⟩ => ?_
          have hnest := nest_written (fun hrows => hfit hrows leaf count rfl) harrays
          refine hnest.imp ?_
          rintro _ ⟨rows, rfl, hrows⟩ fuel slot path hfuel hslot
          cases hslot with
          | @array _ _ slots hslots hcount =>
              have hread := jsonHeight_le_of_rows hrows hfuel
              have hsame : jsons.length = count.toNat := hback.length_eq.trans hlength
              have helements := elementsFromJson_eq hback hread (hcount.trans hsame.symm) hslots
                path 0
              simp only [shapeFromJson, hrows, hsame, ne_eq, not_true_eq_false, if_false,
                helements]
              rfl

/-! ## Structures -/

theorem fieldsToJson_eq {value : Value} {insns : List Instruction} {position : Nat}
    {Back : Instruction × Nat → Json → Prop}
    (hfields : ∀ entry ∈ insns.zipIdx position, ∃ found,
      value.field? entry.1.field = some found ∧
      view.Written (Back entry) (shapeToJson view enter level (memberType? level entry.2)
        (entryName level entry) entry.1.shape found))
    (hnames : ((insns.zipIdx position).map (entryName level)).Nodup)
    (members : List (String × Json)) :
    view.Written (fun written =>
      (∀ entry ∈ insns.zipIdx position, ∃ json,
        written.lookup (entryName level entry) = some json ∧ Back entry json) ∧
      ∀ name ∉ (insns.zipIdx position).map (entryName level),
        written.lookup name = members.lookup name)
      (fieldsToJson view enter level value position insns members) := by
  induction insns generalizing position members with
  | nil => exact .ok ⟨by simp, by simp⟩
  | cons insn rest ih =>
      rw [List.zipIdx_cons] at hfields hnames ⊢
      rw [List.map_cons, List.nodup_cons] at hnames
      obtain ⟨⟨found, hfound, hwritten⟩, hrest⟩ := List.forall_mem_cons.mp hfields
      have hfound : value.field? insn.field = some found := hfound
      simp only [fieldsToJson, hfound]
      refine hwritten.bind fun json hback => ?_
      refine (ih hrest hnames.2 _).imp fun written ⟨hlookup, hkept⟩ => ⟨?_, ?_⟩
      · refine List.forall_mem_cons.mpr ⟨⟨json, ?_, hback⟩, hlookup⟩
        rw [hkept _ hnames.1, lookup_insertMember]
        exact if_pos rfl
      · intro name hname
        rw [List.map_cons, List.mem_cons, not_or] at hname
        rw [hkept name hname.2, lookup_insertMember]
        exact if_neg hname.1

theorem fieldsFromJson_eq {read : ReadNested} {path : String} {members : List (String × Json)}
    {insns : List Instruction} {position : Nat} {fields target : List (UInt32 × Value)}
    (hmembers : ∀ entry ∈ insns.zipIdx position, ∃ json slot found,
      members.lookup (entryName level entry) = some json ∧
      fields.lookup entry.1.field = some slot ∧ target.lookup entry.1.field = some found ∧
      shapeFromJson view read level (memberType? level entry.2) entry.1.shape json slot
        (path ++ "." ++ entryName level entry) = .ok found)
    (hdistinct : (insns.map Instruction.field).Nodup) (hascending : Value.Ascending fields) :
    ∃ filled, fieldsFromJson view read level path members position insns (.struct fields) =
        .ok (.struct filled) ∧
      Value.Ascending filled ∧
      ∀ index, filled.lookup index =
        if index ∈ insns.map Instruction.field then target.lookup index
        else fields.lookup index := by
  induction insns generalizing position fields with
  | nil => exact ⟨fields, rfl, hascending, by simp⟩
  | cons insn rest ih =>
      rw [List.zipIdx_cons] at hmembers
      rw [List.map_cons, List.nodup_cons] at hdistinct
      obtain ⟨⟨json, slot, found, hjson, hslot, hfound, hread⟩, hrest⟩ :=
        List.forall_mem_cons.mp hmembers
      have hjson : members.lookup (fieldName level position insn) = some json := hjson
      have hslot : (Value.struct fields).field? insn.field = some slot := hslot
      have hlater : ∀ entry ∈ rest.zipIdx (position + 1), entry.1.field ≠ insn.field := by
        intro entry hm hsame
        exact hdistinct.1 (hsame ▸ List.mem_map_of_mem (List.fst_mem_of_mem_zipIdx hm))
      have hrest' : ∀ entry ∈ rest.zipIdx (position + 1), ∃ json slot found',
          members.lookup (entryName level entry) = some json ∧
          (Value.insertField insn.field found fields).lookup entry.1.field = some slot ∧
          target.lookup entry.1.field = some found' ∧
          shapeFromJson view read level (memberType? level entry.2) entry.1.shape json slot
            (path ++ "." ++ entryName level entry) = .ok found' := by
        intro entry hm
        rw [Value.lookup_insertField, if_neg (hlater entry hm)]
        exact hrest entry hm
      obtain ⟨filled, hfilled, hascending', hlookup⟩ :=
        ih hrest' hdistinct.2 (hascending.insertField _ _)
      refine ⟨filled, ?_, hascending', fun index => ?_⟩
      · simp only [fieldsFromJson, hjson, hslot]
        exact bind_eq_ok.mpr ⟨found, hread, hfilled⟩
      · rw [hlookup index, Value.lookup_insertField]
        by_cases hindex : index = insn.field
        · subst hindex
          simp [hdistinct.1, hfound]
        · simp [hindex]

/-- An object with a member for every field, and no other, is read as the structure that its members
are read as. -/
theorem structFromJson_eq (hreadable : view.desc.program.Readable)
    (hd : view.desc.program.fieldsDistinct = true) {stream : UInt32} {words : Stream}
    (hw : view.desc.program.stream? stream = some words) {fields : List (UInt32 × Value)}
    (ha : Addressed (Scan.read stream words).instructions fields)
    {members : List (String × Json)}
    (hmembers : ∀ entry ∈ (Scan.read stream words).instructions.zipIdx, ∃ json,
      members.lookup (entryName level entry) = some json ∧
      ∃ kept, fields.lookup entry.1.field = some kept ∧
        ReadsBack view level (memberType? level entry.2) entry.1.shape json kept)
    (hothers : ∀ name ∉ (Scan.read stream words).instructions.zipIdx.map (entryName level),
      members.lookup name = none)
    {fuel : Nat} (hfuel : jsonHeight (.object members) ≤ fuel) {slot : Value}
    (hslot : Shaped view.desc.program (.single (.struct stream)) slot) (path : String) :
    structFromJson view fuel stream (.object members) slot level path = .ok (.struct fields) := by
  cases fuel with
  | zero => cases hfuel
  | succ fuel =>
      cases id hslot with
      | @struct _ words' start hw' ha' _ =>
          cases hw.symm.trans hw'
          have hknown : ∀ member ∈ members,
              member.1 ∈ (Scan.read stream words).instructions.mapIdx (fieldName level) := by
            intro member hm
            rw [mapIdx_fieldName]
            by_contra hunknown
            simpa using List.lookup_eq_none_iff.mp (hothers member.1 hunknown) member hm
          have hslots : ∀ entry ∈ (Scan.read stream words).instructions.zipIdx,
              ∃ json slot kept, members.lookup (entryName level entry) = some json ∧
                start.lookup entry.1.field = some slot ∧
                fields.lookup entry.1.field = some kept ∧
                shapeFromJson view (structFromJson view fuel) level (memberType? level entry.2)
                  entry.1.shape json slot (path ++ "." ++ entryName level entry) = .ok kept := by
            intro entry hm
            obtain ⟨json, hjson, kept, hkept, hback⟩ := hmembers entry hm
            obtain ⟨slot, hfound, hshape⟩ :=
              hslot.exists_field hd hw (List.fst_mem_of_mem_zipIdx hm)
            have hinner := (jsonHeight_le_of_lookup hjson).trans (Nat.le_of_succ_le_succ hfuel)
            exact ⟨json, slot, kept, hjson, hfound, hkept, hback fuel slot _ hinner hshape⟩
          obtain ⟨filled, hfilled, hascending, hlookup⟩ := fieldsFromJson_eq hslots
            (Program.nodup_of_fieldsDistinct hd hw) ha'.ascending
          have hsame : filled = fields := by
            refine hascending.ext ha.ascending fun index => ?_
            rw [hlookup index]
            split_ifs with hindex
            · rfl
            · rw [ha'.lookup_eq_none hindex, ha.lookup_eq_none hindex]
          subst hsame
          simp only [structFromJson]
          refine bind_eq_ok.mpr ⟨_, instructions_eq hreadable hw, ?_⟩
          split
          · rename_i name _ hfind
            have hm := List.mem_of_find?_eq_some hfind
            have hunknown := List.find?_some hfind
            exact absurd (hknown _ hm) (of_decide_eq_true hunknown)
          · exact hfilled

theorem structToJson_writesBack (hreadable : view.desc.program.Readable)
    (hd : view.desc.program.fieldsDistinct = true) (hnames : view.NamesDistinct) (limit : Nat) :
    WritesBack view limit (structToJson view limit) := by
  induction limit with
  | zero =>
      intro _ _ value _ _ _ hheight
      exact absurd hheight (height_pos value).not_ge
  | succ limit ih =>
      intro stream level value hreach hs hfinite hheight
      cases id hs with
      | @struct _ words fields hw ha _ =>
          have hinsns := instructions_eq hreadable hw
          have hdistinct := hnames stream level words hreach hw
          rw [mapIdx_fieldName] at hdistinct
          have hfields : ∀ entry ∈ (Scan.read stream words).instructions.zipIdx, ∃ found,
              (Value.struct fields).field? entry.1.field = some found ∧
              view.Written (fun json => ∃ kept, fields.lookup entry.1.field = some kept ∧
                ReadsBack view level (memberType? level entry.2) entry.1.shape json kept)
                (shapeToJson view (structToJson view limit) level (memberType? level entry.2)
                  (entryName level entry) entry.1.shape found) := by
            intro entry hm
            obtain ⟨found, hfound, hshape⟩ :=
              hs.exists_field hd hw (List.fst_mem_of_mem_zipIdx hm)
            have hinner := (height_le_of_lookup hfound).trans (Nat.le_of_succ_le_succ hheight)
            have hwritten := shapeToJson_readsBack ih
              (fun target htarget => .nested hreach hw hm htarget)
              (fun hrows leaf count harray =>
                hrows stream level words entry.1 entry.2 leaf count hreach hw hm harray)
              hshape (Value.isFinite_of_lookup hfinite hfound) hinner (entryName level entry)
            exact ⟨found, hfound, hwritten.imp fun json hback => ⟨found, hfound, hback⟩⟩
          rw [structToJson, hinsns]
          refine (fieldsToJson_eq hfields hdistinct []).bind fun members ⟨hlookup, hkept⟩ => ?_
          refine .ok ⟨rfl, fun fuel slot path hfuel hslot => ?_⟩
          exact structFromJson_eq hreadable hd hw ha hlookup hkept hfuel hslot path

theorem desc_of_ofDescriptor {desc : Descriptor} {view : View} (h : ofDescriptor desc = .ok view) :
    view.desc = desc := by
  unfold ofDescriptor at h
  split_ifs at h
  · cases h
    rfl
  · split at h
    · cases h
      rfl
    · cases h

/-- Where fields are addressed once and have a name of their own at every level, each sample
without infinities and NaNs has a JSON form, and is what that form is read as. Only where the
description declares rows with more elements than a 64-bit number counts, writing may be cut off
instead. -/
theorem fromJson_toJson {desc : Descriptor} {view : View} {start sample : Value}
    (hview : ofDescriptor desc = .ok view) (hstart : desc.program.default 0 = .ok start)
    (hd : desc.program.fieldsDistinct = true) (hnames : view.NamesDistinct)
    (hs : Shaped desc.program (.single (.struct 0)) sample) (hfinite : sample.isFinite = true) :
    (∃ json, view.toJson sample = .ok json ∧ view.fromJson json = .ok sample) ∨
      ¬view.RowsFit ∧ view.toJson sample = .error (.aborted .product) := by
  obtain rfl := desc_of_ofDescriptor hview
  obtain ⟨_, hv, _⟩ := bind_eq_ok.mp hstart
  obtain ⟨_, hreadable, _⟩ := Program.validate_eq_ok_iff.mp hv
  have hwritten := structToJson_writesBack hreadable hd hnames (height sample) 0 view.rootLevel?
    sample .root hs hfinite le_rfl
  refine hwritten.imp fun json ⟨_, hback⟩ => ?_
  have hread := hback _ start "" le_rfl (Program.default_shaped hstart)
  exact bind_eq_ok.mpr ⟨start, by rw [hstart]; rfl, hread⟩

def cornerLevel : Level := ⟨[], "Corner", [⟨"height", .number .f32⟩]⟩

def tileLevel : Level :=
  ⟨[], "Tile", [⟨"grid", .array 2 (.array 2 (.number .u16))⟩,
    ⟨"corners", .sequence (.named "Corner")⟩]⟩

def tileDocument : Markup.Document := ⟨.mk "" [cornerLevel.struct, tileLevel.struct] []⟩

def tileStream : Stream :=
  Stream.assemble [(4, .array (.number .u16) 4, false), (0, .sequence (.struct 1), false),
    (7, .single (.string none), false)]

def cornerStream : Stream :=
  Stream.assemble [(0, .single (.number .f32), false), (1, .single (.number .i8), false)]

def tileProgram : Program := ⟨[tileStream, cornerStream]⟩

/-- A grid in rows and a sequence of structures; the last field of either structure has no
description. -/
def tile : Descriptor where
  typeName := "Tile"
  program := tileProgram
  markup := tileDocument.write

def tileView : View := ⟨tile, some tileDocument⟩

theorem ofDescriptor_tile : ofDescriptor tile = .ok tileView := by
  have hread : Markup.Document.read tile.markup = .ok tileDocument :=
    Markup.Document.read_write rfl (by decide)
  have hmarkup : tile.markup ≠ "" := tileDocument.write_ne_empty
  rw [ofDescriptor, if_neg hmarkup, hread]
  rfl

/-- The height of the corner is the greatest number below zero. -/
def tileSample : Value :=
  .struct [(0, .sequence (.leaf tileProgram (.struct 1))
      [.struct [(0, .scalar (.number .f32 0x80000001)), (1, .scalar (.number .i8 255))]]),
    (4, .array ([0, 0, 0, 65535].map fun bits => .scalar (.number .u16 bits))),
    (7, .text "")]

def tileStart : Value :=
  .struct [(0, .sequence (.leaf tileProgram (.struct 1)) []),
    (4, .array (List.replicate 4 (.scalar (.zero .u16)))), (7, .text "")]

theorem default_tileProgram : tileProgram.default 0 = .ok tileStart := by with_unfolding_all rfl

theorem tileSample_reachable : Reachable tile tileSample :=
  ⟨tileStart,
    [.resize [.field 0] 1,
      .store [.field 0, .element 0, .field 0] (.scalar (.number .f32 0x80000001)),
      .store [.field 0, .element 0, .field 1] (.scalar (.number .i8 255)),
      .store [.field 4, .element 3] (.scalar (.number .u16 65535))],
    default_tileProgram, by with_unfolding_all rfl⟩

theorem read_tileStream : (Scan.read 0 tileStream).instructions =
    [⟨0, 4, false, .array (.number .u16) 4⟩, ⟨3, 0, false, .sequence (.struct 1)⟩,
      ⟨6, 7, false, .single (.string none)⟩] := by
  with_unfolding_all rfl

theorem read_cornerStream : (Scan.read 1 cornerStream).instructions =
    [⟨0, 0, false, .single (.number .f32)⟩, ⟨2, 1, false, .single (.number .i8)⟩] := by
  with_unfolding_all rfl

theorem rootLevel?_tileView : tileView.rootLevel? = some tileLevel := by
  have hfind : tileDocument.find? "Tile" = some ([], tileLevel.struct) := rfl
  simp [rootLevel?, tileView, tile, hfind, tileLevel]

theorem nestedLevel?_corner :
    tileView.nestedLevel? (some tileLevel) (some (.sequence (.named "Corner"))) =
      some cornerLevel := by
  have hfind : tileDocument.resolve? [] "Corner" = some ([], cornerLevel.struct) := by
    rfl
  simp [nestedLevel?, elementType, tileView, tileLevel, hfind, cornerLevel]

/-- The root and the corners are all that is reached. -/
theorem tileView_reaches {stream : UInt32} {level : Option Level}
    (h : tileView.Reaches stream level) :
    stream = 0 ∧ level = some tileLevel ∨ stream = 1 ∧ level = some cornerLevel := by
  induction h with
  | root => exact .inl ⟨rfl, rootLevel?_tileView⟩
  | @nested stream target level words insn position _ hw hm htarget ih =>
      obtain ⟨rfl, rfl⟩ | ⟨rfl, rfl⟩ := ih
      · cases hw
        simp only [read_tileStream, List.zipIdx_cons, List.zipIdx_nil, List.mem_cons,
          List.not_mem_nil, or_false, Prod.mk.injEq] at hm
        obtain ⟨rfl, rfl⟩ | ⟨rfl, rfl⟩ | ⟨rfl, rfl⟩ := hm <;> cases htarget
        exact .inr ⟨rfl, nestedLevel?_corner⟩
      · cases hw
        simp only [read_cornerStream, List.zipIdx_cons, List.zipIdx_nil, List.mem_cons,
          List.not_mem_nil, or_false, Prod.mk.injEq] at hm
        obtain ⟨rfl, rfl⟩ | ⟨rfl, rfl⟩ := hm <;> cases htarget

theorem tileView_namesDistinct : tileView.NamesDistinct := by
  intro stream level words hreach hw
  obtain ⟨rfl, rfl⟩ | ⟨rfl, rfl⟩ := tileView_reaches hreach
  · cases hw
    rw [read_tileStream]
    decide
  · cases hw
    rw [read_cornerStream]
    decide

theorem tileView_rowsFit : tileView.RowsFit := by
  intro stream level words insn position leaf count hreach hw hm harray
  obtain ⟨rfl, rfl⟩ | ⟨rfl, rfl⟩ := tileView_reaches hreach
  · cases hw
    simp only [read_tileStream, List.zipIdx_cons, List.zipIdx_nil, List.mem_cons,
      List.not_mem_nil, or_false, Prod.mk.injEq] at hm
    obtain ⟨rfl, rfl⟩ | ⟨rfl, rfl⟩ | ⟨rfl, rfl⟩ := hm <;> cases harray
    have hdims : dimensions (memberType? (some tileLevel) 0) = [2, 2] := by
      simp [memberType?, member?, tileLevel, dimensions]
    rw [hdims]
    exact ⟨2, by decide⟩
  · cases hw
    simp only [read_cornerStream, List.zipIdx_cons, List.zipIdx_nil, List.mem_cons,
      List.not_mem_nil, or_false, Prod.mk.injEq] at hm
    obtain ⟨rfl, rfl⟩ | ⟨rfl, rfl⟩ := hm <;> cases harray

theorem fromJson_tileJson :
    ofDescriptor tile = .ok tileView ∧ tile.program.fieldsDistinct = true ∧
      tileView.NamesDistinct ∧ Shaped tile.program (.single (.struct 0)) tileSample ∧
      tileSample.isFinite = true ∧ tileView.RowsFit ∧
      ∃ json, tileView.toJson tileSample = .ok json ∧ tileView.fromJson json = .ok tileSample := by
  have hd : tileProgram.fieldsDistinct = true := by with_unfolding_all rfl
  have hfinite : tileSample.isFinite = true := rfl
  have hs := tileSample_reachable.shaped
  have hwritten := fromJson_toJson ofDescriptor_tile default_tileProgram hd tileView_namesDistinct
    hs hfinite
  exact ⟨ofDescriptor_tile, hd, tileView_namesDistinct, hs, hfinite, tileView_rowsFit,
    hwritten.resolve_right fun hcut => hcut.1 tileView_rowsFit⟩

def slabLevel : Level :=
  ⟨[], "Slab", [⟨"a", .array 1 (.array 4294967295 (.array 4294967295 (.array 4294967295
    (.number .u8))))⟩]⟩

def slabDocument : Markup.Document := ⟨.mk "" [slabLevel.struct] []⟩

def slabStream : Stream := Stream.assemble [(0, .array (.number .u8) 4, false)]

def slabProgram : Program := ⟨[slabStream]⟩

/-- Four octets, and a description of many more in rows. -/
def slab : Descriptor where
  typeName := "Slab"
  program := slabProgram
  markup := slabDocument.write

def slabView : View := ⟨slab, some slabDocument⟩

def slabSample : Value := .struct [(0, .array (List.replicate 4 (.scalar (.zero .u8))))]

theorem rootLevel?_slabView : slabView.rootLevel? = some slabLevel := by
  have hfind : slabDocument.find? "Slab" = some ([], slabLevel.struct) := rfl
  simp [rootLevel?, slabView, slab, hfind, slabLevel]

theorem read_slabStream : (Scan.read 0 slabStream).instructions =
    [⟨0, 0, false, .array (.number .u8) 4⟩] := by
  with_unfolding_all rfl

theorem slabView_namesDistinct : slabView.NamesDistinct := by
  have hroot {stream : UInt32} {level : Option Level} (h : slabView.Reaches stream level) :
      stream = 0 ∧ level = some slabLevel := by
    induction h with
    | root => exact ⟨rfl, rootLevel?_slabView⟩
    | @nested stream target level words insn position _ hw hm htarget ih =>
        obtain ⟨rfl, rfl⟩ := ih
        cases hw
        simp only [read_slabStream, List.zipIdx_cons, List.zipIdx_nil, List.mem_cons,
          List.not_mem_nil, or_false, Prod.mk.injEq] at hm
        obtain ⟨rfl, rfl⟩ := hm
        cases htarget
  intro stream level words hreach hw
  obtain ⟨rfl, rfl⟩ := hroot hreach
  cases hw
  rw [read_slabStream]
  decide

theorem instructions_slabView :
    slabView.instructions 0 = .ok [⟨0, 0, false, .array (.number .u8) 4⟩] := by
  change (Stream.instructions 0 slabStream).mapError _ = _
  rw [slabStream, Scan.instructions_assemble]
  rfl

/-- The octets of an inner row are (2³² - 1)³, which is no 64-bit number. -/
theorem toJson_slab_cut_off :
    ofDescriptor slab = .ok slabView ∧ slab.program.default 0 = .ok slabSample ∧
      slab.program.fieldsDistinct = true ∧ slabView.NamesDistinct ∧
      slabSample.isFinite = true ∧ slabView.toJson slabSample = .error (.aborted .product) := by
  have hread : Markup.Document.read slab.markup = .ok slabDocument :=
    Markup.Document.read_write rfl (by decide)
  have hmarkup : slab.markup ≠ "" := slabDocument.write_ne_empty
  have hdefault : slabProgram.default 0 = .ok slabSample := by with_unfolding_all rfl
  have hdistinct : slabProgram.fieldsDistinct = true := by with_unfolding_all rfl
  have hdims : dimensions (memberType? (some slabLevel) 0) =
      [1, 4294967295, 4294967295, 4294967295] := by
    simp [memberType?, member?, slabLevel, dimensions]
  have hrow : rowSize [4294967295, 4294967295, 4294967295] = .error .product := by decide
  have hnest (flat : List Json) :
      nest (dimensions (memberType? (some slabLevel) 0)) flat = .error .product := by
    rw [hdims]
    apply nest_eq_error
    intro row h
    cases hrow.symm.trans h
  refine ⟨?_, hdefault, hdistinct, slabView_namesDistinct, rfl, ?_⟩
  · rw [ofDescriptor, if_neg hmarkup, hread]
    rfl
  · rw [toJson, rootLevel?_slabView]
    change structToJson slabView (2 + 1) 0 slabSample (some slabLevel) = _
    rw [structToJson, instructions_slabView]
    change ((nest (dimensions (memberType? (some slabLevel) 0)) _).mapError ViewError.aborted >>=
      _) >>= _ = _
    rw [hnest]
    rfl

end View
end TopicCodec
