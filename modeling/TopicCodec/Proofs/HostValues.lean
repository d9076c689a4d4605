import TopicCodec.Host
import TopicCodec.Proofs.RoundTrip

/-!
# Values of declared types

`Holds type value` says that a value is one of a declared type, and `Fits program shape type`
that a program describes the values of a type by a shape: a structure by a stream with one
instruction for each field, arrays of arrays by one array with as many elements as they have
together. Values of a type that a program fits are built alike, so one is decoded over any
other, and encoding them never finds that they are not what the program describes.

What a new value of a type is, its declaration leaves open, and so does `Holds`: it takes
the new elements of sequences to be copies of a value given for each type.
-/
namespace TopicCodec

theorem getElem?_cons_from {α : Type} (item : α) (rest : List α) (first index : Nat) :
    (if first ≤ index then (item :: rest)[index - first]? else none) =
      if index = first then some item
      else if first + 1 ≤ index then rest[index - (first + 1)]? else none := by
  rcases Nat.lt_trichotomy index first with h | h | h
  · rw [if_neg (by omega), if_neg (by omega), if_neg (by omega)]
  · subst h
    simp
  · have hsub : index - first = index - (first + 1) + 1 := by omega
    rw [if_pos (by omega), if_neg (by omega), if_pos (by omega), hsub, List.getElem?_cons_succ]

theorem eq_ofNat_iff {index : UInt32} {n : Nat} (h : n < UInt32.size) :
    index = UInt32.ofNat n ↔ index.toNat = n := by
  rw [← UInt32.toNat_inj, UInt32.toNat_ofNat_of_lt' h]

namespace Value

/-- Fields numbered from `first` on. -/
def numbered (first : Nat) : List Value → List (UInt32 × Value)
  | [] => []
  | item :: rest => (UInt32.ofNat first, item) :: numbered (first + 1) rest

theorem lookup_numbered {first : Nat} {items : List Value}
    (h : first + items.length ≤ UInt32.size) (index : UInt32) :
    (numbered first items).lookup index =
      if first ≤ index.toNat then items[index.toNat - first]? else none := by
  induction items generalizing first with
  | nil => simp [numbered]
  | cons item rest ih =>
      rw [List.length_cons] at h
      rw [numbered, lookup_cons, ih (by omega), getElem?_cons_from]
      simp only [eq_ofNat_iff (show first < UInt32.size by omega)]

theorem le_of_mem_numbered {first : Nat} {items : List Value}
    (h : first + items.length ≤ UInt32.size) {field : UInt32 × Value}
    (hm : field ∈ numbered first items) : first ≤ field.1.toNat := by
  induction items generalizing first with
  | nil => cases hm
  | cons item rest ih =>
      rw [List.length_cons] at h
      rcases List.mem_cons.mp hm with rfl | hm
      · exact (UInt32.toNat_ofNat_of_lt' (by omega)).ge
      · exact Nat.le_of_succ_le (ih (by omega) hm)

theorem ascending_numbered {first : Nat} {items : List Value}
    (h : first + items.length ≤ UInt32.size) : Ascending (numbered first items) := by
  induction items generalizing first with
  | nil => exact List.Pairwise.nil
  | cons item rest ih =>
      rw [List.length_cons] at h
      have hrest : first + 1 + rest.length ≤ UInt32.size := by omega
      refine List.pairwise_cons.mpr ⟨?_, ih hrest⟩
      intro field hm
      have hle := le_of_mem_numbered hrest hm
      have hfirst : (UInt32.ofNat first).toNat = first := UInt32.toNat_ofNat_of_lt' (by omega)
      apply UInt32.lt_iff_toNat_lt.mpr
      change (UInt32.ofNat first).toNat < field.1.toNat
      omega

end Value

/-! ## Types and their values -/

namespace HostField

def type : HostField → HostType
  | mk _ type _ _ => type

def bound : HostField → Option UInt32
  | mk _ _ _ bound => bound

end HostField

namespace HostType

/-- The type of the elements of nested arrays. -/
def leafType : HostType → HostType
  | array _ elem => elem.leafType
  | type => type

/-- The number of elements of nested arrays. -/
def leafCount : HostType → Nat
  | array count elem => count * elem.leafCount
  | _ => 1

/-- The values of a declared type. New elements of a sequence are as `fresh` says. -/
inductive Holds (fresh : HostType → Value) : HostType → Value → Prop
  | number (kind : ScalarKind) (bits : kind.Bits) :
      Holds fresh (.number kind) (.scalar (.number kind bits))
  | bool (flag : Bool) : Holds fresh .bool (.scalar (.bool flag))
  | text (text : String) : Holds fresh .text (.text text)
  | array {count : Nat} {elem : HostType} {items : List Value} :
      items.length = count → (∀ item ∈ items, Holds fresh elem item) →
      Holds fresh (.array count elem) (.array items)
  | growable {elem : HostType} {items : List Value} :
      (∀ item ∈ items, Holds fresh elem item) →
      Holds fresh (.growable elem) (.sequence (.copies (fresh elem)) items)
  | struct {name : String} {keyList : Option String} {fields : List HostField}
      {items : List Value} :
      items.length = fields.length →
      (∀ (i : Nat) field item, fields[i]? = some field → items[i]? = some item →
        Holds fresh field.type item) →
      Holds fresh (.struct name keyList fields) (.struct (Value.numbered 0 items))

mutual

theorem default_holds : (type : HostType) → Holds default type type.default
  | .number kind => .number kind 0
  | .bool => .bool false
  | .text => .text ""
  | .array count elem => by
      refine .array List.length_replicate fun item hi => ?_
      rw [List.eq_of_mem_replicate hi]
      exact default_holds elem
  | .growable elem => .growable fun item hi => by cases hi
  | .struct name keyList fields => by
      obtain ⟨items, hf, hl, hi⟩ := defaultFields_hold fields 0
      rw [HostType.default, hf]
      exact .struct hl hi

theorem defaultFields_hold : (fields : List HostField) → (first : Nat) →
    ∃ items, defaultFields first fields = Value.numbered first items ∧
      items.length = fields.length ∧
      ∀ (i : Nat) field item, fields[i]? = some field → items[i]? = some item →
        Holds default field.type item
  | [], _ => ⟨[], rfl, rfl, fun i field item hf => by simp at hf⟩
  | .mk name type key bound :: rest, first => by
      obtain ⟨items, hf, hl, hi⟩ := defaultFields_hold rest (first + 1)
      refine ⟨type.default :: items, ?_, ?_, ?_⟩
      · rw [defaultFields, hf, Value.numbered]
      · rw [List.length_cons, List.length_cons, hl]
      · intro i field item hfield hitem
        cases i with
        | zero =>
            cases hfield
            cases hitem
            exact default_holds type
        | succ i => exact hi i field item hfield hitem

end

variable {fresh : HostType → Value} {type : HostType}

/-! ## Rows -/

theorem isArray_of_holds : (type : HostType) → {value : Value} → Holds fresh type.leafType value →
    value.isArray = false
  | .array _ elem, _, h => isArray_of_holds elem h
  | .number _, _, h | .bool, _, h | .text, _, h | .growable _, _, h | .struct .., _, h => by
      cases h
      rfl

theorem length_flattenItems {items : List Value} {n : Nat}
    (h : ∀ item ∈ items, (Value.flatten item).length = n) :
    (Value.flattenItems items).length = items.length * n := by
  induction items with
  | nil => simp [Value.flattenItems]
  | cons item rest ih =>
      rw [Value.flattenItems, List.length_append, h item List.mem_cons_self,
        ih fun item hm => h item (List.mem_cons_of_mem _ hm), List.length_cons, Nat.succ_mul,
        Nat.add_comm]

theorem mem_flattenItems {items : List Value} {element : Value}
    (h : element ∈ Value.flattenItems items) : ∃ item ∈ items, element ∈ Value.flatten item := by
  induction items with
  | nil => cases h
  | cons item rest ih =>
      rcases List.mem_append.mp h with h | h
      · exact ⟨item, List.mem_cons_self, h⟩
      · obtain ⟨found, hm, hf⟩ := ih h
        exact ⟨found, List.mem_cons_of_mem _ hm, hf⟩

/-- The elements of nested arrays are values of the innermost type, as many as the type says. -/
theorem Holds.flatten {value : Value} (h : Holds fresh type value) :
    (Value.flatten value).length = type.leafCount ∧
      ∀ element ∈ Value.flatten value, Holds fresh type.leafType element := by
  induction h with
  | array hl _ ih =>
      refine ⟨?_, fun element he => ?_⟩
      · rw [leafCount, ← hl]
        exact length_flattenItems fun item hm => (ih item hm).1
      · obtain ⟨item, hm, he⟩ := mem_flattenItems he
        exact (ih item hm).2 element he
  | number kind bits => exact ⟨rfl, fun element he => List.mem_singleton.mp he ▸ .number kind bits⟩
  | bool flag => exact ⟨rfl, fun element he => List.mem_singleton.mp he ▸ .bool flag⟩
  | text text => exact ⟨rfl, fun element he => List.mem_singleton.mp he ▸ .text text⟩
  | growable hi _ => exact ⟨rfl, fun element he => List.mem_singleton.mp he ▸ .growable hi⟩
  | struct hl hi _ => exact ⟨rfl, fun element he => List.mem_singleton.mp he ▸ .struct hl hi⟩

theorem sameRowsItems_of_forall {as bs : List Value} (hl : as.length = bs.length)
    (h : ∀ a ∈ as, ∀ b ∈ bs, Value.sameRows a b = true) : Value.sameRowsItems as bs = true := by
  induction as generalizing bs with
  | nil => cases bs <;> first | rfl | cases hl
  | cons a as ih =>
      cases bs with
      | nil => cases hl
      | cons b bs =>
          have hhead := h a List.mem_cons_self b List.mem_cons_self
          have htail := ih (by simpa using hl) fun a ha b hb =>
            h a (List.mem_cons_of_mem _ ha) b (List.mem_cons_of_mem _ hb)
          rw [Value.sameRowsItems, hhead, htail]
          rfl

/-- All values of a type have the same rows. -/
theorem Holds.sameRows {a b : Value} (ha : Holds fresh type a) (hb : Holds fresh type b) :
    Value.sameRows a b = true := by
  induction ha generalizing b with
  | array hl _ ih =>
      cases hb with
      | array hl' hi =>
          exact sameRowsItems_of_forall (hl.trans hl'.symm) fun a ha b hb => ih a ha (hi b hb)
  | _ =>
      cases hb
      rfl

end HostType

/-! ## Programs for types -/

/-- A program describes the values of a type by a shape. -/
inductive Fits (program : Program) : Shape → HostType → Prop
  | number (kind : ScalarKind) : Fits program (.single (.number kind)) (.number kind)
  | bool : Fits program (.single .bool) .bool
  | text (bound : Option UInt32) : Fits program (.single (.string bound)) .text
  | struct {target : UInt32} {words : Stream} {insns : List Instruction} {last : Nat}
      {name : String} {keyList : Option String} {fields : List HostField} :
      program.stream? target = some words → Scan.read target words = ⟨insns, .ok last⟩ →
      insns.map Instruction.field = (List.range fields.length).map UInt32.ofNat →
      fields.length ≤ UInt32.size →
      (∀ (i : Nat) insn field, insns[i]? = some insn → fields[i]? = some field →
        Fits program insn.shape field.type) →
      Fits program (.single (.struct target)) (.struct name keyList fields)
  | sequence {leaf : Leaf} {elem : HostType} :
      Fits program (.single leaf) elem → Fits program (.sequence leaf) (.growable elem)
  | array {leaf : Leaf} {count : UInt32} {rows : Nat} {elem : HostType} :
      Fits program (.single leaf) elem.leafType → count.toNat = rows * elem.leafCount →
      Fits program (.array leaf count) (.array rows elem)

variable {fresh : HostType → Value}

/-- A sequence of a declared type grows by values of the type. -/
theorem Supply.resize_copies {elem : HostType} (hfresh : elem.Holds fresh (fresh elem))
    {items : List Value} (h : ∀ item ∈ items, elem.Holds fresh item) (length : Nat) :
    ∃ grown, resize (.copies (fresh elem)) items length = .ok (.copies (fresh elem), grown) ∧
      grown.length = length ∧ ∀ item ∈ grown, elem.Holds fresh item := by
  refine ⟨_, rfl, ?_, ?_⟩
  · rw [List.length_append, List.length_take, List.length_replicate]
    omega
  · intro item hm
    rcases List.mem_append.mp hm with hm | hm
    · exact h item (List.mem_of_mem_take hm)
    · rw [List.eq_of_mem_replicate hm]
      exact hfresh

variable {program : Program}

theorem fieldShape?_of_consecutive {insns : List Instruction} {first : Nat}
    (h : insns.map Instruction.field = (List.range' first insns.length).map UInt32.ofNat)
    (hsize : first + insns.length ≤ UInt32.size) (index : UInt32) :
    fieldShape? insns index =
      (if first ≤ index.toNat then insns[index.toNat - first]? else none).map
        Instruction.shape := by
  induction insns generalizing first with
  | nil => simp [fieldShape?]
  | cons insn rest ih =>
      rw [List.length_cons] at h hsize
      rw [List.map_cons, List.range'_succ, List.map_cons, List.cons.injEq] at h
      obtain ⟨hfield, hrest⟩ := h
      rw [fieldShape?, ih hrest (by omega), hfield, getElem?_cons_from]
      by_cases hi : index = UInt32.ofNat first
      · have hnat := (eq_ofNat_iff (by omega)).mp hi
        simp [hi.symm, hnat, Nat.not_succ_le_self first]
      · have hnat := mt (eq_ofNat_iff (by omega)).mpr hi
        simp [Ne.symm hi, hnat]

namespace Fits

theorem fieldShape?_eq {insns : List Instruction} {fields : List HostField}
    (h : insns.map Instruction.field = (List.range fields.length).map UInt32.ofNat)
    (hsize : fields.length ≤ UInt32.size) (index : UInt32) :
    insns.length = fields.length ∧
      fieldShape? insns index = insns[index.toNat]?.map Instruction.shape := by
  have hl : insns.length = fields.length := by simpa using congrArg List.length h
  rw [List.range_eq_range', ← hl] at h
  refine ⟨hl, ?_⟩
  simpa using fieldShape?_of_consecutive h (by omega) index

theorem field_eq {insns : List Instruction} {fields : List HostField} {i : Nat}
    {insn : Instruction}
    (h : insns.map Instruction.field = (List.range fields.length).map UInt32.ofNat)
    (hsize : fields.length ≤ UInt32.size) (hi : insns[i]? = some insn) :
    i < fields.length ∧ insn.field.toNat = i := by
  have hl : insns.length = fields.length := by simpa using congrArg List.length h
  have hlt : i < fields.length := hl ▸ (List.getElem?_eq_some_iff.mp hi).1
  have hfield : (insns.map Instruction.field)[i]? = some (UInt32.ofNat i) := by
    rw [h, List.getElem?_map, List.getElem?_range hlt]
    rfl
  rw [List.getElem?_map, hi] at hfield
  refine ⟨hlt, ?_⟩
  rw [Option.some.inj hfield]
  exact UInt32.toNat_ofNat_of_lt' (by omega)

theorem addressed {insns : List Instruction} {fields : List HostField} {items : List Value}
    (h : insns.map Instruction.field = (List.range fields.length).map UInt32.ofNat)
    (hsize : fields.length ≤ UInt32.size) (hl : items.length = fields.length) :
    Addressed insns (Value.numbered 0 items) where
  ascending := Value.ascending_numbered (by omega)
  isSome_lookup index := by
    obtain ⟨hlength, hshape⟩ := fieldShape?_eq h hsize index
    rw [hshape, Value.lookup_numbered (by omega)]
    simp only [Nat.zero_le, if_true, Nat.sub_zero, Option.isSome_map]
    by_cases hi : index.toNat < fields.length
    · rw [List.getElem?_eq_getElem (by omega), List.getElem?_eq_getElem (by omega)]
      rfl
    · rw [List.getElem?_eq_none (by omega), List.getElem?_eq_none (by omega)]
      rfl

/-- Values of a type that a program fits are built alike. -/
theorem alike (hfresh : ∀ type : HostType, type.Holds fresh (fresh type)) {shape : Shape}
    {type : HostType} {start value : Value} (h : Fits program shape type)
    (hs : type.Holds fresh start) (hv : type.Holds fresh value) :
    Alike program shape start value := by
  induction h generalizing start value with
  | number kind =>
      cases hs with
      | number _ old =>
          cases hv with
          | number _ bits => exact .number kind old bits
  | bool =>
      cases hs with
      | bool old =>
          cases hv with
          | bool flag => exact .bool old flag
  | text bound =>
      cases hs with
      | text old =>
          cases hv with
          | text text => exact .text bound old text
  | @struct target words insns last name keyList fields hw hread hfields hsize _ ih =>
      cases hs with
      | @struct _ _ _ olds hl hi =>
          cases hv with
          | @struct _ _ _ items hl' hi' =>
              have hinsns : (Scan.read target words).instructions = insns := by rw [hread]
              refine .struct hw (hinsns ▸ addressed hfields hsize hl)
                (hinsns ▸ addressed hfields hsize hl') ?_
              intro index shape a b hshape ha hb
              obtain ⟨hlength, hat⟩ := fieldShape?_eq hfields hsize index
              rw [hinsns, hat] at hshape
              obtain ⟨insn, hinsn, rfl⟩ := Option.map_eq_some_iff.mp hshape
              rw [Value.lookup_numbered (by omega)] at ha hb
              simp only [Nat.zero_le, if_true, Nat.sub_zero] at ha hb
              have hlt : index.toNat < fields.length := by
                rw [← hlength]
                exact (List.getElem?_eq_some_iff.mp hinsn).1
              have hfield := List.getElem?_eq_getElem hlt
              exact ih _ insn _ hinsn hfield (hi _ _ a hfield ha) (hi' _ _ b hfield hb)
  | @sequence leaf elem _ ih =>
      cases hs with
      | @growable _ olds hi =>
          cases hv with
          | @growable _ items hi' =>
              obtain ⟨grown, hg, hl, hgrown⟩ := Supply.resize_copies (hfresh elem) hi items.length
              refine .sequence hg hl ?_ fun a b hab => ?_
              · intro values hlength
                simp [Supply.resize, ← hlength]
              · obtain ⟨hma, hmb⟩ := List.of_mem_zip hab
                exact ih (hgrown a hma) (hi' b hmb)
  | @array leaf count rows elem _ hc ih =>
      have hrows := hs.sameRows hv
      have hflat := hs.flatten
      have hflat' := hv.flatten
      cases hs with
      | @array _ _ olds hl hi =>
          cases hv with
          | @array _ _ items hl' hi' =>
              refine .array hrows fun a b hab => ?_
              obtain ⟨hma, hmb⟩ := List.of_mem_zip hab
              exact ih (hflat.2 a hma) (hflat'.2 b hmb)

end Fits

/-! ## Encoding -/

namespace Marshal

variable {σ : Type} [Sink σ] {fresh : HostType → Value} {walk : Walk} {enter : EncodeNested σ}

/-- The outcome is not that value and program do not go together. -/
def Suits {α : Type} (outcome : Except CodecError α) : Prop :=
  ∀ typeName defect, outcome ≠ .error (.configuration typeName defect)

theorem Suits.ok {α : Type} (a : α) : Suits (.ok a) := by
  intro typeName defect h
  cases h

theorem Suits.bind {α β : Type} {x : Except CodecError α} {f : α → Except CodecError β}
    (hx : Suits x) (hf : ∀ a, Suits (f a)) : Suits (x >>= f) := by
  cases x with
  | error error => exact fun typeName defect h => hx typeName defect (by cases h; rfl)
  | ok a => exact hf a

theorem emitAll_suits {α : Type} {emit : α → Nat → Except CodecError σ} {items : List α}
    (h : ∀ item ∈ items, ∀ position, Suits (emit item position)) (position : Nat) :
    Suits (emitAll emit items position) := by
  induction items generalizing position with
  | nil => exact .ok _
  | cons item rest ih =>
      refine (h item List.mem_cons_self position).bind fun chunk => ?_
      have hrest := ih (fun item hm => h item (List.mem_cons_of_mem _ hm))
        (position + Sink.size chunk)
      exact hrest.bind fun tail => .ok _

theorem encodeText_suits (wire : WireFormat) (bound : Option UInt32) (text : String) (path : Path)
    (position : Nat) : Suits (encodeText (σ := σ) wire bound text path position) := by
  unfold encodeText
  intro typeName defect h
  dsimp only at h
  split_ifs at h <;> cases h

/-- Structures of a type that the program fits suit it. -/
def SuitsNested (fresh : HostType → Value) (walk : Walk) (enter : EncodeNested σ) : Prop :=
  ∀ target words type value path position, walk.desc.program.stream? target = some words →
    Fits walk.desc.program (.single (.struct target)) type → type.Holds fresh value →
    Suits (enter target words value path position)

theorem encodeLeaf_suits (he : SuitsNested fresh walk enter) {leaf : Leaf} {type : HostType}
    {value : Value} (hf : Fits walk.desc.program (.single leaf) type) (hv : type.Holds fresh value)
    (stream : UInt32) (pc : Nat) (path : Path) (position : Nat) :
    Suits (encodeLeaf walk enter stream pc leaf value path position) := by
  cases id hf with
  | number kind =>
      cases hv with
      | number _ bits =>
          rw [(LeafWritten.number kind bits).encodeLeaf_eq]
          exact .ok _
  | bool =>
      cases hv with
      | bool flag => exact .ok _
  | text bound =>
      cases hv with
      | text text => exact encodeText_suits walk.wire bound text path position
  | struct hw =>
      have hnested := he _ _ _ value path position hw hf hv
      cases hv with
      | struct hl hi =>
          simp only [encodeLeaf, Walk.nested, hw]
          exact hnested

theorem encodeElements_suit (he : SuitsNested fresh walk enter) {leaf : Leaf} {type : HostType}
    {items : List Value} (hf : Fits walk.desc.program (.single leaf) type)
    (hv : ∀ item ∈ items, type.Holds fresh item) (stream : UInt32) (pc : Nat) (path : Path)
    (position : Nat) :
    Suits (encodeElements walk enter stream pc leaf items path position) := by
  unfold encodeElements
  refine emitAll_suits (fun place hm position => ?_) position
  obtain ⟨item, i⟩ := place
  have hitem := hv item (List.fst_mem_of_mem_zipIdx hm)
  have hpresent : encodeElement walk enter stream pc leaf path (item, i) position =
      encodeLeaf walk enter stream pc leaf item (path.element i) position := by
    cases hitem <;> rfl
  rw [hpresent]
  exact encodeLeaf_suits he hf hitem stream pc (path.element i) position

theorem encodeShape_suits (he : SuitsNested fresh walk enter) {shape : Shape} {type : HostType}
    {value : Value} (hf : Fits walk.desc.program shape type) (hv : type.Holds fresh value)
    (stream : UInt32) (pc : Nat) (path : Path) (position : Nat) :
    Suits (encodeShape walk enter stream pc shape value path position) := by
  cases shape with
  | single leaf => exact encodeLeaf_suits he hf hv stream pc path position
  | sequence leaf =>
      cases hf with
      | sequence hf =>
          cases hv with
          | growable hi =>
              unfold encodeShape
              dsimp only
              split_ifs
              · intro typeName defect h
                cases h
              · exact (encodeElements_suit he hf hi stream pc path _).bind fun body => .ok _
  | array leaf count =>
      cases hf with
      | array hf hc =>
          obtain ⟨hlength, helements⟩ := hv.flatten
          cases hv with
          | @array _ _ items hl hi =>
              have hcount : (Value.flattenItems items).length = count.toNat :=
                hlength.trans hc.symm
              simp only [encodeShape, hcount, ne_eq, not_true_eq_false, if_false]
              exact encodeElements_suit he hf helements stream pc path position

theorem encodeStruct_suits (fuel : Nat) :
    SuitsNested fresh walk (encodeStruct (σ := σ) walk fuel) := by
  induction fuel with
  | zero =>
      intro target words type value path position _ _ _ typeName defect h
      cases h
  | succ fuel ih =>
      intro target words type value path position hw hf hv
      cases hf with
      | @struct _ _ insns last name keyList fields hw' hread hfields hsize hfits =>
          cases hw.symm.trans hw'
          cases hv with
          | @struct _ _ _ items hl hi =>
              simp only [encodeStruct, hread]
              refine (emitAll_suits (fun insn hm position => ?_) position).bind fun chunk => .ok _
              obtain ⟨i, hinsn⟩ := List.mem_iff_getElem?.mp hm
              obtain ⟨hlt, hfield⟩ := Fits.field_eq hfields hsize hinsn
              have hitem : items[i]? = some (items.get ⟨i, by omega⟩) :=
                List.getElem?_eq_getElem (by omega)
              have hfound : (Value.struct (Value.numbered 0 items)).field? insn.field =
                  some (items.get ⟨i, by omega⟩) := by
                change (Value.numbered 0 items).lookup insn.field = _
                rw [Value.lookup_numbered (by omega), hfield]
                simp
              have hdeclared := List.getElem?_eq_getElem hlt
              simp only [encodeField, hfound]
              exact encodeShape_suits ih (hfits i insn _ hinsn hdeclared)
                (hi i _ _ hdeclared hitem) target insn.pc _ position

theorem encode_suits {desc : Descriptor} {wire : WireFormat} {type : HostType} {value : Value}
    (hf : Fits desc.program (.single (.struct 0)) type) (hv : type.Holds fresh value) :
    Suits (encode (σ := σ) ⟨desc, wire⟩ value) := by
  cases id hf with
  | @struct _ words _ _ _ _ _ hw _ _ _ _ =>
      have hroot : Walk.root ⟨desc, wire⟩ = .ok words := Walk.root_eq_ok.mpr hw
      simp only [encode, hroot]
      exact encodeStruct_suits (maxNesting + 1) 0 words _ value .root 0 hw hf hv

end Marshal
end TopicCodec
