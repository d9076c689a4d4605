import TopicCodec.Proofs.Editing
import TopicCodec.Proofs.ValueLimit

/-!
# Resizing a sequence changes all or nothing

A sequence is extended by one element after another, and nothing takes them away again if a later
one cannot be made. But each element is made anew from the same leaf and the same full budget, so
the first one cannot be made or all of them can. Resizing in place therefore comes to what
`Supply.resize` says, with the sequence as it was if that fails.

Making an element fails in other ways for a leaf that refers to no stream, or in a program that is
not valid. No sequence that default instances lead to is of that kind (`Obtained.grounded`),
whatever is done to them: they are only made from valid programs, and sequences are never put
together from anything else.
-/
namespace TopicCodec

/-! ## In place -/

namespace Value

section Elements

variable {program : Program} {leaf : Leaf}

theorem run_pushDefault_ok {value : Value} (h : program.defaultElement leaf = .ok value)
    (items : List Value) :
    (pushDefault program leaf).run.run items.toArray = (.ok (), (items ++ [value]).toArray) := by
  rw [← List.push_toArray]
  unfold pushDefault
  rw [h]
  rfl

theorem run_pushDefault_error {defect : Defect}
    (h : program.defaultElement leaf = .error defect) (items : Array Value) :
    (pushDefault program leaf).run.run items = (.error defect, items) := by
  unfold pushDefault
  rw [h]
  rfl

theorem run_pushDefaults_ok {value : Value} (h : program.defaultElement leaf = .ok value)
    (more : Nat) (items : List Value) :
    (pushDefaults program leaf more).run.run items.toArray =
      (.ok (), (items ++ List.replicate more value).toArray) := by
  induction more generalizing items with
  | zero =>
      rw [List.replicate_zero, List.append_nil]
      rfl
  | succ more ih =>
      rw [pushDefaults, run_bind_ok (run_pushDefault_ok h items), ih, List.replicate_succ,
        List.append_assoc, List.singleton_append]

/-- The first element that cannot be made comes before anything has changed. -/
theorem run_pushDefaults_error {defect : Defect}
    (h : program.defaultElement leaf = .error defect) (more : Nat) (items : Array Value) :
    (pushDefaults program leaf (more + 1)).run.run items = (.error defect, items) := by
  rw [pushDefaults, run_bind_error (run_pushDefault_error h items)]

theorem run_resizeElements (length : Nat) (items : Array Value) :
    (resizeElements program leaf length).run.run items =
      if length ≤ items.size then (.ok (), items.take length)
      else (pushDefaults program leaf (length - items.size)).run.run items := by
  refine Eq.trans (run_bind_ok rfl) ?_
  dsimp only
  split_ifs <;> rfl

end Elements

variable {supply supply' : Supply} {items items' : List Value} {length : Nat} {defect : Defect}

theorem run_resize_ok (h : supply.resize items length = .ok (supply', items')) :
    (resize length).run.run (sequence supply items) = (.ok (), sequence supply' items') := by
  refine Eq.trans (run_bind_ok rfl) ?_
  cases supply with
  | leaf program leaf =>
      have hrun : (resizeElements program leaf length).run.run items.toArray =
          (.ok (), items'.toArray) ∧ supply' = .leaf program leaf := by
        rw [run_resizeElements, List.size_toArray]
        obtain ⟨rfl, ⟨hcut, rfl⟩ | ⟨hgrow, first, hfirst, rfl⟩⟩ := Supply.resize_leaf_eq_ok.mp h
        · rw [if_pos hcut, List.take_toArray]
          exact ⟨rfl, rfl⟩
        · rw [if_neg hgrow.not_ge]
          exact ⟨run_pushDefaults_ok hfirst _ items, rfl⟩
      obtain ⟨hrun, rfl⟩ := hrun
      dsimp only
      rw [hrun]
      rfl
  | copies element =>
      dsimp only
      rw [h]
      rfl
  | vacant limit complaint kept =>
      dsimp only
      rw [h]
      rfl

theorem run_resize_error (h : supply.resize items length = .error defect) :
    (resize length).run.run (sequence supply items) = (.error defect, sequence supply items) := by
  refine Eq.trans (run_bind_ok rfl) ?_
  cases supply with
  | leaf program leaf =>
      have hrun : (resizeElements program leaf length).run.run items.toArray =
          (.error defect, items.toArray) := by
        obtain ⟨hgrow, hdefect⟩ := Supply.resize_leaf_eq_error.mp h
        obtain ⟨more, hmore⟩ : ∃ more, length - items.length = more + 1 :=
          ⟨length - items.length - 1, by omega⟩
        rw [run_resizeElements, List.size_toArray, if_neg hgrow.not_ge, hmore]
        exact run_pushDefaults_error hdefect more items.toArray
      dsimp only
      rw [hrun]
      rfl
  | copies element => cases h
  | vacant limit complaint kept =>
      dsimp only
      rw [h]
      rfl

end Value

/-! ## Sequences of valid programs -/

/-- New elements come from a leaf of a valid program. -/
def Supply.Grounded (supply : Supply) : Prop :=
  ∃ program leaf, supply = .leaf program leaf ∧ program.validate = .ok () ∧
    ∀ target, leaf = .struct target → target.toNat < program.length

namespace Value

/-- Every sequence in a value takes its elements from a leaf of a valid program. -/
inductive Grounded : Value → Prop
  | scalar (value : Scalar) : Grounded (.scalar value)
  | text (value : String) : Grounded (.text value)
  | struct {fields : List (UInt32 × Value)} :
      (∀ field ∈ fields, Grounded field.2) → Grounded (.struct fields)
  | array {items : List Value} : (∀ item ∈ items, Grounded item) → Grounded (.array items)
  | sequence {supply : Supply} {items : List Value} : supply.Grounded →
      (∀ item ∈ items, Grounded item) → Grounded (.sequence supply items)

namespace Grounded

theorem items {value : Value} {items : List Value} (h : Grounded value)
    (hi : value.items? = some items) : ∀ item ∈ items, Grounded item := by
  cases h with
  | array hitems =>
      cases hi
      exact hitems
  | sequence _ hitems =>
      cases hi
      exact hitems
  | _ => cases hi

theorem step {value inner : Value} (h : Grounded value) {step : PathStep}
    (hs : value.step? step = some inner) : Grounded inner := by
  cases step with
  | field index =>
      cases h with
      | @struct fields hfields =>
          have hs : fields.lookup index = some inner := hs
          obtain ⟨_, _, rfl, _⟩ := List.lookup_eq_some_iff.mp hs
          exact hfields (index, inner) (List.mem_append_right _ List.mem_cons_self)
      | _ => cases hs
  | element index =>
      obtain ⟨items, hi, _⟩ := Option.bind_eq_some_iff.mp hs
      exact h.items hi inner (mem_of_element? hi hs)

theorem get {value inner : Value} (h : Grounded value) {path : List PathStep}
    (hg : value.get? path = some inner) : Grounded inner := by
  induction path generalizing value with
  | nil =>
      cases hg
      exact h
  | cons step path ih =>
      obtain ⟨next, hs, hg⟩ := Option.bind_eq_some_iff.mp hg
      exact ih (h.step hs) hg

theorem setStep {value inner : Value} (h : Grounded value) (hi : Grounded inner)
    (step : PathStep) : Grounded (value.setStep inner step) := by
  cases step with
  | field index =>
      cases h with
      | struct hfields =>
          refine .struct fun field hf => ?_
          rcases mem_insertField hf with rfl | hf
          · exact hi
          · exact hfields field hf
      | scalar value => exact .scalar value
      | text value => exact .text value
      | array hitems => exact .array hitems
      | sequence hsupply hitems => exact .sequence hsupply hitems
  | element index =>
      have hset {items : List Value} (hitems : ∀ item ∈ items, Grounded item) :
          ∀ item ∈ items.set index inner, Grounded item := by
        intro item hm
        rcases List.mem_or_eq_of_mem_set hm with hm | rfl
        · exact hitems item hm
        · exact hi
      cases h with
      | array hitems => exact .array (hset hitems)
      | sequence hsupply hitems => exact .sequence hsupply (hset hitems)
      | scalar value => exact .scalar value
      | text value => exact .text value
      | struct hfields => exact .struct hfields

theorem change {value inner changed : Value} (h : Grounded value) (hi : Grounded inner)
    {path : List PathStep} (hc : value.change? (fun _ => inner) path = some changed) :
    Grounded changed := by
  induction path generalizing value changed with
  | nil =>
      cases hc
      exact hi
  | cons step path ih =>
      obtain ⟨next, hs, hc⟩ := Option.bind_eq_some_iff.mp hc
      obtain ⟨new, hnew, hc⟩ := Option.bind_eq_some_iff.mp hc
      cases hc
      exact h.setStep (ih (h.step hs) hnew) step

end Grounded

end Value

theorem Blank.grounded {program : Program} (hv : program.validate = .ok ()) {shape : Shape}
    {value : Value} (h : Blank program shape value)
    (ht : ∀ target, shape.leaf = .struct target → target.toNat < program.length) :
    value.Grounded := by
  induction h with
  | number kind => exact .scalar _
  | bool => exact .scalar _
  | text bound => exact .text ""
  | @struct target words fields hw ha _ ih =>
      refine .struct fun field hf => ?_
      have hlookup := ha.lookup_of_mem hf
      obtain ⟨shape, hshape⟩ := ha.exists_shape hlookup
      obtain ⟨insn, hi, _, rfl⟩ := mem_of_fieldShape? hshape
      exact ih field.1 insn.shape field.2 hshape hlookup fun target hleaf =>
        Program.target_lt_of_validate hv hw hi hleaf
  | sequence leaf => exact .sequence ⟨program, leaf, rfl, hv, ht⟩ fun item hi => by cases hi
  | array count _ ih =>
      refine .array fun item hi => ?_
      rw [List.eq_of_mem_replicate hi]
      exact ih ht

namespace Value

/-- Resizing puts in nothing but blank elements, and leaves the supply as it is. -/
theorem Grounded.resize {value : Value} (h : Grounded value) (length : Nat) :
    Grounded ((Value.resize length).run.run value).2 := by
  cases h with
  | scalar value => exact .scalar value
  | text value => exact .text value
  | struct hfields => exact .struct hfields
  | array hitems => exact .array hitems
  | @sequence supply items hsupply hitems =>
      cases hresize : supply.resize items length with
      | error defect =>
          rw [run_resize_error hresize]
          exact .sequence hsupply hitems
      | ok resized =>
          obtain ⟨supply', items'⟩ := resized
          rw [run_resize_ok hresize]
          obtain ⟨program, leaf, rfl, hv, ht⟩ := id hsupply
          obtain ⟨rfl, ⟨_, rfl⟩ | ⟨_, first, hfirst, rfl⟩⟩ := Supply.resize_leaf_eq_ok.mp hresize
          · exact .sequence hsupply fun item hi => hitems item (List.mem_of_mem_take hi)
          · refine .sequence hsupply fun item hi => ?_
            rcases List.mem_append.mp hi with hi | hi
            · exact hitems item hi
            · rw [List.eq_of_mem_replicate hi]
              exact (Program.defaultElement_blank hfirst).grounded hv ht

/-- The values that default instances lead to. An instance is made by default, and any part of it
may be taken out, put in elsewhere, in the same instance or another one, or resized; numbers, texts,
arrays and structures without fields may be made up. -/
inductive Obtained : Value → Prop
  | default {program : Program} {stream : UInt32} {value : Value} :
      program.default stream = .ok value → Obtained value
  | scalar (value : Scalar) : Obtained (.scalar value)
  | text (value : String) : Obtained (.text value)
  | empty : Obtained (.struct [])
  | array {items : List Value} : (∀ item ∈ items, Obtained item) → Obtained (.array items)
  | part {value inner : Value} {path : List PathStep} :
      Obtained value → value.get? path = some inner → Obtained inner
  | put {value inner changed : Value} {path : List PathStep} :
      Obtained value → Obtained inner → value.change? (fun _ => inner) path = some changed →
      Obtained changed
  | resize {value : Value} (length : Nat) :
      Obtained value → Obtained ((Value.resize length).run.run value).2

theorem Obtained.grounded {value : Value} (h : Obtained value) : value.Grounded := by
  induction h with
  | default hdefault =>
      obtain ⟨_, hv, _⟩ := bind_eq_ok.mp hdefault
      refine (Program.default_blank hdefault).grounded hv fun target ht => ?_
      cases ht
      exact Program.lt_length_of_default hdefault
  | scalar value => exact .scalar value
  | text value => exact .text value
  | empty => exact .struct fun field hf => by cases hf
  | array _ ih => exact .array ih
  | part _ hget ih => exact ih.get hget
  | put _ _ hchange ihvalue ihinner => exact ihvalue.change ihinner hchange
  | resize length _ ih => exact ih.resize length

/-! ## Edited samples -/

/-- A change at the end of a path depends on what is there only. -/
theorem exists_get?_of_change? {value changed : Value} {change : Value → Value}
    {path : List PathStep} (h : value.change? change path = some changed) :
    ∃ slot, value.get? path = some slot ∧
      value.change? (fun _ => change slot) path = some changed := by
  induction path generalizing value changed with
  | nil => exact ⟨value, rfl, h⟩
  | cons step path ih =>
      obtain ⟨inner, hs, h⟩ := Option.bind_eq_some_iff.mp h
      obtain ⟨new, hnew, h⟩ := Option.bind_eq_some_iff.mp h
      obtain ⟨slot, hget, hchange⟩ := ih hnew
      refine ⟨slot, ?_, ?_⟩
      · rw [get?, hs]
        exact hget
      · rw [change?, hs]
        change (change? (fun _ => change slot) path inner).bind _ = _
        rw [hchange]
        exact h

theorem Obtained.edit {value next : Value} (h : Obtained value) (edit : Edit)
    (hn : edit.apply value = some next) : Obtained next := by
  cases edit with
  | store path content =>
      obtain ⟨slot, hget, hchange⟩ := exists_get?_of_change? hn
      refine h.put ?_ hchange
      have hslot := h.part hget
      unfold store
      split
      · exact .text _
      · exact .scalar _
      · exact hslot
  | resize path length =>
      simp only [Edit.apply] at hn
      split at hn
      · rename_i supply items hget
        split at hn
        · rename_i supply' items' hresize
          have hresized := (h.part hget).resize length
          rw [run_resize_ok hresize] at hresized
          exact h.put hresized hn
        · cases hn
      · cases hn

end Value

/-- Every sample that edits lead to is obtained. -/
theorem Reachable.obtained {desc : Descriptor} {sample : Value} (h : Reachable desc sample) :
    sample.Obtained := by
  obtain ⟨start, edits, hstart, hedits⟩ := h
  have hobtained : start.Obtained := .default hstart
  clear hstart
  induction edits generalizing start with
  | nil =>
      cases hedits
      exact hobtained
  | cons edit edits ih =>
      obtain ⟨next, hnext, hedits⟩ := Option.bind_eq_some_iff.mp hedits
      exact ih next hedits (hobtained.edit edit hnext)

namespace Value

/-- Resizing any sequence in any value that default instances lead to changes all or nothing. It
succeeds with the new length, with the old elements in front as far as they fit and with blank
defaults of its leaf behind them; or it fails because an array would be too large, and the sequence
is as it was. It fails if and only if an element is to be added and one element alone oversteps the
limit. -/
theorem resize_all_or_nothing {sample : Value} (h : Obtained sample) {path : List PathStep}
    {supply : Supply} {items : List Value}
    (hs : sample.get? path = some (.sequence supply items)) (length : Nat) :
    ∃ program leaf, supply = .leaf program leaf ∧
      ((∃ resized, (resize length).run.run (.sequence supply items) =
            (.ok (), .sequence supply resized) ∧
          resized.length = length ∧
          resized.take (min length items.length) = items.take (min length items.length) ∧
          ∀ element ∈ resized.drop items.length, program.defaultElement leaf = .ok element ∧
            Blank program (.single leaf) element) ∨
        ∃ id pc count, (resize length).run.run (.sequence supply items) =
          (.error (.arrayTooLarge id pc count maxDefaultValues), .sequence supply items)) ∧
      (((resize length).run.run (.sequence supply items)).1 = .ok () ↔
        length ≤ items.length ∨ program.elementOversteps leaf = false) := by
  cases h.grounded.get hs with
  | sequence hsupply _ =>
      obtain ⟨program, leaf, rfl, hv, ht⟩ := hsupply
      refine ⟨program, leaf, rfl, ?_⟩
      rcases Nat.lt_or_ge items.length length with hgrow | hcut
      · obtain ⟨hfits, value, hvalue⟩ | ⟨hover, id, pc, count, hrefused⟩ :=
          Program.defaultElement_cases hv ht
        · rw [run_resize_ok
            (Supply.resize_leaf_eq_ok.mpr ⟨rfl, .inr ⟨hgrow, value, hvalue, rfl⟩⟩)]
          refine ⟨.inl ⟨_, rfl, ?_, ?_, fun element he => ?_⟩, by simp [hfits]⟩
          · rw [List.length_append, List.length_replicate]
            omega
          · rw [min_eq_right hgrow.le, List.take_left, List.take_length]
          · rw [List.drop_left] at he
            rw [List.eq_of_mem_replicate he]
            exact ⟨hvalue, Program.defaultElement_blank hvalue⟩
        · rw [run_resize_error (Supply.resize_leaf_eq_error.mpr ⟨hgrow, hrefused⟩)]
          exact ⟨.inr ⟨id, pc, count, rfl⟩, by simp [hover, hgrow]⟩
      · rw [run_resize_ok (Supply.resize_leaf_eq_ok.mpr ⟨rfl, .inl ⟨hcut, rfl⟩⟩)]
        refine ⟨.inl ⟨_, rfl, List.length_take_of_le hcut, ?_, ?_⟩, by simp [hcut]⟩
        · rw [min_eq_left hcut, List.take_take, min_self]
        · rw [List.drop_eq_nil_of_le ((List.length_take_le _ _).trans hcut)]
          exact List.forall_mem_nil _

/-- Crates that hold as much as a whole default instance may, and labels. -/
def cellar : Descriptor where
  typeName := "Cellar"
  program := ⟨[
    Stream.assemble [(0, .sequence (.struct 1), false), (1, .sequence (.number .u16), false)],
    Stream.assemble [(0, .array (.number .u8) 16777216, false)]]⟩

def crates : Value := .sequence (.leaf cellar.program (.struct 1)) []

def labels (items : List Value) : Value := .sequence (.leaf cellar.program (.number .u16)) items

/-- A cellar with one label in it. -/
def labelled : Value :=
  .struct [(0, crates), (1, labels [.scalar (.number .u16 7)])]

theorem labelled_reachable : Reachable cellar labelled :=
  ⟨.struct [(0, crates), (1, labels [])],
    [.resize [.field 1] 1, .store [.field 1, .element 0] (.scalar (.number .u16 7))],
    by with_unfolding_all rfl, by with_unfolding_all rfl⟩

/-- A crate oversteps the limit, so that none can be added; labels can. -/
theorem resize_cellar :
    labelled.Obtained ∧ labelled.get? [.field 0] = some crates ∧
      (∃ id pc count, (resize 2).run.run crates =
        (.error (.arrayTooLarge id pc count maxDefaultValues), crates)) ∧
      labelled.get? [.field 1] = some (labels [.scalar (.number .u16 7)]) ∧
      ∃ more, (resize 3).run.run (labels [.scalar (.number .u16 7)]) =
        (.ok (), labels (.scalar (.number .u16 7) :: more)) ∧ more.length = 2 := by
  have hobtained := labelled_reachable.obtained
  refine ⟨hobtained, rfl, ?_, rfl, ?_⟩
  · obtain ⟨program, leaf, hsupply, hends, hok⟩ := resize_all_or_nothing hobtained
      (rfl : labelled.get? [.field 0] = some crates) 2
    cases hsupply
    rcases hends with ⟨resized, hrun, _⟩ | hfails
    · rw [hrun] at hok
      obtain hlength | hfits := hok.mp rfl
      · exact absurd hlength (by decide)
      · exact absurd hfits (by decide +kernel)
    · exact hfails
  · obtain ⟨program, leaf, hsupply, hends, hok⟩ := resize_all_or_nothing hobtained
      (rfl : labelled.get? [.field 1] = some (labels [.scalar (.number .u16 7)])) 3
    cases hsupply
    rcases hends with ⟨resized, hrun, hlength, hkept, _⟩ | ⟨_, _, _, hrun⟩
    · obtain _ | ⟨first, more⟩ := resized
      · cases hlength
      · obtain rfl : first = .scalar (.number .u16 7) := (List.cons.inj hkept).1
        exact ⟨more, hrun, Nat.succ.inj hlength⟩
    · have hsome := hok.mpr (.inr rfl)
      rw [hrun] at hsome
      cases hsome

end Value
end TopicCodec
