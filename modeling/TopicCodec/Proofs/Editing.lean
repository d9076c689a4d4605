import Mathlib.Data.Nat.Basic
import Mathlib.Order.Basic
import TopicCodec.Descriptor
import TopicCodec.Proofs.Shaped
import TopicCodec.Value.Edit

/-!
# Samples reached by editing

An edit stores a text or a scalar into a slot of its kind, or resizes a sequence, at any
path. The values that edits lead to from the default instance are samples of the root
structure; resizing draws new elements from the program, and storing never changes the
kind of a slot.
-/
namespace TopicCodec

inductive Edit where
  | store (path : List PathStep) (content : Value)
  | resize (path : List PathStep) (length : Nat)

/-- The value after an edit; none if the path leads nowhere or a sequence cannot be resized. -/
def Edit.apply (value : Value) : Edit → Option Value
  | store path content => value.change? (fun slot => (content.store slot).2) path
  | resize path length =>
      match value.get? path with
      | some (.sequence supply items) =>
          match supply.resize items length with
          | .ok (supply, items) => value.change? (fun _ => .sequence supply items) path
          | .error _ => none
      | _ => none

/-- The samples of a descriptor: its default instance, edited any number of times. -/
def Reachable (desc : Descriptor) (sample : Value) : Prop :=
  ∃ (start : Value) (edits : List Edit),
    desc.program.default 0 = .ok start ∧ edits.foldlM Edit.apply start = some sample

variable {program : Program}

/-! ## One edit -/

theorem ScalarKind.name_injective : Function.Injective name := by
  intro a b h
  cases a <;> cases b <;> first | rfl | exact absurd h (by decide)

theorem ScalarKind.name_ne_bool (kind : ScalarKind) : kind.name ≠ "bool" := by
  cases kind <;> decide

theorem Shaped.scalar {shape : Shape} {old new : Scalar} (h : Shaped program shape (.scalar old))
    (hk : old.kindName = new.kindName) : Shaped program shape (.scalar new) := by
  cases h with
  | number kind bits =>
      cases new with
      | bool flag => exact absurd hk kind.name_ne_bool
      | number other bits' =>
          obtain rfl := ScalarKind.name_injective hk
          exact .number kind bits'
  | bool flag =>
      cases new with
      | bool flag' => exact .bool flag'
      | number other bits => exact absurd hk.symm other.name_ne_bool

theorem Shaped.store {shape : Shape} {slot : Value} (h : Shaped program shape slot)
    (content : Value) : Shaped program shape (content.store slot).2 := by
  unfold Value.store
  split
  · cases h with
    | text bound old => exact .text bound _
  · dsimp only
    split
    · rename_i hk
      exact h.scalar (beq_iff_eq.mp hk)
    · exact h
  · exact h

/-! A sequence of a program's leaf is cut, or grows by copies of one element. -/

theorem Supply.resize_leaf_eq_ok {leaf : Leaf} {supply : Supply} {items items' : List Value}
    {length : Nat} :
    resize (.leaf program leaf) items length = .ok (supply, items') ↔
      supply = .leaf program leaf ∧
        (length ≤ items.length ∧ items' = items.take length ∨
          items.length < length ∧ ∃ first, program.defaultElement leaf = .ok first ∧
            items' = items ++ List.replicate (length - items.length) first) := by
  simp only [resize]
  split_ifs with hlength
  · simp [hlength, hlength.not_gt, eq_comm]
  · have hgrow := Nat.lt_of_not_le hlength
    cases program.defaultElement leaf <;>
      simp [hlength, hgrow, bind, Except.bind, pure, Except.pure, eq_comm]

theorem Supply.resize_leaf_eq_error {leaf : Leaf} {items : List Value} {length : Nat}
    {defect : Defect} :
    resize (.leaf program leaf) items length = .error defect ↔
      items.length < length ∧ program.defaultElement leaf = .error defect := by
  simp only [resize]
  split_ifs with hlength
  · simp [hlength.not_gt]
  · have hgrow := Nat.lt_of_not_le hlength
    cases program.defaultElement leaf <;> simp [hgrow, bind, Except.bind, pure, Except.pure]

theorem Shaped.resize {leaf : Leaf} {supply supply' : Supply} {items items' : List Value}
    {length : Nat} (h : Shaped program (.sequence leaf) (.sequence supply items))
    (hr : supply.resize items length = .ok (supply', items')) :
    Shaped program (.sequence leaf) (.sequence supply' items') := by
  cases h with
  | sequence hi hd =>
      obtain ⟨rfl, ⟨_, rfl⟩ | ⟨_, first, hf, rfl⟩⟩ := Supply.resize_leaf_eq_ok.mp hr
      · refine .sequence (fun item hm => hi item (List.mem_of_mem_take hm)) ?_
        intro hne
        exact hd fun he => hne (by rw [he, List.take_nil])
      · refine .sequence (fun item hm => ?_) fun _ => ⟨first, hf⟩
        rcases List.mem_append.mp hm with hm | hm
        · exact hi item hm
        · rw [List.eq_of_mem_replicate hm]
          exact Program.defaultElement_shaped hf

theorem Value.mem_of_element? {index : Nat} {value inner : Value} {items : List Value}
    (hi : value.items? = some items) (h : value.element? index = some inner) : inner ∈ items := by
  simp only [element?, hi, Option.bind_eq_bind, Option.bind_some] at h
  obtain ⟨item, hm, hp⟩ := Option.bind_eq_some_iff.mp h
  cases item <;> cases hp <;> exact List.mem_of_getElem? hm

/-- A sample changed at the end of a path is a sample if the value there fits as the old one did. -/
theorem Shaped.change {shape : Shape} {value changed : Value} {change : Value → Value}
    {path : List PathStep} (h : Shaped program shape value)
    (hc : value.change? change path = some changed)
    (hf : ∀ inner slot, value.get? path = some slot → Shaped program inner slot →
      Shaped program inner (change slot)) : Shaped program shape changed := by
  induction path generalizing shape value changed with
  | nil =>
      cases hc
      exact hf shape value rfl h
  | cons step path ih =>
      obtain ⟨inner, hi, hc⟩ := Option.bind_eq_some_iff.mp hc
      obtain ⟨new, hn, hc⟩ := Option.bind_eq_some_iff.mp hc
      cases hc
      have hnew {place : Shape} (hs : Shaped program place inner) : Shaped program place new := by
        refine ih hs hn fun shape slot hg hs => hf shape slot ?_ hs
        rw [Value.get?, hi]
        exact hg
      cases step with
      | field index =>
          cases h with
          | struct hw ha hs =>
              change List.lookup index _ = some inner at hi
              refine .struct hw (ha.replace hi new) ?_
              intro other shape found hshape hfound
              rw [Value.lookup_insertField] at hfound
              split_ifs at hfound with ho
              · cases hfound
                subst ho
                exact hnew (hs other shape inner hshape hi)
              · exact hs other shape found hshape hfound
          | _ => cases hi
      | element index =>
          cases h with
          | sequence hs hd =>
              have hm := Value.mem_of_element? rfl hi
              refine .sequence (fun item h => ?_) fun _ => hd (List.ne_nil_of_mem hm)
              rcases List.mem_or_eq_of_mem_set h with h | rfl
              · exact hs item h
              · exact hnew (hs inner hm)
          | array hs hl =>
              have hm := Value.mem_of_element? rfl hi
              refine .array (fun item h => ?_) (by rw [List.length_set]; exact hl)
              rcases List.mem_or_eq_of_mem_set h with h | rfl
              · exact hs item h
              · exact hnew (hs inner hm)
          | _ => cases hi

theorem Edit.apply_shaped {shape : Shape} {value next : Value} (edit : Edit)
    (h : Shaped program shape value) (hn : edit.apply value = some next) :
    Shaped program shape next := by
  cases edit with
  | store path content => exact h.change hn fun inner slot _ hs => hs.store content
  | resize path length =>
      simp only [apply] at hn
      split at hn
      · rename_i supply items hg
        split at hn
        · rename_i supply' items' hr
          refine h.change hn fun inner slot hs hi => ?_
          rw [hg] at hs
          cases hs
          cases hi with
          | sequence ht hd => exact (Shaped.sequence ht hd).resize hr
        · cases hn
      · cases hn

/-! ## Any number of edits -/

theorem Edit.foldlM_apply_shaped {shape : Shape} {value next : Value} (edits : List Edit)
    (h : Shaped program shape value) (hn : edits.foldlM Edit.apply value = some next) :
    Shaped program shape next := by
  induction edits generalizing value with
  | nil =>
      cases hn
      exact h
  | cons edit edits ih =>
      obtain ⟨middle, hm, hn⟩ := Option.bind_eq_some_iff.mp hn
      exact ih (edit.apply_shaped h hm) hn

theorem Reachable.shaped {desc : Descriptor} {sample : Value} (h : Reachable desc sample) :
    Shaped desc.program (.single (.struct 0)) sample := by
  obtain ⟨start, edits, hd, he⟩ := h
  exact Edit.foldlM_apply_shaped edits (Program.default_shaped hd) he

end TopicCodec
