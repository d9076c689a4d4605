import Mathlib.Data.Nat.ModEq
import Mathlib.Tactic.IntervalCases
import TopicCodec.Descriptor.Size

/-!
# Positions without a limit

`Extent` keeps positions below the 64-bit limit, adds up rows of numbers at once and skips
whole cycles of other elements. The walks of this module do none of that: they visit every
element, and their positions are unbounded. Their steps are regular: they only go forward,
and from positions of the same remainder by the period they are equally long.

The exact walk pads every number of a row. A second one adds up rows of numbers as `Extent`
does; under an alignment cap that is zero or a power of two the two are the same.
-/
namespace TopicCodec

namespace WireFormat

theorem alignUp_eq_add_padding {align : Nat} (h : 0 < align) (position : Nat) :
    (position + (align - 1)) / align * align = position + (align - position % align) % align := by
  have hp := Nat.div_add_mod position align
  have hlt := Nat.mod_lt position h
  generalize position / align = k at hp
  generalize position % align = r at hp hlt ⊢
  subst hp
  rcases Nat.eq_zero_or_pos r with rfl | hr
  · have hd : (align * k + 0 + (align - 1)) / align = k := by
      rw [Nat.add_zero, Nat.mul_add_div h, Nat.div_eq_of_lt (by omega), Nat.add_zero]
    rw [hd, Nat.sub_zero, Nat.mod_self, Nat.add_zero, Nat.mul_comm]
  · have hd : (align * k + r + (align - 1)) / align = k + 1 := by
      rw [Nat.add_assoc, Nat.mul_add_div h, show r + (align - 1) = align + (r - 1) by omega,
        Nat.add_div_left _ h, Nat.div_eq_of_lt (by omega)]
    rw [hd, Nat.mod_eq_of_lt (by omega : align - r < align), Nat.add_mul, Nat.mul_comm k]
    omega

/-- The alignment cap is zero, which counts as one, or a power of two. -/
def CapIsPower (wire : WireFormat) : Prop := wire.maxAlign = 0 ∨ ∃ k, wire.maxAlign = 2 ^ k

theorem alignFor_dvd_width {wire : WireFormat} (h : wire.CapIsPower) (kind : ScalarKind) :
    wire.alignFor kind.width ∣ kind.width := by
  unfold alignFor
  rcases h with h | ⟨k, h⟩
  · rw [h]
    simp
  · rw [h]
    have hw : kind.width ≤ 8 := by cases kind <;> decide
    by_cases hk : k < 3
    · interval_cases k <;> cases kind <;> decide
    · have hle : 2 ^ 3 ≤ 2 ^ k := Nat.pow_le_pow_right (by decide) (by omega)
      rw [Nat.min_eq_left (by omega), Nat.max_eq_left kind.width_pos]

theorem alignFor_dvd_period (wire : WireFormat) (kind : ScalarKind) :
    wire.alignFor kind.width ∣ Extent.period wire := by
  unfold alignFor Extent.period
  split_ifs with h
  · obtain ⟨j, hj⟩ : ∃ j, kind.width = 2 ^ j := by
      cases kind <;> first | exact ⟨0, rfl⟩ | exact ⟨1, rfl⟩ | exact ⟨2, rfl⟩ | exact ⟨3, rfl⟩
    rw [Nat.pow_eq] at h
    rw [← h, hj]
    generalize wire.maxAlign.log2 = k
    have hone : max (min (2 ^ j) (2 ^ k)) 1 = 2 ^ min j k := by
      rcases Nat.le_total j k with hjk | hjk
      · rw [Nat.min_eq_left hjk, Nat.min_eq_left (Nat.pow_le_pow_right (by decide) hjk)]
        exact Nat.max_eq_left (Nat.two_pow_pos j)
      · rw [Nat.min_eq_right hjk, Nat.min_eq_right (Nat.pow_le_pow_right (by decide) hjk)]
        exact Nat.max_eq_left (Nat.two_pow_pos k)
    rw [hone]
    exact Nat.pow_dvd_pow 2 (Nat.min_le_right j k)
  · have hle : max (min kind.width wire.maxAlign) 1 ≤ 8 := by
      have hw : kind.width ≤ 8 := by cases kind <;> decide
      omega
    have hpos : 1 ≤ max (min kind.width wire.maxAlign) 1 := Nat.le_max_right _ _
    generalize max (min kind.width wire.maxAlign) 1 = align at hle hpos
    interval_cases align <;> decide

theorem padding_congr {wire : WireFormat} (kind : ScalarKind) {p q : Nat}
    (h : p ≡ q [MOD Extent.period wire]) :
    wire.padding p kind.width = wire.padding q kind.width := by
  have hm : p % wire.alignFor kind.width = q % wire.alignFor kind.width :=
    h.of_dvd (wire.alignFor_dvd_period kind)
  simp only [padding, hm]

theorem dvd_add_padding (wire : WireFormat) (position width : Nat) :
    wire.alignFor width ∣ position + wire.padding position width := by
  unfold padding
  rw [← alignUp_eq_add_padding (wire.alignFor_pos width)]
  exact Nat.dvd_mul_left _ _

theorem add_padding_mono (wire : WireFormat) (width : Nat) {q p : Nat} (h : q ≤ p) :
    q + wire.padding q width ≤ p + wire.padding p width := by
  unfold padding
  rw [← alignUp_eq_add_padding (wire.alignFor_pos width),
    ← alignUp_eq_add_padding (wire.alignFor_pos width)]
  apply Nat.mul_le_mul_right
  apply Nat.div_le_div_right
  omega

theorem padding_add_of_mod_eq_zero {wire : WireFormat} (kind : ScalarKind) (position : Nat)
    {distance : Nat} (h : distance % Extent.period wire = 0) :
    wire.padding (position + distance) kind.width = wire.padding position kind.width := by
  apply padding_congr kind
  rw [Nat.ModEq, Nat.add_mod, h, Nat.add_zero, Nat.mod_mod]

/-- Behind a number the next one of its kind is padded as if the first stood at zero. -/
theorem padding_behind (wire : WireFormat) (position width : Nat) :
    wire.padding (position + wire.padding position width + width) width =
      wire.padding width width := by
  obtain ⟨rounds, hrounds⟩ := wire.dvd_add_padding position width
  rw [hrounds, padding, padding, Nat.mul_add_mod]

theorem padding_self_eq_zero_iff (wire : WireFormat) (width : Nat) :
    wire.padding width width = 0 ↔ wire.alignFor width ∣ width := by
  have hpos := wire.alignFor_pos width
  have hlt := Nat.mod_lt width hpos
  rw [Nat.dvd_iff_mod_eq_zero, padding]
  constructor
  · intro h
    by_contra hne
    rw [Nat.mod_eq_of_lt (by omega)] at h
    omega
  · intro h
    rw [h, Nat.sub_zero, Nat.mod_self]

end WireFormat

namespace Extent

variable {wire : WireFormat} {extent : Extent}

/-! ## The exact walk -/

def exactLeaf (extent : Extent) (enter : UInt32 → Nat → Option Nat) (position : Nat) :
    Leaf → Option Nat
  | .number kind => some (position + extent.wire.padding position kind.width + kind.width)
  | .bool => some (position + 1)
  | .string (some bound) =>
      if extent.boundedStrings then
        some (position + extent.wire.padding position lengthWidth + (lengthWidth + bound.toNat + 1))
      else none
  | .string none => none
  | .struct stream => enter stream position

def exactShape (extent : Extent) (enter : UInt32 → Nat → Option Nat) (position : Nat) :
    Shape → Option Nat
  | .single leaf => extent.exactLeaf enter position leaf
  | .sequence _ => none
  | .array leaf count => iterate (extent.exactLeaf enter · leaf) count.toNat position

def exactStream (extent : Extent) : (fuel : Nat) → (id : UInt32) → (position : Nat) → Option Nat
  | 0, _, _ => none
  | fuel + 1, id, position => do
      let words ← extent.program.stream? id
      let insns ← (Stream.instructions id words).toOption
      insns.foldlM
        (fun position insn => extent.exactShape (extent.exactStream fuel) position insn.shape)
        position

/-- As the exact walk, but the numbers of an array are added up at once. -/
def rowShape (extent : Extent) (enter : UInt32 → Nat → Option Nat) (position : Nat) :
    Shape → Option Nat
  | .array (.number kind) count =>
      if count = 0 then some position
      else some (position + extent.wire.padding position kind.width + kind.width * count.toNat)
  | shape => extent.exactShape enter position shape

def rowStream (extent : Extent) : (fuel : Nat) → (id : UInt32) → (position : Nat) → Option Nat
  | 0, _, _ => none
  | fuel + 1, id, position => do
      let words ← extent.program.stream? id
      let insns ← (Stream.instructions id words).toOption
      insns.foldlM
        (fun position insn => extent.rowShape (extent.rowStream fuel) position insn.shape)
        position

/-! ## Exact steps are regular -/

/-- A step that answers everywhere or nowhere, never goes back, and is as long from one position
as from another a multiple of the period away. -/
structure Regular (wire : WireFormat) (step : Nat → Option Nat) : Prop where
  answers : ∀ p q, (step p).isSome = (step q).isSome
  grows : ∀ p next, step p = some next → p ≤ next
  shifts : ∀ p d, d % period wire = 0 → step (p + d) = (step p).map (· + d)

namespace Regular

theorem fails : Regular wire fun _ => none where
  answers _ _ := rfl
  grows _ _ h := by cases h
  shifts _ _ _ := rfl

theorem stays : Regular wire some where
  answers _ _ := rfl
  grows _ _ h := Nat.le_of_eq (Option.some.inj h)
  shifts _ _ _ := rfl

theorem number (kind : ScalarKind) (size : Nat) :
    Regular wire fun p => some (p + wire.padding p kind.width + size) where
  answers _ _ := rfl
  grows p next h := by
    have := Option.some.inj h
    omega
  shifts p d hd := by
    rw [WireFormat.padding_add_of_mod_eq_zero kind p hd, Option.map_some]
    congr 1
    omega

theorem bool : Regular wire fun p => some (p + 1) where
  answers _ _ := rfl
  grows p next h := by
    have := Option.some.inj h
    omega
  shifts p d _ := by
    rw [Option.map_some]
    congr 1
    omega

theorem exists_some {step : Nat → Option Nat} (h : Regular wire step) {p next : Nat}
    (hp : step p = some next) (q : Nat) : ∃ other, step q = some other := by
  apply Option.isSome_iff_exists.mp
  rw [h.answers q p, hp]
  rfl

theorem bind {first second : Nat → Option Nat} (h : Regular wire first)
    (h' : Regular wire second) : Regular wire fun p => (first p).bind second where
  answers p q := by
    have ha := h.answers p q
    cases hp : first p with
    | none =>
        rw [hp] at ha
        cases hq : first q with
        | none => rfl
        | some b =>
            rw [hq] at ha
            cases ha
    | some a =>
        rw [hp] at ha
        cases hq : first q with
        | none =>
            rw [hq] at ha
            cases ha
        | some b => exact h'.answers a b
  grows p next hn := by
    obtain ⟨middle, hm, hn⟩ := Option.bind_eq_some_iff.mp hn
    exact Nat.le_trans (h.grows p middle hm) (h'.grows middle next hn)
  shifts p d hd := by
    rw [h.shifts p d hd]
    cases first p with
    | none => rfl
    | some a => exact h'.shifts a d hd

theorem iterate {step : Nat → Option Nat} (h : Regular wire step) (count : Nat) :
    Regular wire (iterate step count) := by
  induction count with
  | zero => exact Regular.stays
  | succ count ih => exact h.bind ih

theorem exists_iterate {step : Nat → Option Nat} (h : Regular wire step) {p next : Nat}
    (hp : step p = some next) (count q : Nat) : ∃ n, Extent.iterate step count q = some n := by
  induction count generalizing q with
  | zero => exact ⟨q, rfl⟩
  | succ count ih =>
      obtain ⟨first, hf⟩ := h.exists_some hp q
      obtain ⟨n, hn⟩ := ih first
      exact ⟨n, Option.bind_eq_some_iff.mpr ⟨first, hf, hn⟩⟩

theorem le_of_iterate {step : Nat → Option Nat} (h : Regular wire step) {i count p m n : Nat}
    (hi : i ≤ count) (hm : Extent.iterate step i p = some m)
    (hn : Extent.iterate step count p = some n) : m ≤ n := by
  induction i generalizing count p with
  | zero =>
      cases hm
      exact (h.iterate count).grows _ n hn
  | succ i ih =>
      obtain ⟨count, rfl⟩ := Nat.exists_eq_add_of_le' (Nat.le_trans (Nat.succ_pos i) hi)
      obtain ⟨next, hnext, hm⟩ := Option.bind_eq_some_iff.mp hm
      obtain ⟨next', hnext', hn⟩ := Option.bind_eq_some_iff.mp hn
      cases hnext.symm.trans hnext'
      exact ih (by omega) hm hn

theorem eq_none_of_iterate {step : Nat → Option Nat} (h : Regular wire step) {count p : Nat}
    (hn : Extent.iterate step count p = none) : step p = none := by
  cases hp : step p with
  | none => rfl
  | some next =>
      obtain ⟨n, hsome⟩ := h.exists_iterate hp count p
      rw [hn] at hsome
      cases hsome

theorem foldlM {α : Type} {step : Nat → α → Option Nat} {items : List α}
    (h : ∀ item ∈ items, Regular wire (step · item)) :
    Regular wire fun p => items.foldlM step p := by
  induction items with
  | nil => exact Regular.stays
  | cons item rest ih =>
      have hrest := ih fun item hi => h item (by simp [hi])
      exact (h item (by simp)).bind hrest

end Regular

section Regular
variable {enter : UInt32 → Nat → Option Nat} (he : ∀ target, Regular extent.wire (enter target))
include he

theorem exactLeaf_regular (leaf : Leaf) :
    Regular extent.wire (extent.exactLeaf enter · leaf) := by
  cases leaf with
  | number kind => exact Regular.number kind kind.width
  | bool => exact Regular.bool
  | string bound =>
      cases bound with
      | none => exact Regular.fails
      | some bound =>
          simp only [exactLeaf]
          split_ifs
          · exact Regular.number .u32 (lengthWidth + bound.toNat + 1)
          · exact Regular.fails
  | struct target => exact he target

theorem exactShape_regular (shape : Shape) :
    Regular extent.wire (extent.exactShape enter · shape) := by
  cases shape with
  | single leaf => exact exactLeaf_regular he leaf
  | sequence leaf => exact Regular.fails
  | array leaf count => exact (exactLeaf_regular he leaf).iterate count.toNat

theorem rowShape_regular (shape : Shape) :
    Regular extent.wire (extent.rowShape enter · shape) := by
  cases shape with
  | single leaf => exact exactShape_regular he (.single leaf)
  | sequence leaf => exact exactShape_regular he (.sequence leaf)
  | array leaf count =>
      cases leaf with
      | number kind =>
          simp only [rowShape]
          split_ifs
          · exact Regular.stays
          · exact Regular.number kind (kind.width * count.toNat)
      | _ => exact exactShape_regular he (.array _ count)

end Regular

theorem foldStream_regular {step : Nat → Instruction → Option Nat} (target : UInt32)
    (h : ∀ insn, Regular wire (step · insn)) :
    Regular wire fun position => (extent.program.stream? target).bind fun words =>
      (Stream.instructions target words).toOption.bind fun insns =>
        insns.foldlM step position := by
  cases extent.program.stream? target with
  | none => exact Regular.fails
  | some words =>
      simp only [Option.bind_some]
      cases (Stream.instructions target words).toOption with
      | none => exact Regular.fails
      | some insns => exact Regular.foldlM fun insn _ => h insn

theorem rowStream_regular (fuel : Nat) (target : UInt32) :
    Regular extent.wire (extent.rowStream fuel target) := by
  induction fuel generalizing target with
  | zero => exact Regular.fails
  | succ fuel ih => exact foldStream_regular target fun insn => rowShape_regular ih insn.shape

/-! ## Steps one after the other -/

theorem iterate_succ {step : Nat → Option Nat} {p next : Nat} (h : step p = some next)
    (count : Nat) : iterate step (count + 1) p = iterate step count next := by
  rw [iterate, h]
  rfl

theorem exists_succ_of_iterate {step : Nat → Option Nat} {count p : Nat}
    (h : iterate step count p = none) : ∃ n, count = n + 1 := by
  cases count with
  | zero => cases h
  | succ count => exact ⟨count, rfl⟩

theorem period_pos (wire : WireFormat) : 0 < period wire := by
  unfold period
  split_ifs with h
  · rw [← h, Nat.pow_eq]
    exact Nat.two_pow_pos _
  · decide

theorem exists_places {step : Nat → Option Nat} (hr : Regular wire step) {count p n : Nat}
    (h : iterate step count p = some n) :
    ∃ place : Nat → Nat, Monotone place ∧ place 0 = p ∧ place count = n ∧
      ∀ i < count, step (place i) = some (place (i + 1)) := by
  induction count generalizing p with
  | zero =>
      cases h
      exact ⟨fun _ => _, monotone_const, rfl, rfl, fun i hi => by cases hi⟩
  | succ count ih =>
      obtain ⟨next, hn, h⟩ := Option.bind_eq_some_iff.mp h
      obtain ⟨place, hmono, hzero, hlast, hsteps⟩ := ih h
      refine ⟨fun i => i.casesOn p place, ?_, rfl, hlast, ?_⟩
      · refine monotone_nat_of_le_succ fun i => ?_
        cases i with
        | zero =>
            change p ≤ place 0
            rw [hzero]
            exact hr.grows p next hn
        | succ i => exact hmono (Nat.le_succ i)
      · intro i hi
        cases i with
        | zero =>
            change step p = some (place 0)
            rw [hzero, hn]
        | succ i => exact hsteps i (by omega)

theorem iterate_add {step : Nat → Option Nat} {size : Nat} (h : ∀ p, step p = some (p + size))
    (count p : Nat) : iterate step count p = some (p + size * count) := by
  induction count generalizing p with
  | zero => rfl
  | succ count ih =>
      rw [iterate_succ (h p), ih, Nat.mul_succ]
      congr 1
      omega

/-- Numbers of one kind add up, with the same padding before each but the first. -/
theorem iterate_number (kind : ScalarKind) (count p : Nat) :
    iterate (fun p => some (p + wire.padding p kind.width + kind.width)) (count + 1) p =
      some (p + wire.padding p kind.width + kind.width * (count + 1) +
        wire.padding kind.width kind.width * count) := by
  induction count generalizing p with
  | zero => simp [iterate]
  | succ count ih =>
      rw [iterate, Option.bind_eq_bind, Option.bind_some, ih, WireFormat.padding_behind,
        Nat.mul_succ kind.width (count + 1), Nat.mul_succ (wire.padding _ _) count]
      congr 1
      omega

theorem rowShape_eq_exactShape (hw : extent.wire.CapIsPower)
    (enter : UInt32 → Nat → Option Nat) (p : Nat) (shape : Shape) :
    extent.rowShape enter p shape = extent.exactShape enter p shape := by
  cases shape with
  | array leaf count =>
      cases leaf with
      | number kind =>
          simp only [rowShape, exactShape]
          split_ifs with hzero
          · rw [hzero]
            rfl
          · have hpos : count.toNat ≠ 0 := fun h => hzero (UInt32.toNat_inj.mp h)
            obtain ⟨n, hn⟩ := Nat.exists_eq_succ_of_ne_zero hpos
            have hpadding : extent.wire.padding kind.width kind.width = 0 :=
              (extent.wire.padding_self_eq_zero_iff _).mpr (WireFormat.alignFor_dvd_width hw kind)
            have hrow : iterate (extent.exactLeaf enter · (.number kind)) (n + 1) p = _ :=
              iterate_number kind n p
            rw [hpadding, Nat.zero_mul, Nat.add_zero, ← Nat.succ_eq_add_one, ← hn] at hrow
            exact hrow.symm
      | _ => rfl
  | _ => rfl

/-- Under a cap that is zero or a power of two the two walks without a limit are the same. -/
theorem rowStream_eq_exactStream (hw : extent.wire.CapIsPower) (fuel : Nat) :
    extent.rowStream fuel = extent.exactStream fuel := by
  induction fuel with
  | zero => rfl
  | succ fuel ih =>
      funext id position
      simp only [rowStream, exactStream, rowShape_eq_exactShape hw, ih]

end Extent
end TopicCodec
