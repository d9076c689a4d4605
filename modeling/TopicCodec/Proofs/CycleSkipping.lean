import Mathlib.Data.List.Perm.Subperm
import TopicCodec.Proofs.ExactExtent

/-!
# Skipping cycles is exact

Positions are 64-bit numbers. Adding and multiplying are checked, so that a size past the
limit is no size. Aligning is not checked, and neither is the size of the table of
remainders, so that either may cut a walk off. Where it is not cut off, a walk that checks
every step answers what one check of the last position of the unlimited walk answers. This
holds of the elements of an array also where whole cycles of them are skipped: the position
behind the skipped cycles is the one that the unlimited walk has there, and if it is past
the limit, so is the last one.

A walk is cut off only if a number is aligned past the limit, or if the table has too many
places. The number of remainders bounds the number of elements visited before one of them
repeats, so the search for a cycle always ends with one.
-/
namespace TopicCodec

namespace Extent

variable {wire : WireFormat} {extent : Extent} {aborts : Abort → Prop}

/-! ## Checked steps -/

/-- A position of the unlimited walk as an answer. -/
def limited : Option Nat → Except Stop Nat
  | none => .error .unsized
  | some n => if n < limit then .ok n else .error .unsized

theorem limited_of_lt {n : Nat} (h : n < limit) : limited (some n) = .ok n := if_pos h

theorem limited_of_le {n : Nat} (h : limit ≤ n) : limited (some n) = .error .unsized :=
  if_neg (Nat.not_lt.mpr h)

theorem limited_cases (plain : Option Nat) :
    (∃ n < limit, plain = some n ∧ limited plain = .ok n) ∨ limited plain = .error .unsized := by
  cases plain with
  | none => exact .inr rfl
  | some n =>
      by_cases h : n < limit
      · exact .inl ⟨n, h, rfl, limited_of_lt h⟩
      · exact .inr (limited_of_le (Nat.not_lt.mp h))

/-- The outcome is where the unlimited walk leads, unless the walk was cut off, which happens for
some reasons only. -/
def Answers (aborts : Abort → Prop) (outcome : Except Stop Nat) (plain : Option Nat) : Prop :=
  outcome = limited plain ∨ ∃ abort, aborts abort ∧ outcome = .error (.aborted abort)

namespace Answers

variable {outcome : Except Stop Nat} {plain : Option Nat}

theorem eq_limited (h : Answers (fun _ => False) outcome plain) : outcome = limited plain :=
  h.resolve_right fun ⟨_, hfalse, _⟩ => hfalse

theorem eq_some {n : Nat} (h : Answers aborts (.ok n) plain) : plain = some n ∧ n < limit := by
  rcases h with h | ⟨_, _, h⟩
  · rcases limited_cases plain with ⟨m, hlt, hm, hl⟩ | hl
    · cases h.trans hl
      exact ⟨hm, hlt⟩
    · cases h.trans hl
  · cases h

theorem of_aborted {abort : Abort} (h : Answers aborts (.error (.aborted abort)) plain) :
    aborts abort := by
  rcases h with h | ⟨_, ha, h⟩
  · rcases limited_cases plain with ⟨_, _, _, hl⟩ | hl <;> cases h.trans hl
  · cases h
    exact ha

theorem ne_unsized {n : Nat} (h : Answers aborts outcome (some n)) (hn : n < limit) :
    outcome ≠ .error .unsized := by
  rintro rfl
  rcases h with h | ⟨_, _, h⟩
  · rw [limited_of_lt hn] at h
    cases h
  · cases h

theorem bind_none (h : Answers aborts outcome none) (next : Nat → Except Stop Nat) :
    Answers aborts (outcome >>= next) none := by
  rcases h with h | ⟨abort, ha, h⟩
  · rw [h]
    exact .inl rfl
  · rw [h]
    exact .inr ⟨abort, ha, rfl⟩

theorem bind_unsized (h : Answers aborts outcome plain) :
    Answers aborts (outcome >>= fun _ => .error .unsized) none := by
  rcases h with h | ⟨abort, ha, h⟩
  · rw [h]
    rcases limited_cases plain with ⟨_, _, _, hl⟩ | hl <;> rw [hl] <;> exact .inl rfl
  · rw [h]
    exact .inr ⟨abort, ha, rfl⟩

end Answers

/-- From a position below the limit, the step leads where the unlimited one leads. -/
def Checks (aborts : Abort → Prop) (step : Nat → Except Stop Nat) (plain : Nat → Option Nat)
    (p : Nat) : Prop :=
  p < limit → Answers aborts (step p) (plain p)

namespace Checks

variable {step step' : Nat → Except Stop Nat} {plain plain' : Nat → Option Nat} {p : Nat}

theorem stays (p : Nat) : Checks aborts .ok some p := fun hp => .inl (limited_of_lt hp).symm

theorem add (size p : Nat) : Checks aborts (checkedAdd · size) (fun p => some (p + size)) p :=
  fun _ => .inl rfl

/-- Once past the limit, an unlimited walk does not come back. -/
theorem bind (h : Checks aborts step plain p)
    (h' : ∀ m, plain p = some m → Checks aborts step' plain' m) (hr : Regular wire plain') :
    Checks aborts (fun p => step p >>= step') (fun p => (plain p).bind plain') p := by
  intro hp
  dsimp only
  rcases h hp with h | ⟨abort, ha, h⟩
  · rw [h]
    cases hm : plain p with
    | none => exact .inl rfl
    | some m =>
        by_cases hlt : m < limit
        · rw [limited_of_lt hlt]
          exact h' m hm hlt
        · left
          rw [limited_of_le (Nat.not_lt.mp hlt), Option.bind_some]
          cases hn : plain' m with
          | none => rfl
          | some n =>
              have hle := hr.grows m n hn
              exact (limited_of_le (by omega)).symm
  · rw [h]
    exact .inr ⟨abort, ha, rfl⟩

theorem iterate (hr : Regular wire plain) {count : Nat}
    (h : ∀ i < count, ∀ q, iterate plain i p = some q → Checks aborts step plain q) :
    Checks aborts (Extent.iterate step count) (Extent.iterate plain count) p := by
  induction count generalizing p with
  | zero => exact Checks.stays p
  | succ count ih =>
      have hfirst : Checks aborts step plain p := h 0 (Nat.succ_pos count) p rfl
      refine hfirst.bind (fun m hm => ih fun i hi q hq => ?_) (hr.iterate count)
      apply h (i + 1) (by omega) q
      rw [iterate_succ hm, hq]

theorem foldlM {α : Type} {step : Nat → α → Except Stop Nat} {plain : Nat → α → Option Nat}
    {items : List α} (hr : ∀ item, Regular wire (plain · item))
    (h : ∀ front item rest, items = front ++ item :: rest → ∀ q, front.foldlM plain p = some q →
      Checks aborts (step · item) (plain · item) q) :
    Checks aborts (fun p => items.foldlM step p) (fun p => items.foldlM plain p) p := by
  induction items generalizing p with
  | nil => exact Checks.stays p
  | cons item rest ih =>
      have hfirst : Checks aborts (step · item) (plain · item) p := h [] item rest rfl p rfl
      have hregular : Regular wire fun p => rest.foldlM plain p :=
        Regular.foldlM fun item _ => hr item
      refine hfirst.bind (fun m hm => ih fun front next tail hsplit q hq => ?_) hregular
      apply h (item :: front) next tail (by rw [hsplit, List.cons_append]) q
      rw [List.foldlM_cons, hm]
      exact hq

end Checks

/-! ## Elements one by one -/

section Skip
variable {step : Nat → Except Stop Nat} {plain : Nat → Option Nat} {place : Nat → Nat}
  {count : Nat} (hr : Regular wire plain) (hmono : Monotone place)
  (hsteps : ∀ i < count, plain (place i) = some (place (i + 1)))
  (hchecks : ∀ i < count, Checks aborts step plain (place i))

include hsteps in
theorem iterate_places {i n : Nat} (h : i + n ≤ count) :
    iterate plain n (place i) = some (place (i + n)) := by
  induction n generalizing i with
  | zero => rfl
  | succ n ih =>
      rw [iterate_succ (hsteps i (by omega)), ih (by omega)]
      congr 2
      omega

include hr hsteps in
/-- Where a remainder repeats after `cycle` steps, each further `cycle` steps are as long. -/
theorem place_cycles {first cycle span q : Nat}
    (hnext : place (first + cycle) = place first + span) (hspan : span % period wire = 0)
    (hc : first + cycle * q ≤ count) : place (first + cycle * q) = place first + span * q := by
  induction q with
  | zero => rfl
  | succ q ih =>
      rw [Nat.mul_succ, ← Nat.add_assoc] at hc ⊢
      have hfirst : iterate plain cycle (place first) = some (place first + span) := by
        rw [← hnext]
        exact iterate_places hsteps (by
          have := Nat.le_add_right cycle (cycle * q)
          omega)
      have hlater := iterate_places hsteps hc
      have hmod : span * q % period wire = 0 := by
        rw [Nat.mul_mod, hspan, Nat.zero_mul, Nat.zero_mod]
      have hshift := (hr.iterate cycle).shifts (place first) (span * q) hmod
      rw [ih (by omega), hshift, hfirst, Option.map_some] at hlater
      have := Option.some.inj hlater
      rw [Nat.mul_succ]
      omega

include hr hsteps hchecks in
theorem iterate_checks {i n : Nat} (h : i + n ≤ count) (hi : place i < limit) :
    Answers aborts (iterate step n (place i)) (some (place (i + n))) := by
  have hall : ∀ j < n, ∀ q, iterate plain j (place i) = some q →
      Checks aborts step plain q := by
    intro j hj q hq
    rw [iterate_places hsteps (by omega)] at hq
    cases hq
    exact hchecks (i + j) (by omega)
  rw [← iterate_places hsteps h]
  exact Checks.iterate hr hall hi

include hr hmono hsteps hchecks in
/-- From the second place of one remainder, as many cycles as fit are skipped and the steps left
over are taken. -/
theorem jump_checks {first done : Nat} (hlt : first < done) (hd : done ≤ count)
    (hsame : place first % period wire = place done % period wire) :
    Answers aborts
      (checkedMul (place done - place first) ((count - done) / (done - first)) >>=
        fun skipped => checkedAdd (place done) skipped >>=
          iterate step ((count - done) % (done - first))) (some (place count)) := by
  have hle : place first ≤ place done := hmono hlt.le
  have hdiv := Nat.div_add_mod (count - done) (done - first)
  generalize (count - done) / (done - first) = q at hdiv ⊢
  generalize (count - done) % (done - first) = r at hdiv ⊢
  have hplace :
      place (done + (done - first) * q) = place done + (place done - place first) * q := by
    have hcycles : place (first + (done - first) * (q + 1)) =
        place first + (place done - place first) * (q + 1) := by
      apply place_cycles hr hsteps
      · rw [Nat.add_sub_cancel' hlt.le, Nat.add_sub_cancel' hle]
      · exact Nat.sub_mod_eq_zero_of_mod_eq hsame.symm
      · rw [Nat.mul_succ]
        omega
    rw [Nat.mul_succ, Nat.mul_succ, Nat.add_comm (_ * q), ← Nat.add_assoc,
      Nat.add_sub_cancel' hlt.le, Nat.add_comm (_ * q), ← Nat.add_assoc,
      Nat.add_sub_cancel' hle] at hcycles
    exact hcycles
  by_cases hj : place (done + (done - first) * q) < limit
  · have hmul : checkedMul (place done - place first) q =
        .ok ((place done - place first) * q) := if_pos (by omega)
    have hadd : checkedAdd (place done) ((place done - place first) * q) =
        .ok (place (done + (done - first) * q)) := by
      rw [hplace]
      exact if_pos (by omega)
    have hrest := iterate_checks hr hsteps hchecks
      (show done + (done - first) * q + r ≤ count by omega) hj
    rw [show done + (done - first) * q + r = count by omega] at hrest
    rw [hmul]
    change Answers aborts (checkedAdd _ _ >>= _) _
    rw [hadd]
    exact hrest
  · have hlast : place (done + (done - first) * q) ≤ place count := hmono (by omega)
    left
    rw [limited_of_le (by omega)]
    unfold checkedMul
    split_ifs
    · have hadd : checkedAdd (place done) ((place done - place first) * q) = .error .unsized :=
        if_neg (by omega)
      change checkedAdd _ _ >>= _ = _
      rw [hadd]
      rfl
    · rfl

end Skip

/-! ## The search for a cycle -/

/-- The visits recorded while no remainder has repeated, latest first. -/
def visits (period : Nat) (place : Nat → Nat) : (done : Nat) → List (Nat × Visit)
  | 0 => []
  | done + 1 => (place done % period, ⟨done, place done⟩) :: visits period place done

section Visits
variable {period : Nat} {place : Nat → Nat} {done : Nat}

theorem eq_of_mem_visits {rest : Nat} {first : Visit}
    (h : (visits period place done).lookup rest = some first) :
    first.done < done ∧ first.position = place first.done ∧ place first.done % period = rest := by
  induction done with
  | zero => cases h
  | succ done ih =>
      rw [visits, List.lookup_cons] at h
      split at h
      · rename_i he
        cases h
        exact ⟨Nat.lt_succ_self done, rfl, (beq_iff_eq.mp he).symm⟩
      · obtain ⟨hlt, hp, hr⟩ := ih h
        exact ⟨Nat.lt_succ_of_lt hlt, hp, hr⟩

theorem length_visits : (visits period place done).length = done := by
  induction done with
  | zero => rfl
  | succ done ih => rw [visits, List.length_cons, ih]

theorem lt_of_mem_visits (hp : 0 < period) {rest : Nat}
    (h : rest ∈ (visits period place done).map Prod.fst) : rest < period := by
  induction done with
  | zero => cases h
  | succ done ih =>
      rcases List.mem_cons.mp h with rfl | h
      · exact Nat.mod_lt _ hp
      · exact ih h

theorem le_period_of_nodup (hp : 0 < period)
    (h : ((visits period place done).map Prod.fst).Nodup) : done ≤ period := by
  have hsubset : (visits period place done).map Prod.fst ⊆ List.range period := by
    intro rest hrest
    exact List.mem_range.mpr (lt_of_mem_visits hp hrest)
  have hlength := (List.subperm_of_subset h hsubset).length_le
  rwa [List.length_map, length_visits, List.length_range] at hlength

end Visits

section Search
variable {step : Nat → Except Stop Nat} {plain : Nat → Option Nat} {place : Nat → Nat}
  {count : Nat} (hr : Regular wire plain) (hmono : Monotone place)
  (hsteps : ∀ i < count, plain (place i) = some (place (i + 1)))
  (hchecks : ∀ i < count, Checks aborts step plain (place i))
include hr hmono hsteps hchecks

theorem skip_checks {fuel done : Nat} (hd : done ≤ count) (hlimit : place done < limit)
    (hkeys : ((visits (period wire) place done).map Prod.fst).Nodup)
    (hfuel : min (period wire) count + 1 ≤ fuel + done) :
    Answers aborts
      (skip step (period wire) count fuel (visits (period wire) place done) done (place done))
      (some (place count)) := by
  induction fuel generalizing done with
  | zero =>
      have hle := le_period_of_nodup (period_pos wire) hkeys
      omega
  | succ fuel ih =>
      rw [skip]
      by_cases hend : count ≤ done
      · obtain rfl : done = count := by omega
        rw [if_pos hend]
        exact .inl (limited_of_lt hlimit).symm
      · rw [if_neg hend]
        cases hlookup : (visits (period wire) place done).lookup (place done % period wire) with
        | some first =>
            obtain ⟨hlt, hfirst, hsame⟩ := eq_of_mem_visits hlookup
            dsimp only
            rw [hfirst]
            exact jump_checks hr hmono hsteps hchecks hlt hd hsame
        | none =>
            dsimp only
            rcases hchecks done (by omega) hlimit with hstep | ⟨abort, ha, hstep⟩
            · rw [hstep, hsteps done (by omega)]
              by_cases hnext : place (done + 1) < limit
              · rw [limited_of_lt hnext]
                refine ih (by omega) hnext ?_ (by omega)
                rw [visits, List.map_cons, List.nodup_cons]
                refine ⟨fun hmem => ?_, hkeys⟩
                obtain ⟨visit, hvisit, heq⟩ := List.mem_map.mp hmem
                have hne := List.lookup_eq_none_iff.mp hlookup visit hvisit
                simp [heq] at hne
              · have hlast : place (done + 1) ≤ place count := hmono (by omega)
                left
                rw [limited_of_le (Nat.not_lt.mp hnext), limited_of_le (by omega)]
                rfl
            · rw [hstep]
              exact .inr ⟨abort, ha, rfl⟩

end Search

/-! ## The table of remainders -/

/-- The table of remainders can be addressed. -/
def TableFits (wire : WireFormat) : Prop := Abort.addressable (period wire) visitSize = true

instance (wire : WireFormat) : Decidable (TableFits wire) := inferInstanceAs (Decidable (_ = true))

/-- Only caps that are large powers of two need too large a table. -/
theorem tableFits_iff (wire : WireFormat) :
    TableFits wire ↔ ∀ k, wire.maxAlign = 2 ^ k → k < 59 := by
  have hlimit : UInt64.size / 2 = 2 ^ 63 := by decide
  unfold TableFits Abort.addressable visitSize
  rw [decide_eq_true_iff, hlimit]
  unfold period
  split_ifs with hpower
  · rw [Nat.pow_eq] at hpower
    constructor
    · intro h k hk
      by_contra hle
      have : 2 ^ 59 ≤ 2 ^ k := Nat.pow_le_pow_right (by decide) (by omega)
      omega
    · intro h
      have hk := h _ hpower.symm
      have : 2 ^ wire.maxAlign.log2 ≤ 2 ^ 58 := Nat.pow_le_pow_right (by decide) (by omega)
      omega
  · refine ⟨fun _ k hk => absurd ?_ hpower, fun _ => by decide⟩
    rw [hk, Nat.log2_two_pow, Nat.pow_eq]

section Advance
variable (step : Nat → Except Stop Nat) (count p : Nat)

theorem advance_of_fits (h : TableFits wire) : advance step (period wire) count p =
    skip step (period wire) count (min (period wire) count + 1) [] 0 p := if_pos h

theorem advance_of_not_fits (h : ¬TableFits wire) :
    advance step (period wire) count p = .error (.aborted .table) := if_neg h

theorem advance_eq_bind (h : TableFits wire) :
    ∃ rest, advance step (period wire) (count + 1) p = step p >>= rest := by
  have hpos := period_pos wire
  obtain ⟨fuel, hf⟩ : ∃ fuel, min (period wire) (count + 1) = fuel + 1 :=
    ⟨min (period wire) (count + 1) - 1, by omega⟩
  rw [advance_of_fits step (count + 1) p h, hf, skip, if_neg (by omega), List.lookup_nil]
  exact ⟨_, rfl⟩

end Advance

/-- Skipping whole cycles answers what the elements, visited one by one, lead to. -/
theorem Checks.advance {step : Nat → Except Stop Nat} {plain : Nat → Option Nat}
    (hr : Regular wire plain) (ht : aborts .table ∨ TableFits wire) {count p : Nat}
    (h : ∀ i < count, ∀ q, Extent.iterate plain i p = some q → Checks aborts step plain q) :
    Checks aborts (Extent.advance step (period wire) count) (Extent.iterate plain count) p := by
  intro hp
  by_cases hfits : TableFits wire
  · cases hn : Extent.iterate plain count p with
    | none =>
        obtain ⟨count, rfl⟩ := exists_succ_of_iterate hn
        have hplain : plain p = none := hr.eq_none_of_iterate hn
        obtain ⟨rest, hrest⟩ := advance_eq_bind step count p hfits
        rw [hrest]
        exact (hplain ▸ h 0 (Nat.succ_pos count) p rfl hp).bind_none rest
    | some n =>
        obtain ⟨place, hmono, rfl, rfl, hsteps⟩ := exists_places hr hn
        have hchecks : ∀ i < count, Checks aborts step plain (place i) := by
          intro i hi
          apply h i hi
          rw [iterate_places hsteps (by omega), Nat.zero_add]
        rw [advance_of_fits _ _ _ hfits]
        exact skip_checks hr hmono hsteps hchecks (Nat.zero_le count) hp List.nodup_nil
          (Nat.le_refl _)
  · rw [advance_of_not_fits _ _ _ hfits]
    exact .inr ⟨.table, ht.resolve_right hfits, rfl⟩

/-! ## Nothing is aligned past the limit -/

theorem alignUp_eq (wire : WireFormat) (position width : Nat) :
    alignUp wire position width =
      if position + wire.padding position width < limit then
        .ok (position + wire.padding position width)
      else .error (.aborted .product) := by
  unfold alignUp Abort.multiply
  dsimp only
  rw [WireFormat.alignUp_eq_add_padding (wire.alignFor_pos width)]
  unfold WireFormat.padding limit
  dsimp only
  split_ifs <;> rfl

/-- A number of `width` bytes that is met below the limit begins below it. -/
def AlignsBelow (wire : WireFormat) (position width : Nat) : Prop :=
  position < limit → position + wire.padding position width < limit

def LeafClear (extent : Extent) (enter : UInt32 → Nat → Prop) (position : Nat) : Leaf → Prop
  | .number kind => AlignsBelow extent.wire position kind.width
  | .bool => True
  | .string (some _) =>
      extent.boundedStrings = true → AlignsBelow extent.wire position lengthWidth
  | .string none => True
  | .struct stream => enter stream position

/-- A row of numbers is aligned once; other elements of an array are met one by one. -/
def ShapeClear (extent : Extent) (plain : UInt32 → Nat → Option Nat) (enter : UInt32 → Nat → Prop)
    (position : Nat) : Shape → Prop
  | .single leaf => extent.LeafClear enter position leaf
  | .sequence _ => True
  | .array (.number kind) count => count ≠ 0 → AlignsBelow extent.wire position kind.width
  | .array leaf count => ∀ i < count.toNat, ∀ q,
      iterate (extent.exactLeaf plain · leaf) i position = some q → extent.LeafClear enter q leaf

/-- Of all numbers and lengths of bounded strings that the unlimited walk meets in a structure,
none that it meets below the limit is aligned past it. -/
def StreamClear (extent : Extent) : (fuel : Nat) → (id : UInt32) → (position : Nat) → Prop
  | 0, _, _ => True
  | fuel + 1, id, position =>
      ∀ words, extent.program.stream? id = some words →
        ∀ front insn rest, (Scan.readAll id words).instructions = front ++ insn :: rest → ∀ q,
          front.foldlM (fun p insn => extent.rowShape (extent.rowStream fuel) p insn.shape)
            position = some q →
          extent.ShapeClear (extent.rowStream fuel) (extent.StreamClear fuel) q insn.shape

theorem Checks.aligned {p width : Nat} (h : aborts .product ∨ AlignsBelow wire p width)
    (size : Nat) :
    Checks aborts (fun p => do checkedAdd (← alignUp wire p width) size)
      (fun p => some (p + wire.padding p width + size)) p := by
  intro hp
  dsimp only
  rw [alignUp_eq]
  split_ifs with hlimit
  · exact .inl rfl
  · exact .inr ⟨.product, h.resolve_right fun h => hlimit (h hp), rfl⟩

section Clear
variable {enter : UInt32 → Nat → Except Stop Nat} {plain : UInt32 → Nat → Option Nat}
  {clear : UInt32 → Nat → Prop}

theorem numbers_checks {p : Nat} {kind : ScalarKind} {count : UInt32}
    (h : aborts .product ∨ (count ≠ 0 → AlignsBelow extent.wire p kind.width)) :
    Checks aborts (extent.shape enter · (.array (.number kind) count))
      (extent.rowShape plain · (.array (.number kind) count)) p := by
  simp only [shape, rowShape]
  split_ifs with hzero
  · exact Checks.stays p
  · have hsize : checkedMul kind.width count.toNat = .ok (kind.width * count.toNat) := by
      have hw : kind.width ≤ 8 := by cases kind <;> decide
      have hc : count.toNat < 2 ^ 32 := count.toNat_lt
      have hmul : kind.width * count.toNat ≤ 8 * count.toNat := Nat.mul_le_mul_right _ hw
      have hlimit : limit = 2 ^ 64 := rfl
      exact if_pos (by omega)
    simp only [hsize]
    exact Checks.aligned (h.imp_right fun h => h hzero) (kind.width * count.toNat)

theorem bools_checks (p : Nat) (count : UInt32) :
    Checks aborts (extent.shape enter · (.array .bool count))
      (extent.rowShape plain · (.array .bool count)) p := by
  have hsum (p : Nat) : iterate (extent.exactLeaf plain · .bool) count.toNat p =
      some (p + 1 * count.toNat) := iterate_add (fun _ => rfl) count.toNat p
  simp only [shape, rowShape, exactShape, hsum, Nat.one_mul]
  split_ifs with hzero
  · rw [hzero]
    exact Checks.stays p
  · exact Checks.add count.toNat p

variable
  (he : ∀ target p, aborts .product ∨ clear target p →
    Checks aborts (enter target) (plain target) p)
  (hr : ∀ target, Regular extent.wire (plain target))
  (ht : aborts .table ∨ TableFits extent.wire)
include he

theorem leaf_checks {p : Nat} {leaf : Leaf}
    (h : aborts .product ∨ extent.LeafClear clear p leaf) :
    Checks aborts (extent.leaf enter · leaf) (extent.exactLeaf plain · leaf) p := by
  cases leaf with
  | number kind => exact Checks.aligned h kind.width
  | bool => exact Checks.add 1 p
  | string bound =>
      cases bound with
      | none => exact fun _ => .inl rfl
      | some bound =>
          simp only [leaf, exactLeaf]
          split_ifs with hb
          · exact Checks.aligned (h.imp_right fun h => h hb) (lengthWidth + bound.toNat + 1)
          · exact fun _ => .inl rfl
  | struct target => exact he target p h

include hr ht

theorem elements_checks {p : Nat} {leaf : Leaf} {count : Nat}
    (h : aborts .product ∨ ∀ i < count, ∀ q,
      iterate (extent.exactLeaf plain · leaf) i p = some q → extent.LeafClear clear q leaf) :
    Checks aborts (advance (extent.leaf enter · leaf) (period extent.wire) count)
      (iterate (extent.exactLeaf plain · leaf) count) p :=
  Checks.advance (exactLeaf_regular hr leaf) ht fun i hi q hq =>
    leaf_checks he (h.imp_right fun h => h i hi q hq)

theorem array_checks {p : Nat} {leaf : Leaf} {count : UInt32}
    (h : aborts .product ∨ extent.ShapeClear plain clear p (.array leaf count)) :
    Checks aborts (extent.shape enter · (.array leaf count))
      (extent.rowShape plain · (.array leaf count)) p := by
  cases leaf with
  | number kind => exact numbers_checks h
  | bool => exact bools_checks p count
  | _ =>
      simp only [shape]
      split_ifs with hzero
      · rw [hzero]
        exact Checks.stays p
      · exact elements_checks he hr ht h

theorem shape_checks {p : Nat} {shape : Shape}
    (h : aborts .product ∨ extent.ShapeClear plain clear p shape) :
    Checks aborts (extent.shape enter · shape) (extent.rowShape plain · shape) p := by
  cases shape with
  | single leaf => exact leaf_checks he h
  | sequence leaf => exact fun _ => .inl rfl
  | array leaf count => exact array_checks he hr ht h

theorem fields_checks {p : Nat} {insns : List Instruction}
    (h : aborts .product ∨ ∀ front insn rest, insns = front ++ insn :: rest → ∀ q,
      front.foldlM (fun p insn => extent.rowShape plain p insn.shape) p = some q →
      extent.ShapeClear plain clear q insn.shape) :
    Checks aborts (fun p => insns.foldlM (fun p insn => extent.shape enter p insn.shape) p)
      (fun p => insns.foldlM (fun p insn => extent.rowShape plain p insn.shape) p) p :=
  Checks.foldlM (fun insn => rowShape_regular hr insn.shape) fun front insn rest hsplit q hq =>
    shape_checks he hr ht (h.imp_right fun h => h front insn rest hsplit q hq)

end Clear

/-- Following a structure answers where the unlimited walk leads. It may be cut off in aligning,
unless nothing is aligned past the limit, and over the table, unless that fits. -/
theorem stream_checks (ht : aborts .table ∨ TableFits extent.wire) (fuel : Nat) {target : UInt32}
    {p : Nat} (h : aborts .product ∨ extent.StreamClear fuel target p) :
    Checks aborts (extent.stream fuel target) (extent.rowStream fuel target) p := by
  induction fuel generalizing target p with
  | zero => exact fun _ => .inl rfl
  | succ fuel ih =>
      intro hp
      simp only [stream, rowStream, Option.bind_eq_bind]
      cases hwords : extent.program.stream? target with
      | none => exact .inl rfl
      | some words =>
          have hfields := fields_checks (fun _ _ hc => ih hc) (rowStream_regular fuel) ht
            (h.imp_right fun h => h words hwords)
          have hanswers := hfields hp
          simp only [Option.bind_some, Stream.instructions, Scan.complete]
          cases (Scan.readAll target words).ending with
          | ok pc =>
              simp only [bind_pure]
              exact hanswers
          | error defect => exact hanswers.bind_unsized

theorem fields_eq_some {insns : List Instruction} {fuel p last : Nat} (hp : p < limit)
    (h : insns.foldlM (fun p insn => extent.shape (extent.stream fuel) p insn.shape) p =
      .ok last) :
    insns.foldlM (fun p insn => extent.rowShape (extent.rowStream fuel) p insn.shape) p =
      some last := by
  have hanswers : Answers (fun _ => True)
      (insns.foldlM (fun p insn => extent.shape (extent.stream fuel) p insn.shape) p)
      (insns.foldlM (fun p insn => extent.rowShape (extent.rowStream fuel) p insn.shape) p) :=
    fields_checks (fun _ _ hc => stream_checks (.inl trivial) fuel hc) (rowStream_regular fuel)
      (.inl trivial) (.inl trivial) hp
  rw [h] at hanswers
  exact hanswers.eq_some.1

/-- What can cut off the walk over a structure. -/
def Cuts (extent : Extent) (fuel : Nat) (id : UInt32) (position : Nat) : Abort → Prop
  | .product => ¬extent.StreamClear fuel id position
  | .table => ¬TableFits extent.wire

theorem limit_pos : 0 < limit := by decide

theorem stream_answers (extent : Extent) (fuel : Nat) (id : UInt32) {position : Nat}
    (h : position < limit) :
    Answers (extent.Cuts fuel id position) (extent.stream fuel id position)
      (extent.rowStream fuel id position) :=
  stream_checks (Classical.em (TableFits extent.wire)).symm fuel
    (Classical.em (extent.StreamClear fuel id position)).symm h

/-! ## Walks that end below the limit -/

theorem toOption_instructions {id : UInt32} {words : Stream} {insns : List Instruction}
    (h : (Stream.instructions id words).toOption = some insns) :
    insns = (Scan.readAll id words).instructions ∧
      ∃ pc, (Scan.readAll id words).ending = .ok pc := by
  unfold Stream.instructions Scan.complete at h
  cases hend : (Scan.readAll id words).ending with
  | error defect =>
      rw [hend] at h
      cases h
  | ok pc =>
      rw [hend] at h
      exact ⟨(Option.some.inj h).symm, pc, rfl⟩

theorem alignsBelow_of_lt {p width size : Nat} (h : p + wire.padding p width + size < limit) :
    AlignsBelow wire p width := fun _ => by omega

section Below
variable {plain : UInt32 → Nat → Option Nat} {clear : UInt32 → Nat → Prop}
  (he : ∀ target p n, plain target p = some n → n < limit → clear target p)
include he

theorem leafClear_of_lt {p n : Nat} {leaf : Leaf} (h : extent.exactLeaf plain p leaf = some n)
    (hn : n < limit) : extent.LeafClear clear p leaf := by
  cases leaf with
  | number kind => exact alignsBelow_of_lt (Option.some.inj h ▸ hn)
  | bool => trivial
  | string bound =>
      cases bound with
      | none => trivial
      | some bound =>
          intro hb
          simp only [exactLeaf, hb, if_true] at h
          exact alignsBelow_of_lt (Option.some.inj h ▸ hn)
  | struct target => exact he target p n h hn

/-- Positions only grow, so that of the elements of an array the last one decides. -/
theorem elementsClear_of_lt {leaf : Leaf}
    (hr : Regular extent.wire (extent.exactLeaf plain · leaf)) {count p n : Nat}
    (h : iterate (extent.exactLeaf plain · leaf) count p = some n) (hn : n < limit) :
    ∀ i < count, ∀ q, iterate (extent.exactLeaf plain · leaf) i p = some q →
      extent.LeafClear clear q leaf := by
  obtain ⟨place, hmono, rfl, rfl, hsteps⟩ := exists_places hr h
  intro i hi q hq
  rw [iterate_places hsteps (by omega), Nat.zero_add] at hq
  cases hq
  have hle : place (i + 1) ≤ place count := hmono (by omega)
  exact leafClear_of_lt he (hsteps i hi) (by omega)

theorem shapeClear_of_lt (hr : ∀ target, Regular extent.wire (plain target)) {p n : Nat}
    {shape : Shape} (h : extent.rowShape plain p shape = some n) (hn : n < limit) :
    extent.ShapeClear plain clear p shape := by
  cases shape with
  | single leaf => exact leafClear_of_lt he h hn
  | sequence leaf => trivial
  | array leaf count =>
      cases leaf with
      | number kind =>
          intro hzero
          simp only [rowShape, hzero, if_false] at h
          exact alignsBelow_of_lt (Option.some.inj h ▸ hn)
      | _ => exact elementsClear_of_lt he (exactLeaf_regular hr _) h hn

end Below

theorem streamClear_of_lt (fuel : Nat) {target : UInt32} {p n : Nat}
    (h : extent.rowStream fuel target p = some n) (hn : n < limit) :
    extent.StreamClear fuel target p := by
  induction fuel generalizing target p n with
  | zero => trivial
  | succ fuel ih =>
      intro words hwords front insn rest hsplit q hq
      have hregular : ∀ target, Regular extent.wire (extent.rowStream fuel target) :=
        rowStream_regular fuel
      simp only [rowStream, hwords, Option.bind_eq_bind, Option.bind_some] at h
      obtain ⟨insns, hinsns, h⟩ := Option.bind_eq_some_iff.mp h
      obtain ⟨rfl, _, _⟩ := toOption_instructions hinsns
      simp only [hsplit, List.foldlM_append, List.foldlM_cons, hq, Option.bind_eq_bind,
        Option.bind_some] at h
      obtain ⟨next, hnext, hrest⟩ := Option.bind_eq_some_iff.mp h
      have hgrows : Regular extent.wire fun p => rest.foldlM
          (fun p insn => extent.rowShape (extent.rowStream fuel) p insn.shape) p :=
        Regular.foldlM fun insn _ => rowShape_regular hregular insn.shape
      have hle : next ≤ n := hgrows.grows next n hrest
      exact shapeClear_of_lt (fun _ _ _ hm hlt => ih hm hlt) hregular hnext (by omega)

/-- Skipping cycles is exact. For every program, nesting, leaf, number of elements and start, under
every alignment cap and with strings counted or not: as long as the positions of the elements stay
below the limit and the table of remainders fits, skipping whole cycles of elements answers what
following the elements one by one does, which is nothing as soon as one element has no size. The
table does not fit under a cap of 2⁵⁹ or a larger power of two; then the walk is cut off, even if
no element needs to be visited. -/
theorem advance_eq_iterate (extent : Extent) (fuel : Nat) (leaf : Leaf) (count position : Nat)
    (h : ∀ i ≤ count, ∀ p, iterate (extent.exactLeaf (extent.rowStream fuel) · leaf) i position =
      some p → p < limit) :
    advance (extent.leaf (extent.stream fuel) · leaf) (period extent.wire) count position =
      if TableFits extent.wire then
        iterate (extent.leaf (extent.stream fuel) · leaf) count position
      else .error (.aborted .table) := by
  split_ifs with ht
  · have hposition : position < limit := h 0 (Nat.zero_le count) position rfl
    have hregular : Regular extent.wire (extent.exactLeaf (extent.rowStream fuel) · leaf) :=
      exactLeaf_regular (rowStream_regular fuel) leaf
    cases hn : iterate (extent.exactLeaf (extent.rowStream fuel) · leaf) count position with
    | none =>
        obtain ⟨count, rfl⟩ := exists_succ_of_iterate hn
        obtain ⟨rest, hrest⟩ :=
          advance_eq_bind (extent.leaf (extent.stream fuel) · leaf) count position ht
        rw [hrest, iterate]
        have hanswers : Answers (fun _ => True)
            (extent.leaf (extent.stream fuel) position leaf) none :=
          hregular.eq_none_of_iterate hn ▸ leaf_checks
            (fun _ _ hc => stream_checks (.inl trivial) fuel hc) (.inl trivial) hposition
        rcases hanswers with hstep | ⟨abort, _, hstep⟩ <;>
          · rw [hstep]
            rfl
    | some n =>
        have hclear := elementsClear_of_lt (fun _ _ _ hm hlt => streamClear_of_lt fuel hm hlt)
          hregular hn (h count (Nat.le_refl count) n hn)
        have hchecks : ∀ i < count, ∀ q,
            iterate (extent.exactLeaf (extent.rowStream fuel) · leaf) i position = some q →
            Checks (fun _ => False) (extent.leaf (extent.stream fuel) · leaf)
              (extent.exactLeaf (extent.rowStream fuel) · leaf) q :=
          fun i hi q hq => leaf_checks (fun _ _ hc => stream_checks (.inr ht) fuel hc)
            (.inr (hclear i hi q hq))
        rw [(Checks.advance hregular (.inr ht) hchecks hposition).eq_limited,
          (Checks.iterate hregular hchecks hposition).eq_limited]
  · exact advance_of_not_fits _ _ _ ht

/-- Elements of a number, a short text and a row, under a cap that is no power of two. -/
def shelf : Extent where
  program := ⟨[
    Stream.assemble [(0, .array (.struct 1) 20, false)],
    Stream.assemble [(0, .single (.number .u64), false), (1, .single (.string (some 3)), false),
      (2, .array (.number .u8) 102, false)]]⟩
  wire := { maxAlign := 6 }
  boundedStrings := true

/-- From the second element on each one takes 120 bytes, so that remainders by 840 repeat after
seven elements. -/
theorem shelf_advance_eq_iterate :
    iterate (shelf.exactLeaf (shelf.rowStream 1) · (.struct 1)) 20 3 = some 2406 ∧
      advance (shelf.leaf (shelf.stream 1) · (.struct 1)) (period shelf.wire) 20 3 = .ok 2406 ∧
      advance (shelf.leaf (shelf.stream 1) · (.struct 1)) (period shelf.wire) 20 3 =
        if TableFits shelf.wire then iterate (shelf.leaf (shelf.stream 1) · (.struct 1)) 20 3
        else .error (.aborted .table) := by
  have hlast : iterate (shelf.exactLeaf (shelf.rowStream 1) · (.struct 1)) 20 3 = some 2406 := by
    decide +kernel
  refine ⟨hlast, by with_unfolding_all rfl,
    advance_eq_iterate shelf 1 (.struct 1) 20 3 fun i hi p hp => ?_⟩
  have hregular : Regular shelf.wire (shelf.exactLeaf (shelf.rowStream 1) · (.struct 1)) :=
    exactLeaf_regular (rowStream_regular 1) (.struct 1)
  have hle : p ≤ 2406 := hregular.le_of_iterate hi hp hlast
  exact Nat.lt_of_le_of_lt hle (by decide)

/-- A row of two elements, under the smallest cap whose table does not fit. -/
def wideShelf : Extent where
  program := ⟨[
    Stream.assemble [(0, .array (.struct 1) 2, false)],
    Stream.assemble [(0, .single (.number .u8), false), (1, .single (.number .u64), false)]]⟩
  wire := { maxAlign := 2 ^ 59 }
  boundedStrings := false

theorem wideShelf_advance_cut_off :
    iterate (wideShelf.exactLeaf (wideShelf.rowStream 1) · (.struct 1)) 2 0 = some 32 ∧
      iterate (wideShelf.leaf (wideShelf.stream 1) · (.struct 1)) 2 0 = .ok 32 ∧
      advance (wideShelf.leaf (wideShelf.stream 1) · (.struct 1)) (period wideShelf.wire) 2 0 =
        .error (.aborted .table) :=
  ⟨by with_unfolding_all rfl, by with_unfolding_all rfl, advance_of_not_fits _ _ _ (by decide)⟩

end Extent
end TopicCodec
