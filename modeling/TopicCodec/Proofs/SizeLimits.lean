import TopicCodec.Proofs.Assembling
import TopicCodec.Proofs.SizeAgreement

/-!
# Where sizes known from the program are wrong

The size of a row of numbers is worked out at once: one alignment, then as many widths as
there are numbers. The encoder aligns each number. The two agree exactly if the alignment
divides the width, or there is at most one number; under a cap of 3, 5, 6 or 7 the size of
a row comes out too small by the padding between its numbers.

Positions are 64-bit numbers, and every operation on them is checked but one: aligning a
position among the last ones below 2⁶⁴ cuts the walk off. A size known from the program is
the exact one, and types of 2⁶⁴ bytes or more have none; but asking for the size of such a
type may be cut off, where it should be answered that there is none.
-/
namespace TopicCodec

namespace Marshal

variable {walk : Walk} {enter : EncodeNested (List UInt8)}

/-- The encoder writes numbers one by one, each behind its own padding. -/
theorem iterate_of_encodeElements {stream : UInt32} {pc : Nat} {kind : ScalarKind}
    {items : List Value} {path : Path} {q : Nat} {chunk : List UInt8}
    (h : encodeElements walk enter stream pc (.number kind) items path q = .ok chunk) :
    Extent.iterate (fun p => some (p + walk.wire.padding p kind.width + kind.width))
      items.length q = some (q + chunk.length) := by
  unfold encodeElements at h
  generalize 0 = first at h
  induction items generalizing q chunk first with
  | nil =>
      cases h
      rfl
  | cons item rest ih =>
      obtain ⟨head, tail, hh, ht, rfl⟩ := emitAll_zipIdx_cons_eq_ok.mp h
      have hhead : head.length = walk.wire.padding q kind.width + kind.width := by
        cases leafWritten hh with
        | number _ bits => exact Item.length_emitNumber walk.wire q kind.width bits.toNat
      change emitAll _ _ (q + head.length) = .ok tail at ht
      change _ = some (q + (head ++ tail).length)
      rw [List.length_cons, Extent.iterate, Option.bind_eq_bind, Option.bind_some, Nat.add_assoc q,
        ← hhead, ih _ ht, List.length_append, Nat.add_assoc]

end Marshal

namespace Extent

open Marshal

variable {extent : Extent} {enter : UInt32 → Nat → Except Stop Nat}
  {plain : UInt32 → Nat → Option Nat}

/-! ## Rows of numbers -/

theorem shape_bools {position : Nat} (h : position < limit) (count : UInt32) :
    extent.shape enter position (.array .bool count) =
      iterate (extent.leaf enter · .bool) count.toNat position := by
  have hregular : Regular extent.wire (fun p => some (p + 1)) := Regular.bool
  have hrow : Checks (fun _ => False) (extent.shape enter · (.array .bool count))
      (extent.rowShape (fun _ _ => none) · (.array .bool count)) position :=
    bools_checks position count
  have hbools : Checks (fun _ => False) (iterate (extent.leaf enter · .bool) count.toNat)
      (iterate (fun p => some (p + 1)) count.toNat) position :=
    Checks.iterate hregular fun _ _ q _ => Checks.add 1 q
  exact (hrow h).eq_limited.trans (hbools h).eq_limited.symm

section Numbers
variable {kind : ScalarKind} {count : UInt32} {position last : Nat}
  (h : iterate (extent.exactLeaf plain · (.number kind)) count.toNat position = some last)
  (hlast : last < limit)
include h

theorem le_of_iterate_number : position ≤ last := by
  have hregular : Regular extent.wire (extent.exactLeaf plain · (.number kind)) :=
    Regular.number kind kind.width
  exact (hregular.iterate count.toNat).grows position last h

/-- The end of a row without the padding between its numbers. -/
theorem rowShape_numbers : extent.rowShape plain position (.array (.number kind) count) =
    some (last - extent.wire.padding kind.width kind.width * (count.toNat - 1)) ∧
      extent.wire.padding kind.width kind.width * (count.toNat - 1) ≤ last := by
  simp only [rowShape]
  split_ifs with hzero
  · rw [hzero] at h ⊢
    cases h
    exact ⟨rfl, Nat.zero_le _⟩
  · have hpos : count.toNat ≠ 0 := fun hc => hzero (UInt32.toNat_inj.mp hc)
    obtain ⟨n, hn⟩ := Nat.exists_eq_succ_of_ne_zero hpos
    rw [hn] at h ⊢
    have hend : position + extent.wire.padding position kind.width + kind.width * (n + 1) +
        extent.wire.padding kind.width kind.width * n = last :=
      Option.some.inj ((iterate_number kind n position).symm.trans h)
    rw [← hend, Nat.succ_sub_one, Nat.add_sub_cancel]
    exact ⟨rfl, Nat.le_add_left _ _⟩

include hlast

theorem iterate_leaf_number :
    iterate (extent.leaf enter · (.number kind)) count.toNat position = .ok last := by
  have hregular : Regular extent.wire (extent.exactLeaf plain · (.number kind)) :=
    Regular.number kind kind.width
  have hposition : position < limit := Nat.lt_of_le_of_lt (le_of_iterate_number h) hlast
  have hclear : ∀ i < count.toNat, ∀ q,
      iterate (extent.exactLeaf plain · (.number kind)) i position = some q →
      AlignsBelow extent.wire q kind.width :=
    elementsClear_of_lt (fun _ _ _ _ _ => trivial) hregular h hlast
  have hchecks : Checks (fun _ => False) (iterate (extent.leaf enter · (.number kind)) count.toNat)
      (iterate (extent.exactLeaf plain · (.number kind)) count.toNat) position :=
    Checks.iterate hregular fun i hi q hq => Checks.aligned (.inr (hclear i hi q hq)) kind.width
  rw [(hchecks hposition).eq_limited, h, limited_of_lt hlast]

theorem shape_numbers : extent.shape enter position (.array (.number kind) count) =
    .ok (last - extent.wire.padding kind.width kind.width * (count.toNat - 1)) := by
  have hrow := (rowShape_numbers h).1
  have hposition : position < limit := Nat.lt_of_le_of_lt (le_of_iterate_number h) hlast
  have hclear : count ≠ 0 → AlignsBelow extent.wire position kind.width := by
    intro hzero
    simp only [rowShape, hzero, if_false] at hrow
    have hend : position + extent.wire.padding position kind.width + kind.width * count.toNat <
        limit := by
      have := Option.some.inj hrow
      omega
    exact alignsBelow_of_lt hend
  have hwalk : extent.shape enter position (.array (.number kind) count) =
      limited (extent.rowShape plain position (.array (.number kind) count)) :=
    (numbers_checks (.inr hclear) hposition).eq_limited
  rw [hwalk, hrow, limited_of_lt (by omega)]

end Numbers

/-- When the size of a row is right. As long as positions stay below the limit, a row of flags is
as long as its flags followed one by one, and numbers followed one by one end where the encoder
is after writing them. A row of numbers, worked out at once, ends before that by the padding
between the numbers, hence in the same place exactly if there is at most one number or the
alignment of the numbers divides their width. -/
theorem row_eq_iterate_iff {kind : ScalarKind} {count : UInt32} {position last : Nat}
    (h : iterate (extent.exactLeaf plain · (.number kind)) count.toNat position = some last)
    (hlast : last < limit) :
    extent.shape enter position (.array .bool count) =
        iterate (extent.leaf enter · .bool) count.toNat position ∧
      iterate (extent.leaf enter · (.number kind)) count.toNat position = .ok last ∧
      (∀ (walk : Walk) (nested : EncodeNested (List UInt8)) stream pc items path chunk,
        walk.wire = extent.wire → items.length = count.toNat →
        encodeElements walk nested stream pc (.number kind) items path position = .ok chunk →
        last = position + chunk.length) ∧
      extent.shape enter position (.array (.number kind) count) =
        .ok (last - extent.wire.padding kind.width kind.width * (count.toNat - 1)) ∧
      (extent.shape enter position (.array (.number kind) count) =
          iterate (extent.leaf enter · (.number kind)) count.toNat position ↔
        count.toNat ≤ 1 ∨ extent.wire.alignFor kind.width ∣ kind.width) := by
  have hposition : position < limit := Nat.lt_of_le_of_lt (le_of_iterate_number h) hlast
  have hiterate : iterate (extent.leaf enter · (.number kind)) count.toNat position = .ok last :=
    iterate_leaf_number h hlast
  have hshape : extent.shape enter position (.array (.number kind) count) = _ :=
    shape_numbers h hlast
  refine ⟨shape_bools hposition count, hiterate, ?_, hshape, ?_⟩
  · intro walk nested stream pc items path chunk hw hlength hchunk
    have hwritten := iterate_of_encodeElements hchunk
    rw [hw, hlength] at hwritten
    exact Option.some.inj (h.symm.trans hwritten)
  · have hle := (rowShape_numbers h).2
    rw [hshape, hiterate, Except.ok.injEq, ← extent.wire.padding_self_eq_zero_iff]
    have hnone : last - extent.wire.padding kind.width kind.width * (count.toNat - 1) = last ↔
        extent.wire.padding kind.width kind.width * (count.toNat - 1) = 0 := by omega
    rw [hnone, Nat.mul_eq_zero]
    omega

/-- Sizes of numbers: no program, and a cap on the alignment. -/
def capped (cap : Nat) : Extent := ⟨⟨[]⟩, { maxAlign := cap }, false⟩

/-- Three numbers of eight bytes, aligned to five: the size of the row leaves out the two bytes
before each number but the first. -/
theorem row_of_three_aligned_to_five :
    iterate ((capped 5).exactLeaf (fun _ _ => none) · (.number .u64)) 3 1 = some 33 ∧
      (capped 5).shape (fun _ => .ok) 1 (.array (.number .u64) 3) = .ok 29 ∧
      (capped 5).shape (fun _ => .ok) 1 (.array (.number .u64) 3) ≠
        iterate ((capped 5).leaf (fun _ => .ok) · (.number .u64)) 3 1 := by
  have hlast : iterate ((capped 5).exactLeaf (fun _ _ => none) · (.number .u64))
      (3 : UInt32).toNat 1 = some 33 := by decide
  obtain ⟨_, _, _, hshape, hiff⟩ := row_eq_iterate_iff hlast (by decide)
  refine ⟨hlast, hshape, fun heq => ?_⟩
  rcases hiff.mp heq with hfew | hdvd
  · exact absurd hfew (by decide)
  · exact absurd hdvd (by decide)

/-- Two numbers in a row. -/
def couple : Descriptor where
  typeName := "Couple"
  program := ⟨[Stream.assemble [(0, .array (.number .u32) 2, false)]]⟩

def coupleSample : Value :=
  .struct [(0, .array [.scalar (.number .u32 1), .scalar (.number .u32 2)])]

/-- Aligned to three, two numbers of four bytes take ten bytes, but eight by the program. -/
theorem couple_aligned_to_three :
    (capped 3).shape (fun _ => .ok) 0 (.array (.number .u32) 2) = .ok 8 ∧
      iterate ((capped 3).leaf (fun _ => .ok) · (.number .u32)) 2 0 = .ok 10 ∧
      (capped 3).wire.sizeOf couple coupleSample = .ok 8 ∧
      (capped 3).wire.serialize couple coupleSample = .ok [1, 0, 0, 0, 0, 0, 2, 0, 0, 0] := by
  refine ⟨by decide, by decide, ?_, ?_⟩
  · with_unfolding_all rfl
  · with_unfolding_all rfl

end Extent

/-! ## Sizes past the limit -/

namespace Extent

variable {extent : Extent}

/-- Nothing is aligned past the limit where nothing is aligned. -/
theorem streamClear_of_alignsBelow (h : ∀ p width, AlignsBelow extent.wire p width) (fuel : Nat)
    (target : UInt32) (p : Nat) : extent.StreamClear fuel target p := by
  induction fuel generalizing target p with
  | zero => trivial
  | succ fuel ih =>
      have hleaf (p : Nat) (leaf : Leaf) : extent.LeafClear (extent.StreamClear fuel) p leaf := by
        cases leaf with
        | number kind => exact h p kind.width
        | bool => trivial
        | string bound =>
            cases bound with
            | none => trivial
            | some bound => exact fun _ => h p lengthWidth
        | struct target => exact ih target p
      intro words _ front insn rest _ q _
      cases insn.shape with
      | single leaf => exact hleaf q leaf
      | sequence leaf => trivial
      | array leaf count =>
          cases leaf with
          | number kind => exact fun _ => h q kind.width
          | _ => exact fun _ _ r _ => hleaf r _

end Extent

namespace Descriptor

open Extent

variable {desc : Descriptor} {wire : WireFormat}

/-- The size that every encoded instance would have, counted element by element and without a
limit. -/
def exactSize? (desc : Descriptor) (wire : WireFormat) : Option Nat :=
  Extent.exactStream ⟨desc.program, wire, false⟩ (desc.program.length + 1) 0 0

/-- Of the numbers that are met below the limit when the exact size is counted, none is aligned
past it. -/
def AlignsWithinLimit (desc : Descriptor) (wire : WireFormat) : Prop :=
  Extent.StreamClear ⟨desc.program, wire, false⟩ (desc.program.length + 1) 0 0

/-- Under a cap that is zero or a power of two, a size known from the program is the exact one and
below the limit, and every exact size below the limit is known from the program. A type whose exact
size is past the limit has none, but asking for it may be cut off, and only where a number that is
met below the limit is aligned past it. -/
theorem fixedSize?_exact_or_cut_off (desc : Descriptor) (hw : wire.CapIsPower)
    (ht : TableFits wire) :
    (∀ n, desc.fixedSize? wire = .ok (some n) ↔ desc.exactSize? wire = some n ∧ n < limit) ∧
      ∀ abort, desc.fixedSize? wire = .error abort →
        abort = .product ∧ ¬desc.AlignsWithinLimit wire ∧
          ∀ n, desc.exactSize? wire = some n → limit ≤ n := by
  have hplain : Extent.rowStream ⟨desc.program, wire, false⟩ (desc.program.length + 1) =
      Extent.exactStream ⟨desc.program, wire, false⟩ (desc.program.length + 1) :=
    rowStream_eq_exactStream hw _
  have hanswers := stream_answers ⟨desc.program, wire, false⟩ (desc.program.length + 1) 0 limit_pos
  have hclear {n : Nat} (h : desc.exactSize? wire = some n) (hn : n < limit) :
      desc.AlignsWithinLimit wire := by
    rw [exactSize?, ← hplain] at h
    exact streamClear_of_lt _ h hn
  unfold fixedSize?
  constructor
  · intro n
    rw [answer_eq_some, exactSize?, ← hplain]
    constructor
    · intro hwalk
      rw [hwalk] at hanswers
      exact hanswers.eq_some
    · rintro ⟨hsize, hn⟩
      rcases hanswers with hwalk | ⟨abort, hcut, _⟩
      · rw [hwalk, hsize, limited_of_lt hn]
      · cases abort with
        | product => exact absurd (streamClear_of_lt _ hsize hn) hcut
        | table => exact absurd ht hcut
  · intro abort hwalk
    rw [answer_eq_error.mp hwalk] at hanswers
    cases abort with
    | product =>
        have hcut : ¬desc.AlignsWithinLimit wire := hanswers.of_aborted
        refine ⟨rfl, hcut, fun n hsize => ?_⟩
        by_contra hn
        exact hcut (hclear hsize (Nat.not_le.mp hn))
    | table => exact absurd ht hanswers.of_aborted

/-- A number behind as many structures as each has bytes, but for two. -/
def hoard (count : UInt32) : Descriptor where
  typeName := "Hoard"
  flags := .variableSize
  program := ⟨[
    Stream.assemble [(0, .array (.struct 1) count, false), (1, .single (.number .u64), false)],
    Stream.assemble [(0, .array (.number .u8) count, false), (1, .single (.number .u8), false),
      (2, .single (.number .u8), false)]]⟩

theorem exactSize?_hoard (hw : wire.CapIsPower) {count : UInt32} (hc : count ≠ 0) :
    (hoard count).exactSize? wire =
      some ((count.toNat + 2) * count.toNat +
        wire.padding ((count.toNat + 2) * count.toNat) 8 + 8) := by
  have hbyte (p : Nat) : wire.padding p 1 = 0 := by
    have halign : wire.alignFor 1 = 1 := by
      unfold WireFormat.alignFor
      omega
    rw [WireFormat.padding, halign, Nat.mod_one]
  have helement (p : Nat) : Extent.rowStream ⟨(hoard count).program, wire, false⟩ 2 1 p =
      some (p + (count.toNat + 2)) := by
    have hwords : (hoard count).program.stream? 1 = some (Stream.assemble
        [(0, .array (.number .u8) count, false), (1, .single (.number .u8), false),
          (2, .single (.number .u8), false)]) := rfl
    simp only [rowStream, hwords, Scan.instructions_assemble, Except.toOption, Instruction.placed,
      Option.bind_eq_bind, Option.bind_some, List.foldlM_cons, List.foldlM_nil, rowShape,
      exactShape, exactLeaf, ScalarKind.width, hbyte, hc, if_false, Option.pure_def]
    congr 1
    omega
  have helements := iterate_add helement count.toNat 0
  have hwords : (hoard count).program.stream? 0 = some (Stream.assemble
      [(0, .array (.struct 1) count, false), (1, .single (.number .u64), false)]) := rfl
  unfold exactSize?
  rw [← rowStream_eq_exactStream hw]
  change Extent.rowStream _ (2 + 1) 0 0 = _
  rw [rowStream]
  simp only [hwords, Scan.instructions_assemble, Except.toOption, Instruction.placed,
    Option.bind_eq_bind, Option.bind_some, List.foldlM_cons, List.foldlM_nil, rowShape, exactShape,
    exactLeaf, ScalarKind.width, helements, Option.pure_def, Nat.zero_add]

/-- Unaligned, the type of 2⁶⁴ + 7 bytes has no size. -/
theorem fixedSize?_hoard_packed :
    (hoard 4294967295).exactSize? { maxAlign := 1 } = some 18446744073709551623 ∧
      (hoard 4294967295).AlignsWithinLimit { maxAlign := 1 } ∧
      (hoard 4294967295).fixedSize? { maxAlign := 1 } = .ok none := by
  have hw : WireFormat.CapIsPower { maxAlign := 1 } := .inr ⟨0, rfl⟩
  have halign (width : Nat) : WireFormat.alignFor { maxAlign := 1 } width = 1 := by
    change max (min width 1) 1 = 1
    omega
  have hclear : (hoard 4294967295).AlignsWithinLimit { maxAlign := 1 } := by
    apply streamClear_of_alignsBelow
    intro p width hp
    rwa [WireFormat.padding, halign, Nat.mod_one]
  have hsize : (hoard 4294967295).exactSize? { maxAlign := 1 } = some 18446744073709551623 :=
    exactSize?_hoard hw (by decide)
  obtain ⟨hexact, hcut⟩ := fixedSize?_exact_or_cut_off (hoard 4294967295) hw (by decide)
  refine ⟨hsize, hclear, ?_⟩
  rcases hfixed : (hoard 4294967295).fixedSize? { maxAlign := 1 } with abort | (_ | n)
  · exact absurd hclear (hcut abort hfixed).2.1
  · rfl
  · obtain ⟨heq, hlt⟩ := (hexact n).mp hfixed
    rw [hsize] at heq
    cases heq
    exact absurd hlt (by decide)

/-- Aligned to eight, the last number of the type is met at 2⁶⁴ - 1 and would be aligned to 2⁶⁴: the
type of 2⁶⁴ + 8 bytes has no size, but asking for it is cut off. -/
theorem fixedSize?_hoard_cut_off :
    (hoard 4294967295).exactSize? .littleEndian = some 18446744073709551624 ∧
      (hoard 4294967295).fixedSize? .littleEndian = .error .product :=
  ⟨exactSize?_hoard (.inr ⟨3, rfl⟩) (by decide), by with_unfolding_all rfl⟩

end Descriptor
end TopicCodec
