import Mathlib.Algebra.Group.Nat.Defs
import Mathlib.Tactic.SplitIfs
import TopicCodec.Wire.Cursor
import TopicCodec.Wire.Sink

/-!
# What reads of a cursor consume

A read that succeeds splits the bytes left into those it consumed and those still left;
a read that fails reports how many bytes there were and that they do not suffice. Numbers
are read back as they were written, and every number read is the one that its bytes are
written for.
-/
namespace TopicCodec

namespace ByteOrder

theorem littleBytes_ofLittleBytes (bytes : List UInt8) :
    littleBytes bytes.length (ofLittleBytes bytes) = bytes := by
  induction bytes with
  | nil => rfl
  | cons byte rest ih =>
      have hb : byte.toNat < 256 := UInt8.toNat_lt byte
      have hm : (byte.toNat + 256 * ofLittleBytes rest) % 256 = byte.toNat := by omega
      have hd : (byte.toNat + 256 * ofLittleBytes rest) / 256 = ofLittleBytes rest := by omega
      rw [List.length_cons, ofLittleBytes, littleBytes, hm, hd, ih, UInt8.ofNat_toNat]

theorem toBytes_ofBytes (order : ByteOrder) (bytes : List UInt8) :
    order.toBytes bytes.length (order.ofBytes bytes) = bytes := by
  cases order with
  | little => exact littleBytes_ofLittleBytes bytes
  | big =>
      have h := littleBytes_ofLittleBytes bytes.reverse
      rw [List.length_reverse] at h
      simp only [toBytes, ofBytes, h, List.reverse_reverse]

theorem ofBytes_toBytes_of_lt (order : ByteOrder) {width n : Nat} (h : n < 256 ^ width) :
    order.ofBytes (order.toBytes width n) = n := by
  rw [ofBytes_toBytes, Nat.pow_eq, Nat.mod_eq_of_lt h]

theorem ofLittleBytes_lt (bytes : List UInt8) : ofLittleBytes bytes < 256 ^ bytes.length := by
  induction bytes with
  | nil => simp [ofLittleBytes]
  | cons byte rest ih =>
      have hb : byte.toNat < 256 := UInt8.toNat_lt byte
      rw [ofLittleBytes, List.length_cons, pow_succ]
      omega

theorem ofBytes_lt (order : ByteOrder) (bytes : List UInt8) :
    order.ofBytes bytes < 256 ^ bytes.length := by
  cases order with
  | little => exact ofLittleBytes_lt bytes
  | big => simpa only [ofBytes, List.length_reverse] using ofLittleBytes_lt bytes.reverse

end ByteOrder

namespace ScalarKind

theorem two_pow_bits (kind : ScalarKind) : 2 ^ (8 * kind.width) = 256 ^ kind.width := by
  rw [pow_mul]
  rfl

theorem bits_lt (kind : ScalarKind) (bits : kind.Bits) : bits.toNat < 256 ^ kind.width := by
  rw [← two_pow_bits]
  exact bits.isLt

end ScalarKind

theorem Item.length_emitNumber (wire : WireFormat) (position width n : Nat) :
    (emitNumber (σ := List UInt8) wire position width n).length =
      wire.padding position width + width := by
  simp [emitNumber, Sink.append, Sink.zeros, Sink.ofBytes]

namespace Cursor

/-- The fault lies with the end of the input: all that was left does not suffice. -/
def EndsShort (cursor : Cursor) (short : Shortfall) : Prop :=
  short.offset + short.available = cursor.offset + cursor.rest.length ∧
    short.available < short.needed

theorem take_eq_ok {count : Nat} {cursor next : Cursor} {bytes : List UInt8} :
    cursor.take count = (.ok bytes, next) ↔
      cursor.rest = bytes ++ next.rest ∧ bytes.length = count ∧
        next.offset = cursor.offset + count := by
  obtain ⟨offset, rest⟩ := cursor
  obtain ⟨offset', rest'⟩ := next
  unfold take
  dsimp only
  split_ifs with h
  · simp only [Prod.mk.injEq, Except.ok.injEq, Cursor.mk.injEq]
    constructor
    · rintro ⟨rfl, rfl, rfl⟩
      exact ⟨(List.take_append_drop _ _).symm, h, rfl⟩
    · rintro ⟨rfl, rfl, rfl⟩
      simp
  · constructor
    · rintro ⟨⟩
    · rintro ⟨rfl, rfl, rfl⟩
      simp at h

theorem take_of_short {count : Nat} {cursor : Cursor} (h : cursor.rest.length < count) :
    cursor.take count = (.error ⟨cursor.offset, count, cursor.rest.length⟩, cursor) := by
  unfold take
  rw [if_neg]
  · rfl
  · rw [List.length_take]
    omega

theorem number_eq_ok {wire : WireFormat} {width n : Nat} {cursor next : Cursor} :
    cursor.number wire width = (.ok n, next) ↔
      ∃ skipped bytes, cursor.rest = skipped ++ bytes ++ next.rest ∧
        skipped.length = wire.padding cursor.offset width ∧ bytes.length = width ∧
        n = wire.byteOrder.ofBytes bytes ∧
        next.offset = cursor.offset + wire.padding cursor.offset width + width := by
  unfold number align
  constructor
  · intro h
    rcases ha : cursor.take (cursor.padding wire width) with ⟨_ | skipped, middle⟩
    · rw [ha] at h
      cases h
    · rw [ha] at h
      dsimp only at h
      rcases hb : middle.take width with ⟨_ | bytes, last⟩
      · rw [hb] at h
        cases h
      · rw [hb] at h
        cases h
        obtain ⟨hs, hl, ho⟩ := take_eq_ok.mp ha
        obtain ⟨hs', hl', ho'⟩ := take_eq_ok.mp hb
        refine ⟨skipped, bytes, by rw [hs, hs', List.append_assoc], hl, hl', rfl, ?_⟩
        rw [ho', ho]
        rfl
  · rintro ⟨skipped, bytes, hs, hl, hl', rfl, ho⟩
    have ha : cursor.take (cursor.padding wire width) =
        (.ok skipped, ⟨cursor.offset + cursor.padding wire width, bytes ++ next.rest⟩) :=
      take_eq_ok.mpr ⟨by rw [hs, List.append_assoc], hl, rfl⟩
    have hb : take width ⟨cursor.offset + cursor.padding wire width, bytes ++ next.rest⟩ =
        (.ok bytes, next) := take_eq_ok.mpr ⟨rfl, hl', ho⟩
    simp only [ha, hb]

theorem number_of_short {wire : WireFormat} {width : Nat} {cursor : Cursor}
    (h : cursor.rest.length < wire.padding cursor.offset width + width) :
    ∃ short next, cursor.number wire width = (.error short, next) ∧ cursor.EndsShort short := by
  unfold number align
  by_cases hp : cursor.rest.length < cursor.padding wire width
  · rw [take_of_short hp]
    exact ⟨_, _, rfl, rfl, hp⟩
  · let next : Cursor := ⟨cursor.offset + cursor.padding wire width,
      cursor.rest.drop (cursor.padding wire width)⟩
    have ha : cursor.take (cursor.padding wire width) =
        (.ok (cursor.rest.take (cursor.padding wire width)), next) :=
      take_eq_ok.mpr ⟨(List.take_append_drop _ _).symm, by rw [List.length_take]; omega, rfl⟩
    have hn : next.rest.length + cursor.padding wire width = cursor.rest.length := by
      simp only [next, List.length_drop]
      omega
    have hl : next.rest.length < width := by
      change cursor.rest.length < cursor.padding wire width + width at h
      omega
    simp only [ha, take_of_short hl]
    refine ⟨_, _, rfl, ?_, hl⟩
    change next.offset + next.rest.length = _
    simp only [next] at hn ⊢
    omega

theorem scalar_eq_ok {wire : WireFormat} {kind : ScalarKind} {bits : kind.Bits}
    {cursor next : Cursor} :
    cursor.scalar wire kind = (.ok bits, next) ↔
      cursor.number wire kind.width = (.ok bits.toNat, next) := by
  unfold scalar
  rcases h : cursor.number wire kind.width with ⟨_ | n, last⟩
  · simp
  · obtain ⟨_, bytes, _, _, hl, rfl, _⟩ := number_eq_ok.mp h
    have hn := wire.byteOrder.ofBytes_lt bytes
    rw [hl, ← kind.two_pow_bits] at hn
    simp only [Prod.mk.injEq, Except.ok.injEq]
    constructor
    · rintro ⟨rfl, rfl⟩
      exact ⟨by rw [BitVec.toNat_ofNat, Nat.mod_eq_of_lt hn], rfl⟩
    · rintro ⟨hb, rfl⟩
      exact ⟨by rw [hb, BitVec.ofNat_toNat, BitVec.setWidth_eq], rfl⟩

theorem scalar_of_short {wire : WireFormat} {kind : ScalarKind} {cursor : Cursor}
    (h : cursor.rest.length < wire.padding cursor.offset kind.width + kind.width) :
    ∃ short next, cursor.scalar wire kind = (.error short, next) ∧ cursor.EndsShort short := by
  obtain ⟨short, next, hn, hs⟩ := number_of_short h
  exact ⟨short, next, by unfold scalar; rw [hn], hs⟩

/-! ## Reads in general -/

/-- A read goes on behind the bytes that it consumed, or finds too few left. -/
structure Steps {α : Type} (read : Cursor → Except Shortfall α × Cursor) : Prop where
  ok : ∀ {cursor next : Cursor} {value : α}, read cursor = (.ok value, next) →
    ∃ consumed, cursor.rest = consumed ++ next.rest ∧
      next.offset = cursor.offset + consumed.length
  error : ∀ {cursor next : Cursor} {short : Shortfall}, read cursor = (.error short, next) →
    cursor.EndsShort short

theorem take_steps (count : Nat) : Steps (take count) where
  ok h := by
    obtain ⟨hrest, hlength, hoffset⟩ := take_eq_ok.mp h
    exact ⟨_, hrest, by rw [hoffset, hlength]⟩
  error {cursor next short} h := by
    unfold take at h
    dsimp only at h
    split_ifs at h with hlength
    · cases h
    · cases h
      rw [List.length_take] at hlength
      refine ⟨rfl, ?_⟩
      change cursor.rest.length < count
      omega

theorem number_steps (wire : WireFormat) (width : Nat) : Steps (number wire width) where
  ok h := by
    obtain ⟨skipped, bytes, hrest, hskipped, hbytes, _, hoffset⟩ := number_eq_ok.mp h
    refine ⟨skipped ++ bytes, hrest, ?_⟩
    rw [hoffset, List.length_append, hskipped, hbytes, Nat.add_assoc]
  error {cursor next short} h := by
    unfold number align at h
    rcases ha : cursor.take (cursor.padding wire width) with ⟨short' | skipped, middle⟩
    · rw [ha] at h
      cases h
      exact (take_steps _).error ha
    · rw [ha] at h
      dsimp only at h
      rcases hb : middle.take width with ⟨short' | bytes, last⟩
      · rw [hb] at h
        cases h
        obtain ⟨hrest, hlength, hoffset⟩ := take_eq_ok.mp ha
        obtain ⟨hend, hshort⟩ := (take_steps _).error hb
        refine ⟨?_, hshort⟩
        rw [hend, hrest, List.length_append, hoffset, hlength, Nat.add_assoc]
      · rw [hb] at h
        cases h

theorem scalar_steps (wire : WireFormat) (kind : ScalarKind) : Steps (scalar wire kind) where
  ok h := (number_steps wire kind.width).ok (scalar_eq_ok.mp h)
  error {cursor next short} h := by
    unfold scalar at h
    rcases hn : cursor.number wire kind.width with ⟨short' | n, last⟩
    · rw [hn] at h
      cases h
      exact (number_steps wire kind.width).error hn
    · rw [hn] at h
      cases h

end Cursor
end TopicCodec
