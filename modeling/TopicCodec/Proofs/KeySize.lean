import TopicCodec.Proofs.SizeAgreement
import TopicCodec.Proofs.Validity

/-!
# The bound of a key

No encoded key is longer than the bound that the program gives for keys. Strings are
shorter than their bounds, so the encoder stands at other positions than the ones the bound
was worked out with, and pads differently. It never overtakes them: aligning is monotone,
and a string takes no more than its bound.
-/
namespace TopicCodec

namespace Marshal

variable {walk : Walk} {enter : EncodeNested (List UInt8)} {plain : UInt32 → Nat → Option Nat}

/-- Sizes follow a program with strings as long as their bounds. -/
def Walk.bounds (walk : Walk) : Extent := ⟨walk.desc.program, walk.wire, true⟩

def SpansNested (walk : Walk) (enter : EncodeNested (List UInt8))
    (plain : UInt32 → Nat → Option Nat) : Prop :=
  ∀ target words value path q p chunk last,
    walk.desc.program.stream? target = some words →
    enter target words value path q = .ok chunk → q ≤ p → plain target p = some last →
    q + chunk.length ≤ last

theorem leaf_spans (he : SpansNested walk enter plain) {stream : UInt32} {pc : Nat} {leaf : Leaf}
    {value : Value} {path : Path} {q p last : Nat} {chunk : List UInt8}
    (h : encodeLeaf walk enter stream pc leaf value path q = .ok chunk) (hq : q ≤ p)
    (hl : walk.bounds.exactLeaf plain p leaf = some last) : q + chunk.length ≤ last := by
  cases leafWritten h with
  | number kind bits =>
      have hmono := walk.wire.add_padding_mono kind.width hq
      have hlast : p + walk.wire.padding p kind.width + kind.width = last := Option.some.inj hl
      simp only [Item.emit, Item.length_emitNumber]
      omega
  | bool flag =>
      have hlast : p + 1 = last := Option.some.inj hl
      simp only [Item.emit, Sink.ofBytes, List.length_singleton]
      omega
  | @text bound text _ hb _ =>
      cases bound with
      | none => cases hl
      | some bound =>
          have hmono := walk.wire.add_padding_mono lengthWidth hq
          have hlast :
              p + walk.wire.padding p lengthWidth + (lengthWidth + bound.toNat + 1) = last :=
            Option.some.inj hl
          have hsize : (Utf8.encode text).length ≤ bound.toNat :=
            Nat.not_lt.mp (of_decide_eq_false hb)
          have hlength : (Item.emit (σ := List UInt8) walk.wire q (.text text)).length =
              walk.wire.padding q lengthWidth + lengthWidth + ((Utf8.encode text).length + 1) := by
            simp only [Item.emit, Sink.append, Sink.ofBytes, List.length_append,
              Item.length_emitNumber, List.length_singleton]
          rw [hlength]
          omega
  | struct hw hs => exact he _ _ _ _ q p chunk last hw hs hq hl

theorem elements_span (he : SpansNested walk enter plain) {stream : UInt32} {pc : Nat}
    {leaf : Leaf} {items : List Value} {path : Path} {q p last : Nat} {chunk : List UInt8}
    (h : encodeElements walk enter stream pc leaf items path q = .ok chunk) (hq : q ≤ p)
    (hl : Extent.iterate (walk.bounds.exactLeaf plain · leaf) items.length p = some last) :
    q + chunk.length ≤ last := by
  unfold encodeElements at h
  generalize 0 = first at h
  induction items generalizing q p chunk first with
  | nil =>
      cases h
      cases hl
      exact hq
  | cons item rest ih =>
      obtain ⟨head, tail, hh, ht, rfl⟩ := emitAll_zipIdx_cons_eq_ok.mp h
      obtain ⟨next, hn, hl⟩ := Option.bind_eq_some_iff.mp hl
      have hhead := leaf_spans he hh hq hn
      have htail := ih hhead hl _ ht
      change q + (head ++ tail).length ≤ last
      rwa [List.length_append, ← Nat.add_assoc]

theorem shape_spans (he : SpansNested walk enter plain) {stream : UInt32} {pc : Nat}
    {shape : Shape} {value : Value} {path : Path} {q p last : Nat} {chunk : List UInt8}
    (h : encodeShape walk enter stream pc shape value path q = .ok chunk) (hq : q ≤ p)
    (hl : walk.bounds.exactShape plain p shape = some last) : q + chunk.length ≤ last := by
  cases shapeWritten h with
  | single hleaf => exact leaf_spans he hleaf hq hl
  | sequence _ _ => cases hl
  | array hc helems =>
      simp only [Extent.exactShape, ← hc] at hl
      exact elements_span he helems hq hl

theorem fields_span (he : SpansNested walk enter plain) {stream : UInt32}
    {insns : List Instruction} {value : Value} {path : Path} {q p last : Nat} {chunk : List UInt8}
    (h : emitAll (encodeField walk enter stream value path) insns q = .ok chunk) (hq : q ≤ p)
    (hl : insns.foldlM (fun p insn => walk.bounds.exactShape plain p insn.shape) p = some last) :
    q + chunk.length ≤ last := by
  induction insns generalizing q p chunk with
  | nil =>
      cases h
      cases hl
      exact hq
  | cons insn rest ih =>
      obtain ⟨head, tail, hh, ht, rfl⟩ := emitAll_cons_eq_ok.mp h
      obtain ⟨_, _, hh⟩ := encodeField_eq_ok hh
      obtain ⟨next, hn, hl⟩ := Option.bind_eq_some_iff.mp hl
      have hhead := shape_spans he hh hq hn
      have htail := ih ht hhead hl
      change q + (head ++ tail).length ≤ last
      rwa [List.length_append, ← Nat.add_assoc]

theorem exactStream_spans (depth fuel : Nat) :
    SpansNested walk (encodeStruct walk fuel) (walk.bounds.exactStream depth) := by
  induction depth generalizing fuel with
  | zero =>
      intro target words value path q p chunk last _ _ _ hl
      cases hl
  | succ depth ih =>
      intro target words value path q p chunk last hwords h hq hl
      cases fuel with
      | zero => cases h
      | succ fuel =>
          have h := (encodeStruct_succ_eq_ok.mp h).1
          obtain ⟨found, hfound, hl⟩ := Option.bind_eq_some_iff.mp hl
          cases hwords.symm.trans hfound
          obtain ⟨insns, hinsns, hl⟩ := Option.bind_eq_some_iff.mp hl
          rw [(Extent.toOption_instructions hinsns).1, Scan.instructions_readAll] at hl
          exact fields_span (ih fuel) h hq hl

end Marshal

namespace Descriptor

open Marshal

variable {desc : Descriptor} {value : Value} {key : List UInt8}

/-- The extent that the bound of a key is worked out with. -/
def keyExtent (desc : Descriptor) : Extent := ⟨desc.program, .keyHash, true⟩

/-- The bound of the encoded key, counted element by element and without a limit. -/
def exactKeySize? (desc : Descriptor) : Option Nat := do
  let insns ← desc.keyInstructions.toOption
  insns.foldlM (fun position insn =>
    desc.keyExtent.exactShape (desc.keyExtent.exactStream desc.program.length) position
      insn.shape) 0

theorem exactKeySize?_of_maxKeySize? {m : Nat} (h : desc.maxKeySize? = .ok (some m)) :
    desc.exactKeySize? = some m := by
  have hw : desc.keyExtent.wire.CapIsPower := .inr ⟨3, rfl⟩
  unfold maxKeySize? at h
  cases hinsns : desc.keyInstructions with
  | error defect =>
      rw [hinsns] at h
      cases h
  | ok insns =>
      rw [hinsns] at h
      have hsize : insns.foldlM (fun p insn => desc.keyExtent.rowShape
          (desc.keyExtent.rowStream desc.program.length) p insn.shape) 0 = some m :=
        Extent.fields_eq_some Extent.limit_pos (Extent.answer_eq_some.mp h)
      simp only [Extent.rowStream_eq_exactStream hw, Extent.rowShape_eq_exactShape hw] at hsize
      simp only [exactKeySize?, hinsns]
      exact hsize

theorem length_key_le {m : Nat} (h : WireFormat.keyHash.extractKey desc value = .ok key)
    (hm : desc.maxKeySize? = .ok (some m)) : key.length ≤ m := by
  have hsize := exactKeySize?_of_maxKeySize? hm
  obtain ⟨insns, hinsns, h⟩ := bind_eq_ok.mp h
  simp only [exactKeySize?, mapError_eq_ok.mp hinsns, Except.toOption, Option.bind_eq_bind,
    Option.bind_some] at hsize
  have hspans := fields_span (exactStream_spans desc.program.length maxNesting) h (Nat.le_refl 0)
    hsize
  rwa [Nat.zero_add] at hspans

/-- A key that fits, as every key of its descriptor does, is its own hash. -/
theorem keyHashOf_eq_padded (h : WireFormat.keyHash.extractKey desc value = .ok key)
    (hm : desc.keyFits = .ok true) (hk : key.length ≤ keyHashSize) :
    desc.keyHashOf value = .ok (key ++ List.replicate (keyHashSize - key.length) 0) := by
  simp only [keyHashOf, h, hm, bind, Except.bind, Except.mapError, decide_eq_true hk, Bool.and_true,
    if_true]
  rfl

theorem keyFits_iff :
    desc.keyFits = .ok true ↔ ∃ m, desc.maxKeySize? = .ok (some m) ∧ m ≤ keyHashSize := by
  unfold keyFits
  rcases desc.maxKeySize? with abort | (_ | m) <;> simp [Except.map]

/-- No key is longer than the bound for keys, and where a valid descriptor promises short keys,
the hash of a key is the key itself, filled up with zeros. -/
theorem extractKey_le_maxKeySize (h : WireFormat.keyHash.extractKey desc value = .ok key) :
    (∀ m, desc.maxKeySize? = .ok (some m) → key.length ≤ m) ∧
      (desc.validate = .ok () → desc.flags.contains .fixedKey = true →
        desc.keyHashOf value = .ok (key ++ List.replicate (keyHashSize - key.length) 0)) := by
  refine ⟨fun m hm => length_key_le h hm, fun hvalid hflag => ?_⟩
  obtain ⟨insns, hvalid⟩ := valid_of_validate hvalid
  have hfits := hvalid.fixedKey hflag
  obtain ⟨m, hm, hle⟩ := keyFits_iff.mp hfits
  exact keyHashOf_eq_padded h hfits ((length_key_le h hm).trans hle)

/-- The key is a structure of a short text, a flag and a row of numbers, and stands in the middle
of what is no part of it. -/
def badge : Descriptor where
  typeName := "Badge"
  flags := .variableSize ∪ .fixedKey
  keyCount := 1
  keys := [⟨"holder", 2⟩]
  program := ⟨[
    Stream.assemble [(0, .single (.number .u64), false), (1, .single (.struct 1), true),
      (2, .single (.string none), false)],
    Stream.assemble [(0, .single (.string (some 2)), false), (1, .single .bool, false),
      (2, .array (.number .u16) 2, false)]]⟩

def badgeSample (stamp : ScalarKind.u64.Bits) (holder note : String) : Value :=
  .struct [(0, .scalar (.number .u64 stamp)),
    (1, .struct [(0, .text holder), (1, .scalar (.bool true)),
      (2, .array [.scalar (.number .u16 1), .scalar (.number .u16 515)])]),
    (2, .text note)]

/-- The key with an empty text, which has the numbers two places before those that the bound counts
them at. -/
def badgeKey : List UInt8 := [0, 0, 0, 1, 0, 1, 0, 1, 2, 3]

theorem badgeKey_le_maxKeySize :
    badge.maxKeySize? = .ok (some 12) ∧ badge.validate = .ok () ∧
      WireFormat.keyHash.extractKey badge (badgeSample 9 "" "note") = .ok badgeKey ∧
      badgeKey.length ≤ 12 ∧
      badge.keyHashOf (badgeSample 9 "" "note") = .ok (badgeKey ++ [0, 0, 0, 0, 0, 0]) := by
  have hm : badge.maxKeySize? = .ok (some 12) := by with_unfolding_all rfl
  have hv : badge.validate = .ok () := by with_unfolding_all rfl
  have h : WireFormat.keyHash.extractKey badge (badgeSample 9 "" "note") = .ok badgeKey := by
    with_unfolding_all rfl
  have hbound := extractKey_le_maxKeySize h
  exact ⟨hm, hv, h, hbound.1 12 hm, hbound.2 hv (by decide)⟩

end Descriptor
end TopicCodec
