import TopicCodec.Proofs.Appending
import TopicCodec.Proofs.Lockstep
import TopicCodec.Proofs.RoundTrip

/-!
# Payloads describe themselves

The header of a payload names the byte order and the alignment cap of its body, so a reader
needs to know neither. It does need limits: those of the writer, or wider ones. A body written
within narrow limits is the body written within wider ones.
-/
namespace TopicCodec

theorem splitPayload_header (kind : UInt16) (body : List UInt8) :
    splitPayload (encapsulationHeader kind ++ body) = .ok (kind, body) := by
  have hkind := kind.toNat_lt
  have hlow : (UInt8.ofNat (kind.toNat % 256)).toNat = kind.toNat % 256 := by
    rw [UInt8.toNat_ofNat']
    omega
  have hhigh : (UInt8.ofNat (kind.toNat / 256 % 256)).toNat = kind.toNat / 256 := by
    rw [UInt8.toNat_ofNat']
    omega
  have hbytes : encapsulationHeader kind ++ body =
      UInt8.ofNat (kind.toNat / 256 % 256) :: UInt8.ofNat (kind.toNat % 256) :: 0 :: 0 :: body := rfl
  have hsum : kind.toNat / 256 * 256 + kind.toNat % 256 = kind.toNat := by omega
  rw [hbytes]
  simp only [splitPayload, hlow, hhigh, hsum, UInt16.ofNat_toNat]

namespace WireFormat

variable {wire reader : WireFormat} {desc : Descriptor} {sample : Value}

theorem ofEncapsulation?_encapsulation? {kind : UInt16} (h : wire.encapsulation? = some kind) :
    ∃ framing, ofEncapsulation? kind = some framing ∧ framing.byteOrder = wire.byteOrder ∧
      framing.maxAlign = wire.maxAlign := by
  unfold encapsulation? at h
  split at h
  · rename_i halign horder
    cases h
    exact ⟨_, rfl, horder.symm, halign.symm⟩
  · rename_i halign horder
    cases h
    exact ⟨_, rfl, horder.symm, halign.symm⟩
  · rename_i halign horder
    cases h
    exact ⟨_, rfl, horder.symm, halign.symm⟩
  · rename_i halign horder
    cases h
    exact ⟨_, rfl, horder.symm, halign.symm⟩
  · cases h

/-- What is written under a wire format is also written under one with wider limits. -/
theorem serialize_widen {bytes : List UInt8} (h : wire.serialize desc sample = .ok bytes)
    (horder : reader.byteOrder = wire.byteOrder) (halign : reader.maxAlign = wire.maxAlign)
    (hstrings : wire.maxStringLen ≤ reader.maxStringLen)
    (hsequences : wire.maxSequenceLen ≤ reader.maxSequenceLen) :
    reader.serialize desc sample = .ok bytes := by
  have hstep : Marshal.Lockstep (fun _ => False) (fun _ => True) id ⟨desc, wire⟩
      ⟨desc, reader⟩ := {
    recoverable := fun _ hk => hk.elim
    byteOrder := horder
    maxAlign := halign
    strings := UInt32.le_iff_toNat_le.mp hstrings
    sequences := UInt32.le_iff_toNat_le.mp hsequences
    lengths := fun _ _ _ _ hk => hk.elim
    streams := fun target words _ hw => ⟨words, hw, {
      instructions := by rw [Instruction.renumber_id, List.map_id, id]
      targets := fun _ _ _ _ => trivial
      ending := fun pc hpc => ⟨pc, hpc⟩ }⟩ }
  obtain ⟨words, hroot, hencode⟩ := bind_eq_ok.mp h
  have hw := Marshal.Walk.root_eq_ok.mp hroot
  have hroot' : Marshal.Walk.root ⟨desc, reader⟩ = .ok words := Marshal.Walk.root_eq_ok.mpr hw
  apply bind_eq_ok.mpr
  refine ⟨words, hroot', ?_⟩
  exact (hstep.encodeStruct _ 0 words words trivial hw hw sample .root 0).ok hencode

theorem serializePayload_eq {kind : UInt16} (h : wire.encapsulation? = some kind) :
    wire.serializePayload desc sample =
      (wire.serialize desc sample).map (encapsulationHeader kind ++ ·) := by
  unfold serializePayload
  rw [h]
  rcases serializeInto_cases wire desc sample (encapsulationHeader kind) with
    ⟨bytes, hs, hi⟩ | ⟨error, hs, hi⟩
  · rw [hs]
    simp only [hi]
    rfl
  · rw [hs]
    simp only [hi]
    rfl

/-- A payload opens to the body that its writer made, under a wire format that writes it too. -/
theorem openPayload_serializePayload {payload : List UInt8}
    (h : wire.serializePayload desc sample = .ok payload)
    (hstrings : wire.maxStringLen ≤ reader.maxStringLen)
    (hsequences : wire.maxSequenceLen ≤ reader.maxSequenceLen) :
    ∃ framed body, reader.openPayload payload = .ok (framed, body) ∧
      framed.serialize desc sample = .ok body := by
  cases hkind : wire.encapsulation? with
  | none => simp [serializePayload, hkind] at h
  | some kind =>
    rw [serializePayload_eq hkind] at h
    obtain ⟨body, hbody, rfl⟩ := map_eq_ok.mp h
    obtain ⟨framing, hframing, horder, halign⟩ := ofEncapsulation?_encapsulation? hkind
    refine ⟨{ reader with byteOrder := framing.byteOrder, maxAlign := framing.maxAlign }, body,
      ?_, ?_⟩
    · simp only [openPayload, splitPayload_header, hframing]
    · exact serialize_widen hbody horder halign hstrings hsequences

/-- A payload is decoded to the sample it was made of by every reader with limits at least those
of the writer, whatever byte order and alignment the reader itself has. -/
theorem deserializePayload_serializePayload {payload : List UInt8} (hs : Reachable desc sample)
    (hstrings : wire.maxStringLen ≤ reader.maxStringLen)
    (hsequences : wire.maxSequenceLen ≤ reader.maxSequenceLen)
    (h : wire.serializePayload desc sample = .ok payload) :
    reader.deserializePayload desc payload = .ok sample := by
  obtain ⟨start, _, hd, _⟩ := id hs
  obtain ⟨framed, body, hopen, hbody⟩ := openPayload_serializePayload h hstrings hsequences
  have hread := (deserialize_reads hd hs.shaped hbody).1 []
  rw [List.append_nil] at hread
  simp only [deserializePayload, hopen]
  exact hread

/-- The forest written under tight limits, and read with a format that shares nothing with it. -/
theorem deserializePayload_forest :
    Reachable forest forestSample ∧
      serializePayload ⟨.big, 4, 4, 2⟩ forest forestSample = .ok ([0, 6, 0, 0] ++ forestBytes) ∧
      deserializePayload ⟨.little, 1, 4, 9⟩ forest ([0, 6, 0, 0] ++ forestBytes) =
        .ok forestSample := by
  have hpayload : serializePayload ⟨.big, 4, 4, 2⟩ forest forestSample =
      .ok ([0, 6, 0, 0] ++ forestBytes) := by with_unfolding_all rfl
  exact ⟨forestSample_reachable, hpayload, deserializePayload_serializePayload
    forestSample_reachable (by decide) (by decide) hpayload⟩

end WireFormat
end TopicCodec
