import TopicCodec.Proofs.Canonical
import TopicCodec.Proofs.KeySize

/-!
# Hashes of short keys identify keys

Where every key fits a key hash, two samples have the same hash exactly if they agree in the
fields of the key. Zeros behind a key do no harm: an encoded key can be decoded whatever
follows, so two keys filled up to the same bytes are read back as the same fields.
-/
namespace TopicCodec

/-! ## Instructions of the key -/

/-- Some of the instructions of a stream that addresses no field twice give the fields the same
shapes as all of them. -/
theorem fieldShape?_of_subset {insns own : List Instruction}
    (hn : (own.map Instruction.field).Nodup) (hs : insns ⊆ own) {insn : Instruction}
    (h : insn ∈ insns) :
    ∃ shape, fieldShape? insns insn.field = some shape ∧
      fieldShape? own insn.field = some shape := by
  obtain ⟨shape, hshape⟩ := exists_fieldShape? h
  obtain ⟨shape', hshape'⟩ := exists_fieldShape? (hs h)
  obtain ⟨last, hm, hf, rfl⟩ := mem_of_fieldShape? hshape
  obtain ⟨last', hm', hf', rfl⟩ := mem_of_fieldShape? hshape'
  have heq : last = last' := List.inj_on_of_nodup_map hn (hs hm) hm' (hf.trans hf'.symm)
  subst heq
  exact ⟨last.shape, hshape, hshape'⟩

namespace Descriptor

open Marshal

variable {desc : Descriptor} {insns : List Instruction} {words : Stream}

theorem keyInstruction_mem (hw : desc.program.root? = some words) {key : Key} {insn : Instruction}
    (h : desc.keyInstruction key = .ok insn) : insn ∈ (Scan.read 0 words).instructions := by
  obtain ⟨found, hf, h⟩ := bind_eq_ok.mp h
  cases found with
  | none => cases h
  | some found =>
      cases h
      simp only [rootInstructionAt, hw] at hf
      split at hf
      · rename_i first hfirst
        split_ifs at hf
        · cases hf
          rw [← Scan.instructions_readAll]
          exact List.mem_of_find?_eq_some hfirst
        · cases hf
      · cases hend : (Scan.readAll 0 words).ending with
        | error defect =>
            rw [hend] at hf
            cases hf
        | ok pc =>
            rw [hend] at hf
            cases hf

theorem keyInstructions_subset (hw : desc.program.root? = some words)
    (h : desc.keyInstructions = .ok insns) : insns ⊆ (Scan.read 0 words).instructions := by
  unfold keyInstructions at h
  generalize desc.keys = keys at h
  induction keys generalizing insns with
  | nil =>
      cases h
      exact List.nil_subset _
  | cons key keys ih =>
      rw [List.mapM_cons] at h
      obtain ⟨insn, hi, h⟩ := bind_eq_ok.mp h
      obtain ⟨rest, hr, h⟩ := bind_eq_ok.mp h
      cases h
      exact List.cons_subset.mpr ⟨keyInstruction_mem hw hi, ih hr⟩

/-! ## Equal keys -/

variable {a b : Value} {key : List UInt8}

/-- Two instances agree in every field that the key consists of. -/
def KeysAgree (desc : Descriptor) (a b : Value) : Prop :=
  ∀ insns, desc.keyInstructions = .ok insns → ∀ insn ∈ insns,
    a.field? insn.field = b.field? insn.field

theorem extractKey_eq (wire : WireFormat) (h : desc.KeysAgree a b) :
    wire.extractKey desc a = wire.extractKey desc b := by
  unfold WireFormat.extractKey encodeKey
  cases hi : desc.keyInstructions with
  | error defect => rfl
  | ok insns =>
      have hfields := h insns hi
      change emitAll _ insns 0 = emitAll _ insns 0
      generalize 0 = position
      clear hi
      induction insns generalizing position with
      | nil => rfl
      | cons insn rest ih =>
          have hhead := hfields insn List.mem_cons_self
          have hrest := ih fun other hm => hfields other (List.mem_cons_of_mem _ hm)
          simp only [emitAll, encodeField, hhead, hrest]

/-- Decodes the fields of a key over the fields of a structure. -/
def decodeKey (desc : Descriptor) (wire : WireFormat) (insns : List Instruction)
    (start : List (UInt32 × Value)) (bytes : List UInt8) : Except CodecError (Value × Reading) :=
  let walk : DecodeWalk := { desc, wire }
  decodeFields (decodeField walk (decodeStruct walk maxNesting) 0 .root) insns (.struct start)
    ⟨.start bytes, []⟩

/-- A key is read back from where it was written, whatever follows. -/
theorem decodeKey_extractKey {wire : WireFormat} {start fields : List (UInt32 × Value)}
    (hd : desc.program.fieldsDistinct = true)
    (hs : Shaped desc.program (.single (.struct 0)) (.struct start))
    (hf : Shaped desc.program (.single (.struct 0)) (.struct fields))
    (hi : desc.keyInstructions = .ok insns)
    (h : wire.extractKey desc (.struct fields) = .ok key) :
    ∃ found,
      (∀ tail, ∃ after,
        desc.decodeKey wire insns start (key ++ tail) = .ok (.struct found, after)) ∧
      ∀ insn ∈ insns, found.lookup insn.field = fields.lookup insn.field := by
  obtain ⟨_, hinsns, h⟩ := bind_eq_ok.mp h
  cases hi.symm.trans (mapError_eq_ok.mp hinsns)
  cases hf.alike hs with
  | struct hw has haf halike =>
      have hrestores := decodeStruct_restores { desc, wire } maxNesting
      obtain ⟨found, hreads, _, _, _, hsame⟩ := decodeFields_restore hrestores has haf halike h
      obtain ⟨known, _, hread, _⟩ := hreads [] (sound_nil _)
      refine ⟨found, fun tail => ⟨_, hread tail⟩, ?_⟩
      intro insn hm
      have hnodup := Program.nodup_of_fieldsDistinct hd hw
      obtain ⟨shape, hkey, hown⟩ :=
        fieldShape?_of_subset hnodup (keyInstructions_subset hw hi) hm
      exact hsame insn.field shape hkey hown

/-- Keys that can be continued to the same bytes are equal. -/
theorem keysAgree_of_append {wire : WireFormat} {ka kb ta tb : List UInt8}
    (hd : desc.program.fieldsDistinct = true)
    (ha : Shaped desc.program (.single (.struct 0)) a)
    (hb : Shaped desc.program (.single (.struct 0)) b)
    (hka : wire.extractKey desc a = .ok ka) (hkb : wire.extractKey desc b = .ok kb)
    (h : ka ++ ta = kb ++ tb) : desc.KeysAgree a b := by
  intro insns hi insn hm
  cases id ha with
  | @struct _ _ fa _ _ _ =>
      cases id hb with
      | @struct _ _ fb _ _ _ =>
          obtain ⟨found, hread, hsame⟩ := decodeKey_extractKey hd ha ha hi hka
          obtain ⟨found', hread', hsame'⟩ := decodeKey_extractKey hd ha hb hi hkb
          obtain ⟨_, hread⟩ := hread ta
          obtain ⟨_, hread'⟩ := hread' tb
          rw [h, hread'] at hread
          cases hread
          exact (hsame insn hm).symm.trans (hsame' insn hm)

theorem exists_key_of_keyHashOf {hash : List UInt8} (hfits : desc.keyFits = .ok true)
    (h : desc.keyHashOf a = .ok hash) :
    ∃ key, WireFormat.keyHash.extractKey desc a = .ok key ∧
      hash = key ++ List.replicate (keyHashSize - key.length) 0 := by
  obtain ⟨key, hkey, _⟩ := bind_eq_ok.mp h
  obtain ⟨m, hm, hle⟩ := keyFits_iff.mp hfits
  have hlength := (length_key_le hkey hm).trans hle
  rw [keyHashOf_eq_padded hkey hfits hlength] at h
  exact ⟨key, hkey, (Except.ok.inj h).symm⟩

/-- Where every key fits a key hash, samples have the same hash exactly if they have the same
key. -/
theorem keyHashOf_eq_iff_keysAgree {m : Nat} {hash hash' : List UInt8}
    (hd : desc.program.fieldsDistinct = true) (hm : desc.maxKeySize? = .ok (some m))
    (hle : m ≤ keyHashSize) (ha : Shaped desc.program (.single (.struct 0)) a)
    (hb : Shaped desc.program (.single (.struct 0)) b)
    (h : desc.keyHashOf a = .ok hash) (h' : desc.keyHashOf b = .ok hash') :
    hash = hash' ↔ desc.KeysAgree a b := by
  have hfits := keyFits_iff.mpr ⟨m, hm, hle⟩
  constructor
  · rintro rfl
    obtain ⟨key, hk, hhash⟩ := exists_key_of_keyHashOf hfits h
    obtain ⟨key', hk', hhash'⟩ := exists_key_of_keyHashOf hfits h'
    exact keysAgree_of_append hd ha hb hk hk' (hhash.symm.trans hhash')
  · intro hagree
    have hsame : desc.keyHashOf a = desc.keyHashOf b := by
      unfold keyHashOf
      rw [extractKey_eq .keyHash hagree]
    exact Except.ok.inj (h.symm.trans (hsame.trans h'))

theorem badgeSample_reachable (stamp : ScalarKind.u64.Bits) (holder note : String) :
    Reachable badge (badgeSample stamp holder note) :=
  ⟨.struct [(0, .scalar (.zero .u64)),
      (1, .struct [(0, .text ""), (1, .scalar (.bool false)),
        (2, .array (List.replicate 2 (.scalar (.zero .u16))))]),
      (2, .text "")],
    [.store [.field 0] (.scalar (.number .u64 stamp)), .store [.field 1, .field 0] (.text holder),
      .store [.field 1, .field 1] (.scalar (.bool true)),
      .store [.field 1, .field 2, .element 0] (.scalar (.number .u16 1)),
      .store [.field 1, .field 2, .element 1] (.scalar (.number .u16 515)),
      .store [.field 2] (.text note)],
    by with_unfolding_all rfl, by with_unfolding_all rfl⟩

/-- Stamp and note are no part of the key, and a longer name is not taken for a shorter one. -/
theorem badge_keysAgree :
    badge.keyHashOf (badgeSample 9 "" "note") = .ok (badgeKey ++ [0, 0, 0, 0, 0, 0]) ∧
      badge.keyHashOf (badgeSample 4 "" "") = .ok (badgeKey ++ [0, 0, 0, 0, 0, 0]) ∧
      badge.keyHashOf (badgeSample 9 "a" "note") =
        .ok [0, 0, 0, 2, 97, 0, 1, 0, 0, 1, 2, 3, 0, 0, 0, 0] ∧
      badge.KeysAgree (badgeSample 9 "" "note") (badgeSample 4 "" "") ∧
      ¬badge.KeysAgree (badgeSample 9 "" "note") (badgeSample 9 "a" "note") := by
  have hd : badge.program.fieldsDistinct = true := by with_unfolding_all rfl
  have hm : badge.maxKeySize? = .ok (some 12) := by with_unfolding_all rfl
  have h₁ : badge.keyHashOf (badgeSample 9 "" "note") = .ok (badgeKey ++ [0, 0, 0, 0, 0, 0]) := by
    with_unfolding_all rfl
  have h₂ : badge.keyHashOf (badgeSample 4 "" "") = .ok (badgeKey ++ [0, 0, 0, 0, 0, 0]) := by
    with_unfolding_all rfl
  have h₃ : badge.keyHashOf (badgeSample 9 "a" "note") =
      .ok [0, 0, 0, 2, 97, 0, 1, 0, 0, 1, 2, 3, 0, 0, 0, 0] := by
    with_unfolding_all rfl
  have hs (stamp : ScalarKind.u64.Bits) (holder note : String) :=
    (badgeSample_reachable stamp holder note).shaped
  have hsame := keyHashOf_eq_iff_keysAgree hd hm (by decide) (hs _ _ _) (hs _ _ _) h₁ h₂
  have hother := keyHashOf_eq_iff_keysAgree hd hm (by decide) (hs _ _ _) (hs _ _ _) h₁ h₃
  exact ⟨h₁, h₂, h₃, hsame.mp rfl, hother.not.mp (by decide)⟩

end Descriptor
end TopicCodec
