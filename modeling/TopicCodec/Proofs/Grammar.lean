import Mathlib.Tactic.IntervalCases
import TopicCodec.Proofs.Assembling

/-!
# The grammar of streams

An instruction has one form in words: whatever is read as an instruction is what the instruction
is written as. So a stream that is read without a defect is the words of its instructions, one
after the other, and the terminator, and each instruction stands behind the words of those before
it. A stream put together field by field is read back as these fields, at the positions that were
given out.
-/
namespace TopicCodec

/-! ## Flags and codes -/

namespace Flags

theorem toNat_bits_of_lt {flags : Flags} (h : flags.bits.toNat < 8) :
    flags.bits.toNat = (flags.contains .key).toNat + 2 * (flags.contains .signed).toNat +
      4 * (flags.contains .float).toNat := by
  obtain ⟨bits⟩ := flags
  change bits.toNat < 8 at h
  rw [show bits = UInt32.ofNat bits.toNat from UInt32.ofNat_toNat.symm]
  generalize bits.toNat = n at h
  interval_cases n <;> rfl

theorem eq_of_marks {flags other : Flags} (h : flags.bits.toNat < 8) (ho : other.bits.toNat < 8)
    (hkey : flags.contains .key = other.contains .key)
    (hsigned : flags.contains .signed = other.contains .signed)
    (hfloat : flags.contains .float = other.contains .float) : flags = other := by
  have hbits : flags.bits = other.bits := by
    apply UInt32.toNat_inj.mp
    rw [toNat_bits_of_lt h, toNat_bits_of_lt ho, hkey, hsigned, hfloat]
  cases flags
  cases other
  exact congrArg Flags.mk hbits

end Flags

theorem ScalarKind.eq_of_ofCode? {code : Nat} {flags : Flags} {kind : ScalarKind}
    (h : ofCode? code flags = some kind) :
    code = kind.code ∧ flags.contains .signed = kind.isSigned ∧
      flags.contains .float = kind.isFloat := by
  unfold ofCode? at h
  split at h
  all_goals cases h
  all_goals exact ⟨rfl, by assumption, by assumption⟩

namespace Leaf

/-- Whether the numbers of a leaf are marked as signed. -/
def isSigned : Leaf → Bool
  | number kind => kind.isSigned
  | _ => false

/-- Whether the numbers of a leaf are marked as floating-point. -/
def isFloat : Leaf → Bool
  | number kind => kind.isFloat
  | _ => false

end Leaf

namespace Instruction

theorem marks_headFlags (key : Bool) (leaf : Leaf) :
    (headFlags key leaf).contains .signed = leaf.isSigned ∧
      (headFlags key leaf).contains .float = leaf.isFloat := by
  cases leaf with
  | number kind => cases key <;> cases kind <;> decide
  | _ =>
      simp only [headFlags, Leaf.flags, Leaf.isSigned, Leaf.isFloat]
      cases key <;> decide

theorem eq_headFlags {flags : Flags} {leaf : Leaf} (h : flags.bits.toNat < 8)
    (hsigned : flags.contains .signed = leaf.isSigned)
    (hfloat : flags.contains .float = leaf.isFloat) :
    flags = headFlags (flags.contains .key) leaf := by
  obtain ⟨hs, hf⟩ := marks_headFlags (flags.contains .key) leaf
  apply Flags.eq_of_marks h (headFlags_lt _ leaf)
  · rw [contains_key_headFlags]
  · rw [hsigned, hs]
  · rw [hfloat, hf]

end Instruction

/-! ## One instruction -/

namespace Op

variable {stream : UInt32} {pc code type subtype : Nat} {flags : Flags}
  {operands words : List UInt32}

theorem readLeaf_eq_ok {leaf : Leaf} (h : readLeaf stream pc code flags operands = .ok leaf) :
    code = leaf.code ∧ flags.contains .signed = leaf.isSigned ∧
      flags.contains .float = leaf.isFloat ∧ ∃ rest, operands = leaf.operands ++ rest := by
  unfold readLeaf at h
  dsimp only at h
  split at h
  · split at h
    · rename_i kind hkind
      cases h
      obtain ⟨hcode, hsigned, hfloat⟩ := ScalarKind.eq_of_ofCode? hkind
      exact ⟨hcode, hsigned, hfloat, operands, rfl⟩
    · cases h
  · by_cases hmarks : (flags.contains .signed || flags.contains .float) = true
    · simp only [hmarks, if_true] at h
      split_ifs at h
      all_goals split at h <;> cases h
    · simp only [hmarks, Bool.false_eq_true, if_false] at h
      obtain ⟨hsigned, hfloat⟩ :
          flags.contains .signed = false ∧ flags.contains .float = false := by
        simpa using hmarks
      split_ifs at h with hbool hstring hbounded hstruct
      · cases h
        exact ⟨hbool, hsigned, hfloat, operands, rfl⟩
      · cases h
        exact ⟨hstring, hsigned, hfloat, operands, rfl⟩
      · split at h
        · rename_i bound rest
          cases h
          exact ⟨hbounded, hsigned, hfloat, rest, rfl⟩
        · cases h
      · split at h
        · rename_i target rest
          cases h
          exact ⟨hstruct, hsigned, hfloat, rest, rfl⟩
        · cases h

theorem readShape_eq_ok {shape : Shape}
    (h : readShape stream pc type subtype flags operands = .ok shape) :
    (type, subtype) = shape.codes ∧ flags.contains .signed = shape.leaf.isSigned ∧
      flags.contains .float = shape.leaf.isFloat ∧ ∃ rest, operands = shape.operands ++ rest := by
  unfold readShape at h
  split_ifs at h with hsequence harray hsingle hsubtype
  · obtain ⟨leaf, hleaf, rfl⟩ := map_eq_ok.mp h
    obtain ⟨hcode, hmarks⟩ := readLeaf_eq_ok hleaf
    exact ⟨Prod.ext hsequence hcode, hmarks⟩
  · split at h
    · cases h
    · rename_i count operands
      obtain ⟨leaf, hleaf, rfl⟩ := map_eq_ok.mp h
      obtain ⟨hcode, hsigned, hfloat, rest, hrest⟩ := readLeaf_eq_ok hleaf
      exact ⟨Prod.ext harray hcode, hsigned, hfloat, rest, congrArg (count :: ·) hrest⟩
  · obtain ⟨leaf, hleaf, rfl⟩ := map_eq_ok.mp h
    obtain ⟨hcode, hmarks⟩ := readLeaf_eq_ok hleaf
    exact ⟨Prod.ext hcode (not_not.mp hsubtype), hmarks⟩

theorem eq_head {word : UInt32} {key : Bool} {shape : Shape}
    (hop : word.toNat / 0x1000000 = 1)
    (hcodes : (word.toNat / 0x10000 % 0x100, word.toNat / 0x100 % 0x100) = shape.codes)
    (hflags : word.toNat % 0x100 = (Instruction.headFlags key shape.leaf).bits.toNat) :
    word = Instruction.head key shape := by
  obtain ⟨htype, hsubtype⟩ := Prod.ext_iff.mp hcodes
  dsimp only at htype hsubtype
  apply UInt32.toNat_inj.mp
  rw [Instruction.toNat_head]
  omega

/-- What is read as an instruction is its words. -/
theorem words_of_read {insn : Instruction} (h : read stream pc words = .ok (.field insn)) :
    ∃ rest, words = insn.encode ++ rest := by
  unfold read at h
  split at h
  · cases h
  · rename_i word rest
    dsimp only at h
    split_ifs at h with hzero hop hbits
    · cases h
    · split at h
      · cases h
      · rename_i index operands
        obtain ⟨shape, hshape, hinsn⟩ := map_eq_ok.mp h
        cases hinsn
        obtain ⟨hcodes, hsigned, hfloat, rest, rfl⟩ := readShape_eq_ok hshape
        have hlow : (UInt32.ofNat (word.toNat % 0x100)).toNat = word.toNat % 0x100 :=
          UInt32.toNat_ofNat_of_lt' (lt_trans (Nat.mod_lt _ (by decide)) (by decide))
        have hflags := Instruction.eq_headFlags (by rw [hlow]; omega) hsigned hfloat
        have hhead : word = Instruction.head
            (Flags.contains ⟨UInt32.ofNat (word.toNat % 0x100)⟩ .key) shape :=
          eq_head (not_not.mp hop) hcodes (by rw [← hflags, hlow])
        refine ⟨rest, ?_⟩
        change word :: index :: (shape.operands ++ rest) =
          Instruction.head _ shape :: index :: (shape.operands ++ rest)
        exact congrArg (· :: _) hhead

theorem eq_zero_of_read {word : UInt32} (h : read stream pc (word :: words) = .ok .terminator) :
    word = 0 := by
  unfold read at h
  dsimp only at h
  split_ifs at h with hzero
  · exact hzero
  · split at h
    · cases h
    · obtain ⟨_, _, hfield⟩ := map_eq_ok.mp h
      cases hfield

end Op

/-! ## Whole streams -/

theorem Op.pc_of_read {id : UInt32} {pc : Nat} {words : List UInt32} {insn : Instruction}
    (h : Op.read id pc words = .ok (.field insn)) : insn.pc = pc := by
  unfold Op.read at h
  split at h
  · cases h
  · dsimp only at h
    split_ifs at h
    · cases h
    · split at h
      · cases h
      · obtain ⟨shape, _, hfield⟩ := map_eq_ok.mp h
        cases hfield
        rfl

theorem Stream.ofInstructions_eq_assemble (insns : List Instruction) :
    ofInstructions insns = assemble (insns.map Instruction.content) := by
  simp only [ofInstructions, assemble, List.flatMap_map]
  rfl

namespace Scan

theorem placed_readFrom (id : UInt32) (pc : Nat) (words : List UInt32) :
    Instruction.placed pc ((readFrom id pc words).instructions.map Instruction.content) =
      (readFrom id pc words).instructions := by
  fun_induction readFrom id pc words with
  | case1 pc => rfl
  | case2 pc word rest defect h => rfl
  | case3 pc word rest h => rfl
  | case4 pc word rest insn h ih =>
      simp only [cons, List.map_cons, Instruction.content, Instruction.placed]
      rw [← Op.pc_of_read h] at ih ⊢
      exact congrArg _ ih

theorem placed_readAll (id : UInt32) (words : Stream) :
    Instruction.placed 0 ((readAll id words).instructions.map Instruction.content) =
      (readAll id words).instructions := by
  rw [instructions_readAll]
  exact placed_readFrom id 0 words

/-- A reading went over the words of its instructions, and over a terminator if it met one. -/
theorem words_of_readFrom (id : UInt32) (pc : Nat) (words : List UInt32) :
    ∃ rest, words = (readFrom id pc words).instructions.flatMap Instruction.encode ++ rest ∧
      ∀ last, (readFrom id pc words).ending = .ok last →
        ∃ behind, rest = 0 :: behind ∧ last + 1 + behind.length = pc + words.length := by
  fun_induction readFrom id pc words with
  | case1 pc => exact ⟨[], rfl, fun _ h => by cases h⟩
  | case2 pc word rest defect hread => exact ⟨word :: rest, rfl, fun _ h => by cases h⟩
  | case3 pc word rest hread =>
      refine ⟨word :: rest, rfl, fun last h => ?_⟩
      cases h
      refine ⟨rest, by rw [Op.eq_zero_of_read hread], ?_⟩
      simp only [List.length_cons]
      omega
  | case4 pc word rest insn hread ih =>
      obtain ⟨behind, hwords⟩ := Op.words_of_read hread
      have hlength := insn.encode_length
      have hpos : insn.length - 1 + 1 = insn.length := by
        simp only [Instruction.length, Shape.length]
        omega
      have hdrop : rest.drop (insn.length - 1) = behind := by
        rw [← List.drop_succ_cons (a := word), hpos, hwords, ← hlength, List.drop_left]
      obtain ⟨tail, htail, hlast⟩ := ih
      rw [hdrop] at htail hlast
      refine ⟨tail, ?_, fun last h => ?_⟩
      · simp only [cons, List.flatMap_cons, List.append_assoc, hdrop]
        rw [← htail, hwords]
      · simp only [cons, hdrop] at h
        obtain ⟨after, htail, hcount⟩ := hlast last h
        refine ⟨after, htail, ?_⟩
        have hwhole := congrArg List.length hwords
        rw [List.length_append, hlength] at hwhole
        omega

theorem ending_of_readAll {id : UInt32} {words : Stream} {pc : Nat}
    (h : (readAll id words).ending = .ok pc) :
    (read id words).ending = .ok pc ∧ pc + 1 = words.length := by
  unfold readAll at h
  dsimp only at h
  split at h
  · rename_i defect hread
    rw [hread] at h
    cases h
  · rename_i last hread
    split_ifs at h with hlast
    rw [hread] at h
    cases h
    exact ⟨hread, hlast⟩

theorem words_of_readAll (id : UInt32) (words : Stream) :
    ∃ rest, words = (readAll id words).instructions.flatMap Instruction.encode ++ rest ∧
      ∀ pc, (readAll id words).ending = .ok pc → rest = [0] := by
  obtain ⟨rest, hwords, hrest⟩ := words_of_readFrom id 0 words
  rw [instructions_readAll]
  refine ⟨rest, hwords, fun pc h => ?_⟩
  obtain ⟨hread, hlast⟩ := ending_of_readAll h
  obtain ⟨behind, rfl, hcount⟩ := hrest pc hread
  rw [List.eq_nil_of_length_eq_zero (by omega : behind.length = 0)]

end Scan

namespace Stream

variable {id : UInt32} {words : Stream} {insns : List Instruction}

/-- A stream is read without a defect if and only if it is put together from instructions, and
these are what is read. -/
theorem instructions_eq_ok_iff :
    instructions id words = .ok insns ↔
      ∃ fields, words = assemble fields ∧ insns = Instruction.placed 0 fields := by
  constructor
  · intro h
    obtain ⟨⟨pc, hending⟩, hinsns⟩ := instructions_eq_ok.mp h
    obtain ⟨rest, hwords, hrest⟩ := Scan.words_of_readAll id words
    have hplaced := Scan.placed_readAll id words
    rw [hinsns] at hwords hplaced
    refine ⟨insns.map Instruction.content, ?_, hplaced.symm⟩
    rw [← ofInstructions_eq_assemble, hwords, hrest pc hending]
    rfl
  · rintro ⟨fields, rfl, rfl⟩
    exact Scan.instructions_assemble id fields

/-- What a stream holds does not depend on its number. -/
theorem instructions_of_other {id' : UInt32} (h : instructions id words = .ok insns) :
    instructions id' words = .ok insns := by
  rw [instructions_eq_ok_iff] at h ⊢
  exact h

theorem assemble_injective {fields fields' : List (UInt32 × Shape × Bool)}
    (h : assemble fields = assemble fields') : fields = fields' := by
  have hread := Scan.instructions_assemble 0 fields
  rw [h, Scan.instructions_assemble] at hread
  have hcontent := congrArg (List.map Instruction.content) (Except.ok.inj hread)
  rw [Instruction.map_content_placed, Instruction.map_content_placed] at hcontent
  exact hcontent.symm

end Stream

/-! ## Positions -/

namespace Instruction

theorem mem_placed {fields : List (UInt32 × Shape × Bool)} {field : UInt32} {shape : Shape}
    {key : Bool} :
    (field, shape, key) ∈ fields ↔
      ∃ insn ∈ placed 0 fields, insn.content = (field, shape, key) := by
  conv_lhs => rw [← map_content_placed 0 fields]
  exact List.mem_map

theorem pc_of_placed {pc : Nat} {before after : List Instruction} {insn : Instruction}
    (h : placed pc ((before ++ insn :: after).map content) = before ++ insn :: after) :
    insn.pc = pc + (before.flatMap encode).length := by
  induction before generalizing pc with
  | nil =>
      simp only [List.nil_append, List.map_cons, content, placed, List.cons.injEq] at h
      rw [← h.1]
      rfl
  | cons first before ih =>
      simp only [List.cons_append, List.map_cons, content, placed, List.cons.injEq] at h
      rw [ih h.2, List.flatMap_cons, List.length_append, encode_length, Nat.add_assoc]
      rfl

end Instruction

namespace Draft

theorem words_fields (draft : Draft) (fields : List (UInt32 × Shape × Bool)) :
    (draft.fields fields).1.finish = draft.words ++ Stream.assemble fields := by
  induction fields generalizing draft with
  | nil => rfl
  | cons first rest ih =>
      obtain ⟨index, shape, key⟩ := first
      simp only [fields, ih, field, Stream.assemble, List.flatMap_cons, List.append_assoc]

/-- The positions given out are those at which the fields stand, if they are words. -/
theorem toNat_pcs (draft : Draft) (fields : List (UInt32 × Shape × Bool))
    (h : (draft.fields fields).1.finish.length < UInt32.size) :
    (draft.fields fields).2.map UInt32.toNat =
      (Instruction.placed draft.words.length fields).map Instruction.pc := by
  induction fields generalizing draft with
  | nil => rfl
  | cons first rest ih =>
      obtain ⟨index, shape, key⟩ := first
      have hnext := ih (draft.field index shape key).1 h
      have hlength : (draft.field index shape key).1.words.length =
          draft.words.length + shape.length := by
        simp only [field, List.length_append, Instruction.words, List.length_cons, Shape.length]
        omega
      have hpc : draft.pc.toNat = draft.words.length := by
        apply UInt32.toNat_ofNat_of_lt'
        rw [words_fields, List.length_append] at h
        omega
      rw [hlength] at hnext
      simp only [fields, Instruction.placed, List.map_cons, hnext]
      exact congrArg (· :: _) hpc

end Draft

namespace Stream

/-- An instruction that is read stands where the words before it end, and its words are what it is
written as. -/
theorem instruction_at {id : UInt32} {words : Stream} {insns before after : List Instruction}
    {insn : Instruction} (h : instructions id words = .ok insns)
    (hsplit : insns = before ++ insn :: after) :
    insn.pc = (before.flatMap Instruction.encode).length ∧
      (words.drop insn.pc).take insn.length = insn.encode := by
  obtain ⟨fields, hwords, hinsns⟩ := instructions_eq_ok_iff.mp h
  have hfields : insns.map Instruction.content = fields := by
    rw [hinsns, Instruction.map_content_placed]
  rw [← hfields] at hwords hinsns
  have hpc : insn.pc = (before.flatMap Instruction.encode).length := by
    rw [hsplit] at hinsns
    simpa using Instruction.pc_of_placed hinsns.symm
  refine ⟨hpc, ?_⟩
  rw [hwords, ← ofInstructions_eq_assemble, hsplit, hpc, ← insn.encode_length]
  simp [ofInstructions]

/-- The grammar of streams. Words are read as instructions without a defect exactly if they are
the words of these instructions and one terminator; each instruction then stands where the words
before it end, and has as many words as it is written in. Fields added one by one are read back in
order, at the positions that were given out for them. -/
theorem reads_exactly_assembled (id : UInt32) :
    (∀ words fields,
      (∃ insns, instructions id words = .ok insns ∧ insns.map Instruction.content = fields) ↔
        words = assemble fields) ∧
    (∀ words insns, instructions id words = .ok insns → ∀ before insn after,
      insns = before ++ insn :: after →
        insn.pc = (before.flatMap Instruction.encode).length ∧
          insn.length = insn.encode.length ∧
          (words.drop insn.pc).take insn.length = insn.encode) ∧
    (∀ fields draft pcs, ({} : Draft).fields fields = (draft, pcs) →
      draft.finish.length < UInt32.size →
        ∃ insns, instructions id draft.finish = .ok insns ∧
          insns.map Instruction.content = fields ∧
          insns.map Instruction.pc = pcs.map UInt32.toNat) := by
  refine ⟨fun words fields => ⟨?_, ?_⟩, ?_, ?_⟩
  · rintro ⟨insns, h, rfl⟩
    obtain ⟨fields, hwords, hinsns⟩ := instructions_eq_ok_iff.mp h
    rw [hinsns, Instruction.map_content_placed, hwords]
  · intro hwords
    exact ⟨_, instructions_eq_ok_iff.mpr ⟨fields, hwords, rfl⟩,
      Instruction.map_content_placed 0 fields⟩
  · intro words insns h before insn after hsplit
    obtain ⟨hpc, hwords⟩ := instruction_at h hsplit
    exact ⟨hpc, insn.encode_length.symm, hwords⟩
  · intro fields draft pcs hfields hsize
    have hwords := Draft.words_fields {} fields
    have hpcs := Draft.toNat_pcs {} fields
    rw [hfields] at hwords hpcs
    exact ⟨_, instructions_eq_ok_iff.mpr ⟨fields, hwords, rfl⟩,
      Instruction.map_content_placed 0 fields, (hpcs hsize).symm⟩

/-- Instructions of four, three and two words. -/
def mixedFields : List (UInt32 × Shape × Bool) :=
  [(7, .array (.string (some 16)) 3, true), (0, .sequence (.struct 2), false),
    (1, .single (.number .f64), true)]

def mixedDraft : Draft := ⟨[0x01080601, 7, 3, 16, 0x01070a00, 0, 2, 0x01040005, 1]⟩

theorem mixedDraft_reads_back :
    ({} : Draft).fields mixedFields = (mixedDraft, [0, 4, 7]) ∧
      mixedDraft.finish.length < UInt32.size ∧
      ∃ insns, instructions 9 mixedDraft.finish = .ok insns ∧
        insns.map Instruction.content = mixedFields ∧ insns.map Instruction.pc = [0, 4, 7] ∧
        ∀ before insn after, insns = before ++ insn :: after →
          insn.pc = (before.flatMap Instruction.encode).length ∧
            insn.length = insn.encode.length ∧
            (mixedDraft.finish.drop insn.pc).take insn.length = insn.encode := by
  have hfields : ({} : Draft).fields mixedFields = (mixedDraft, [0, 4, 7]) := by decide
  have hsize : mixedDraft.finish.length < UInt32.size := by decide
  obtain ⟨_, hplaces, hreads⟩ := reads_exactly_assembled 9
  obtain ⟨insns, hinsns, hcontent, hpcs⟩ := hreads _ _ _ hfields hsize
  exact ⟨hfields, hsize, insns, hinsns, hcontent, hpcs, hplaces _ _ hinsns⟩

end Stream
end TopicCodec
