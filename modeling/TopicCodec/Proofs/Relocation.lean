import TopicCodec.Proofs.Grafting
import TopicCodec.Proofs.Nesting

/-!
# Programs taken in

Grafting changes a program at its very end only, when all streams of the other program have been
read and moved. `Relocated` says what it then looks like: the old streams, and behind them the
streams of the other program, with the same instructions but for the references, which are
counted from the number of old streams on. Everything else follows from that. References of the
two parts stay apart, so no cycle goes through both of them; and a walk from a stream that was
taken in never comes to an old one.
-/
namespace TopicCodec.Program

open Relation

variable {program other program' : Program} {base : UInt32}

/-! ## In place -/

section InPlace

variable {ε τ α β : Type}

/-- Steps that do not touch the state leave it as it was, also if one of them fails. -/
theorem run_mapM_ofExcept {f : α → Except ε β} {items : List α} {outcome : Except ε (List β)}
    (h : items.mapM f = outcome) (state : τ) :
    (items.mapM fun item => (MonadExcept.ofExcept (f item) : ExceptT ε (StateM τ) β)).run.run
      state = (outcome, state) := by
  subst h
  induction items with
  | nil => rfl
  | cons first rest ih =>
      rw [List.mapM_cons, List.mapM_cons]
      cases f first with
      | error error => rfl
      | ok b =>
          refine Eq.trans (run_bind_ok rfl) ?_
          cases hrest : rest.mapM f with
          | error error =>
              rw [hrest] at ih
              exact run_bind_error ih
          | ok bs =>
              rw [hrest] at ih
              exact run_bind_ok ih

end InPlace

theorem run_graftInto_ok (h : program.graft other = .ok (program', base)) :
    (graftInto other).run.run program = (.ok base, program') := by
  obtain ⟨imported, himported, h⟩ := bind_eq_ok.mp h
  cases h
  refine Eq.trans (run_bind_ok rfl) ?_
  exact run_bind_ok (run_mapM_ofExcept himported program)

theorem run_graftInto_error {defect : Defect} (h : program.graft other = .error defect) :
    (graftInto other).run.run program = (.error defect, program) := by
  obtain himported | ⟨imported, _, h⟩ := bind_eq_error h
  · refine Eq.trans (run_bind_ok rfl) ?_
    exact run_bind_error (run_mapM_ofExcept himported program)
  · cases h

/-! ## What is there after -/

/-- The program has the streams of an old one and behind them those of another one, with their
references counted from `base` on. -/
structure Relocated (program other program' : Program) (base : UInt32) : Prop where
  base_eq : base.toNat = program.length
  length_eq : program'.length = program.length + other.length
  size : program'.length < UInt32.size
  old : program.streams <+: program'.streams
  moved : ∀ id words, other.stream? id = some words → ∃ moved insns,
    program'.stream? (id + base) = some moved ∧ Stream.instructions id words = .ok insns ∧
      Stream.instructions (id + base) moved = .ok (insns.map (Instruction.renumber (· + base))) ∧
      ∀ insn ∈ insns, ∀ target, insn.leaf = .struct target →
        target.toNat + base.toNat < UInt32.size

/-- No reference of a stream that was moved is too large for that. -/
theorem targets_of_rebaseStream {id : UInt32} {words moved : Stream} {insns : List Instruction}
    (h : rebaseStream base id words = .ok moved)
    (hinsns : Stream.instructions id words = .ok insns) :
    ∀ insn ∈ insns, ∀ target, insn.leaf = .struct target →
      target.toNat + base.toNat < UInt32.size := by
  intro insn hi
  rw [rebaseStream_eq] at h
  obtain ⟨rebased, hrebased, _⟩ := bind_eq_ok.mp h
  rw [(Stream.instructions_eq_ok.mp hinsns).2] at hrebased
  obtain ⟨i, hplace⟩ := List.mem_iff_getElem?.mp hi
  obtain ⟨found, _, hfound⟩ := getElem?_of_forall₂ (forall₂_of_mapM hrebased) hplace
  exact (rebase_eq_ok.mp hfound).2

theorem exists_rebaseStream {id : UInt32} {words : Stream} {insns : List Instruction}
    (hinsns : Stream.instructions id words = .ok insns)
    (htargets : ∀ insn ∈ insns, ∀ target, insn.leaf = .struct target →
      target.toNat + base.toNat < UInt32.size) :
    ∃ moved, rebaseStream base id words = .ok moved := by
  obtain ⟨⟨pc, hpc⟩, hread⟩ := Stream.instructions_eq_ok.mp hinsns
  have hall : ∃ rebased, insns.mapM (rebase base id) = .ok rebased := by
    apply exists_mapM
    intro insn hi
    exact ⟨_, rebase_eq_ok.mpr ⟨rfl, htargets insn hi⟩⟩
  obtain ⟨rebased, hrebased⟩ := hall
  refine ⟨Stream.ofInstructions rebased, ?_⟩
  rw [← hread] at hrebased
  rw [rebaseStream_eq]
  apply bind_eq_ok.mpr
  refine ⟨rebased, hrebased, ?_⟩
  rw [hpc]
  rfl

theorem relocated_of_graft (h : program.graft other = .ok (program', base))
    (hsize : program.length + other.length < UInt32.size) :
    Relocated program other program' base := by
  have hlength := length_graft h
  constructor
  · exact (toNat_base_of_graft h).trans (Nat.mod_eq_of_lt (by omega))
  · exact hlength
  · omega
  · exact graft_extends h
  · intro id words hw
    obtain ⟨_, moved, hm, hrebase⟩ := stream_graft h (by omega) hw
    obtain ⟨insns, hinsns, hmoved⟩ := instructions_rebaseStream hrebase
    exact ⟨moved, insns, hm, hinsns, hmoved _, targets_of_rebaseStream hrebase hinsns⟩

/-- A program that can be read can be taken in. -/
theorem Readable.exists_graft (h : other.Readable)
    (hsize : program.length + other.length < UInt32.size) :
    ∃ program' base, program.graft other = .ok (program', base) := by
  have hbase : (UInt32.ofNat program.length).toNat = program.length :=
    UInt32.toNat_ofNat_of_lt' (by omega)
  have hall : ∃ imported, (other.numbered.mapM fun entry =>
      rebaseStream (UInt32.ofNat program.length) entry.1 entry.2) = .ok imported := by
    apply exists_mapM
    intro entry hentry
    obtain ⟨insns, hinsns, htargets⟩ := readable_iff.mp h entry.2 (mem_streams_of_numbered hentry)
    apply exists_rebaseStream (Stream.instructions_of_other hinsns)
    intro insn hi target ht
    have := htargets insn hi target ht
    omega
  obtain ⟨imported, himported⟩ := hall
  exact ⟨_, _, bind_eq_ok.mpr ⟨imported, himported, rfl⟩⟩

namespace Relocated

theorem stream_old (h : Relocated program other program' base) {a : Nat}
    (ha : a < program.length) : program'.streams[a]? = program.streams[a]? := by
  obtain ⟨rest, hrest⟩ := h.old
  rw [← hrest]
  exact List.getElem?_append_left ha

theorem toNat_add (h : Relocated program other program' base) {id : UInt32}
    (hid : id.toNat < other.length) : (id + base).toNat = id.toNat + base.toNat := by
  apply toNat_add_of_lt
  have := h.base_eq
  have := h.length_eq
  have := h.size
  omega

theorem stream_cases (h : Relocated program other program' base) {a : Nat} {found : Stream}
    (hfound : program'.streams[a]? = some found) :
    program.streams[a]? = some found ∨
      ∃ id words, other.stream? id = some words ∧ a = id.toNat + base.toNat ∧
        program'.stream? (id + base) = some found := by
  have hbase := h.base_eq
  by_cases ha : a < program.length
  · left
    rwa [h.stream_old ha] at hfound
  · right
    have hlt : a < program'.length := (List.getElem?_eq_some_iff.mp hfound).1
    have hrest : a - program.length < other.streams.length := by
      have hlength : program'.length = program.length + other.streams.length := h.length_eq
      omega
    have hid : (UInt32.ofNat (a - program.length)).toNat = a - program.length := by
      apply UInt32.toNat_ofNat_of_lt'
      have := h.size
      omega
    have hplace : (UInt32.ofNat (a - program.length) + base).toNat = a := by
      rw [h.toNat_add (hid.trans_lt hrest), hid, hbase]
      omega
    refine ⟨UInt32.ofNat (a - program.length), other.streams[a - program.length], ?_, ?_, ?_⟩
    · rw [stream?, hid]
      exact List.getElem?_eq_getElem hrest
    · rw [hid, hbase]
      omega
    · rw [stream?, hplace]
      exact hfound

theorem readable (h : Relocated program other program' base) (hprogram : program.Readable)
    (hother : other.Readable) : program'.Readable := by
  rw [readable_iff]
  intro found hm
  obtain ⟨a, hfound⟩ := List.mem_iff_getElem?.mp hm
  obtain hold | ⟨id, words, hw, _, hfound⟩ := h.stream_cases hfound
  · obtain ⟨insns, hinsns, htargets⟩ :=
      readable_iff.mp hprogram found (List.mem_of_getElem? hold)
    refine ⟨insns, hinsns, fun insn hi target ht => ?_⟩
    exact (htargets insn hi target ht).trans_le h.old.length_le
  · obtain ⟨moved, insns, hm, hinsns, hmoved, _⟩ := h.moved id words hw
    cases hm.symm.trans hfound
    refine ⟨_, Stream.instructions_of_other hmoved, fun _ hrenumbered target ht => ?_⟩
    obtain ⟨insn, hi, rfl⟩ := List.mem_map.mp hrenumbered
    obtain ⟨inner, hleaf, rfl⟩ := Instruction.leaf_renumber_eq_struct ht
    obtain ⟨_, hread, htargets⟩ := hother.instructions hw
    cases hread.symm.trans hinsns
    have hinner := htargets insn hi inner hleaf
    rw [h.toNat_add hinner, h.base_eq, h.length_eq]
    omega

/-! ### No cycle through both parts -/

theorem nests_cases (h : Relocated program other program' base) {a b : Nat}
    (hab : program'.Nests a b) :
    program.Nests a b ∨
      ∃ a' b', other.Nests a' b' ∧ a = a' + base.toNat ∧ b = b' + base.toNat := by
  obtain ⟨fields, field, shape, key, target, hfound, hrest⟩ := id hab
  obtain hold | ⟨id, words, hw, rfl, hfound'⟩ := h.stream_cases hfound
  · exact .inl ⟨fields, field, shape, key, target, hold, hrest⟩
  · obtain ⟨moved, insns, hm, hinsns, hmoved, htargets⟩ := h.moved id words hw
    cases hm.symm.trans hfound'
    obtain ⟨_, hrenumbered, target, ht, hshape, rfl⟩ :=
      mem_containedIn.mp ((nests_iff hfound hmoved).mp hab)
    obtain ⟨insn, hi, rfl⟩ := List.mem_map.mp hrenumbered
    obtain ⟨inner, hleaf, rfl⟩ := Instruction.leaf_renumber_eq_struct ht
    rw [Instruction.renumber, Shape.isSequence_renumber] at hshape
    refine .inr ⟨id.toNat, inner.toNat, ?_, rfl, toNat_add_of_lt (htargets insn hi inner hleaf)⟩
    exact (nests_iff hw hinsns).mpr (mem_containedIn.mpr ⟨insn, hi, inner, hleaf, hshape, rfl⟩)

theorem transGen_cases (h : Relocated program other program' base) (hreadable : program.Readable)
    {a b : Nat} (hab : TransGen program'.Nests a b) :
    TransGen program.Nests a b ∨
      ∃ a' b', TransGen other.Nests a' b' ∧ a = a' + base.toNat ∧ b = b' + base.toNat := by
  have hbase := h.base_eq
  induction hab with
  | single hab =>
      obtain hold | ⟨a', b', hmoved, ha, hb⟩ := h.nests_cases hab
      · exact .inl (.single hold)
      · exact .inr ⟨a', b', .single hmoved, ha, hb⟩
  | tail _ hbc ih =>
      obtain hab | ⟨a', b', hab, ha, hb⟩ := ih
      · obtain hbc | ⟨b', c', _, hb, _⟩ := h.nests_cases hbc
        · exact .inl (hab.tail hbc)
        · obtain ⟨_, _, hlast⟩ := TransGen.tail'_iff.mp hab
          have := hreadable.nests_lt hlast
          omega
      · obtain hbc | ⟨b'', c', hbc, hb', hc⟩ := h.nests_cases hbc
        · have := hbc.lt_length
          omega
        · have hsame : b' = b'' := by omega
          subst hsame
          exact .inr ⟨a', c', hab.tail hbc, ha, hc⟩

theorem validate (h : Relocated program other program' base)
    (hprogram : program.validate = .ok ()) (hother : other.validate = .ok ()) :
    program'.validate = .ok () := by
  obtain ⟨hstreams, hreadable, hacyclic⟩ := validate_eq_ok_iff.mp hprogram
  obtain ⟨_, hreadable', hacyclic'⟩ := validate_eq_ok_iff.mp hother
  apply validate_eq_ok_iff.mpr
  refine ⟨?_, h.readable hreadable hreadable', ?_⟩
  · intro hempty
    apply hstreams
    apply List.prefix_nil.mp
    rw [← hempty]
    exact h.old
  · intro node hnode
    obtain hold | ⟨a, b, hmoved, ha, hb⟩ := h.transGen_cases hreadable hnode
    · exact hacyclic node hold
    · have hsame : a = b := by omega
      subst hsame
      exact hacyclic' a hmoved

theorem embeds (h : Relocated program other program' base) :
    program'.Embeds (· + base) other := by
  intro id words hw
  obtain ⟨moved, insns, hm, hinsns, hmoved, _⟩ := h.moved id words hw
  exact ⟨moved, insns, hm, hinsns, hmoved⟩

theorem exists_stream (h : Relocated program other program' base) {id : UInt32} {moved : Stream}
    (hid : id.toNat + base.toNat < UInt32.size)
    (hm : program'.stream? (id + base) = some moved) : ∃ words, other.stream? id = some words := by
  have hlt : (id + base).toNat < program'.length := (List.getElem?_eq_some_iff.mp hm).1
  rw [toNat_add_of_lt hid, h.base_eq, h.length_eq] at hlt
  have hother : id.toNat < other.streams.length := by
    have : other.length = other.streams.length := rfl
    omega
  exact ⟨_, List.getElem?_eq_getElem hother⟩

end Relocated
end TopicCodec.Program

namespace TopicCodec.Marshal

/-- Starting from two streams, of two descriptors, walks write the same or refuse an instance for
the same reason, whatever it is; only defects of the descriptors may differ. -/
def WriteAlike (desc : Descriptor) (stream : UInt32) (words : Stream) (desc' : Descriptor)
    (stream' : UInt32) (words' : Stream) : Prop :=
  ∀ (σ : Type) [Sink σ] (wire : WireFormat) (fuel : Nat) (value : Value) (path : Path)
    (position : Nat) (outcome : Except CodecError σ),
    (∀ error, outcome = .error error → error.isRecoverable = true) →
      (encodeStruct ⟨desc, wire⟩ fuel stream words value path position = outcome ↔
        encodeStruct ⟨desc', wire⟩ fuel stream' words' value path position = outcome)

theorem writeAlike_of_relocated {desc desc' : Descriptor} {program : Program} {base : UInt32}
    (h : program.Relocated desc.program desc'.program base) {id : UInt32} {words moved : Stream}
    (hw : desc.program.stream? id = some words)
    (hm : desc'.program.stream? (id + base) = some moved) :
    WriteAlike desc id words desc' (id + base) moved := by
  intro σ _ wire fuel value path position outcome hk
  have htargets : ∀ id words, desc.program.stream? id = some words →
      ∀ insn ∈ (Scan.read id words).instructions, ∀ target, insn.leaf = .struct target →
        target.toNat + base.toNat < UInt32.size := by
    intro id words hw insn hi
    obtain ⟨_, insns, _, hinsns, _, htargets⟩ := h.moved id words hw
    rw [(Scan.read_of_instructions hinsns).1] at hi
    exact htargets insn hi
  obtain ⟨back, hback⟩ : ∃ back : UInt32 → UInt32, ∀ target, back (target + base) = target :=
    ⟨(· - base), fun target => UInt32.add_sub_cancel target base⟩
  have hinside : id.toNat + base.toNat < UInt32.size := by
    have hid : id.toNat < desc.program.length := (List.getElem?_eq_some_iff.mp hw).1
    rw [← h.toNat_add hid]
    exact (id + base).toNat_lt_size
  apply Keeps.eq_iff _ _ hk
  · exact (lockstep_of_embeds h.embeds wire).encodeStruct fuel id words moved trivial hw hm value
      path position
  · have hlockstep := lockstep_back_of_embeds h.embeds hback
      (fun _ _ hid hm => h.exists_stream hid hm) htargets wire
    have hkeeps := hlockstep.encodeStruct (σ := σ) fuel (id + base) moved words
      ⟨id, hinside, rfl⟩ hm
    rw [hback id] at hkeeps
    exact hkeeps hw value path position

end TopicCodec.Marshal

namespace TopicCodec.Program

/-- Taking in a program, with less than 2^32 streams in all, is atomic and keeps the meaning of
both programs. If it fails, the program is as it was. If not, the streams of the other program
are found behind the old ones, which have not changed; they have the same instructions with
references counted from there, and write every instance as they did. Programs that pass the check
can be taken in, and what comes out passes it. -/
theorem graftInto_relocates (program other : Program)
    (hsize : program.length + other.length < UInt32.size) :
    (∀ defect program', (graftInto other).run.run program = (.error defect, program') →
      program' = program) ∧
    (∀ base program', (graftInto other).run.run program = (.ok base, program') →
      base.toNat = program.length ∧ program'.length = program.length + other.length ∧
      (∀ i < program.length, program'.streams[i]? = program.streams[i]?) ∧
      ∀ id words, other.stream? id = some words → ∃ moved insns,
        (id + base).toNat = id.toNat + base.toNat ∧
        program'.stream? (id + base) = some moved ∧ Stream.instructions id words = .ok insns ∧
        Stream.instructions (id + base) moved =
          .ok (insns.map (Instruction.renumber (· + base))) ∧
        (∀ insn ∈ insns, ∀ target, insn.leaf = .struct target →
          (target + base).toNat = target.toNat + base.toNat) ∧
        ∀ desc desc', desc.program = other → desc'.program = program' →
          Marshal.WriteAlike desc id words desc' (id + base) moved) ∧
    (program.validate = .ok () → other.validate = .ok () → ∃ base program',
      (graftInto other).run.run program = (.ok base, program') ∧ program'.validate = .ok ()) := by
  refine ⟨?_, ?_, ?_⟩
  · intro defect program' hrun
    cases hgraft : program.graft other with
    | error found =>
        rw [run_graftInto_error hgraft] at hrun
        cases hrun
        rfl
    | ok outcome =>
        rw [run_graftInto_ok hgraft] at hrun
        cases hrun
  · intro base program' hrun
    cases hgraft : program.graft other with
    | error found =>
        rw [run_graftInto_error hgraft] at hrun
        cases hrun
    | ok outcome =>
        obtain ⟨grafted, number⟩ := outcome
        rw [run_graftInto_ok hgraft] at hrun
        cases hrun
        have h := relocated_of_graft hgraft hsize
        refine ⟨h.base_eq, h.length_eq, fun i hi => h.stream_old hi, ?_⟩
        intro id words hw
        obtain ⟨moved, insns, hm, hinsns, hmoved, htargets⟩ := h.moved id words hw
        refine ⟨moved, insns, h.toNat_add (List.getElem?_eq_some_iff.mp hw).1, hm, hinsns, hmoved,
          fun insn hi target ht => toNat_add_of_lt (htargets insn hi target ht), ?_⟩
        rintro desc desc' rfl rfl
        exact Marshal.writeAlike_of_relocated h hw hm
  · intro hprogram hother
    obtain ⟨_, hreadable, _⟩ := validate_eq_ok_iff.mp hother
    obtain ⟨program', base, hgraft⟩ := hreadable.exists_graft hsize
    exact ⟨base, program', run_graftInto_ok hgraft,
      (relocated_of_graft hgraft hsize).validate hprogram hother⟩

/-- A structure with a number and a sequence of structures like itself. -/
def trunk : Program := ⟨[
    Stream.assemble [(0, .single (.number .u8), true), (1, .sequence (.struct 0), false)]]⟩

/-- A structure that holds two pairs, and any number of structures like itself. -/
def branch : Program := ⟨[
    Stream.assemble [(0, .array (.struct 1) 2, false), (1, .sequence (.struct 0), false)],
    Stream.assemble [(0, .single (.number .u16), false), (1, .single (.string none), false)]]⟩

theorem graftInto_trunk_branch :
    ∃ base program', (graftInto branch).run.run trunk = (.ok base, program') ∧
      base.toNat = 1 ∧ program'.length = 3 ∧ program'.validate = .ok () := by
  obtain ⟨_, hok, hvalid⟩ := graftInto_relocates trunk branch (by decide)
  obtain ⟨base, program', hrun, hvalidate⟩ :=
    hvalid (by with_unfolding_all rfl) (by with_unfolding_all rfl)
  obtain ⟨hbase, hlength, _⟩ := hok base program' hrun
  exact ⟨base, program', hrun, hbase, hlength, hvalidate⟩

end TopicCodec.Program
