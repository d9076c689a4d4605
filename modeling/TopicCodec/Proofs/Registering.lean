import Mathlib.Data.String.Basic
import TopicCodec.Proofs.Relocation
import TopicCodec.Proofs.Shaped
import TopicCodec.Proofs.Spelling
import TopicCodec.Registry

/-!
# Runs of registrations

Whatever a registry shows follows from the registrations that led to it. One of them either fails
and changes nothing, or puts in a valid descriptor under a name that was free (`register_cases`),
and so the registry holds just what was registered with success, in order (`Run.holds`).

The names it lists are canonical spellings, but a look-up spells its name anew. So a listed name
leads back to its descriptor exactly if that second spelling changes nothing.
-/
namespace TopicCodec.Registry

variable {registry registry' : Registry} {desc : Descriptor} {name : String}

/-! ## Entries -/

section Entries

variable {entries : List (String × Descriptor)}

def Ascending (entries : List (String × Descriptor)) : Prop :=
  entries.Pairwise fun entry next => entry.1 < next.1

theorem insertEntry_perm (h : name ∉ entries.map (·.1)) :
    (insertEntry name desc entries).Perm ((name, desc) :: entries) := by
  fun_induction insertEntry name desc entries with
  | case1 => exact .refl _
  | case2 kept rest => simp at h
  | case3 other kept rest hne hlt => exact .refl _
  | case4 other kept rest hne hlt ih =>
      rw [List.map_cons, List.mem_cons, not_or] at h
      exact ((ih h.2).cons _).trans (.swap _ _ _)

theorem Ascending.insertEntry (hentries : Ascending entries) (h : name ∉ entries.map (·.1)) :
    Ascending (insertEntry name desc entries) := by
  fun_induction Registry.insertEntry name desc entries with
  | case1 => exact List.pairwise_singleton _ _
  | case2 kept rest => exact hentries
  | case3 other kept rest hne hlt =>
      have hfirst := (List.pairwise_cons.mp hentries).1
      exact List.pairwise_cons.mpr
        ⟨List.forall_mem_cons.mpr ⟨hlt, fun entry he => hlt.trans (hfirst entry he)⟩, hentries⟩
  | case4 other kept rest hne hlt ih =>
      rw [List.map_cons, List.mem_cons, not_or] at h
      obtain ⟨hfirst, hrest⟩ := List.pairwise_cons.mp hentries
      have hnew : other < name := lt_of_le_of_ne (not_lt.mp hlt) (Ne.symm hne)
      refine List.pairwise_cons.mpr ⟨?_, ih hrest h.2⟩
      intro entry hentry
      rw [(insertEntry_perm h.2).mem_iff, List.mem_cons] at hentry
      rcases hentry with rfl | hold
      · exact hnew
      · exact hfirst entry hold

theorem isSome_lookup_iff :
    (registry.entries.lookup name).isSome = true ↔ name ∈ registry.names := by
  rw [List.lookup_isSome_iff, names, List.mem_map]
  simp only [beq_iff_eq, eq_comm (a := name)]

end Entries

/-! ## One registration -/

theorem register_invalid {defect : Defect} (h : desc.validate = .error defect) :
    (register desc).run.run registry = (.error defect, registry) := by
  unfold register
  rw [h]
  rfl

theorem register_valid (h : desc.validate = .ok ()) :
    (register desc).run.run registry =
      if desc.canonicalName ∈ registry.names then
        (.error (.duplicateType desc.canonicalName), registry)
      else (.ok desc, ⟨insertEntry desc.canonicalName desc registry.entries⟩) := by
  unfold register
  rw [h]
  refine (run_bind_ok rfl).trans ((run_bind_ok rfl).trans ?_)
  by_cases htaken : desc.canonicalName ∈ registry.names
  · rw [if_pos htaken, if_pos (isSome_lookup_iff.mpr htaken)]
    rfl
  · rw [if_neg htaken, if_neg (mt isSome_lookup_iff.mp htaken)]
    rfl

/-- A registration fails and leaves the registry as it is, or the descriptor is valid and goes in
as it is, under a name that was free. -/
theorem register_cases {answer : Except Defect Descriptor}
    (h : (register desc).run.run registry = (answer, registry')) :
    (∃ defect, answer = .error defect ∧ registry' = registry ∧
      (desc.validate = .ok () → desc.canonicalName ∈ registry.names)) ∨
    (answer = .ok desc ∧ desc.validate = .ok () ∧ desc.canonicalName ∉ registry.names ∧
      registry' = ⟨insertEntry desc.canonicalName desc registry.entries⟩) := by
  cases hvalid : desc.validate with
  | error defect =>
      rw [register_invalid hvalid] at h
      cases h
      exact .inl ⟨defect, rfl, rfl, nofun⟩
  | ok =>
      rw [register_valid hvalid] at h
      split at h
      case isTrue htaken =>
        cases h
        exact .inl ⟨_, rfl, rfl, fun _ => htaken⟩
      case isFalse hfree =>
        cases h
        exact .inr ⟨rfl, rfl, hfree, rfl⟩

/-! ## Runs -/

structure Call where
  desc : Descriptor
  answer : Except Defect Descriptor

def Call.Succeeded (call : Call) : Prop := ∃ kept, call.answer = .ok kept

/-- The registrations, whoever makes them, that lead from the empty registry to this one, in the
order in which they get hold of it. The latest one comes first. -/
inductive Run : List Call → Registry → Prop
  | start : Run [] .empty
  | call {calls : List Call} {registry registry' : Registry} {desc : Descriptor}
      {answer : Except Defect Descriptor} (before : Run calls registry)
      (step : (register desc).run.run registry = (answer, registry')) :
      Run (⟨desc, answer⟩ :: calls) registry'

structure Holds (calls : List Call) (registry : Registry) : Prop where
  ascending : Ascending registry.entries
  valid : ∀ entry ∈ registry.entries, entry.2.validate = .ok ()
  mem_iff : ∀ name desc, (name, desc) ∈ registry.entries ↔
    desc.canonicalName = name ∧ ∃ call ∈ calls, call.Succeeded ∧ call.desc = desc

variable {calls : List Call}

theorem Holds.register {answer : Except Defect Descriptor} (h : Holds calls registry)
    (hstep : (register desc).run.run registry = (answer, registry')) :
    Holds (⟨desc, answer⟩ :: calls) registry' := by
  rcases register_cases hstep with ⟨defect, rfl, rfl, _⟩ | ⟨rfl, hvalid, hfree, rfl⟩
  · have hfailed : ¬ Call.Succeeded ⟨desc, .error defect⟩ := nofun
    refine ⟨h.ascending, h.valid, fun name other => ?_⟩
    simp [h.mem_iff, hfailed]
  · have hsucceeded : Call.Succeeded ⟨desc, .ok desc⟩ := ⟨desc, rfl⟩
    have hmem (entry : String × Descriptor) :
        entry ∈ insertEntry desc.canonicalName desc registry.entries ↔
          entry = (desc.canonicalName, desc) ∨ entry ∈ registry.entries := by
      rw [(insertEntry_perm hfree).mem_iff, List.mem_cons]
    refine ⟨h.ascending.insertEntry hfree, fun entry hentry => ?_, fun name other => ?_⟩
    · rcases (hmem entry).mp hentry with rfl | hold
      · exact hvalid
      · exact h.valid entry hold
    · rw [hmem, h.mem_iff, Prod.mk.injEq, List.exists_mem_cons_iff]
      grind

theorem Run.holds (h : Run calls registry) : Holds calls registry := by
  induction h with
  | start => exact ⟨.nil, nofun, by simp [empty]⟩
  | call _ hstep ih => exact ih.register hstep

theorem Holds.get?_eq_some_iff (h : Holds calls registry) :
    registry.get? name = some desc ↔ ∃ call ∈ calls, call.Succeeded ∧ call.desc = desc ∧
      desc.canonicalName = Name.canonical name := by
  rw [get?, lookup_eq_some_iff_mem (h.ascending.imp ne_of_lt), h.mem_iff]
  grind

theorem Holds.mem_names_iff (h : Holds calls registry) :
    name ∈ registry.names ↔ ∃ call ∈ calls, call.Succeeded ∧ call.desc.canonicalName = name := by
  simp only [names, List.mem_map, Prod.exists, h.mem_iff]
  grind

/-- A structure of one truth value. -/
def lamp (typeName : String) : Descriptor where
  typeName := typeName
  program := ⟨[Stream.assemble [(0, .single .bool, false)]]⟩

theorem validate_lamp (typeName : String) : (lamp typeName).validate = .ok () := by
  with_unfolding_all rfl

/-- A lamp, one that promises a key it does not have, and the first one in another spelling. -/
def lampCalls : List Call :=
  [⟨lamp "Lab.Lamp", .error (.duplicateType "Lab::Lamp")⟩,
    ⟨{ lamp "Lab::Dimmer" with keyCount := 1 }, .error (.keyCountMismatch 1 0)⟩,
    ⟨lamp "Lab::Lamp", .ok (lamp "Lab::Lamp")⟩]

def lamps : Registry := ⟨[("Lab::Lamp", lamp "Lab::Lamp")]⟩

theorem canonicalName_lamp : (lamp "Lab::Lamp").canonicalName = "Lab::Lamp" := by
  rfl

theorem run_lamps : Run lampCalls lamps := by
  have hlamp : (register (lamp "Lab::Lamp")).run.run .empty = (.ok (lamp "Lab::Lamp"), lamps) := by
    rw [register_valid (validate_lamp _), canonicalName_lamp]
    rfl
  have hdimmer : ({ lamp "Lab::Dimmer" with keyCount := 1 } : Descriptor).validate =
      .error (.keyCountMismatch 1 0) := by
    with_unfolding_all rfl
  have hspelling : (lamp "Lab.Lamp").canonicalName = "Lab::Lamp" := rfl
  have hagain : (register (lamp "Lab.Lamp")).run.run lamps =
      (.error (.duplicateType "Lab::Lamp"), lamps) := by
    rw [register_valid (validate_lamp _), hspelling, if_pos (by simp [lamps, names])]
  exact ((Run.start.call hlamp).call (register_invalid hdimmer)).call hagain

/-- What a registry shows is what the registrations that led to it make of it. One that fails
changes nothing. A look-up finds a descriptor if and only if it was registered successfully under
a spelling of the same name, and finds it from then on. The next registration succeeds if and only
if the descriptor is valid and no earlier success has its name. All descriptors held are valid, and
their names are listed once, in ascending order. -/
theorem run_answers (h : Run calls registry) :
    (∀ desc defect registry',
      (register desc).run.run registry = (.error defect, registry') →
        (∀ name, registry'.get? name = registry.get? name) ∧
          registry'.names = registry.names ∧ registry'.length = registry.length) ∧
    (∀ name desc, registry.get? name = some desc ↔
      ∃ call ∈ calls, call.Succeeded ∧ call.desc = desc ∧
        desc.canonicalName = Name.canonical name) ∧
    (∀ later registry', Run (later ++ calls) registry' →
      ∀ name desc, registry.get? name = some desc → registry'.get? name = some desc) ∧
    (∀ desc, (∃ kept registry', (register desc).run.run registry = (.ok kept, registry')) ↔
      desc.validate = .ok () ∧
        ∀ call ∈ calls, call.Succeeded → call.desc.canonicalName ≠ desc.canonicalName) ∧
    (∀ entry ∈ registry.entries, entry.2.validate = .ok ()) ∧
    registry.names.Pairwise (· < ·) ∧ registry.names.length = registry.length := by
  have hholds := h.holds
  refine ⟨fun desc defect registry' hstep => ?_, fun name desc => hholds.get?_eq_some_iff,
    fun later registry' hlater name desc => ?_, fun desc => ?_, hholds.valid,
    List.pairwise_map.mpr hholds.ascending, List.length_map _⟩
  · rcases register_cases hstep with ⟨_, _, rfl, _⟩ | ⟨hanswer, _⟩
    · exact ⟨fun _ => rfl, rfl, rfl⟩
    · cases hanswer
  · rw [hholds.get?_eq_some_iff, hlater.holds.get?_eq_some_iff]
    rintro ⟨call, hcall, hkept⟩
    exact ⟨call, List.mem_append_right _ hcall, hkept⟩
  · have hfree : desc.canonicalName ∉ registry.names ↔
        ∀ call ∈ calls, call.Succeeded → call.desc.canonicalName ≠ desc.canonicalName := by
      rw [hholds.mem_names_iff]
      push Not
      rfl
    rw [← hfree]
    constructor
    · rintro ⟨kept, registry', hstep⟩
      rcases register_cases hstep with ⟨_, hanswer, _⟩ | ⟨_, hvalid, hname, _⟩
      · cases hanswer
      · exact ⟨hvalid, hname⟩
    · rintro ⟨hvalid, hname⟩
      exact ⟨desc, _, by rw [register_valid hvalid, if_neg hname]⟩

/-- The registry of lamps finds its lamp in any spelling, and refuses another one of the name. -/
theorem run_answers_lamps :
    Run lampCalls lamps ∧ lamps.get? ".Lab.Lamp" = some (lamp "Lab::Lamp") ∧
      ¬∃ kept registry', (register (lamp "Lab..Lamp")).run.run lamps = (.ok kept, registry') := by
  obtain ⟨_, hget, _, hsucceeds, _⟩ := run_answers run_lamps
  have hcall : (⟨lamp "Lab::Lamp", .ok (lamp "Lab::Lamp")⟩ : Call) ∈ lampCalls := by
    simp [lampCalls]
  refine ⟨run_lamps, (hget _ _).mpr ⟨_, hcall, ⟨_, rfl⟩, rfl, by decide⟩, ?_⟩
  rw [hsucceeds]
  exact fun h => h.2 _ hcall ⟨_, rfl⟩ (by decide)

/-! ## Names that are listed -/

theorem Holds.get?_canonicalName_iff (h : Holds calls registry) {call : Call}
    (hcall : call ∈ calls) (hsucceeded : call.Succeeded) :
    registry.get? call.desc.canonicalName = some call.desc ↔
      ((Name.parts call.desc.typeName).map String.toList).IsChain Name.Clear := by
  rw [h.get?_eq_some_iff, ← Name.canonical_canonical_iff]
  constructor
  · rintro ⟨_, _, _, _, hname⟩
    exact hname.symm
  · intro hname
    exact ⟨call, hcall, hsucceeded, rfl, hname.symm⟩

/-- A spelling is canonical for good, and a listed name leads back to the descriptor that was
registered under it, if and only if the parts of the name are clear of each other. -/
theorem listed_found_iff (h : Run calls registry) :
    (∀ name, Name.canonical (Name.canonical name) = Name.canonical name ↔
      ((Name.parts name).map String.toList).IsChain Name.Clear) ∧
    ∀ name ∈ registry.names,
      ∃ call ∈ calls, call.Succeeded ∧ call.desc.canonicalName = name ∧
        (registry.get? name = some call.desc ↔
          ((Name.parts call.desc.typeName).map String.toList).IsChain Name.Clear) := by
  refine ⟨Name.canonical_canonical_iff, fun name hname => ?_⟩
  obtain ⟨call, hcall, hsucceeded, rfl⟩ := h.holds.mem_names_iff.mp hname
  exact ⟨call, hcall, hsucceeded, rfl, h.holds.get?_canonicalName_iff hcall hsucceeded⟩

theorem listed_found_lamps :
    Run lampCalls lamps ∧ "Lab::Lamp" ∈ lamps.names ∧
      ∃ call ∈ lampCalls, call.Succeeded ∧ call.desc.canonicalName = "Lab::Lamp" ∧
        lamps.get? "Lab::Lamp" = some call.desc := by
  have hname : "Lab::Lamp" ∈ lamps.names := by simp [lamps, names]
  have hclear : ∀ call ∈ lampCalls,
      ((Name.parts call.desc.typeName).map String.toList).IsChain Name.Clear := by
    decide
  obtain ⟨call, hcall, hsucceeded, hcanonical, hfound⟩ :=
    (listed_found_iff run_lamps).2 "Lab::Lamp" hname
  exact ⟨run_lamps, hname, call, hcall, hsucceeded, hcanonical, hfound.mpr (hclear call hcall)⟩

/-- Between these parts the two single colons make a separator of their own. -/
theorem lookup_listed_colons :
    ∃ calls registry, Run calls registry ∧ registry.names = ["a::::b"] ∧
      registry.get? "a::::b" = none := by
  have hname : (lamp "a:.:b").canonicalName = "a::::b" := rfl
  have hrun : (register (lamp "a:.:b")).run.run .empty =
      (.ok (lamp "a:.:b"), ⟨[("a::::b", lamp "a:.:b")]⟩) := by
    rw [register_valid (validate_lamp _), hname]
    rfl
  exact ⟨_, _, Run.start.call hrun, rfl, rfl⟩

end TopicCodec.Registry
