import TopicCodec.Proofs.Canonical

/-!
# Nothing of the old instance remains

Decoding overwrites a given instance in place: numbers and texts are replaced, structures are
overwritten field by field, and the elements that a sequence keeps are reused. Still the outcome
does not depend on what the instance held. The invariant is about two structures that the
instructions left will make equal (`Converging`): they agree on every field that none of these
instructions addresses, and each instruction finds in both of them a field of its shape.
-/
namespace TopicCodec

theorem bind_congr_of_ok {ε α β : Type} {outcome : Except ε α} {next next' : α → Except ε β}
    (h : ∀ found, outcome = .ok found → next found = next' found) :
    outcome >>= next = outcome >>= next' := by
  cases outcome with
  | error => rfl
  | ok found => exact h found rfl

/-! ## Two structures -/

/-- Structures that will be equal once the fields of these instructions are overwritten. -/
structure Converging (program : Program) (insns : List Instruction)
    (as bs : List (UInt32 × Value)) : Prop where
  left : Value.Ascending as
  right : Value.Ascending bs
  fields : ∀ insn ∈ insns, ∃ a b, as.lookup insn.field = some a ∧ bs.lookup insn.field = some b ∧
    Shaped program insn.shape a ∧ Shaped program insn.shape b
  others : ∀ index ∉ insns.map Instruction.field, as.lookup index = bs.lookup index

namespace Converging

variable {program : Program} {insn : Instruction} {insns : List Instruction}
  {as bs : List (UInt32 × Value)}

theorem eq (h : Converging program [] as bs) : as = bs :=
  h.left.ext h.right fun index => h.others index List.not_mem_nil

theorem insertField (h : Converging program (insn :: insns) as bs)
    (hnew : insn.field ∉ insns.map Instruction.field) (value : Value) :
    Converging program insns (Value.insertField insn.field value as)
      (Value.insertField insn.field value bs) where
  left := h.left.insertField insn.field value
  right := h.right.insertField insn.field value
  fields other ho := by
    have hne : other.field ≠ insn.field := fun heq => hnew (heq ▸ List.mem_map_of_mem ho)
    rw [Value.lookup_insertField, Value.lookup_insertField, if_neg hne, if_neg hne]
    exact h.fields other (List.mem_cons_of_mem _ ho)
  others index hi := by
    rw [Value.lookup_insertField, Value.lookup_insertField]
    by_cases hindex : index = insn.field
    · rw [if_pos hindex, if_pos hindex]
    · rw [if_neg hindex, if_neg hindex]
      exact h.others index (List.not_mem_cons_of_ne_of_not_mem hindex hi)

end Converging

theorem Shaped.converging {program : Program} (hd : program.fieldsDistinct = true)
    {target : UInt32} {words : Stream} (hw : program.stream? target = some words)
    {as bs : List (UInt32 × Value)} (ha : Shaped program (.single (.struct target)) (.struct as))
    (hb : Shaped program (.single (.struct target)) (.struct bs)) :
    Converging program (Scan.read target words).instructions as bs := by
  cases id ha with
  | struct hwords haddressed _ =>
      cases hw.symm.trans hwords
      cases id hb with
      | struct hwords' haddressed' _ =>
          cases hw.symm.trans hwords'
          refine ⟨haddressed.ascending, haddressed'.ascending, fun insn hi => ?_,
            fun index hi => ?_⟩
          · obtain ⟨a, hfa, hsa⟩ := ha.exists_field hd hw hi
            obtain ⟨b, hfb, hsb⟩ := hb.exists_field hd hw hi
            exact ⟨a, b, hfa, hfb, hsa, hsb⟩
          · rw [haddressed.lookup_eq_none hi, haddressed'.lookup_eq_none hi]

/-- Two samples of a sequence can both be resized, unless both are the same empty one. -/
theorem Supply.resize_alike {program : Program} {leaf : Leaf} {as bs : List Value}
    (ha : Shaped program (.sequence leaf) (.sequence (.leaf program leaf) as))
    (hb : Shaped program (.sequence leaf) (.sequence (.leaf program leaf) bs)) (length : Nat) :
    as = bs ∨ ∃ as' bs',
      resize (.leaf program leaf) as length = .ok (.leaf program leaf, as') ∧
      resize (.leaf program leaf) bs length = .ok (.leaf program leaf, bs') ∧
      as'.length = bs'.length := by
  cases ha with
  | sequence _ hdefaultA =>
      cases hb with
      | sequence _ hdefaultB =>
          by_cases hdefault : ∃ first, program.defaultElement leaf = .ok first
          · obtain ⟨as', has, hlas⟩ := resize_leaf as length fun _ => hdefault
            obtain ⟨bs', hbs, hlbs⟩ := resize_leaf bs length fun _ => hdefault
            exact .inr ⟨as', bs', has, hbs, hlas.trans hlbs.symm⟩
          · have hemptyA : as = [] := by_contra fun hne => hdefault (hdefaultA hne)
            have hemptyB : bs = [] := by_contra fun hne => hdefault (hdefaultB hne)
            exact .inl (hemptyA.trans hemptyB.symm)

namespace Marshal

variable {walk : DecodeWalk} {enter : DecodeNested}

/-- Reading a nested structure does not depend on the sample that is overwritten. -/
def Overwrites (walk : DecodeWalk) (enter : DecodeNested) : Prop :=
  ∀ target words a b path reading, walk.desc.program.stream? target = some words →
    Shaped walk.desc.program (.single (.struct target)) a →
    Shaped walk.desc.program (.single (.struct target)) b →
    enter target words a path reading = enter target words b path reading

theorem readAll_congr {α β : Type} {read : α → Reading → Except CodecError (β × Reading)}
    {as bs : List α} (h : List.Forall₂ (fun a b => read a = read b) as bs) :
    readAll read as = readAll read bs := by
  induction h with
  | nil => rfl
  | cons hfirst _ ih =>
      funext reading
      simp only [readAll, hfirst, ih]

section Overwrites

variable (he : Overwrites walk enter) (hk : KeepsNested walk enter) (stream : UInt32) (pc : Nat)
include he

theorem decodeLeaf_overwrites {leaf : Leaf} {a b : Value}
    (ha : Shaped walk.desc.program (.single leaf) a)
    (hb : Shaped walk.desc.program (.single leaf) b) (path : Path) (reading : Reading) :
    decodeLeaf walk enter stream pc leaf a path reading =
      decodeLeaf walk enter stream pc leaf b path reading := by
  cases leaf with
  | number kind =>
      cases ha
      cases hb
      rfl
  | bool =>
      cases ha
      cases hb
      rfl
  | string bound =>
      cases ha
      cases hb
      rfl
  | struct target =>
      cases id ha with
      | @struct _ words _ hw _ _ =>
          cases id hb with
          | struct _ _ _ =>
              simp only [decodeLeaf, Walk.nested, hw]
              exact he target words _ _ path reading hw ha hb

theorem decodeElement_overwrites {leaf : Leaf} {a b : Value}
    (ha : Shaped walk.desc.program (.single leaf) a)
    (hb : Shaped walk.desc.program (.single leaf) b) (path : Path) (i : Nat) :
    decodeElement walk enter stream pc leaf path (a, i) =
      decodeElement walk enter stream pc leaf path (b, i) := by
  funext reading
  have hleaf := decodeLeaf_overwrites he stream pc ha hb (path.element i) reading
  cases ha <;> cases hb <;> exact hleaf

theorem decodeElements_overwrites {leaf : Leaf} {as bs : List Value}
    (hl : as.length = bs.length) (ha : ∀ a ∈ as, Shaped walk.desc.program (.single leaf) a)
    (hb : ∀ b ∈ bs, Shaped walk.desc.program (.single leaf) b) (path : Path)
    (reading : Reading) :
    decodeElements walk enter stream pc leaf as path reading =
      decodeElements walk enter stream pc leaf bs path reading := by
  unfold decodeElements
  refine congrFun (readAll_congr (List.forall₂_iff_get.mpr ⟨by simpa using hl, ?_⟩)) reading
  intro i hia hib
  simp only [List.get_eq_getElem, List.getElem_zipIdx]
  exact decodeElement_overwrites he stream pc (ha _ (List.getElem_mem _))
    (hb _ (List.getElem_mem _)) path _

include hk

theorem decodeShape_overwrites {shape : Shape} {a b : Value}
    (ha : Shaped walk.desc.program shape a) (hb : Shaped walk.desc.program shape b) (path : Path)
    (reading : Reading) :
    decodeShape walk enter stream pc shape a path reading =
      decodeShape walk enter stream pc shape b path reading := by
  cases shape with
  | single leaf => exact decodeLeaf_overwrites he stream pc ha hb path reading
  | sequence leaf =>
      cases id ha with
      | @sequence _ as _ _ =>
          cases id hb with
          | @sequence _ bs _ _ =>
              refine bind_congr_of_ok fun counted _ => ?_
              obtain ⟨count, middle⟩ := counted
              obtain rfl | ⟨as', bs', hgrownA, hgrownB, hl⟩ := Supply.resize_alike ha hb count
              · rfl
              · cases ha.resize hgrownA with
                | sequence ha' _ =>
                    cases hb.resize hgrownB with
                    | sequence hb' _ =>
                        have helements := decodeElements_overwrites he stream pc hl ha' hb' path
                          middle
                        simp only [hgrownA, hgrownB, Except.mapError]
                        change decodeElements walk enter stream pc leaf as' path middle >>= _ =
                          decodeElements walk enter stream pc leaf bs' path middle >>= _
                        rw [helements]
  | array leaf count =>
      cases ha with
      | @array _ _ as ha hla =>
          cases hb with
          | @array _ _ bs hb hlb =>
              have hplainA := fun a hm => (ha a hm).isArray_eq_false
              have hplainB := fun b hm => (hb b hm).isArray_eq_false
              simp only [decodeShape, Value.flattenItems_of_not_isArray hplainA,
                Value.flattenItems_of_not_isArray hplainB, hla, hlb, ne_eq, not_true_eq_false,
                if_false]
              rw [decodeElements_overwrites he stream pc (hla.trans hlb.symm) ha hb]
              refine bind_congr_of_ok fun read hread => ?_
              obtain ⟨elements, after⟩ := read
              obtain ⟨hlength, _⟩ := decodeElements_shaped hk hread hb
              have hrows := Value.sameRowsItems_of_not_isArray (hla.trans hlb.symm) hplainA hplainB
              have hrefill := Value.refillItems_eq_of_sameRows as bs hrows elements (by
                rw [Value.flattenItems_of_not_isArray hplainB, hlength])
              rw [hrefill]

/-- One instruction leaves two structures that agree on one field more. -/
theorem decodeField_overwrites {insn : Instruction} {rest : List Instruction}
    {as bs : List (UInt32 × Value)}
    (h : Converging walk.desc.program (insn :: rest) as bs)
    (hnew : insn.field ∉ rest.map Instruction.field) (path : Path) (reading : Reading) :
    (∃ error, decodeField walk enter stream path insn (.struct as) reading = .error error ∧
      decodeField walk enter stream path insn (.struct bs) reading = .error error) ∨
    ∃ as' bs' after, Converging walk.desc.program rest as' bs' ∧
      decodeField walk enter stream path insn (.struct as) reading = .ok (.struct as', after) ∧
      decodeField walk enter stream path insn (.struct bs) reading = .ok (.struct bs', after) := by
  obtain ⟨a, b, hfa, hfb, ha, hb⟩ := h.fields insn List.mem_cons_self
  have hfieldA : (Value.struct as).field? insn.field = some a := hfa
  have hfieldB : (Value.struct bs).field? insn.field = some b := hfb
  have hshape := decodeShape_overwrites he hk stream insn.pc ha hb (path.field insn.field) reading
  simp only [decodeField, hfieldA, hfieldB, hshape]
  cases decodeShape walk enter stream insn.pc insn.shape b (path.field insn.field) reading with
  | error error => exact .inl ⟨error, rfl, rfl⟩
  | ok found => exact .inr ⟨_, _, found.2, h.insertField hnew found.1, rfl, rfl⟩

theorem decodeFields_overwrites {insns : List Instruction}
    (hnodup : (insns.map Instruction.field).Nodup) {as bs : List (UInt32 × Value)}
    (h : Converging walk.desc.program insns as bs) (path : Path) (reading : Reading) :
    decodeFields (decodeField walk enter stream path) insns (.struct as) reading =
      decodeFields (decodeField walk enter stream path) insns (.struct bs) reading := by
  induction insns generalizing as bs reading with
  | nil => rw [h.eq]
  | cons insn rest ih =>
      obtain ⟨hnew, hrest⟩ := List.nodup_cons.mp hnodup
      simp only [decodeFields]
      obtain ⟨error, ha, hb⟩ | ⟨as', bs', after, hnext, ha, hb⟩ :=
        decodeField_overwrites he hk stream h hnew path reading
      · rw [ha, hb]
      · rw [ha, hb]
        exact ih hrest hnext after

end Overwrites

theorem decodeStruct_overwrites (hd : walk.desc.program.fieldsDistinct = true) (fuel : Nat) :
    Overwrites walk (decodeStruct walk fuel) := by
  induction fuel with
  | zero => exact fun _ _ _ _ _ _ _ _ _ => rfl
  | succ fuel ih =>
      intro target words a b path reading hw ha hb
      cases id ha with
      | struct _ _ _ =>
          cases id hb with
          | struct _ _ _ =>
              simp only [decodeStruct]
              rw [decodeFields_overwrites ih (decodeStruct_shaped fuel) target
                (Program.nodup_of_fieldsDistinct hd hw) (ha.converging hd hw hb) path reading]

/-- Decoding leaks nothing of the instance it starts from. Where no stream addresses a field twice,
decoding any bytes over any two samples of one descriptor fails with the same error, or ends at the
same place with the same sample. -/
theorem decode_eq_of_reachable (walk : DecodeWalk)
    (hd : walk.desc.program.fieldsDistinct = true) {a b : Value} (ha : Reachable walk.desc a)
    (hb : Reachable walk.desc b) (bytes : List UInt8) :
    decode walk a bytes = decode walk b bytes := by
  refine bind_congr_of_ok fun words hroot => ?_
  exact decodeStruct_overwrites hd (maxNesting + 1) 0 words a b .root _ (Walk.root_eq_ok.mp hroot)
    ha.shaped hb.shaped

/-- A list of more points than will be read, with the last one and the text not empty. -/
def usedTrack : Value :=
  .struct [(0, .scalar (.bool false)),
    (1, .sequence (.leaf WireFormat.track.program (.struct 1))
      [.struct [(0, .scalar (.number .u16 5)), (1, .scalar (.zero .f64))],
        .struct [(0, .scalar (.zero .u16)), (1, .scalar (.number .f64 6))]]),
    (2, .text "old text")]

def newTrack : Value :=
  .struct [(0, .scalar (.bool false)),
    (1, .sequence (.leaf WireFormat.track.program (.struct 1)) []), (2, .text "")]

theorem newTrack_reachable : Reachable WireFormat.track newTrack :=
  ⟨newTrack, [], by with_unfolding_all rfl, rfl⟩

theorem usedTrack_reachable : Reachable WireFormat.track usedTrack :=
  ⟨newTrack,
    [.resize [.field 1] 2, .store [.field 1, .element 0, .field 0] (.scalar (.number .u16 5)),
      .store [.field 1, .element 1, .field 1] (.scalar (.number .f64 6)),
      .store [.field 2] (.text "old text")],
    by with_unfolding_all rfl, by with_unfolding_all rfl⟩

theorem decode_usedTrack :
    WireFormat.track.program.fieldsDistinct = true ∧ Reachable WireFormat.track usedTrack ∧
      Reachable WireFormat.track newTrack ∧
      (decode { desc := WireFormat.track, wire := .bigEndian } usedTrack
        WireFormat.trackBytes).map (·.1) = .ok WireFormat.trackSample := by
  have hd : WireFormat.track.program.fieldsDistinct = true := by with_unfolding_all rfl
  have hsame := decode_eq_of_reachable { desc := WireFormat.track, wire := .bigEndian } hd
    usedTrack_reachable newTrack_reachable WireFormat.trackBytes
  refine ⟨hd, usedTrack_reachable, newTrack_reachable, ?_⟩
  rw [hsame]
  with_unfolding_all rfl

end Marshal
end TopicCodec
