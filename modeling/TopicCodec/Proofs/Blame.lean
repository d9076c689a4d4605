import TopicCodec.Declaration
import TopicCodec.Proofs.Assembling

/-!
# Failures that do not blame a description

Reading a stream fails only with a defect of its words (`BlamesWords`). Checking a program,
taking in another one, ordering keys: each of these fails with a defect of its own and never with
one of a description (`Spares`). So building a descriptor can blame a description only where it
reads that of a nested type, and where it checks its own.
-/
namespace TopicCodec

/-- The defect is one of a description. -/
def Defect.isMarkup : Defect → Bool
  | .markup _ => true
  | _ => false

/-- The outcome is no failure that blames a description. -/
def Spares {α : Type} (outcome : Except Defect α) : Prop :=
  ∀ defect, outcome = .error defect → defect.isMarkup = false

namespace Spares

variable {α β : Type} {x : Except Defect α}

theorem ok (a : α) : Spares (.ok a) := fun _ h => by cases h

theorem error {defect : Defect} (h : defect.isMarkup = false) :
    Spares (.error defect : Except Defect α) := by
  intro other ho
  cases ho
  exact h

theorem bind {f : α → Except Defect β} (hx : Spares x)
    (hf : ∀ a, x = .ok a → Spares (f a)) : Spares (x >>= f) := by
  cases x with
  | error defect => exact .error (hx defect rfl)
  | ok a => exact hf a rfl

theorem map (hx : Spares x) (f : α → β) : Spares (x.map f) := by
  cases x with
  | error defect => exact .error (hx defect rfl)
  | ok a => exact .ok (f a)

theorem mapM {f : α → Except Defect β} {items : List α} (h : ∀ item ∈ items, Spares (f item)) :
    Spares (items.mapM f) := by
  induction items with
  | nil => exact .ok []
  | cons first rest ih =>
      rw [List.mapM_cons]
      refine .bind (h first List.mem_cons_self) fun b _ => ?_
      exact .bind (ih fun item hi => h item (List.mem_cons_of_mem _ hi)) fun bs _ => .ok _

theorem foldlM {f : β → α → Except Defect β} {items : List α}
    (h : ∀ item ∈ items, ∀ b, Spares (f b item)) {start : β} : Spares (items.foldlM f start) := by
  induction items generalizing start with
  | nil => exact .ok start
  | cons first rest ih =>
      rw [List.foldlM_cons]
      exact .bind (h first List.mem_cons_self start) fun b _ =>
        ih fun item hi => h item (List.mem_cons_of_mem _ hi)

theorem mapError {ε : Type} {y : Except ε α} {f : ε → Defect}
    (h : ∀ error, (f error).isMarkup = false) : Spares (y.mapError f) := by
  cases y with
  | error error => exact .error (h error)
  | ok a => exact .ok a

theorem check {c : Prop} [Decidable c] {defect : Defect} {f : α → Except Defect β}
    {y : Except Defect β} (hd : defect.isMarkup = false) (hy : ¬c → Spares y) :
    Spares (if c then Except.error defect >>= f else y) := by
  split_ifs with hc
  · exact .error hd
  · exact hy hc

end Spares

/-! ## Streams and programs -/

/-- The defect is one of the words of a stream. -/
def Defect.isOfWords : Defect → Bool
  | .unknownOpcode .. | .unknownType .. | .unsupportedSubtype .. | .invalidFlags ..
  | .truncatedInstruction .. | .missingTerminator _ | .trailingInstructions .. => true
  | _ => false

/-- The outcome is no failure but one that blames the words of a stream. -/
def BlamesWords {α : Type} (outcome : Except Defect α) : Prop :=
  ∀ defect, outcome = .error defect → defect.isOfWords = true

namespace BlamesWords

variable {α β : Type} {x : Except Defect α}

theorem ok (a : α) : BlamesWords (.ok a) := fun _ h => by cases h

theorem error {defect : Defect} (h : defect.isOfWords = true) :
    BlamesWords (.error defect : Except Defect α) := by
  intro other ho
  cases ho
  exact h

theorem map (hx : BlamesWords x) (f : α → β) : BlamesWords (x.map f) := by
  cases x with
  | error defect => exact .error (hx defect rfl)
  | ok a => exact .ok (f a)

theorem spares (hx : BlamesWords x) : Spares x := by
  intro defect h
  have hwords := hx defect h
  cases defect <;> first | rfl | cases hwords

end BlamesWords

namespace Op

theorem readLeaf_blamesWords (stream : UInt32) (pc code : Nat) (flags : Flags)
    (operands : List UInt32) : BlamesWords (readLeaf stream pc code flags operands) := by
  unfold readLeaf
  dsimp only
  repeat' split
  all_goals first
    | exact .ok _
    | exact .error rfl

theorem readShape_blamesWords (stream : UInt32) (pc type subtype : Nat) (flags : Flags)
    (operands : List UInt32) : BlamesWords (readShape stream pc type subtype flags operands) := by
  have hleaf (code : Nat) (operands : List UInt32) :=
    readLeaf_blamesWords stream pc code flags operands
  unfold readShape
  repeat' split
  all_goals first
    | exact (hleaf _ _).map _
    | exact .error rfl

theorem read_blamesWords (stream : UInt32) (pc : Nat) (words : List UInt32) :
    BlamesWords (read stream pc words) := by
  unfold read
  split
  · exact .error rfl
  · dsimp only
    split_ifs
    · exact .ok _
    · exact .error rfl
    · exact .error rfl
    · split
      · exact .error rfl
      · exact (readShape_blamesWords _ _ _ _ _ _).map _

end Op

namespace Scan

theorem readFrom_blamesWords (id : UInt32) (pc : Nat) (words : List UInt32) :
    BlamesWords (readFrom id pc words).ending := by
  fun_induction readFrom id pc words with
  | case1 pc => exact .error rfl
  | case2 pc word rest defect h => exact .error (Op.read_blamesWords id pc _ defect h)
  | case3 pc word rest h => exact .ok pc
  | case4 pc word rest insn h ih => exact ih

theorem readAll_blamesWords (id : UInt32) (words : Stream) :
    BlamesWords (readAll id words).ending := by
  have hread := readFrom_blamesWords id 0 words
  unfold readAll read
  dsimp only
  split
  · exact hread
  · split_ifs
    · exact hread
    · exact .error rfl

end Scan

namespace Program

theorem spares_validate (program : Program) : Spares program.validate := by
  unfold validate
  refine .check rfl fun _ => .bind (.mapM ?_) fun edges _ => ?_
  · rintro ⟨id, words⟩ _
    dsimp only
    unfold validateStream
    dsimp only
    split
    · exact .error rfl
    · exact ((Scan.readAll_blamesWords id words).map _).spares.map _
  · split
    · exact .error rfl
    · exact .ok ()

theorem spares_graft (program other : Program) : Spares (program.graft other) := by
  unfold graft
  refine .bind (.mapM ?_) fun imported _ => .ok _
  rintro ⟨id, words⟩ _
  dsimp only
  unfold rebaseStream
  refine .bind (.foldlM fun insn _ words => ?_) fun rebased _ =>
    .bind (Scan.readAll_blamesWords id words).spares fun pc _ => .ok _
  unfold patch
  split
  · exact .ok _
  · dsimp only
    split
    · exact .ok _
    · exact .error rfl

end Program

/-! ## Keys -/

namespace Descriptor

theorem spares_keyInstructions (desc : Descriptor) : Spares desc.keyInstructions := by
  refine .mapM fun key _ => ?_
  unfold keyInstruction
  refine .bind ?_ fun found _ => ?_
  · unfold rootInstructionAt
    split
    · exact .error rfl
    · dsimp only
      split
      · exact .ok _
      · exact (Scan.readAll_blamesWords _ _).spares.map _
  · split
    · exact .ok _
    · exact .error rfl

theorem spares_checkKeys (names : List String) (keys : List (Key × Instruction)) :
    Spares (checkKeys names keys) := by
  induction keys generalizing names with
  | nil => exact .ok ()
  | cons first rest ih =>
      obtain ⟨key, insn⟩ := first
      unfold checkKeys
      split_ifs
      · exact .error rfl
      · exact .error rfl
      · exact .error rfl
      · exact ih _

theorem spares_checkSize (desc : Descriptor) : Spares desc.checkSize := by
  unfold checkSize
  split_ifs
  · refine .bind (.mapError fun _ => rfl) fun size _ => ?_
    split_ifs
    · exact .error rfl
    · exact .ok _
  · exact .ok _

theorem spares_checkKeySize (desc : Descriptor) : Spares desc.checkKeySize := by
  unfold checkKeySize
  split_ifs
  · refine .bind (.mapError fun _ => rfl) fun fits _ => ?_
    split_ifs
    · exact .error rfl
    · exact .ok _
  · exact .ok _

/-- A descriptor is refused for its description only if that is there and does not pass. -/
theorem spares_validate {desc : Descriptor} (h : desc.markup ≠ "" → desc.checkMarkup = .ok ()) :
    Spares desc.validate := by
  unfold validate
  refine .bind (Program.spares_validate _) fun _ _ => .check rfl fun _ =>
    .bind desc.spares_keyInstructions fun insns _ => .bind (spares_checkKeys _ _) fun _ _ =>
      .bind desc.spares_checkSize fun _ _ => .bind desc.spares_checkKeySize fun _ _ => ?_
  split_ifs with hmarkup
  · rw [h hmarkup]
    exact .ok ()
  · exact .ok ()

end Descriptor

namespace Declaration

theorem spares_keyPositions (members : List DeclaredMember) (order : List Nat)
    (names : List String) : Spares (keyPositions members order names) := by
  induction names generalizing order with
  | nil => exact .ok order
  | cons name rest ih =>
      unfold keyPositions
      split
      · exact .error rfl
      · split_ifs
        · exact .error rfl
        · exact ih _

theorem spares_keyOrder (declaration : Declaration) : Spares declaration.keyOrder := by
  unfold keyOrder
  split
  · exact spares_keyPositions _ _ _
  · exact .ok _

end Declaration

/-! ## Nested types -/

namespace Assembly

theorem spares_streamFor (assembly : Assembly) {desc : Descriptor}
    (h : desc.markup ≠ "" → ∃ document, Markup.Document.read desc.markup = .ok document) :
    Spares (assembly.streamFor desc) := by
  unfold streamFor
  dsimp only
  split
  · exact .ok _
  · refine .bind (Program.spares_graft _ _) fun grafted _ => ?_
    split_ifs with hmarkup
    · exact .ok _
    · obtain ⟨document, hread⟩ := h hmarkup
      rw [hread]
      exact .ok _

theorem spares_leaf (assembly : Assembly) {type : FieldType}
    (h : ∀ desc ∈ type.descriptors, desc.markup ≠ "" →
      ∃ document, Markup.Document.read desc.markup = .ok document) :
    Spares (assembly.leaf type) := by
  cases type with
  | number kind | bool | string bound => exact .ok _
  | struct desc => exact (assembly.spares_streamFor (h desc (List.mem_singleton.mpr rfl))).map _
  | sequence elem | array dims elem => exact .error rfl

theorem spares_shape (assembly : Assembly) {type : FieldType}
    (h : ∀ desc ∈ type.descriptors, desc.markup ≠ "" →
      ∃ document, Markup.Document.read desc.markup = .ok document) :
    Spares (assembly.shape type) := by
  unfold Assembly.shape
  split
  · rename_i elem
    have helem : Spares (assembly.leaf elem) := spares_leaf assembly h
    exact helem.map _
  · rename_i dims elem
    have helem : Spares (assembly.leaf elem) := spares_leaf assembly h
    split
    · exact .error rfl
    · exact helem.map _
  · exact (spares_leaf assembly h).map _

theorem spares_shapes (assembly : Assembly) {types : List FieldType}
    (h : ∀ type ∈ types, ∀ desc ∈ type.descriptors, desc.markup ≠ "" →
      ∃ document, Markup.Document.read desc.markup = .ok document) :
    Spares (assembly.shapes types) := by
  induction types generalizing assembly with
  | nil => exact .ok _
  | cons type rest ih =>
      unfold shapes
      refine .bind (spares_shape assembly (h type List.mem_cons_self)) fun first _ => ?_
      refine .bind (ih _ fun type ht => h type (List.mem_cons_of_mem _ ht)) fun others _ => ?_
      exact .ok _

end Assembly

/-- Building a descriptor blames no description if those of nested types can be read and what is
made of them passes its own check. -/
theorem Declaration.spares_build {declaration : Declaration}
    (hread : ∀ member ∈ declaration.members, ∀ desc ∈ member.type.descriptors,
      desc.markup ≠ "" → ∃ document, Markup.Document.read desc.markup = .ok document)
    (hcheck : ∀ order shapes assembly,
      Assembly.start.shapes (declaration.members.map DeclaredMember.type) =
        .ok (shapes, assembly) →
      (declaration.assembled order shapes assembly).markup ≠ "" →
      (declaration.assembled order shapes assembly).checkMarkup = .ok ()) :
    Spares declaration.build := by
  unfold build
  split_ifs
  · exact .error rfl
  split
  · exact .error rfl
  · refine .bind declaration.spares_keyOrder fun order _ => ?_
    refine .bind (Assembly.start.spares_shapes ?_) fun made hmade => ?_
    · simpa only [List.forall_mem_map] using hread
    · refine .bind (.mapError fun _ => rfl) fun flags _ => ?_
      exact .bind (Descriptor.spares_validate (hcheck order made.1 made.2 hmade)) fun _ _ => .ok _

end TopicCodec
