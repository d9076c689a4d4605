import Mathlib.Tactic.Convert
import Mathlib.Tactic.SplitIfs
import TopicCodec.Text.Utf8

/-!
# Reading back UTF-8

`Form bytes code` says which bytes stand for a code point, by the four widths of the
format. The encoder writes the form of every character, and the strict decoder accepts
a form and nothing else; so `decode` and `encode` are inverse to each other, and every
text has one encoding. Where the decoder refuses, it tells how far the bytes are a text.
-/
namespace TopicCodec.Utf8

/-- A byte that continues a character. -/
def Tail (byte : UInt8) : Prop := 0x80 ≤ byte.toNat ∧ byte.toNat < 0xC0

/-- The bytes of a code point. Overlong forms, surrogates and numbers past the last code point are
left out by the bounds on the second byte. -/
inductive Form : List UInt8 → Nat → Prop
  | one {a : UInt8} : a.toNat < 0x80 → Form [a] a.toNat
  | two {a b : UInt8} : 0xC2 ≤ a.toNat → a.toNat < 0xE0 → Tail b →
      Form [a, b] (a.toNat % 32 * 64 + low b)
  | three {a b c : UInt8} : 0xE0 ≤ a.toNat → a.toNat < 0xF0 → Tail b →
      (a.toNat = 0xE0 → 0xA0 ≤ b.toNat) → (a.toNat = 0xED → b.toNat < 0xA0) → Tail c →
      Form [a, b, c] (a.toNat % 16 * 4096 + low b * 64 + low c)
  | four {a b c d : UInt8} : 0xF0 ≤ a.toNat → a.toNat < 0xF5 → Tail b →
      (a.toNat = 0xF0 → 0x90 ≤ b.toNat) → (a.toNat = 0xF4 → b.toNat < 0x90) → Tail c → Tail d →
      Form [a, b, c, d] (a.toNat % 8 * 262144 + low b * 4096 + low c * 64 + low d)

theorem isContinuation_iff (byte : UInt8) : isContinuation byte = true ↔ Tail byte := by
  simp [isContinuation, Tail, UInt8.le_iff_toNat_le, UInt8.lt_iff_toNat_lt]

theorem secondOfThree_iff (a b : UInt8) :
    secondOfThree a b = true ↔ Tail b ∧
      (a.toNat = 0xE0 → 0xA0 ≤ b.toNat) ∧ (a.toNat = 0xED → b.toNat < 0xA0) := by
  unfold secondOfThree
  split_ifs with h₁ h₂
  · subst h₁
    simp [Tail, UInt8.le_iff_toNat_le, UInt8.lt_iff_toNat_lt]
    omega
  · subst h₂
    simp [Tail, UInt8.le_iff_toNat_le, UInt8.lt_iff_toNat_lt]
    omega
  · rw [isContinuation_iff]
    have h₃ : a.toNat ≠ 0xE0 := fun h => h₁ (UInt8.toNat_inj.mp h)
    have h₄ : a.toNat ≠ 0xED := fun h => h₂ (UInt8.toNat_inj.mp h)
    simp [h₃, h₄]

theorem secondOfFour_iff (a b : UInt8) :
    secondOfFour a b = true ↔ Tail b ∧
      (a.toNat = 0xF0 → 0x90 ≤ b.toNat) ∧ (a.toNat = 0xF4 → b.toNat < 0x90) := by
  unfold secondOfFour
  split_ifs with h₁ h₂
  · subst h₁
    simp [Tail, UInt8.le_iff_toNat_le, UInt8.lt_iff_toNat_lt]
    omega
  · subst h₂
    simp [Tail, UInt8.le_iff_toNat_le, UInt8.lt_iff_toNat_lt]
    omega
  · rw [isContinuation_iff]
    have h₃ : a.toNat ≠ 0xF0 := fun h => h₁ (UInt8.toNat_inj.mp h)
    have h₄ : a.toNat ≠ 0xF4 := fun h => h₂ (UInt8.toNat_inj.mp h)
    simp [h₃, h₄]

/-! ## Forms and the encoder -/

theorem ofNat_val_toNat {code : Nat} (h : code.isValidChar) :
    (Char.ofNat code).val.toNat = code := by
  unfold Char.ofNat
  rw [dif_pos h]
  rfl

theorem Form.isValidChar {bytes : List UInt8} {code : Nat} (h : Form bytes code) :
    code.isValidChar := by
  cases h <;> simp only [Tail, low, Nat.isValidChar] at * <;> omega

/-- A form is what the encoder writes for its code point. -/
theorem Form.encode_eq {bytes : List UInt8} {code : Nat} (h : Form bytes code) :
    String.utf8EncodeChar (Char.ofNat code) = bytes := by
  have hv := ofNat_val_toNat h.isValidChar
  generalize Char.ofNat code = char at hv ⊢
  unfold String.utf8EncodeChar
  dsimp only
  cases h with
  | one ha =>
      rw [if_pos (by omega), hv, UInt8.ofNat_toNat]
  | two ha ha' hb =>
      simp only [Tail, low] at hb hv
      rw [if_neg (by omega), if_pos (by omega)]
      congr 2 <;> (rw [← UInt8.toNat_inj, UInt8.toNat_ofNat']; omega)
  | three ha ha' hb h₁ h₂ hc =>
      simp only [Tail, low] at hb hc hv
      rw [if_neg (by omega), if_neg (by omega), if_pos (by omega)]
      congr 3 <;> (rw [← UInt8.toNat_inj, UInt8.toNat_ofNat']; omega)
  | four ha ha' hb h₁ h₂ hc hd =>
      simp only [Tail, low] at hb hc hd hv
      rw [if_neg (by omega), if_neg (by omega), if_neg (by omega)]
      congr 4 <;> (rw [← UInt8.toNat_inj, UInt8.toNat_ofNat']; omega)

/-- The encoder writes a form of every character. -/
theorem form_encodeChar (char : Char) : Form (String.utf8EncodeChar char) char.toNat := by
  have hv : char.val.toNat.isValidChar := char.valid
  unfold Nat.isValidChar at hv
  change Form (String.utf8EncodeChar char) char.val.toNat
  unfold String.utf8EncodeChar
  dsimp only
  generalize char.val.toNat = code at hv ⊢
  have toNat (n : Nat) (h : n < 256) : (UInt8.ofNat n).toNat = n := by
    rw [UInt8.toNat_ofNat']
    exact Nat.mod_eq_of_lt h
  split_ifs with h₁ h₂ h₃
  · have h := toNat code (by omega)
    simpa only [h] using Form.one (a := UInt8.ofNat code) (by omega)
  · have ha := toNat (code / 64 % 32 + 0xc0) (by omega)
    have hb := toNat (code % 64 + 0x80) (by omega)
    convert Form.two (a := UInt8.ofNat (code / 64 % 32 + 0xc0))
      (b := UInt8.ofNat (code % 64 + 0x80)) ?_ ?_ ?_ using 1 <;>
      simp only [Tail, low, ha, hb] <;> omega
  · have ha := toNat (code / 4096 % 16 + 0xe0) (by omega)
    have hb := toNat (code / 64 % 64 + 0x80) (by omega)
    have hc := toNat (code % 64 + 0x80) (by omega)
    convert Form.three (a := UInt8.ofNat (code / 4096 % 16 + 0xe0))
      (b := UInt8.ofNat (code / 64 % 64 + 0x80)) (c := UInt8.ofNat (code % 64 + 0x80))
      ?_ ?_ ?_ ?_ ?_ ?_ using 1 <;>
      simp only [Tail, low, ha, hb, hc] <;> omega
  · have ha := toNat (code / 262144 % 8 + 0xf0) (by omega)
    have hb := toNat (code / 4096 % 64 + 0x80) (by omega)
    have hc := toNat (code / 64 % 64 + 0x80) (by omega)
    have hd := toNat (code % 64 + 0x80) (by omega)
    convert Form.four (a := UInt8.ofNat (code / 262144 % 8 + 0xf0))
      (b := UInt8.ofNat (code / 4096 % 64 + 0x80)) (c := UInt8.ofNat (code / 64 % 64 + 0x80))
      (d := UInt8.ofNat (code % 64 + 0x80)) ?_ ?_ ?_ ?_ ?_ ?_ ?_ using 1 <;>
      simp only [Tail, low, ha, hb, hc, hd] <;> omega

/-! ## Forms and the decoder -/

theorem first_of_form {byte : UInt8} {bytes : List UInt8} {code : Nat}
    (h : Form (byte :: bytes) code) (rest : List UInt8) :
    first byte (bytes ++ rest) = .ok (Char.ofNat code, bytes.length + 1) := by
  unfold first
  cases h with
  | one ha => simp [UInt8.lt_iff_toNat_lt, ha]
  | two ha ha' hb =>
      have h₁ : ¬ byte.toNat < 128 := by omega
      simp [UInt8.lt_iff_toNat_lt, UInt8.le_iff_toNat_le, h₁, ha, ha',
        (isContinuation_iff _).mpr hb]
  | three ha ha' hb hlow hhigh hc =>
      have h₁ : ¬ byte.toNat < 128 := by omega
      have h₂ : ¬ byte.toNat < 224 := by omega
      simp [UInt8.lt_iff_toNat_lt, UInt8.le_iff_toNat_le, h₁, h₂, ha, ha',
        (secondOfThree_iff _ _).mpr ⟨hb, hlow, hhigh⟩, (isContinuation_iff _).mpr hc]
  | four ha ha' hb hlow hhigh hc hd =>
      have h₁ : ¬ byte.toNat < 128 := by omega
      have h₂ : ¬ byte.toNat < 224 := by omega
      have h₃ : ¬ byte.toNat < 240 := by omega
      simp [UInt8.lt_iff_toNat_lt, UInt8.le_iff_toNat_le, h₁, h₂, h₃, ha, ha',
        (secondOfFour_iff _ _).mpr ⟨hb, hlow, hhigh⟩, (isContinuation_iff _).mpr hc,
        (isContinuation_iff _).mpr hd]

theorem form_of_first {byte : UInt8} {rest : List UInt8} {char : Char} {width : Nat}
    (h : first byte rest = .ok (char, width)) :
    ∃ bytes tail code, rest = bytes ++ tail ∧ width = bytes.length + 1 ∧
      char = Char.ofNat code ∧ Form (byte :: bytes) code := by
  unfold first at h
  split_ifs at h with h₁ h₂ h₃ h₄
  · cases h
    exact ⟨[], rest, _, rfl, rfl, rfl, .one (UInt8.lt_iff_toNat_lt.mp h₁)⟩
  · simp only [Bool.and_eq_true, decide_eq_true_eq, UInt8.le_iff_toNat_le,
      UInt8.lt_iff_toNat_lt] at h₂
    match rest, h with
    | b :: rest, h =>
        dsimp only at h
        split_ifs at h with hb
        cases h
        exact ⟨[b], rest, _, rfl, rfl, rfl, .two h₂.1 h₂.2 ((isContinuation_iff b).mp hb)⟩
  · simp only [Bool.and_eq_true, decide_eq_true_eq, UInt8.le_iff_toNat_le,
      UInt8.lt_iff_toNat_lt] at h₃
    match rest, h with
    | b :: c :: rest, h =>
        dsimp only at h
        split_ifs at h with hb hc
        cases h
        obtain ⟨hb, hlow, hhigh⟩ := (secondOfThree_iff byte b).mp hb
        exact ⟨[b, c], rest, _, rfl, rfl, rfl,
          .three h₃.1 h₃.2 hb hlow hhigh ((isContinuation_iff c).mp hc)⟩
    | [b], h => dsimp only at h; split_ifs at h
  · simp only [Bool.and_eq_true, decide_eq_true_eq, UInt8.le_iff_toNat_le,
      UInt8.lt_iff_toNat_lt] at h₄
    match rest, h with
    | b :: c :: d :: rest, h =>
        dsimp only at h
        split_ifs at h with hb hc hd
        cases h
        obtain ⟨hb, hlow, hhigh⟩ := (secondOfFour_iff byte b).mp hb
        exact ⟨[b, c, d], rest, _, rfl, rfl, rfl, .four h₄.1 h₄.2 hb hlow hhigh
          ((isContinuation_iff c).mp hc) ((isContinuation_iff d).mp hd)⟩
    | [b], h => dsimp only at h; split_ifs at h
    | [b, c], h => dsimp only at h; split_ifs at h

/-! ## Texts -/

/-- Characters that were written are read, whatever follows them. -/
theorem decodeFrom_append (start : Nat) (chars : List Char) (rest : List UInt8) :
    decodeFrom start (chars.flatMap String.utf8EncodeChar ++ rest) =
      (decodeFrom (start + (chars.flatMap String.utf8EncodeChar).length) rest).map
        (chars ++ ·) := by
  induction chars generalizing start with
  | nil =>
      change decodeFrom start rest = (decodeFrom start rest).map id
      cases decodeFrom start rest <;> rfl
  | cons char chars ih =>
      have hf := form_encodeChar char
      have hc : Char.ofNat char.toNat = char := Char.ofNat_toNat char
      rw [List.flatMap_cons]
      cases he : String.utf8EncodeChar char with
      | nil => exact absurd he String.utf8EncodeChar_ne_nil
      | cons byte bytes =>
          rw [he] at hf
          rw [List.append_assoc, List.cons_append, decodeFrom, first_of_form hf]
          simp only [Nat.add_sub_cancel, List.drop_left, ih, hc]
          rw [List.cons_append, List.length_cons, List.length_append, ← Nat.add_assoc,
            Nat.add_right_comm, Nat.add_assoc start]
          cases decodeFrom _ rest <;> rfl

theorem decodeFrom_encode (start : Nat) (chars : List Char) :
    decodeFrom start (chars.flatMap String.utf8EncodeChar) = .ok chars := by
  have h := decodeFrom_append start chars []
  rw [List.append_nil, decodeFrom] at h
  rw [h, Except.map, List.append_nil]

theorem encode_of_decodeFrom {start : Nat} {bytes : List UInt8} {chars : List Char}
    (h : decodeFrom start bytes = .ok chars) :
    chars.flatMap String.utf8EncodeChar = bytes := by
  fun_induction decodeFrom start bytes generalizing chars with
  | case1 => cases h; rfl
  | case2 => cases h
  | case3 => cases h
  | case4 start byte rest char width hfirst chars' hrest ih =>
      cases h
      obtain ⟨bytes, tail, code, rfl, rfl, rfl, hform⟩ := form_of_first hfirst
      rw [List.flatMap_cons, hform.encode_eq, ih hrest]
      simp

theorem decode_encode (text : String) : decode (encode text) = .ok text := by
  unfold decode encode
  rw [decodeFrom_encode]
  simp

/-- What is read was written: every text has one encoding. -/
theorem encode_of_decode {bytes : List UInt8} {text : String} (h : decode bytes = .ok text) :
    encode text = bytes := by
  unfold decode at h
  split at h
  · cases h
  · rename_i chars hchars
    cases h
    unfold encode
    rw [String.toList_ofList]
    exact encode_of_decodeFrom hchars

/-! ## Where bytes stop being a text -/

/-- The longest front of the bytes that is a text ends before the byte at `k`. -/
structure BreaksAt (bytes : List UInt8) (k : Nat) : Prop where
  inside : k < bytes.length
  front : ∃ text, bytes.take k = encode text
  longest : ∀ j, k < j → j ≤ bytes.length → ∀ text, bytes.take j ≠ encode text

/-- Reading stops behind some characters, where none begins. -/
theorem decodeFrom_eq_error {start : Nat} {bytes : List UInt8} {fault : Fault}
    (h : decodeFrom start bytes = .error fault) :
    ∃ (chars : List Char) (byte : UInt8) (rest : List UInt8),
      bytes = chars.flatMap String.utf8EncodeChar ++ byte :: rest ∧
      fault.validUpTo = start + (chars.flatMap String.utf8EncodeChar).length ∧
      first byte rest = .error fault.length := by
  fun_induction decodeFrom start bytes with
  | case1 => cases h
  | case2 start byte rest length hfirst =>
      cases h
      exact ⟨[], byte, rest, rfl, rfl, hfirst⟩
  | case3 start byte rest char width hfirst fault' hrest ih =>
      cases h
      obtain ⟨chars, byte', rest', heq, hvalid, hfirst'⟩ := ih hrest
      obtain ⟨bytes, tail, code, rfl, rfl, rfl, hform⟩ := form_of_first hfirst
      refine ⟨Char.ofNat code :: chars, byte', rest', ?_, ?_, hfirst'⟩
      · rw [Nat.add_sub_cancel, List.drop_left] at heq
        rw [List.flatMap_cons, hform.encode_eq, heq]
        simp
      · rw [hvalid, List.flatMap_cons, hform.encode_eq, List.length_append, List.length_cons]
        omega
  | case4 => cases h

theorem first_eq_ok_of_take {byte : UInt8} {rest : List UInt8} {m : Nat} {found : Char × Nat}
    (h : first byte (rest.take m) = .ok found) : first byte rest = .ok found := by
  obtain ⟨bytes, tail, code, htake, hwidth, hchar, hform⟩ := form_of_first h
  have hrest : rest = bytes ++ (tail ++ rest.drop m) := by
    rw [← List.append_assoc, ← htake, List.take_append_drop]
  rw [hrest, first_of_form hform, ← hwidth, ← hchar]

/-- A fault tells where the longest front that is a text ends. -/
theorem breaksAt_of_decode_eq_error {bytes : List UInt8} {fault : Fault}
    (h : decode bytes = .error fault) : BreaksAt bytes fault.validUpTo := by
  have hfrom : decodeFrom 0 bytes = .error fault := by
    unfold decode at h
    split at h
    · cases h
      assumption
    · cases h
  obtain ⟨chars, byte, rest, rfl, hvalid, hfirst⟩ := decodeFrom_eq_error hfrom
  rw [Nat.zero_add] at hvalid
  rw [hvalid]
  refine ⟨?_, ⟨String.ofList chars, ?_⟩, ?_⟩
  · rw [List.length_append, List.length_cons]
    omega
  · rw [List.take_left, encode, String.toList_ofList]
  · intro j hj _ text htext
    obtain ⟨m, rfl⟩ : ∃ m, j = (chars.flatMap String.utf8EncodeChar).length + (m + 1) :=
      ⟨j - (chars.flatMap String.utf8EncodeChar).length - 1, by omega⟩
    rw [List.take_length_add_append, List.take_succ_cons] at htext
    have hread := decodeFrom_encode 0 text.toList
    change decodeFrom 0 (encode text) = _ at hread
    rw [← htext, decodeFrom_append, decodeFrom] at hread
    cases hbegin : first byte (rest.take m) with
    | error length =>
        rw [hbegin] at hread
        cases hread
    | ok found =>
        rw [first_eq_ok_of_take hbegin] at hfirst
        cases hfirst

end TopicCodec.Utf8
