import WireGrammar.Proofs.Bits.Sequence
import WireGrammar.Proofs.DataType.Codecs
import WireGrammar.Value

/-!
# Keys of bit strings

The key of a bit string is written as text, in hexadecimal or in binary digits (`BitString.keyForm`). Each form by
itself shows the whole content (`key_eq_iff_of_keyForm_eq`), but a key does not tell its form: digits are characters
that a text may hold, and hexadecimal digits may all be zeros and ones. `key_eq_iff` says which bit strings have one
key.

* `Text.ofAscii_injective`, `Text.hexEncode_injective`: what bytes are shown as determines them.
* `BitString.Spells`, `BitString.SharesDigits`: the two ways in which different forms show the same characters.
-/

namespace WireGrammar

namespace Text

/-- A text of ASCII characters is the one of its bytes. -/
theorem ofAscii_utf8 {text : String} (h : isAscii text = true) : ofAscii (utf8 text) = text := by
  have low : ∀ c ∈ text.toList, c.toNat < 128 := by simpa [isAscii] using h
  suffices general : ∀ chars : List Char, (∀ c ∈ chars, c.toNat < 128) →
      (chars.flatMap String.utf8EncodeChar).map (fun b => Char.ofNat b.toNat) = chars by
    rw [ofAscii, utf8, general _ low, String.ofList_toList]
  intro chars
  induction chars with
  | nil => simp
  | cons c rest ih =>
    intro h
    have here : c.toNat < 128 := h c List.mem_cons_self
    have one : String.utf8EncodeChar c = [UInt8.ofNat c.toNat] := by
      unfold String.utf8EncodeChar
      exact if_pos (Nat.le_of_lt_succ here)
    have code : (UInt8.ofNat c.toNat).toNat = c.toNat := by
      rw [UInt8.toNat_ofNat']
      omega
    rw [List.flatMap_cons, one, List.map_append, ih fun d hd => h d (List.mem_cons_of_mem c hd), List.map_singleton,
      code, Char.ofNat_toNat]
    rfl

theorem hexEncode_injective {bytes others : List UInt8} (h : hexEncode bytes = hexEncode others) : bytes = others := by
  have read := congrArg hexDecode? h
  rw [hexDecode?_hexEncode, hexDecode?_hexEncode] at read
  exact Option.some.inj read

/-- Hexadecimal digits are ASCII characters. -/
theorem isAscii_hex (bytes : List UInt8) : isAscii (hex bytes) = true := by
  have digit : ∀ n : Fin 16, (hexDigit n).toNat < 128 := by decide
  rw [isAscii, hex, String.toList_ofList]
  induction bytes with
  | nil => rfl
  | cons b rest ih =>
    have high : b.toNat / 16 < 16 := by have := b.toNat_lt; omega
    have low : b.toNat % 16 < 16 := Nat.mod_lt _ (by decide)
    rw [hexEncode, List.all_cons, List.all_cons, ih, decide_eq_true (digit ⟨_, high⟩), decide_eq_true (digit ⟨_, low⟩)]
    rfl

end Text

namespace BitString

/-- How a key is written. -/
inductive KeyForm where
  | text | hexadecimal | binary
  deriving DecidableEq

/-- How the key of a bit string is written. -/
def keyForm (b : BitString) : KeyForm :=
  if b.isAligned then
    if !b.isEmpty && b.toBytes.all Text.isVisible then .text else .hexadecimal
  else .binary

/-- The character for a bit. -/
def binaryDigit (bit : Bool) : Char :=
  if bit then '1' else '0'

/-- `a` is shown as text, and this text is the digits of `b`. -/
def Spells (a b : BitString) : Prop :=
  a.keyForm = .text ∧ b.keyForm ≠ .text ∧ a.toBytes = Text.utf8 b.render

/-- `a` is shown in hexadecimal digits, `b` in binary ones, and the digits are the same. -/
def SharesDigits (a b : BitString) : Prop :=
  a.keyForm = .hexadecimal ∧ b.keyForm = .binary ∧ Text.hexEncode a.toBytes = b.toList.map binaryDigit

variable {a b : BitString}

/-! ## Each form by itself -/

/-- What is shown as text are whole bytes, all of them ASCII codes. -/
theorem key_of_text (form : b.keyForm = .text) :
    b.length % 8 = 0 ∧ (∀ x ∈ b.toBytes, x < 128) ∧ b.key = Text.ofAscii b.toBytes := by
  unfold keyForm at form
  split at form
  next whole =>
    split at form
    next text =>
      refine ⟨isAligned_iff.mp whole, fun x hx => ?_, ?_⟩
      · have visible := List.all_eq_true.mp (Bool.and_eq_true_iff.mp text).2 x hx
        simp only [Text.isVisible, Bool.and_eq_true, decide_eq_true_eq] at visible
        exact UInt8.lt_of_le_of_lt visible.2 (by decide)
      · rw [key, whole, Bool.true_and, if_pos text]
    next => cases form
  next => cases form

theorem key_of_ne_text (form : b.keyForm ≠ .text) : b.key = b.render := by
  unfold keyForm at form
  rw [key]
  split at form
  next whole =>
    split at form
    next => exact absurd rfl form
    next digits => rw [whole, Bool.true_and, if_neg digits]
  next apart => rw [Bool.eq_false_of_not_eq_true apart]; rfl

theorem key_of_hexadecimal (form : b.keyForm = .hexadecimal) :
    b.length % 8 = 0 ∧ b.key = Text.hex b.toBytes := by
  rw [key_of_ne_text (by rw [form]; decide), render]
  unfold keyForm at form
  split at form
  next whole => exact ⟨isAligned_iff.mp whole, if_pos whole⟩
  next => cases form

theorem key_of_binary (form : b.keyForm = .binary) : b.key = String.ofList (b.toList.map binaryDigit) := by
  rw [key_of_ne_text (by rw [form]; decide), render]
  unfold keyForm at form
  split at form
  next => split at form <;> cases form
  next apart => exact if_neg apart

theorem isAscii_render (b : BitString) : Text.isAscii b.render = true := by
  rw [render]
  split
  · exact Text.isAscii_hex _
  · rw [Text.isAscii, String.toList_ofList, List.all_map, List.all_eq_true]
    intro bit _
    cases bit <;> decide

theorem eq_of_toBytes (ha : a.length % 8 = 0) (hb : b.length % 8 = 0) (h : a.toBytes = b.toBytes) : a = b := by
  rw [← ofBytes_toBytes ha, h, ofBytes_toBytes hb]

/-- Within one form a key shows all bits. -/
theorem eq_of_key_eq (form : a.keyForm = b.keyForm) (h : a.key = b.key) : a = b := by
  cases fb : b.keyForm with
  | text =>
    obtain ⟨wa, la, ka⟩ := key_of_text (form.trans fb)
    obtain ⟨wb, lb, kb⟩ := key_of_text fb
    refine eq_of_toBytes wa wb ?_
    rw [← Text.utf8_ofAscii la, ← ka, h, kb, Text.utf8_ofAscii lb]
  | hexadecimal =>
    obtain ⟨wa, ka⟩ := key_of_hexadecimal (form.trans fb)
    obtain ⟨wb, kb⟩ := key_of_hexadecimal fb
    rw [ka, kb] at h
    exact eq_of_toBytes wa wb (Text.hexEncode_injective (String.ofList_injective h))
  | binary =>
    rw [key_of_binary (form.trans fb), key_of_binary fb] at h
    have digit : ∀ x y, binaryDigit x = binaryDigit y → x = y := by decide
    exact toList_injective (List.map_injective_iff.mpr digit (String.ofList_injective h))

/-! ## Two forms -/

/-- A text and digits are one key if the text spells the digits. -/
theorem key_eq_iff_spells (fa : a.keyForm = .text) (fb : b.keyForm ≠ .text) : a.key = b.key ↔ a.Spells b := by
  obtain ⟨-, low, text⟩ := key_of_text fa
  rw [text, key_of_ne_text fb]
  constructor
  · intro h
    exact ⟨fa, fb, by rw [← h, Text.utf8_ofAscii low]⟩
  · rintro ⟨-, -, h⟩
    rw [h, Text.ofAscii_utf8 b.isAscii_render]

theorem key_eq_iff_sharesDigits (fa : a.keyForm = .hexadecimal) (fb : b.keyForm = .binary) :
    a.key = b.key ↔ a.SharesDigits b := by
  rw [(key_of_hexadecimal fa).2, key_of_binary fb, Text.hex, String.ofList_inj]
  exact ⟨fun h => ⟨fa, fb, h⟩, fun h => h.2.2⟩

/-- Bit strings have one key if they are the same, or are shown in two forms of which one spells the other. -/
theorem key_eq_iff (a b : BitString) :
    a.key = b.key ↔ a = b ∨ (a.Spells b ∨ b.Spells a) ∨ (a.SharesDigits b ∨ b.SharesDigits a) := by
  constructor
  · intro h
    by_cases form : a.keyForm = b.keyForm
    · exact Or.inl (eq_of_key_eq form h)
    refine Or.inr ?_
    cases fa : a.keyForm with
    | text => exact Or.inl (Or.inl ((key_eq_iff_spells fa fun fb => form (fa.trans fb.symm)).mp h))
    | hexadecimal =>
      cases fb : b.keyForm with
      | text => exact Or.inl (Or.inr ((key_eq_iff_spells fb (by rw [fa]; decide)).mp h.symm))
      | hexadecimal => exact absurd (fa.trans fb.symm) form
      | binary => exact Or.inr (Or.inl ((key_eq_iff_sharesDigits fa fb).mp h))
    | binary =>
      cases fb : b.keyForm with
      | text => exact Or.inl (Or.inr ((key_eq_iff_spells fb (by rw [fa]; decide)).mp h.symm))
      | hexadecimal => exact Or.inr (Or.inr ((key_eq_iff_sharesDigits fb fa).mp h.symm))
      | binary => exact absurd (fa.trans fb.symm) form
  · rintro (rfl | (h | h) | h | h)
    · rfl
    · exact (key_eq_iff_spells h.1 h.2.1).mpr h
    · exact ((key_eq_iff_spells h.1 h.2.1).mpr h).symm
    · exact (key_eq_iff_sharesDigits h.1 h.2.1).mpr h
    · exact ((key_eq_iff_sharesDigits h.1 h.2.1).mpr h).symm

/-- A zero byte and the text of two zeros are shown alike. -/
theorem key_zero_eq_key_zeros : (ofBytes [0x00]).key = (ofBytes [0x30, 0x30]).key ∧
    ofBytes [0x00] ≠ ofBytes [0x30, 0x30] := by
  decide

end BitString

end WireGrammar
