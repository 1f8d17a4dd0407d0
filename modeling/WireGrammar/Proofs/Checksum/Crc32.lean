import Mathlib
import WireGrammar.Checksum.Crc32

/-!
# The check of 32 bits is a remainder

A list of bits is a polynomial over two elements, the first bit its highest coefficient (`ofBits`). The lowest bit of
the shift register is the coefficient of `x^31` (`registerPoly`), so that a shift is a multiplication by `x` modulo the
generator (`Remains.shift`). A byte is added to the register where it has been multiplied by `x^24` already; after eight
shifts it stands where the 32 zeros behind the message put it (`Remains.byte`). The register that starts with all ones
is the complement of the first 32 bits, however short the message is. `crc32_eq_remainder` states the check as a
division.
-/

namespace WireGrammar.Checksum

open Polynomial

/-! ## Bits as polynomials -/

/-- A bit as a coefficient. -/
def coefficient (bit : Bool) : ZMod 2 :=
  if bit then 1 else 0

/-- The polynomial whose coefficients are bits, the first one the highest. -/
noncomputable def ofBits (bits : List Bool) : (ZMod 2)[X] :=
  bits.foldl (fun p bit => X * p + C (coefficient bit)) 0

/-- The generator of the check. -/
noncomputable def generator : (ZMod 2)[X] :=
  X ^ 32 + X ^ 26 + X ^ 23 + X ^ 22 + X ^ 16 + X ^ 12 + X ^ 11 + X ^ 10 + X ^ 8 + X ^ 7 + X ^ 5 + X ^ 4 + X ^ 2 + X + 1

/-- The bits of a byte, the lowest one first. -/
def byteBits (byte : UInt8) : List Bool :=
  (List.range 8).map byte.toBitVec.getLsbD

/-- The bits of a message, the lowest of each byte first. -/
def messageBits (message : List UInt8) : List Bool :=
  message.flatMap byteBits

/-- The bits of a message followed by 32 zeros, the first 32 of them all complemented. -/
def dividend (message : List UInt8) : List Bool :=
  let bits := messageBits message ++ List.replicate 32 false
  (bits.take 32).map (!·) ++ bits.drop 32

/-- The coefficients of a polynomial below `x^32` as a word, that of `x^31` the highest bit. -/
noncomputable def coefficients (p : (ZMod 2)[X]) : BitVec 32 :=
  BitVec.ofFnLE fun k : Fin 32 => decide (p.coeff k = 1)

theorem coefficient_xor (a b : Bool) : coefficient (a ^^ b) = coefficient a + coefficient b := by
  cases a <;> cases b <;> decide

theorem ofBits_concat (bits : List Bool) (bit : Bool) :
    ofBits (bits ++ [bit]) = X * ofBits bits + C (coefficient bit) := by
  rw [ofBits, List.foldl_append]
  rfl

theorem ofBits_singleton (bit : Bool) : ofBits [bit] = C (coefficient bit) := by
  simp [ofBits]

theorem ofBits_append (bits more : List Bool) :
    ofBits (bits ++ more) = X ^ more.length * ofBits bits + ofBits more := by
  induction more using List.reverseRecOn with
  | nil => simp [ofBits]
  | append_singleton more bit ih =>
    rw [← List.append_assoc, ofBits_concat, ih, ofBits_concat, List.length_append, List.length_singleton]
    ring

theorem ofBits_zeros (n : Nat) : ofBits (List.replicate n false) = 0 := by
  induction n with
  | zero => rfl
  | succ n ih => rw [List.replicate_succ', ofBits_concat, ih]; simp [coefficient]

/-- Exclusive or of as many bits is the sum. -/
theorem ofBits_xor {bits more : List Bool} (h : bits.length = more.length) :
    ofBits (List.zipWith xor bits more) = ofBits bits + ofBits more := by
  induction bits using List.reverseRecOn generalizing more with
  | nil =>
    cases more with
    | nil => simp [ofBits]
    | cons => cases h
  | append_singleton bits bit ih =>
    obtain ⟨front, last, rfl⟩ : ∃ front last, more = front ++ [last] := by
      refine (List.eq_nil_or_concat' more).resolve_left ?_
      rintro rfl
      simp at h
    have same : bits.length = front.length := by simpa using h
    rw [List.zipWith_append same, List.zipWith_cons_cons, List.zipWith_nil_left, ofBits_concat, ofBits_concat,
      ofBits_concat, ih same, coefficient_xor, C_add]
    ring

/-- Coefficients are numbered from the end of the list. -/
theorem coeff_ofBits (bits : List Bool) (k : Nat) :
    (ofBits bits).coeff k = coefficient (bits.reverse.getD k false) := by
  induction bits using List.reverseRecOn generalizing k with
  | nil => simp [ofBits, coefficient]
  | append_singleton bits bit ih =>
    rw [ofBits_concat, List.reverse_concat, coeff_add]
    cases k with
    | zero => simp
    | succ k => rw [coeff_X_mul, ih, coeff_C_succ, add_zero, List.getD_cons_succ]

theorem degree_ofBits_lt (bits : List Bool) : (ofBits bits).degree < bits.length := by
  refine (degree_lt_iff_coeff_zero _ _).mpr fun k hk => ?_
  rw [coeff_ofBits, List.getD_eq_default _ _ (by rw [List.length_reverse]; exact hk)]
  rfl

theorem generator_monic : generator.Monic := by
  unfold generator
  monicity!

theorem degree_generator : generator.degree = 32 := by
  unfold generator
  compute_degree!

/-! ## The register as a remainder -/

/-- The bits of a register, the lowest one first. -/
def registerBits (register : BitVec 32) : List Bool :=
  (List.range 32).map register.getLsbD

/-- The polynomial in a register. -/
noncomputable def registerPoly (register : BitVec 32) : (ZMod 2)[X] :=
  ofBits (registerBits register)

/-- The register holds the remainder of a polynomial. -/
def Remains (register : BitVec 32) (p : (ZMod 2)[X]) : Prop :=
  p %ₘ generator = registerPoly register

variable {register : BitVec 32} {p : (ZMod 2)[X]}

theorem registerPoly_xor (a b : BitVec 32) : registerPoly (a ^^^ b) = registerPoly a + registerPoly b := by
  rw [registerPoly, registerPoly, registerPoly, ← ofBits_xor (by simp [registerBits])]
  congr 1
  rw [registerBits, registerBits, registerBits, List.zipWith_map, List.zipWith_self]
  exact List.map_congr_left fun i _ => BitVec.getLsbD_xor

/-- The lowest bit is the first to leave the register. -/
theorem X_mul_registerPoly (register : BitVec 32) :
    X * registerPoly register = C (coefficient (register.getLsbD 0)) * X ^ 32 + registerPoly (register >>> 1) := by
  have bits : registerBits register =
      [register.getLsbD 0] ++ (List.range 31).map fun i => register.getLsbD (i + 1) := by
    rw [registerBits, List.range_succ_eq_map]
    simp
  have shifted : registerBits (register >>> 1) =
      ((List.range 31).map fun i => register.getLsbD (i + 1)) ++ [false] := by
    rw [registerBits, List.range_succ, List.map_append]
    simp [BitVec.getLsbD_ushiftRight, Nat.add_comm]
  rw [registerPoly, registerPoly, bits, shifted, ofBits_append, ofBits_append, ofBits_singleton, ofBits_singleton,
    List.length_map, List.length_range, List.length_singleton, show coefficient false = 0 from rfl, C_0]
  ring

/-- The word of the generator lacks its first term. -/
theorem registerPoly_crcPolynomial : registerPoly crcPolynomial + X ^ 32 = generator := by
  have bits : registerBits crcPolynomial = [false, false, false, false, false, true, false, false, true, true, false,
      false, false, false, false, true, false, false, false, true, true, true, false, true, true, false, true, true,
      false, true, true, true] := by decide
  rw [registerPoly, bits]
  simp [ofBits, coefficient, generator]
  ring

/-- A division leaves what is in the register, since that is below the generator. -/
theorem remains_iff : Remains register p ↔ ∃ q, p = registerPoly register + generator * q := by
  constructor
  · intro h
    exact ⟨p /ₘ generator, by rw [← h, modByMonic_add_div]⟩
  · rintro ⟨q, rfl⟩
    have small : (registerPoly register).degree < generator.degree := by
      rw [degree_generator]
      exact degree_ofBits_lt (registerBits register)
    exact (div_modByMonic_unique q _ generator_monic ⟨rfl, small⟩).2

/-! ## Shifts, bytes and messages -/

theorem Remains.shift (h : Remains register p) : Remains (crcShift register) (X * p) := by
  obtain ⟨q, rfl⟩ := remains_iff.mp h
  refine remains_iff.mpr ?_
  rw [mul_add, X_mul_registerPoly, crcShift]
  split
  next one =>
    refine ⟨X * q + 1, ?_⟩
    have twice : registerPoly crcPolynomial + registerPoly crcPolynomial = 0 := CharTwo.add_self_eq_zero _
    rw [one, registerPoly_xor, ← registerPoly_crcPolynomial, show coefficient true = 1 from rfl, C_1]
    linear_combination -twice
  next zero =>
    refine ⟨X * q, ?_⟩
    rw [Bool.eq_false_of_not_eq_true zero, show coefficient false = 0 from rfl, C_0]
    ring

theorem Remains.shifts (h : Remains register p) (n : Nat) : Remains (crcShifts n register) (X ^ n * p) := by
  induction n generalizing register p with
  | zero => rwa [pow_zero, one_mul]
  | succ n ih =>
    have next := ih h.shift
    rwa [← mul_assoc, ← pow_succ] at next

/-- To add to the register is to add to the remainder. -/
theorem Remains.xor (h : Remains register p) (word : BitVec 32) :
    Remains (register ^^^ word) (p + registerPoly word) := by
  obtain ⟨q, rfl⟩ := remains_iff.mp h
  exact remains_iff.mpr ⟨q, by rw [registerPoly_xor]; ring⟩

/-- A byte in a register is followed by 24 zeros. -/
theorem registerPoly_byte (byte : UInt8) :
    registerPoly (byte.toBitVec.setWidth 32) = X ^ 24 * ofBits (byteBits byte) := by
  have bits : registerBits (byte.toBitVec.setWidth 32) = byteBits byte ++ List.replicate 24 false := by
    have low (i : Nat) (hi : i < 8) : (byte.toBitVec.setWidth 32).getLsbD i = byte.toBitVec.getLsbD i := by
      rw [BitVec.getLsbD_setWidth, decide_eq_true (by omega), Bool.true_and]
    have high (i : Nat) : (byte.toBitVec.setWidth 32).getLsbD (8 + i) = false := by
      rw [BitVec.getLsbD_setWidth, BitVec.getLsbD_of_ge _ _ (Nat.le_add_right 8 i), Bool.and_false]
    have places : List.range 32 = List.range 8 ++ (List.range 24).map (8 + ·) := by decide
    rw [registerBits, places, List.map_append, byteBits]
    exact congrArg₂ (· ++ ·) (List.map_congr_left fun i hi => low i (List.mem_range.mp hi))
      (List.eq_replicate_iff.mpr ⟨by simp, by simp [high]⟩)
  rw [registerPoly, bits, ofBits_append, ofBits_zeros, List.length_replicate, add_zero]

theorem Remains.byte (h : Remains register p) (byte : UInt8) :
    Remains (crcByte register byte) (X ^ 8 * p + X ^ 32 * ofBits (byteBits byte)) := by
  have next := (h.xor (byte.toBitVec.setWidth 32)).shifts 8
  have moved : X ^ 8 * p + X ^ 32 * ofBits (byteBits byte) = X ^ 8 * (p + X ^ 24 * ofBits (byteBits byte)) := by ring
  rwa [registerPoly_byte, ← moved] at next

theorem messageBits_cons (byte : UInt8) (message : List UInt8) :
    messageBits (byte :: message) = byteBits byte ++ messageBits message :=
  List.flatMap_cons

theorem length_messageBits (message : List UInt8) : (messageBits message).length = 8 * message.length := by
  induction message with
  | nil => rfl
  | cons byte message ih =>
    rw [messageBits_cons, List.length_append, ih, byteBits, List.length_map, List.length_range, List.length_cons]
    omega

/-- The register after a message: what was in front of it is moved by its length, and 32 zeros stand behind it. -/
theorem Remains.message (h : Remains register p) (message : List UInt8) :
    Remains (message.foldl crcByte register)
      (X ^ (8 * message.length) * p + X ^ 32 * ofBits (messageBits message)) := by
  induction message generalizing register p with
  | nil => simpa [messageBits, ofBits] using h
  | cons byte message ih =>
    have next := ih (h.byte byte)
    rw [List.foldl_cons, messageBits_cons, ofBits_append, length_messageBits, List.length_cons]
    convert next using 1
    ring

/-! ## The check as a division -/

/-- To complement the first bits is to add ones to them. -/
theorem complement_front (bits : List Bool) {n : Nat} (h : n ≤ bits.length) :
    (bits.take n).map (!·) ++ bits.drop n =
      List.zipWith xor bits (List.replicate n true ++ List.replicate (bits.length - n) false) := by
  induction bits generalizing n with
  | nil => simp
  | cons bit bits ih =>
    cases n with
    | zero =>
      have rest := ih (Nat.zero_le _)
      simp only [List.take_zero, List.map_nil, List.nil_append, List.drop_zero, List.replicate_zero,
        Nat.sub_zero] at rest ⊢
      rw [List.length_cons, List.replicate_succ, List.zipWith_cons_cons, ← rest, Bool.xor_false]
    | succ n =>
      have rest := ih (Nat.le_of_succ_le_succ h)
      rw [List.take_succ_cons, List.map_cons, List.drop_succ_cons, List.cons_append, rest, List.replicate_succ,
        List.cons_append, List.zipWith_cons_cons, Bool.xor_true, List.length_cons, Nat.add_sub_add_right]

theorem ofBits_dividend (message : List UInt8) :
    ofBits (dividend message) =
      X ^ (8 * message.length) * registerPoly (BitVec.allOnes 32) + X ^ 32 * ofBits (messageBits message) := by
  have ones : registerBits (BitVec.allOnes 32) = List.replicate 32 true := by decide
  have length : (messageBits message ++ List.replicate 32 false).length = 8 * message.length + 32 := by
    rw [List.length_append, length_messageBits, List.length_replicate]
  rw [dividend, complement_front _ (by omega), ofBits_xor (by simp), ofBits_append, ofBits_append, ofBits_zeros,
    ofBits_zeros, length, List.length_replicate, List.length_replicate, registerPoly, ones, Nat.add_sub_cancel]
  ring

/-- The coefficients of what is in a register are its bits, the other way round. -/
theorem reverse_coefficients (register : BitVec 32) : (coefficients (registerPoly register)).reverse = register := by
  apply BitVec.eq_of_getLsbD_eq
  intro i hi
  have set : ∀ bit, decide (coefficient bit = 1) = bit := by decide
  have place : 32 - 1 - (32 - (i + 1)) = i := by omega
  have length : (registerBits register).length = 32 := by simp [registerBits]
  rw [BitVec.getLsbD_reverse, coefficients, BitVec.getMsbD_ofFnLE, dif_pos hi, registerPoly, coeff_ofBits, set,
    Fin.val_rev, List.getD_eq_getElem _ _ (by rw [List.length_reverse, length]; omega), List.getElem_reverse]
  simp only [length, place]
  simp [registerBits]

/--
The check of a message is the remainder of a division by the generator. What is divided are the bits of the message, the
lowest of each byte first, with 32 zeros behind them and with the first 32 bits of all this complemented. The bits of the
remainder are reversed and complemented.
-/
theorem crc32_eq_remainder (message : List UInt8) :
    crc32 message = (~~~(coefficients (ofBits (dividend message) %ₘ generator)).reverse).toNat := by
  have start : Remains (BitVec.allOnes 32) (registerPoly (BitVec.allOnes 32)) :=
    remains_iff.mpr ⟨0, by rw [mul_zero, add_zero]⟩
  have remainder := start.message message
  rw [← ofBits_dividend] at remainder
  rw [remainder, reverse_coefficients, crc32]

/-- The check of the nine digits. -/
example : crc32 [0x31, 0x32, 0x33, 0x34, 0x35, 0x36, 0x37, 0x38, 0x39] = 0xcbf43926 := by decide +kernel

end WireGrammar.Checksum
