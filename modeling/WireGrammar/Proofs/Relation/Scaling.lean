import WireGrammar.Proofs.Binary64.Exact
import WireGrammar.Proofs.Relation.Numbers

/-!
# Scaled lengths

Sizes and paddings scale the length of their targets in binary64 numbers. Where that is exact (`Scale.IsExact`), as it
is for powers of two and for whole factors unless numbers grow too long, a size is the scaled length cut toward zero;
below zero that is not the integer part (`sizes_toward_zero`).
-/

namespace WireGrammar

open Binary64

namespace Scale

variable {scale : Scale} {rate : ℚ} {total : Nat}

/-- The scaled length in exact arithmetic. -/
def scaled (scale : Scale) (rate : ℚ) (total : Nat) : ℚ :=
  total * rate + scale.offset

/-- The factor, and all numbers that occur when a length is scaled, are values of the format. -/
structure IsExact (scale : Scale) (rate : ℚ) (total : Nat) : Prop where
  factor : scale.factor.Represents rate
  length : Representable total
  product : Representable (total * rate)
  offset : Representable scale.offset
  sum : Representable (scale.scaled rate total)

theorem IsExact.apply_represents (h : scale.IsExact rate total) :
    (scale.apply total).Represents (scale.scaled rate total) := by
  have length := (isNearest_ofNat total).represents h.length
  have product := (length.mul h.factor).represents h.product
  have offset := (isNearest_ofInt scale.offset).represents h.offset
  exact (product.add offset).represents h.sum

/-- Scaling by a whole number is exact below 2^53. -/
theorem isExact_of_whole {c : Nat} (hf : scale.factor.Represents c) (hc : 0 < c)
    (small : total * c + |scale.offset| < 2 ^ 53) : scale.IsExact c total := by
  have length : total ≤ total * c := Nat.le_mul_of_pos_right total hc
  have product : (total * c : Nat) < 2 ^ 53 := by
    have := abs_nonneg scale.offset
    zify
    omega
  have sum : |((total * c : Nat) : ℤ) + scale.offset| < 2 ^ 53 := by
    refine (abs_add_le _ _).trans_lt ?_
    rw [abs_of_nonneg (Int.natCast_nonneg _)]
    exact_mod_cast small
  refine ⟨hf, representable_natCast (length.trans_lt product), ?_, ?_, ?_⟩
  · exact_mod_cast representable_natCast product
  · refine representable_intCast (lt_of_le_of_lt ?_ small)
    have : (0 : ℤ) ≤ total * c := by positivity
    omega
  · have := representable_intCast sum
    unfold scaled
    push_cast at this
    exact this

/-- Scaling down by a power of two is exact if the scaled length has at most 53 bits with those behind the point. -/
theorem isExact_of_fraction {j : Nat} (hf : scale.factor.Represents (2 ^ (-(j : ℤ)))) (hj : j ≤ 1074)
    (small : total + |scale.offset| * 2 ^ j < 2 ^ 53) : scale.IsExact (2 ^ (-(j : ℤ))) total := by
  have power : (1 : ℤ) ≤ 2 ^ j := one_le_pow₀ one_le_two
  have least : minExponent ≤ -(j : ℤ) := by unfold minExponent; omega
  have most : -(j : ℤ) ≤ maxExponent := by unfold maxExponent; omega
  have whole : |scale.offset| ≤ |scale.offset| * 2 ^ j := le_mul_of_one_le_right (abs_nonneg _) power
  have length : total < 2 ^ 53 := by
    have := abs_nonneg scale.offset
    zify
    omega
  have sum : |(total : ℤ) + scale.offset * 2 ^ j| < 2 ^ 53 := by
    refine (abs_add_le _ _).trans_lt ?_
    rwa [abs_of_nonneg (Int.natCast_nonneg _), abs_mul, abs_of_nonneg (by positivity : (0 : ℤ) ≤ 2 ^ j)]
  refine ⟨hf, representable_natCast length, ?_, representable_intCast ?_, ?_⟩
  · have bound : |(total : ℤ)| < 2 ^ 53 := by rw [abs_of_nonneg (Int.natCast_nonneg _)]; exact_mod_cast length
    exact_mod_cast representable_mul_zpow bound least most
  · omega
  · have cancel : (2 : ℚ) ^ j * 2 ^ (-(j : ℤ)) = 1 := by rw [← zpow_natCast, zpow_neg, mul_inv_cancel₀ (by positivity)]
    have := representable_mul_zpow sum least most
    unfold scaled
    push_cast at this
    rwa [add_mul, mul_assoc, cancel, mul_one] at this

end Scale

/-- Every format holds a number that is not negative, and no number of 128 bits. -/
theorem IntegerFormat.within_range (f : IntegerFormat) :
    Word.leastSigned 128 < f.lowest ∧ 0 ≤ f.highest ∧ f.highest < Word.greatestSigned 128 := by
  obtain ⟨width, endianness, signed⟩ := f
  cases width <;> cases endianness <;> cases signed <;> decide

namespace Relation

/-- The value is a number in the format of the type, or it fails because the format does not hold the number. -/
def Encodes (r : Relation) (a : Assignment) (format : IntegerFormat) (n : ℤ) : Prop :=
  (format.lowest ≤ n ∧ n ≤ format.highest → r.evaluate a = .ok (.ready (.ofBytes (format.toBytes n)))) ∧
  (¬ (format.lowest ≤ n ∧ n ≤ format.highest) →
    ∃ shown, r.evaluate a = .error (.value (.outOfRange .integer shown)))

variable {r : Relation} {a : Assignment} {type : IntegerType} {format : IntegerFormat} {n m : ℤ}

theorem encodes_of_evaluate (ht : r.type = .integer type) (h : r.evaluate a = r.writeInt n) :
    r.Encodes a type.format n := by
  constructor
  · intro fits
    rw [h, writeInt, ht, DataType.write_integer_eq, if_pos fits]
  · intro outside
    refine ⟨toString n, ?_⟩
    rw [h, writeInt, ht, DataType.write_integer_eq, if_neg outside]

/-- A value is two numbers only if the format holds neither of them. -/
theorem Encodes.iff (h : r.Encodes a format n) : r.Encodes a format m ↔
    m = n ∨ ¬ (format.lowest ≤ n ∧ n ≤ format.highest) ∧ ¬ (format.lowest ≤ m ∧ m ≤ format.highest) := by
  constructor
  · intro h'
    by_cases fits : format.lowest ≤ n ∧ n ≤ format.highest <;>
      by_cases fits' : format.lowest ≤ m ∧ m ≤ format.highest
    · refine .inl ?_
      have same := (h'.1 fits').symm.trans (h.1 fits)
      simp only [Except.ok.injEq, Outcome.ready.injEq] at same
      have bytes := congrArg BitString.toBytes same
      rw [BitString.toBytes_ofBytes, BitString.toBytes_ofBytes] at bytes
      rw [← format.ofBytes_toBytes fits'.1 fits'.2, bytes, format.ofBytes_toBytes fits.1 fits.2]
    · obtain ⟨_, e⟩ := h'.2 fits'
      exact absurd ((h.1 fits).symm.trans e) nofun
    · obtain ⟨_, e⟩ := h.2 fits
      exact absurd ((h'.1 fits').symm.trans e) nofun
    · exact .inr ⟨fits, fits'⟩
  · rintro (rfl | ⟨outside, outside'⟩)
    · exact h
    · exact ⟨fun fits => absurd fits outside', fun _ => h.2 outside⟩

/-- Numbers beyond 128 bits are cut before they are written, but no format holds them. -/
theorem Encodes.of_cut (h : r.Encodes a format (max (Word.leastSigned 128) (min (Word.greatestSigned 128) n))) :
    r.Encodes a format n := by
  obtain ⟨low, -, high⟩ := format.within_range
  rw [h.iff]
  omega

end Relation

/--
A size is the scaled length of its targets without the fraction, in the format of the type, or it fails because the
format does not hold that number. So it is the integer part of the scaled length exactly if this is not negative, or
whole, or so far below the format that its integer part fails as well.
-/
theorem sizes_toward_zero {r : Relation} {a : Assignment} {type : IntegerType} {scale : Scale} {rate : ℚ} {total : Nat}
    (rule : r.rule = .size scale) (integer : r.type = .integer type)
    (known : r.targetsLength? a (r.ownLength? a) = some total) (exact : scale.IsExact rate total) :
    r.Encodes a type.format (towardZero (scale.scaled rate total)) ∧
    (r.Encodes a type.format ⌊scale.scaled rate total⌋ ↔ 0 ≤ scale.scaled rate total ∨
      scale.scaled rate total = ⌊scale.scaled rate total⌋ ∨ ⌈scale.scaled rate total⌉ < type.format.lowest) := by
  have value : r.evaluate a = r.writeInt (Relation.sizeOf scale total) := by
    rw [Relation.evaluate, rule]
    dsimp only
    rw [known]
  rw [Relation.sizeOf, exact.apply_represents.truncate_eq] at value
  have written := (Relation.encodes_of_evaluate integer value).of_cut
  generalize scale.scaled rate total = x at written ⊢
  refine ⟨written, ?_⟩
  rw [written.iff, eq_comm, towardZero_eq_floor_iff, ← or_assoc]
  by_cases sign : 0 ≤ x
  · exact iff_of_true (.inl (.inl sign)) (.inl (.inl sign))
  · rw [towardZero, if_neg sign]
    -- neither number is above the format, so if both are outside the greater one is below it
    obtain ⟨-, high, -⟩ := type.format.within_range
    have most : ⌈x⌉ ≤ 0 := Int.ceil_le.mpr (by rw [Int.cast_zero]; exact (not_le.mp sign).le)
    have order : ⌊x⌋ ≤ ⌈x⌉ := Int.floor_le_ceil x
    refine or_congr_right ?_
    constructor
    · rintro ⟨outside, -⟩
      omega
    · intro below
      omega

/-- How many bytes there are beyond three, in one signed byte. -/
def bytesBeyondThree : Relation where
  id := .ofRoot 0
  name := "size"
  rule := .size ⟨.ofRatio false 1 8, -3⟩
  targets := [.ofRoot 1]
  type := .integer (.full ⟨.one, .big, true⟩)

/-- A byte and a half are a byte and a half less than three, which is written as one less and not as two. -/
theorem sizes_toward_zero_bytesBeyondThree :
    let a := Assignment.empty.record (.ofRoot 1) (.ofBits (.zeros 12))
    let scale : Scale := ⟨.ofRatio false 1 8, -3⟩
    bytesBeyondThree.rule = .size scale ∧ bytesBeyondThree.type = .integer (.full ⟨.one, .big, true⟩) ∧
    bytesBeyondThree.targetsLength? a (bytesBeyondThree.ownLength? a) = some 12 ∧
    scale.IsExact (2 ^ (-((3 : Nat) : ℤ))) 12 ∧ ⌊scale.scaled (2 ^ (-((3 : Nat) : ℤ))) 12⌋ = -2 ∧
    bytesBeyondThree.Encodes a ⟨.one, .big, true⟩ (-1) ∧ ¬ bytesBeyondThree.Encodes a ⟨.one, .big, true⟩ (-2) := by
  have eighth : (Binary64.ofRatio false 1 8).Represents (2 ^ (-((3 : Nat) : ℤ))) :=
    IsNearest.represents ⟨false, 1, 8, by decide, by norm_num, rfl⟩
      ⟨1, -3, by decide, by decide, by decide, by norm_num⟩
  have exact : Scale.IsExact ⟨.ofRatio false 1 8, -3⟩ (2 ^ (-((3 : Nat) : ℤ))) 12 :=
    Scale.isExact_of_fraction eighth (by decide) (by decide)
  have value : Scale.scaled ⟨.ofRatio false 1 8, -3⟩ (2 ^ (-((3 : Nat) : ℤ))) 12 = -3 / 2 := by
    norm_num [Scale.scaled]
  have known : bytesBeyondThree.targetsLength? (Assignment.empty.record (.ofRoot 1) (.ofBits (.zeros 12)))
      (bytesBeyondThree.ownLength? (Assignment.empty.record (.ofRoot 1) (.ofBits (.zeros 12)))) = some 12 := by
    decide +kernel
  have whole : ⌊(-3 / 2 : ℚ)⌋ = -2 := by norm_num
  have cut : towardZero (-3 / 2) = -1 := by norm_num [towardZero]
  obtain ⟨written, floor⟩ := sizes_toward_zero rfl rfl known exact
  rw [value] at written floor
  rw [cut] at written
  rw [whole] at floor
  refine ⟨rfl, rfl, known, exact, by rw [value, whole], written, fun h => ?_⟩
  rcases floor.mp h with nonneg | same | below
  · norm_num at nonneg
  · norm_num at same
  · exact absurd below (by norm_num; decide)

end WireGrammar
