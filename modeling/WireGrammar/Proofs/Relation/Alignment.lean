import WireGrammar.Proofs.Interpretation.Paddings
import WireGrammar.Proofs.Relation.Scaling

/-!
# What paddings align

A padding makes the scaled length of its targets a multiple of its modulus. What is missing to the next multiple
(`Relation.shortfall`) is turned back into bits, whole bits only: with a factor above one they may scale to less than
what is missing, and then the length stays short of the multiple. A length below zero counts as none
(`paddings_align`).
-/

namespace WireGrammar

open Binary64 Variable

/-- A factor that is a power of two, below one, or a whole number, a power of two above one among them. -/
def IsPlainRate (rate : ℚ) : Prop :=
  (∃ j : ℕ, rate = 2 ^ (-(j : ℤ))) ∨ ∃ c : ℕ, 0 < c ∧ rate = c

theorem IsPlainRate.pos {rate : ℚ} (h : IsPlainRate rate) : 0 < rate := by
  obtain ⟨j, rfl⟩ | ⟨c, hc, rfl⟩ := h
  · positivity
  · exact_mod_cast hc

/-- Bits are made up whole if the factor is not above one. -/
theorem IsPlainRate.exists_bits {rate : ℚ} (h : IsPlainRate rate) (least : rate ≤ 1) (n : Nat) :
    ∃ k : ℕ, k * rate = n := by
  obtain ⟨j, rfl⟩ | ⟨c, hc, rfl⟩ := h
  · refine ⟨n * 2 ^ j, ?_⟩
    rw [zpow_neg, zpow_natCast, Nat.cast_mul, Nat.cast_pow, Nat.cast_ofNat, mul_assoc,
      mul_inv_cancel₀ (by positivity), mul_one]
  · obtain rfl : c = 1 := le_antisymm (by exact_mod_cast least) hc
    exact ⟨n, by simp⟩

/-- Turned into whole bits and scaled again, a part loses what is no whole bit. -/
theorem IsPlainRate.exists_rounded {rate : ℚ} (h : IsPlainRate rate) (n : Nat) :
    ∃ m ≤ n, (⌊(n : ℚ) / rate⌋₊ : ℚ) * rate = m ∧ (m = n ↔ rate ≤ 1 ∨ ∃ k : ℕ, k * rate = n) := by
  have rounded (k : ℕ) (hk : k * rate = n) : (⌊(n : ℚ) / rate⌋₊ : ℚ) * rate = n := by
    rw [← hk, mul_div_cancel_right₀ _ h.pos.ne', Nat.floor_natCast]
  obtain ⟨j, hj⟩ | ⟨c, hc, rfl⟩ := id h
  · have least : rate ≤ 1 := by
      rw [hj, zpow_neg, zpow_natCast]
      exact inv_le_one_of_one_le₀ (one_le_pow₀ one_le_two)
    obtain ⟨k, hk⟩ := h.exists_bits least n
    exact ⟨n, le_rfl, rounded k hk, iff_of_true rfl (.inl least)⟩
  · refine ⟨n / c * c, Nat.div_mul_le_self n c, by rw [Nat.floor_div_eq_div, Nat.cast_mul], ?_⟩
    constructor
    · intro same
      exact .inr ⟨n / c, by exact_mod_cast same⟩
    · intro bits
      obtain ⟨k, hk⟩ : ∃ k : ℕ, k * (c : ℚ) = n := bits.elim (h.exists_bits · n) id
      have := rounded k hk
      rw [Nat.floor_div_eq_div] at this
      exact_mod_cast this

/-- As many whole bits as a part of the scaled length takes. -/
theorem Scale.unapply_eq {scale : Scale} {rate : ℚ} {part : Nat} (hf : scale.factor.Represents rate)
    (plain : IsPlainRate rate) (small : part < 2 ^ 53) (fits : (part : ℚ) / rate < 2 ^ 64) :
    scale.unapply part = ⌊(part : ℚ) / rate⌋₊ := by
  have most : (Word.count 64 : ℤ) - 1 = 2 ^ 64 - 1 := by decide
  unfold Scale.unapply
  rw [most]
  obtain ⟨j, rfl⟩ | ⟨c, hc, rfl⟩ := plain
  · have value : (part : ℚ) / 2 ^ (-(j : ℤ)) = part * 2 ^ j := by rw [zpow_neg, div_inv_eq_mul, zpow_natCast]
    have bits : part * 2 ^ j < 2 ^ 64 := by
      rw [value] at fits
      exact_mod_cast fits
    have exact : Representable ((part : ℚ) / 2 ^ (-(j : ℤ))) := by
      rw [value]
      rcases part.eq_zero_or_pos with rfl | hp
      · simpa using representable_natCast (m := 0) (by decide)
      · have hj : j < 64 := (Nat.pow_lt_pow_iff_right one_lt_two).mp
          ((Nat.le_mul_of_pos_left _ hp).trans_lt bits)
        have bound : |(part : ℤ)| < 2 ^ 53 := by rw [abs_of_nonneg (Int.natCast_nonneg _)]; exact_mod_cast small
        exact_mod_cast representable_mul_zpow (e := j) bound (by unfold minExponent; omega)
          (by unfold maxExponent; omega)
    have quotient := ((isNearest_ofNat part).represents (representable_natCast small)).div hf (by positivity)
    have whole : (part : ℚ) / 2 ^ (-(j : ℤ)) = (part * 2 ^ j : ℕ) := by rw [value]; push_cast; rfl
    rw [(quotient.represents exact).truncate_eq, whole, towardZero, if_pos (Nat.cast_nonneg _), Int.floor_natCast,
      Nat.floor_natCast]
    omega
  · have below : ((part / c : ℕ) : ℤ) ≤ part := Int.ofNat_le.mpr (Nat.div_le_self part c)
    rw [Represents.truncate_div small hf hc, Nat.floor_div_eq_div, min_eq_right (by linarith),
      max_eq_right (Int.natCast_nonneg _), Int.toNat_natCast]

namespace Relation

/-- What is missing to the next multiple. -/
def shortfall (modulo size : Nat) : Nat :=
  (modulo - size % modulo) % modulo

theorem shortfall_eq {modulo : Nat} (h : 0 < modulo) (size : Nat) :
    shortfall modulo size = if size % modulo = 0 then 0 else modulo - size % modulo := by
  have rest : size % modulo < modulo := Nat.mod_lt _ h
  unfold shortfall
  split
  next h => rw [h, Nat.sub_zero, Nat.mod_self]
  next h => exact Nat.mod_eq_of_lt (by omega)

/-- What is missing is the only part below the modulus that leads to a multiple. -/
theorem dvd_add_iff {modulo size part : Nat} (h : part < modulo) :
    modulo ∣ size + part ↔ part = shortfall modulo size := by
  have rest : size % modulo < modulo := Nat.mod_lt _ (by omega)
  rw [Nat.dvd_iff_mod_eq_zero, Nat.add_mod_eq_ite, Nat.mod_eq_of_lt h, shortfall_eq (by omega)]
  split <;> split <;> omega

theorem shortfall_lt {modulo : Nat} (h : 0 < modulo) (size : Nat) : shortfall modulo size < modulo :=
  Nat.mod_lt _ h

/-- The length that a padding fills up: one below zero counts as none. -/
theorem filled_eq {scale : Scale} {rate : ℚ} {total : Nat} (exact : scale.IsExact rate total)
    (small : scale.scaled rate total < 2 ^ 63) :
    ((scale.apply total).truncate (Word.leastSigned 64) (Word.greatestSigned 64)).toNat =
      ⌊scale.scaled rate total⌋₊ := by
  have range : (Word.leastSigned 64 : ℤ) < 0 ∧ (Word.greatestSigned 64 : ℤ) = 2 ^ 63 - 1 := by decide
  rw [exact.apply_represents.truncate_eq]
  generalize scale.scaled rate total = x at small ⊢
  unfold towardZero
  split
  next h =>
    have below : ⌊x⌋ < 2 ^ 63 := Int.floor_lt.mpr (by exact_mod_cast small)
    have nonneg : 0 ≤ ⌊x⌋ := Int.floor_nonneg.mpr h
    have floor := Int.natCast_floor_eq_floor h
    omega
  next h =>
    have most : ⌈x⌉ ≤ 0 := Int.ceil_le.mpr (by rw [Int.cast_zero]; exact (not_le.mp h).le)
    rw [Nat.floor_of_nonpos (not_le.mp h).le]
    omega

/-- A padding takes as many bits as what is missing, and none if it fills up once and the length is full. -/
theorem paddingLength_eq {scale : Scale} {rate : ℚ} {total modulo : Nat} (exact : scale.IsExact rate total)
    (hm : 0 < modulo) (small : scale.scaled rate total < 2 ^ 63) (once : Bool) :
    paddingLength modulo once scale total =
      scale.unapply (if once = true ∧ modulo ≤ ⌊scale.scaled rate total⌋₊ then 0
        else shortfall modulo ⌊scale.scaled rate total⌋₊) := by
  unfold paddingLength
  rw [filled_eq exact small]
  generalize ⌊scale.scaled rate total⌋₊ = size
  dsimp only
  congr 1
  by_cases full : once = true ∧ modulo ≤ size
  · rw [if_pos full]
    rcases full.2.eq_or_lt with same | more
    · exact if_pos (.inl (by rw [same, Nat.mod_self]))
    · exact if_pos (.inr ⟨full.1, more⟩)
  · rw [if_neg full, shortfall_eq hm]
    have short : ¬ (once = true ∧ modulo < size) := fun h => full ⟨h.1, h.2.le⟩
    simp only [short, or_false]

/-- What a padding makes of the scaled length: a multiple if the bits for what is missing are whole. -/
theorem aligned_iff {x rate : ℚ} {modulo : Nat} (hm : 0 < modulo) (plain : IsPlainRate rate) :
    (modulo : ℤ) ∣ ⌊x + ⌊(shortfall modulo ⌊x⌋₊ : ℚ) / rate⌋₊ * rate⌋ ↔
      if 0 ≤ x then rate ≤ 1 ∨ ∃ k : ℕ, k * rate = shortfall modulo ⌊x⌋₊ else (modulo : ℤ) ∣ ⌊x⌋ := by
  split
  next h =>
    obtain ⟨m, most, value, whole⟩ := plain.exists_rounded (shortfall modulo ⌊x⌋₊)
    rw [value, Int.floor_add_natCast, ← Int.natCast_floor_eq_floor h, ← Nat.cast_add, Int.natCast_dvd_natCast,
      dvd_add_iff (most.trans_lt (shortfall_lt hm _)), whole]
  next h =>
    rw [Nat.floor_of_nonpos (not_le.mp h).le, shortfall_eq hm, Nat.zero_mod, if_pos rfl]
    simp

end Relation

/-- Each number is exact in which a padding is computed: the scaled length, what is missing, and its bits. -/
structure Scale.FillsExactly (scale : Scale) (rate : ℚ) (modulo total : Nat) : Prop where
  plain : IsPlainRate rate
  exact : scale.IsExact rate total
  length : scale.scaled rate total < 2 ^ 63
  missing : Relation.shortfall modulo ⌊scale.scaled rate total⌋₊ < 2 ^ 53
  bits : (Relation.shortfall modulo ⌊scale.scaled rate total⌋₊ : ℚ) / rate < 2 ^ 64

/--
A padding that can be built is computed as soon as the lengths of its targets are known. With `once` it is empty if the
scaled length reaches the modulus. Otherwise it has as many whole bits as what is missing to the next multiple takes.
With a factor that is a power of two or a whole number, as long as numbers are exact, the padded length then scales to
a multiple of the modulus exactly if the factor is not above one or what is missing is a whole number of bits; if the
length scales below zero nothing is added, and it must be a multiple as it is.
-/
theorem paddings_align {r : Relation} {v : Variable} (made : mkRelation r = .ok v) {modulo : Nat} {once : Bool}
    {scale : Scale} (rule : r.rule = .padding modulo once scale) {a : Assignment} {total : Nat}
    (known : r.targetsLength? a (some 0) = some total) {rate : ℚ} (fills : scale.FillsExactly rate modulo total) :
    let x := scale.scaled rate total
    let missing := Relation.shortfall modulo ⌊x⌋₊
    (∃ bits, r.Computes a bits) ∧ ∀ bits, r.Computes a bits →
      (once = true ∧ modulo ≤ ⌊x⌋ → bits.length = 0) ∧
      (¬ (once = true ∧ modulo ≤ ⌊x⌋) → bits.length = ⌊(missing : ℚ) / rate⌋₊ ∧
        ((modulo : ℤ) ∣ ⌊scale.scaled rate (total + bits.length)⌋ ↔
          if 0 ≤ x then rate ≤ 1 ∨ ∃ k : ℕ, k * rate = missing else (modulo : ℤ) ∣ ⌊x⌋)) := by
  intro x missing
  have padding := Relation.isPadding_of_mkRelation made rule
  obtain ⟨-, hm, -⟩ := Relation.parameters_of_mkRelation made rule
  obtain ⟨bits, computed, -⟩ := padding.exists_computes known
  refine ⟨⟨bits, computed⟩, fun bits computed => ?_⟩
  have length := ((padding.computes_iff known).mp computed).1
  rw [Relation.paddingLength_eq fills.exact hm fills.length] at length
  have full : (modulo : ℤ) ≤ ⌊x⌋ ↔ modulo ≤ ⌊x⌋₊ := by rw [Int.le_floor, Nat.le_floor_iff' hm.ne', Int.cast_natCast]
  rw [full]
  constructor
  · intro reached
    rw [length, if_pos reached, Scale.unapply_eq fills.exact.factor fills.plain (by decide) (by simp)]
    simp
  · intro short
    rw [if_neg short, Scale.unapply_eq fills.exact.factor fills.plain fills.missing fills.bits] at length
    refine ⟨length, ?_⟩
    rw [← Relation.aligned_iff hm fills.plain, ← length]
    have padded : scale.scaled rate (total + bits.length) = x + bits.length * rate := by
      unfold x Scale.scaled
      push_cast
      ring
    rw [padded]

/-- What makes twice a length a multiple of three. -/
def doubledFill : Relation :=
  ⟨.ofRoot 0, "fill", .padding 3 false ⟨.ofNat 2, 0⟩, [.ofRoot 1], .raw (.only [0x2e])⟩

/-- Twice one bit lacks half a bit, so nothing is added, and the length stays two. -/
theorem paddings_align_doubledFill :
    mkRelation doubledFill = .ok (.relation doubledFill) ∧ doubledFill.rule = .padding 3 false ⟨.ofNat 2, 0⟩ ∧
    Scale.FillsExactly ⟨.ofNat 2, 0⟩ 2 3 1 ∧
    let a := Assignment.empty.record (.ofRoot 1) (.ofBits (.zeros 1))
    doubledFill.targetsLength? a (some 0) = some 1 ∧ ∃ bits, doubledFill.Computes a bits ∧ bits.length = 0 ∧
      ¬ (3 : ℤ) ∣ ⌊Scale.scaled ⟨.ofNat 2, 0⟩ 2 (1 + bits.length)⌋ := by
  have made : mkRelation doubledFill = .ok (.relation doubledFill) := rfl
  have two : (ofNat 2).Represents (2 : ℕ) := (isNearest_ofNat 2).represents (representable_natCast (by decide))
  have exact : Scale.IsExact ⟨.ofNat 2, 0⟩ (2 : ℕ) 1 := Scale.isExact_of_whole two (by decide) (by decide)
  have value : Scale.scaled ⟨.ofNat 2, 0⟩ (2 : ℕ) 1 = 2 := by norm_num [Scale.scaled]
  have lacks : Relation.shortfall 3 ⌊(2 : ℚ)⌋₊ = 1 := by norm_num; decide
  have fills : Scale.FillsExactly ⟨.ofNat 2, 0⟩ (2 : ℕ) 3 1 :=
    ⟨.inr ⟨2, by decide, rfl⟩, exact, by rw [value]; norm_num, by rw [value, lacks]; norm_num,
      by rw [value, lacks]; norm_num⟩
  have known : doubledFill.targetsLength? (Assignment.empty.record (.ofRoot 1) (.ofBits (.zeros 1))) (some 0) =
      some 1 := by decide +kernel
  obtain ⟨⟨bits, computed⟩, length⟩ := paddings_align made rfl known fills
  obtain ⟨length, aligned⟩ := (length bits computed).2 fun h => Bool.false_ne_true h.1
  rw [value, lacks] at length aligned
  refine ⟨made, rfl, by exact_mod_cast fills, known, bits, computed, by rw [length]; norm_num, fun h => ?_⟩
  have whole := aligned.mp (by exact_mod_cast h)
  rw [if_pos zero_le_two] at whole
  rcases whole with less | ⟨k, odd⟩
  · norm_num at less
  · have odd : k * 2 = 1 := by exact_mod_cast odd
    omega

end WireGrammar
