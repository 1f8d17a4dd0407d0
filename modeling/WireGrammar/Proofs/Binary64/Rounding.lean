import Mathlib.Algebra.Order.Field.Power
import Mathlib.Algebra.Order.Floor.Semifield
import Mathlib.Data.Int.Log
import Mathlib.Data.Rat.Floor
import Mathlib.Tactic.FieldSimp
import Mathlib.Tactic.Linarith
import Mathlib.Tactic.Positivity
import Mathlib.Tactic.Ring
import WireGrammar.Binary64.Basic

/-!
# Rounding keeps the order

The number of the format nearest to a fraction is at most the one nearest to a greater fraction
(`Binary64.ofRatio_mono`), infinity included, and the same goes for what division (`Binary64.div_mono`) and
truncation (`Binary64.truncate_mono`) make of such numbers.

* `Binary64.Shows`: the value of a number that is not negative, where infinity stands for all values above the format.
-/

namespace WireGrammar.Binary64

variable {num den num' den' : Nat} {x x' : ℚ} {q q' : Nat}

/-! ## The nearest integer -/

theorem roundHalfEven_mono (hd : 0 < den) (hd' : 0 < den') (h : num * den' ≤ num' * den) :
    roundHalfEven num den ≤ roundHalfEven num' den' := by
  have bounds (num den : Nat) : num / den ≤ roundHalfEven num den ∧ roundHalfEven num den ≤ num / den + 1 := by
    unfold roundHalfEven
    dsimp only
    split <;> omega
  have whole : num / den ≤ num' / den' := by
    rw [Nat.le_div_iff_mul_le hd']
    refine Nat.le_of_mul_le_mul_right (le_trans ?_ h) hd
    calc num / den * den' * den = num / den * den * den' := by ring
      _ ≤ num * den' := Nat.mul_le_mul_right _ (Nat.div_mul_le_self num den)
  rcases Nat.lt_or_eq_of_le whole with less | equal
  · exact (bounds num den).2.trans (le_trans less (bounds num' den').1)
  · -- The same integer part: the fractions decide, and the parity is the same.
    have parts : num % den * den' ≤ num' % den' * den := by
      have hn := Nat.div_add_mod num den
      have hn' := Nat.div_add_mod num' den'
      rw [← equal] at hn'
      rw [← hn, ← hn'] at h
      nlinarith
    unfold roundHalfEven
    dsimp only
    rw [← equal]
    split
    next => split <;> omega
    next up =>
      rw [if_neg]
      rintro (below | ⟨half, even⟩)
      · refine up (.inl ?_)
        by_contra least
        nlinarith [Nat.mod_lt num hd]
      · refine up ?_
        have most : 2 * (num % den) ≤ den := by
          refine Nat.le_of_mul_le_mul_right (?_ : _ * den' ≤ _) hd'
          nlinarith
        rcases Nat.lt_or_eq_of_le most with less | same
        · exact .inl less
        · exact .inr ⟨same, even⟩

/-- The integer nearest to a fraction, however it is written. -/
def RoundsTo (x : ℚ) (q : Nat) : Prop :=
  ∃ num den : Nat, 0 < den ∧ x = num / den ∧ q = roundHalfEven num den

theorem RoundsTo.mono (h : RoundsTo x q) (h' : RoundsTo x' q') (hx : x ≤ x') : q ≤ q' := by
  obtain ⟨num, den, hd, rfl, rfl⟩ := h
  obtain ⟨num', den', hd', rfl, rfl⟩ := h'
  refine roundHalfEven_mono hd hd' ?_
  rw [div_le_div_iff₀ (by exact_mod_cast hd) (by exact_mod_cast hd')] at hx
  exact_mod_cast hx

/-- An integer is the one nearest to itself. -/
theorem roundsTo_natCast (k : Nat) : RoundsTo k k :=
  ⟨k, 1, Nat.one_pos, by simp, by simp [roundHalfEven, Nat.mod_one]⟩

/-! ## The exponent of a fraction -/

/-- A shift to the left multiplies by a power of two. -/
theorem cast_shiftLeft (n : Nat) {e : Int} (h : 0 ≤ e) : ((n <<< e.toNat : Nat) : ℚ) = n * 2 ^ e := by
  obtain ⟨k, rfl⟩ := Int.eq_ofNat_of_zero_le h
  rw [Int.toNat_natCast, Nat.shiftLeft_eq, zpow_natCast, Nat.cast_mul, Nat.cast_pow, Nat.cast_ofNat]

theorem shiftLeft_pos (h : 0 < den) (k : Nat) : 0 < den <<< k := by
  rw [Nat.shiftLeft_eq]
  positivity

theorem unscale_spec (num : Nat) (hd : 0 < den) (e : Int) :
    0 < (unscale num den e).2 ∧ ((unscale num den e).1 : ℚ) / (unscale num den e).2 = num / den / 2 ^ e := by
  unfold unscale
  split
  next h => exact ⟨shiftLeft_pos hd _, by rw [cast_shiftLeft den h, div_div]⟩
  next h =>
    refine ⟨hd, ?_⟩
    rw [cast_shiftLeft num (by omega), zpow_neg]
    ring

/-- The exponent is the integer part of the logarithm. -/
theorem ratioLog2_eq_log (hn : 0 < num) (hd : 0 < den) : ratioLog2 num den = Int.log 2 ((num : ℚ) / den) := by
  have hd' : (0 : ℚ) < den := by exact_mod_cast hd
  have hx : (0 : ℚ) < num / den := div_pos (by exact_mod_cast hn) hd'
  have ends (n : Nat) (h : 0 < n) : (2 : ℚ) ^ (n.log2 : Int) ≤ n ∧ (n : ℚ) < 2 ^ ((n.log2 : Int) + 1) := by
    constructor
    · rw [zpow_natCast]
      exact_mod_cast Nat.log2_self_le h.ne'
    · rw [← Nat.cast_succ, zpow_natCast]
      exact_mod_cast Nat.lt_log2_self
  obtain ⟨low, high⟩ := ends num hn
  obtain ⟨low', high'⟩ := ends den hd
  set e : Int := (num.log2 : Int) - (den.log2 : Int) with he
  have above : (num : ℚ) / den < 2 ^ (e + 1) := by
    rw [div_lt_iff₀ hd']
    calc (num : ℚ) < 2 ^ ((num.log2 : Int) + 1) := high
      _ = 2 ^ (e + 1) * 2 ^ (den.log2 : Int) := by rw [← zpow_add₀ two_ne_zero]; congr 1; omega
      _ ≤ 2 ^ (e + 1) * den := by gcongr
  have below : (2 : ℚ) ^ (e - 1) ≤ num / den := by
    rw [le_div_iff₀ hd']
    calc (2 : ℚ) ^ (e - 1) * den ≤ 2 ^ (e - 1) * 2 ^ ((den.log2 : Int) + 1) := by gcongr
      _ = 2 ^ (num.log2 : Int) := by rw [← zpow_add₀ two_ne_zero]; congr 1; omega
      _ ≤ num := low
  obtain ⟨hd₀, scaled⟩ := unscale_spec num hd e
  have decides : (unscale num den e).2 ≤ (unscale num den e).1 ↔ (2 : ℚ) ^ e ≤ num / den := by
    rw [← one_mul ((2 : ℚ) ^ e), ← le_div_iff₀ (by positivity), ← scaled, le_div_iff₀ (by exact_mod_cast hd₀), one_mul,
      Nat.cast_le]
  have less : Int.log 2 ((num : ℚ) / den) < e + 1 := (Int.lt_zpow_iff_log_lt Nat.one_lt_two hx).mp above
  have most : e - 1 ≤ Int.log 2 ((num : ℚ) / den) := (Int.zpow_le_iff_le_log Nat.one_lt_two hx).mp below
  have exact : (2 : ℚ) ^ e ≤ num / den ↔ e ≤ Int.log 2 ((num : ℚ) / den) := Int.zpow_le_iff_le_log Nat.one_lt_two hx
  unfold ratioLog2
  dsimp only
  rw [← he]
  split
  next h =>
    have := exact.mp (decides.mp h)
    omega
  next h =>
    have := mt exact.mpr (mt decides.mpr h)
    omega

/-! ## The nearest number -/

/-- The exponent of the number nearest to a fraction, before a carry into the next one. -/
def exponentOf (x : ℚ) : Int :=
  max (Int.log 2 x - 52) minExponent

/-- The value of a number that is not negative; infinity stands for all values above the format. -/
def Shows (y : Binary64) (v : ℚ) : Prop :=
  (∃ s e, y = finite false s e ∧ (s : ℚ) * 2 ^ e = v ∧ v < 2 ^ (1024 : Int)) ∨
    y = infinite false ∧ (2 : ℚ) ^ (1024 : Int) ≤ v

/-- The significand before a carry: it has 53 bits at most, and exactly 53 unless the exponent is the least. -/
theorem significand_bounds (hx : 0 < x) (h : RoundsTo (x / 2 ^ exponentOf x) q) :
    q ≤ 2 ^ 53 ∧ (minExponent < exponentOf x → 2 ^ 52 ≤ q) := by
  have pos : (0 : ℚ) < 2 ^ exponentOf x := by positivity
  constructor
  · refine h.mono (roundsTo_natCast (2 ^ 53)) ?_
    rw [div_le_iff₀ pos]
    refine (Int.lt_zpow_succ_log_self Nat.one_lt_two x).le.trans ?_
    rw [Nat.cast_pow, Nat.cast_ofNat, ← zpow_natCast, ← zpow_add₀ two_ne_zero]
    refine zpow_le_zpow_right₀ one_le_two ?_
    unfold exponentOf
    omega
  · intro least
    refine (roundsTo_natCast (2 ^ 52)).mono h ?_
    rw [le_div_iff₀ pos]
    refine le_trans ?_ (Int.zpow_log_le_self Nat.one_lt_two hx)
    rw [Nat.cast_pow, Nat.cast_ofNat, ← zpow_natCast, ← zpow_add₀ two_ne_zero]
    refine zpow_le_zpow_right₀ one_le_two ?_
    unfold exponentOf at least ⊢
    omega

/-- A significand that the carry makes too long is halved; the number is infinite if its exponent is too great. -/
theorem shows_of_carry {e : Int} (most : q ≤ 2 ^ 53) (least : minExponent < e → 2 ^ 52 ≤ q) :
    let carried := if q = Word.count 53 then (Word.count 52, e + 1) else (q, e)
    Shows (if carried.2 ≤ maxExponent then finite false carried.1 carried.2 else infinite false) (q * 2 ^ e) := by
  dsimp only
  have power (k : Nat) (e : Int) : ((2 ^ k : Nat) : ℚ) * 2 ^ e = 2 ^ ((k : Int) + e) := by
    rw [Nat.cast_pow, Nat.cast_ofNat, ← zpow_natCast, ← zpow_add₀ two_ne_zero]
  by_cases carry : q = Word.count 53
  · rw [if_pos carry, carry]
    change Shows _ (((2 ^ 53 : Nat) : ℚ) * 2 ^ e)
    rw [power]
    split
    next fits =>
      refine .inl ⟨_, _, rfl, (power 52 (e + 1)).trans (by congr 1; push_cast; ring), ?_⟩
      refine zpow_lt_zpow_right₀ one_lt_two ?_
      unfold maxExponent at fits
      omega
    next above =>
      refine .inr ⟨rfl, zpow_le_zpow_right₀ one_le_two ?_⟩
      unfold maxExponent at above
      omega
  · rw [if_neg carry]
    have below : q < 2 ^ 53 := lt_of_le_of_ne most carry
    split
    next fits =>
      refine .inl ⟨_, _, rfl, rfl, ?_⟩
      calc (q : ℚ) * 2 ^ e < (2 ^ 53 : Nat) * 2 ^ e := by gcongr
        _ = 2 ^ (((53 : Nat) : Int) + e) := power 53 e
        _ ≤ 2 ^ (1024 : Int) := zpow_le_zpow_right₀ one_le_two (by unfold maxExponent at fits; omega)
    next above =>
      unfold maxExponent at above
      refine .inr ⟨rfl, ?_⟩
      calc (2 : ℚ) ^ (1024 : Int) ≤ 2 ^ (((52 : Nat) : Int) + e) := zpow_le_zpow_right₀ one_le_two (by omega)
        _ = (2 ^ 52 : Nat) * 2 ^ e := (power 52 e).symm
        _ ≤ q * 2 ^ e := by gcongr; exact least (by unfold minExponent; omega)

/-- A fraction is rounded to 53 bits at its exponent. -/
theorem ofRatio_shows (hn : 0 < num) (hd : 0 < den) :
    ∃ q, RoundsTo ((num : ℚ) / den / 2 ^ exponentOf (num / den)) q ∧
      (ofRatio false num den).Shows (q * 2 ^ exponentOf (num / den)) := by
  obtain ⟨hd', scaled⟩ := unscale_spec num hd (exponentOf (num / den))
  have hx : (0 : ℚ) < num / den := div_pos (by exact_mod_cast hn) (by exact_mod_cast hd)
  have exponent : max (ratioLog2 num den - 52) minExponent = exponentOf (num / den) := by
    rw [ratioLog2_eq_log hn hd, exponentOf]
  have rounds : RoundsTo ((num : ℚ) / den / 2 ^ exponentOf (num / den)) _ := ⟨_, _, hd', scaled.symm, rfl⟩
  obtain ⟨most, least⟩ := significand_bounds hx rounds
  refine ⟨_, rounds, ?_⟩
  have shows := shows_of_carry most least
  unfold ofRatio
  rw [if_neg hn.ne']
  dsimp only
  rwa [exponent]

/-- A greater fraction is rounded to a value that is not less. -/
theorem rounded_mono (hx : 0 < x) (h : RoundsTo (x / 2 ^ exponentOf x) q)
    (h' : RoundsTo (x' / 2 ^ exponentOf x') q') (hle : x ≤ x') :
    (q : ℚ) * 2 ^ exponentOf x ≤ q' * 2 ^ exponentOf x' := by
  have exponents : exponentOf x ≤ exponentOf x' :=
    max_le_max (Int.sub_le_sub_right (Int.log_mono_right hx hle) 52) le_rfl
  rcases exponents.lt_or_eq with less | equal
  · obtain ⟨-, least⟩ := significand_bounds (hx.trans_le hle) h'
    obtain ⟨most, -⟩ := significand_bounds hx h
    have full : 2 ^ 52 ≤ q' := least (lt_of_le_of_lt (le_max_right _ _) less)
    calc (q : ℚ) * 2 ^ exponentOf x ≤ (2 ^ 53 : Nat) * 2 ^ exponentOf x := by gcongr
      _ = (2 ^ 52 : Nat) * 2 ^ (exponentOf x + 1) := by rw [zpow_add_one₀ two_ne_zero]; push_cast; ring
      _ ≤ q' * 2 ^ exponentOf x' := by
        gcongr
        · exact one_le_two
        · omega
  · have order : q ≤ q' := h.mono h' (by rw [equal]; gcongr)
    rw [equal]
    gcongr

/-! ## Order between numbers -/

/-- One number that is not negative is at most another one. -/
def AtMost (y y' : Binary64) : Prop :=
  ∃ v v', y.Shows v ∧ y'.Shows v' ∧ v ≤ v'

/-- The number nearest to a fraction is not negative. -/
theorem ofRatio_nonneg (num : Nat) (hd : 0 < den) : ∃ v, (ofRatio false num den).Shows v ∧ 0 ≤ v := by
  rcases num.eq_zero_or_pos with rfl | hn
  · exact ⟨0, .inl ⟨0, minExponent, rfl, by simp, by positivity⟩, le_rfl⟩
  · obtain ⟨q, -, hq⟩ := ofRatio_shows hn hd
    exact ⟨_, hq, by positivity⟩

/-- The number nearest to a greater fraction is not less. -/
theorem ofRatio_mono (hd : 0 < den) (hd' : 0 < den') (h : (num : ℚ) / den ≤ num' / den') :
    AtMost (ofRatio false num den) (ofRatio false num' den') := by
  rcases num.eq_zero_or_pos with rfl | hn
  · obtain ⟨v, hv, least⟩ := ofRatio_nonneg num' hd'
    exact ⟨0, v, .inl ⟨0, minExponent, rfl, by simp, by positivity⟩, hv, least⟩
  · have hx : (0 : ℚ) < num / den := div_pos (by exact_mod_cast hn) (by exact_mod_cast hd)
    have hn' : 0 < num' := by
      rcases num'.eq_zero_or_pos with rfl | hn'
      · rw [Nat.cast_zero, zero_div] at h
        exact absurd hx h.not_gt
      · exact hn'
    obtain ⟨q, rounds, hq⟩ := ofRatio_shows hn hd
    obtain ⟨q', rounds', hq'⟩ := ofRatio_shows hn' hd'
    exact ⟨_, _, hq, hq', rounded_mono hx rounds rounds' h⟩

theorem ofNat_mono (h : num ≤ num') : AtMost (ofNat num) (ofNat num') :=
  ofRatio_mono Nat.one_pos Nat.one_pos (by rw [Nat.cast_one, div_one, div_one]; exact_mod_cast h)

theorem ofScaled_eq (negative : Bool) (num : Nat) (hd : 0 < den) (e : Int) : ∃ num' den' : Nat, 0 < den' ∧
    (num' : ℚ) / den' = num / den * 2 ^ e ∧ ofScaled negative num den e = ofRatio negative num' den' := by
  unfold ofScaled
  split
  next h =>
    refine ⟨_, _, hd, ?_, rfl⟩
    rw [cast_shiftLeft num h]
    ring
  next h =>
    refine ⟨_, _, shiftLeft_pos hd _, ?_, rfl⟩
    rw [cast_shiftLeft den (by omega), zpow_neg, ← div_div, div_inv_eq_mul]

/-- Division by a number keeps the order. -/
theorem div_mono {y y' divisor : Binary64} (hpos : divisor.isFinitePositive = true) (h : AtMost y y') :
    AtMost (y / divisor) (y' / divisor) := by
  obtain ⟨v, v', hv, hv', hle⟩ := h
  obtain ⟨t, k, rfl, ht⟩ : ∃ t k, divisor = finite false t k ∧ 0 < t := by
    unfold isFinitePositive at hpos
    split at hpos
    next t k => exact ⟨t, k, rfl, Nat.pos_of_ne_zero (by simpa using hpos)⟩
    next => cases hpos
  have ht' : (0 : ℚ) < t := by exact_mod_cast ht
  have quotient (s : Nat) (e : Int) : finite false s e / finite false t k = ofScaled false s t (e - k) := if_neg ht.ne'
  rcases hv with ⟨s, e, rfl, rfl, -⟩ | ⟨rfl, above⟩
  · obtain ⟨n, d, hd, hx, hq⟩ := ofScaled_eq false s ht (e - k)
    rw [quotient, hq]
    rcases hv' with ⟨s', e', rfl, rfl, -⟩ | ⟨rfl, -⟩
    · obtain ⟨n', d', hd', hx', hq'⟩ := ofScaled_eq false s' ht (e' - k)
      rw [quotient, hq']
      refine ofRatio_mono hd hd' ?_
      have split (s : Nat) (e : Int) : (s : ℚ) / t * 2 ^ (e - k) = s * 2 ^ e / (t * 2 ^ k) := by
        rw [zpow_sub₀ two_ne_zero]
        field_simp
      rw [hx, hx', split, split]
      gcongr
    · obtain ⟨w, hw, -⟩ := ofRatio_nonneg n hd
      exact ⟨w, max w (2 ^ (1024 : Int)), hw, .inr ⟨rfl, le_max_right _ _⟩, le_max_left _ _⟩
  · rcases hv' with ⟨s', e', -, rfl, below⟩ | ⟨rfl, -⟩
    · exact absurd (above.trans hle) below.not_ge
    · exact ⟨_, _, .inr ⟨rfl, le_rfl⟩, .inr ⟨rfl, le_rfl⟩, le_rfl⟩

/-- The bits of a significand before the point are the integer part. -/
theorem shift_eq_floor (s : Nat) (e : Int) :
    (if 0 ≤ e then s <<< e.toNat else s >>> (-e).toNat) = ⌊(s : ℚ) * 2 ^ e⌋₊ := by
  split
  next h => rw [← cast_shiftLeft s h, Nat.floor_natCast]
  next h =>
    have power : (2 : ℚ) ^ e = ((1 <<< (-e).toNat : Nat) : ℚ)⁻¹ := by
      rw [cast_shiftLeft 1 (by omega), Nat.cast_one, one_mul, zpow_neg, inv_inv]
    rw [power, ← div_eq_mul_inv, Nat.floor_div_natCast, Nat.floor_natCast, Nat.shiftLeft_eq, one_mul,
      Nat.shiftRight_eq_div_pow]

/-- The integer part of a greater number is not less. -/
theorem truncate_mono {y y' : Binary64} {lo hi : Int} (range : lo ≤ hi) (h : AtMost y y') :
    y.truncate lo hi ≤ y'.truncate lo hi := by
  obtain ⟨v, v', hv, hv', hle⟩ := h
  rcases hv' with ⟨s', e', rfl, rfl, below⟩ | ⟨rfl, -⟩
  · rcases hv with ⟨s, e, rfl, rfl, -⟩ | ⟨-, above⟩
    · have parts : ⌊(s : ℚ) * 2 ^ e⌋₊ ≤ ⌊(s' : ℚ) * 2 ^ e'⌋₊ := Nat.floor_le_floor hle
      rw [← shift_eq_floor, ← shift_eq_floor] at parts
      unfold truncate signed
      simp only [Bool.false_eq_true, if_false]
      omega
    · exact absurd (above.trans hle) below.not_ge
  · rcases hv with ⟨s, e, rfl, rfl, -⟩ | ⟨rfl, -⟩
    · change max lo (min hi _) ≤ hi
      exact max_le range (min_le_left _ _)
    · exact le_rfl

end WireGrammar.Binary64
