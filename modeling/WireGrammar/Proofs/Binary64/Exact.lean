import Mathlib.Algebra.Order.Floor.Ring
import Mathlib.Data.Nat.Cast.Order.Field
import WireGrammar.Proofs.Binary64.Rounding

/-!
# Exact arithmetic

Every operation gives the number nearest to its exact result (`Represents.add`, `Represents.mul`, `Represents.div`).
Where that is a value of the format it is not rounded (`IsNearest.represents`), and truncation cuts it toward zero
(`Represents.truncate_eq`).

* `Binary64.Representable`: the values of the format.
* `Binary64.Represents.truncate_div`: the quotient of whole numbers below 2^53 is cut where the exact one is, although
  it need not be a value of the format.
-/

namespace WireGrammar.Binary64

variable {x y : Binary64} {v w : ℚ} {num den : Nat}

/-- A value of the format: at most 53 bits at an exponent within the limits. -/
def Representable (v : ℚ) : Prop :=
  ∃ m e : ℤ, |m| < 2 ^ 53 ∧ minExponent ≤ e ∧ e ≤ maxExponent ∧ v = m * 2 ^ e

/-- A finite number and its value, which is one of the format. -/
def Represents (x : Binary64) (v : ℚ) : Prop :=
  Representable v ∧ ∃ n s e, x = finite n s e ∧ (signed n s : ℚ) * 2 ^ e = v

/-- The number nearest to a value. -/
def IsNearest (x : Binary64) (v : ℚ) : Prop :=
  ∃ negative num den, 0 < den ∧ v = (if negative then -((num : ℚ) / den) else num / den) ∧
    x = ofRatio negative num den

theorem Representable.neg (h : Representable v) : Representable (-v) := by
  obtain ⟨m, e, hm, hlo, hhi, rfl⟩ := h
  exact ⟨-m, e, by rwa [abs_neg], hlo, hhi, by push_cast; ring⟩

/-- Multiplied by a power of two a whole number below 2^53 keeps its significand. -/
theorem representable_mul_zpow {m e : ℤ} (hm : |m| < 2 ^ 53) (hlo : minExponent ≤ e) (hhi : e ≤ maxExponent) :
    Representable (m * 2 ^ e) :=
  ⟨m, e, hm, hlo, hhi, rfl⟩

theorem representable_intCast {m : ℤ} (hm : |m| < 2 ^ 53) : Representable m :=
  ⟨m, 0, hm, by decide, by decide, by simp⟩

theorem representable_natCast {m : Nat} (hm : m < 2 ^ 53) : Representable m := by
  have : |(m : ℤ)| < 2 ^ 53 := by rw [abs_of_nonneg (Int.natCast_nonneg m)]; exact_mod_cast hm
  exact_mod_cast representable_intCast this

/-! ## Results that are values of the format -/

/-- The same number with another sign. -/
def withSign (negative : Bool) : Binary64 → Binary64
  | nan => nan
  | infinite _ => infinite negative
  | finite _ s e => finite negative s e

theorem ofRatio_eq_withSign (negative : Bool) (num den : Nat) :
    ofRatio negative num den = withSign negative (ofRatio false num den) := by
  unfold ofRatio
  split
  · rfl
  · dsimp only
    split <;> split <;> rfl

theorem RoundsTo.unique {q q' : Nat} (h : RoundsTo v q) (h' : RoundsTo v q') : q = q' :=
  le_antisymm (h.mono h' le_rfl) (h'.mono h le_rfl)

/-- A value of the format is a whole multiple of the unit at which it is rounded. -/
theorem Representable.exists_multiple (h : Representable v) (hv : 0 < v) :
    ∃ k : Nat, v / 2 ^ exponentOf v = k ∧ v < 2 ^ (1024 : ℤ) := by
  obtain ⟨m, e, hm, hlo, hhi, rfl⟩ := h
  have power : (0 : ℚ) < 2 ^ e := by positivity
  have pos : 0 < m := by exact_mod_cast (pos_iff_pos_of_mul_pos hv).mpr power
  have size : (m : ℚ) < 2 ^ (53 : ℤ) := by
    rw [abs_of_pos pos] at hm
    exact_mod_cast hm
  have most : (m : ℚ) * 2 ^ e < 2 ^ (53 + e) := by
    rw [zpow_add₀ two_ne_zero]
    gcongr
  have exponent : exponentOf (m * 2 ^ e) ≤ e := by
    have := (Int.lt_zpow_iff_log_lt Nat.one_lt_two hv).mp most
    unfold exponentOf
    omega
  refine ⟨m.toNat * 2 ^ (e - exponentOf (m * 2 ^ e)).toNat, ?_, most.trans_le ?_⟩
  · rw [mul_div_assoc, ← zpow_sub₀ two_ne_zero]
    push_cast
    rw [← zpow_natCast (2 : ℚ), Int.toNat_of_nonneg (by omega)]
    congr 1
    exact_mod_cast (Int.toNat_of_nonneg pos.le).symm
  · refine zpow_le_zpow_right₀ one_le_two ?_
    unfold maxExponent at hhi
    omega

/-- The magnitude of a value of the format is one, too. -/
theorem Representable.of_sign {negative : Bool} (h : Representable (if negative then -v else v)) : Representable v := by
  cases negative with
  | false => exact h
  | true => simpa using h.neg

/-- A value of the format is not rounded. -/
theorem IsNearest.represents (h : x.IsNearest v) (hv : Representable v) : x.Represents v := by
  obtain ⟨negative, num, den, hd, rfl, rfl⟩ := h
  refine ⟨hv, ?_⟩
  rcases num.eq_zero_or_pos with rfl | hn
  · refine ⟨negative, 0, minExponent, rfl, ?_⟩
    cases negative <;> simp [signed]
  · have hx : (0 : ℚ) < num / den := div_pos (by exact_mod_cast hn) (by exact_mod_cast hd)
    obtain ⟨k, hk, below⟩ := hv.of_sign.exists_multiple hx
    obtain ⟨q, rounds, hq⟩ := ofRatio_shows hn hd
    have same : q = k := rounds.unique (hk ▸ roundsTo_natCast k)
    have value : (q : ℚ) * 2 ^ exponentOf (num / den) = num / den := by
      rw [same, ← hk, div_mul_cancel₀ _ (by positivity)]
    rw [value] at hq
    rw [ofRatio_eq_withSign]
    rcases hq with ⟨s, e, he, hv, -⟩ | ⟨-, above⟩
    · rw [he]
      refine ⟨negative, s, e, rfl, ?_⟩
      rw [← hv]
      cases negative <;> simp [signed]
    · exact absurd above below.not_ge

/-! ## Operations -/

theorem cast_signed (negative : Bool) (s : Nat) : (signed negative s : ℚ) = if negative then -(s : ℚ) else s := by
  cases negative <;> simp [signed]

theorem cast_eq_sign (m : ℤ) : (m : ℚ) = if decide (m < 0) then -(m.natAbs : ℚ) else m.natAbs := by
  cases m with
  | ofNat k => simp
  | negSucc k =>
    rw [decide_eq_true (Int.negSucc_lt_zero k)]
    simp

theorem isNearest_ofNat (n : Nat) : (ofNat n).IsNearest n :=
  ⟨false, n, 1, Nat.one_pos, by simp, rfl⟩

theorem isNearest_ofInt (n : ℤ) : (ofInt n).IsNearest n := by
  refine ⟨decide (n < 0), n.natAbs, 1, Nat.one_pos, ?_, rfl⟩
  rw [Nat.cast_one, div_one]
  exact cast_eq_sign n

theorem isNearest_ofScaled (negative : Bool) (hd : 0 < den) (e : ℤ) :
    (ofScaled negative num den e).IsNearest (if negative then -(num / den * 2 ^ e) else num / den * 2 ^ e) := by
  obtain ⟨num', den', hd', value, eq⟩ := ofScaled_eq negative num hd e
  exact ⟨negative, num', den', hd', by rw [value], eq⟩

theorem Represents.mul (hx : x.Represents v) (hy : y.Represents w) : (x * y).IsNearest (v * w) := by
  obtain ⟨-, n, s, e, rfl, rfl⟩ := hx
  obtain ⟨-, n', s', e', rfl, rfl⟩ := hy
  have value : (signed n s : ℚ) * 2 ^ e * (signed n' s' * 2 ^ e') =
      if n != n' then -(((s * s' : Nat) : ℚ) / (1 : Nat) * 2 ^ (e + e'))
      else ((s * s' : Nat) : ℚ) / (1 : Nat) * 2 ^ (e + e') := by
    rw [cast_signed, cast_signed, zpow_add₀ two_ne_zero]
    cases n <;> cases n' <;> simp <;> ring
  rw [value]
  exact isNearest_ofScaled _ Nat.one_pos _

theorem Represents.div (hx : x.Represents v) (hy : y.Represents w) (hw : w ≠ 0) : (x / y).IsNearest (v / w) := by
  obtain ⟨-, n, s, e, rfl, rfl⟩ := hx
  obtain ⟨-, n', s', e', rfl, rfl⟩ := hy
  have hs : s' ≠ 0 := by
    rintro rfl
    exact hw (by cases n' <;> simp [signed])
  have value : (signed n s : ℚ) * 2 ^ e / (signed n' s' * 2 ^ e') =
      if n != n' then -((s : ℚ) / s' * 2 ^ (e - e')) else (s : ℚ) / s' * 2 ^ (e - e') := by
    rw [cast_signed, cast_signed, zpow_sub₀ two_ne_zero]
    cases n <;> cases n' <;> simp <;> field_simp
  have quotient : (finite n s e / finite n' s' e' : Binary64) = ofScaled (n != n') s s' (e - e') := if_neg hs
  rw [value, quotient]
  exact isNearest_ofScaled _ (Nat.pos_of_ne_zero hs) _

theorem Represents.add (hx : x.Represents v) (hy : y.Represents w) : (x + y).IsNearest (v + w) := by
  obtain ⟨-, n, s, e, rfl, rfl⟩ := hx
  obtain ⟨-, n', s', e', rfl, rfl⟩ := hy
  -- both significands at the lesser exponent
  have aligned (n : Bool) (s : Nat) {e least : ℤ} (hle : least ≤ e) :
      (signed n (s <<< (e - least).toNat) : ℚ) * 2 ^ least = signed n s * 2 ^ e := by
    rw [cast_signed, cast_signed, cast_shiftLeft s (by omega), zpow_sub₀ two_ne_zero]
    cases n <;> simp <;> field_simp
  have total := congrArg₂ (· + ·) (aligned n s (min_le_left e e')) (aligned n' s' (min_le_right e e'))
  rw [← add_mul, ← Int.cast_add] at total
  have sum : (finite n s e + finite n' s' e' : Binary64) =
      let sum := signed n (s <<< (e - min e e').toNat) + signed n' (s' <<< (e' - min e e').toNat)
      if sum = 0 then zero (n && n') else ofScaled (decide (sum < 0)) sum.natAbs 1 (min e e') := rfl
  rw [sum, ← total]
  generalize signed n (s <<< (e - min e e').toNat) + signed n' (s' <<< (e' - min e e').toNat) = m
  dsimp only
  split
  next hm =>
    refine ⟨n && n', 0, 1, Nat.one_pos, ?_, rfl⟩
    simp [hm]
  next =>
    have value : (m : ℚ) * 2 ^ min e e' =
        if decide (m < 0) then -((m.natAbs : ℚ) / (1 : Nat) * 2 ^ min e e')
        else (m.natAbs : ℚ) / (1 : Nat) * 2 ^ min e e' := by
      rw [cast_eq_sign, Nat.cast_one, div_one]
      cases decide (m < 0) <;> simp
    rw [value]
    exact isNearest_ofScaled _ Nat.one_pos _

/-! ## The integer part -/

/-- A value without its fraction. -/
def towardZero (v : ℚ) : ℤ :=
  if 0 ≤ v then ⌊v⌋ else ⌈v⌉

/-- That is the integer part only of numbers that are not negative, and of whole numbers. -/
theorem towardZero_eq_floor_iff : towardZero v = ⌊v⌋ ↔ 0 ≤ v ∨ v = ⌊v⌋ := by
  unfold towardZero
  split
  next h => exact iff_of_true rfl (.inl h)
  next h =>
    constructor
    · intro same
      exact .inr (le_antisymm (same ▸ Int.le_ceil v) (Int.floor_le v))
    · intro whole
      rw [whole.resolve_left h, Int.ceil_intCast, Int.floor_intCast]

/-- Truncation is toward zero. -/
theorem truncate_finite (n : Bool) (s : Nat) (e lo hi : ℤ) :
    (finite n s e).truncate lo hi = max lo (min hi (towardZero (signed n s * 2 ^ e))) := by
  have nonneg : (0 : ℚ) ≤ s * 2 ^ e := by positivity
  have part : (if 0 ≤ e then s <<< e.toNat else s >>> (-e).toNat : Nat) = ⌊(s : ℚ) * 2 ^ e⌋ := by
    rw [shift_eq_floor, Int.natCast_floor_eq_floor nonneg]
  unfold truncate
  dsimp only
  congr 2
  rw [cast_signed]
  cases n with
  | false =>
    simp only [signed, Bool.false_eq_true, if_false]
    rw [towardZero, if_pos nonneg, part]
  | true =>
    simp only [signed, if_true, neg_mul]
    rw [part, ← Int.ceil_neg, towardZero]
    split
    next h =>
      have : (s : ℚ) * 2 ^ e = 0 := le_antisymm (by linarith) nonneg
      simp [this]
    next => rfl

theorem Represents.truncate_eq (hx : x.Represents v) (lo hi : ℤ) :
    x.truncate lo hi = max lo (min hi (towardZero v)) := by
  obtain ⟨-, n, s, e, rfl, rfl⟩ := hx
  exact truncate_finite n s e lo hi

/-! ## Quotients of whole numbers -/

/-- Rounding adds a half at most. -/
theorem RoundsTo.le_add_half {q : Nat} (h : RoundsTo v q) : (q : ℚ) ≤ v + 1 / 2 := by
  obtain ⟨num, den, hd, rfl, rfl⟩ := h
  have bound : 2 * roundHalfEven num den * den ≤ 2 * num + den := by
    have parts := Nat.div_add_mod num den
    unfold roundHalfEven
    dsimp only
    split
    next =>
      have := Nat.div_mul_le_self num den
      have : 2 * (num / den) * den = 2 * (num / den * den) := by ring
      omega
    next up =>
      have : den ≤ 2 * (num % den) := by omega
      nlinarith
  have hd' : (0 : ℚ) < den := by exact_mod_cast hd
  have bound : (2 : ℚ) * roundHalfEven num den * den ≤ 2 * num + den := by exact_mod_cast bound
  rw [div_add_div _ _ hd'.ne' two_ne_zero, le_div_iff₀ (by positivity)]
  linarith

/-- The unit at which a quotient is rounded is finer than its distance from the next whole number. -/
theorem lt_two_mul_unit {a c : Nat} (ha : 0 < a) (small : a < 2 ^ 53) (hc : 0 < c) (hc' : (c : ℚ) < 2 ^ (1024 : ℤ)) :
    exponentOf ((a : ℚ) / c) ≤ 0 ∧ (c : ℚ) < 2 * 2 ^ (-exponentOf ((a : ℚ) / c)) := by
  have hc₀ : (0 : ℚ) < c := by exact_mod_cast hc
  have one : (1 : ℚ) ≤ c := by exact_mod_cast hc
  have ha' : (a : ℚ) < 2 ^ (53 : ℤ) := by exact_mod_cast small
  have hx : (0 : ℚ) < a / c := div_pos (by exact_mod_cast ha) hc₀
  have less : (a : ℚ) / c < 2 ^ (53 : ℤ) := (div_le_self (by positivity) one).trans_lt ha'
  have log := (Int.lt_zpow_iff_log_lt Nat.one_lt_two hx).mp less
  refine ⟨by unfold exponentOf minExponent; omega, ?_⟩
  rw [← zpow_one_add₀ two_ne_zero]
  rcases max_choice (Int.log 2 ((a : ℚ) / c) - 52) minExponent with he | he
  · have below : (2 : ℚ) ^ Int.log 2 ((a : ℚ) / c) ≤ a / c := Int.zpow_log_le_self Nat.one_lt_two hx
    rw [le_div_iff₀ hc₀] at below
    unfold exponentOf
    rw [he, show 1 + -(Int.log 2 ((a : ℚ) / c) - 52) = 53 - Int.log 2 ((a : ℚ) / c) by ring, zpow_sub₀ two_ne_zero,
      lt_div_iff₀ (by positivity), mul_comm]
    exact below.trans_lt ha'
  · unfold exponentOf
    rw [he]
    exact hc'.trans_le (zpow_le_zpow_right₀ one_le_two (by decide))

/-- A quotient of whole numbers is not rounded up to a whole number. -/
theorem floor_rounded {a c q : Nat} (ha : 0 < a) (small : a < 2 ^ 53) (hc : 0 < c) (hc' : (c : ℚ) < 2 ^ (1024 : ℤ))
    (h : RoundsTo ((a : ℚ) / c / 2 ^ exponentOf ((a : ℚ) / c)) q) :
    ⌊(q : ℚ) * 2 ^ exponentOf ((a : ℚ) / c)⌋₊ = a / c := by
  obtain ⟨nonpos, fine⟩ := lt_two_mul_unit ha small hc hc'
  obtain ⟨u, hu⟩ : ∃ u : Nat, (2 : ℚ) ^ (-exponentOf ((a : ℚ) / c)) = u :=
    ⟨2 ^ (-exponentOf ((a : ℚ) / c)).toNat, by
      push_cast
      rw [← zpow_natCast (2 : ℚ), Int.toNat_of_nonneg (by omega)]⟩
  have unit : (2 : ℚ) ^ exponentOf ((a : ℚ) / c) = (u : ℚ)⁻¹ := by rw [← hu, zpow_neg, inv_inv]
  have hc₀ : (0 : ℚ) < c := by exact_mod_cast hc
  have hu₀ : (0 : ℚ) < u := by rw [← hu]; positivity
  rw [hu] at fine
  rw [unit, div_inv_eq_mul] at h
  rw [unit, ← div_eq_mul_inv, Nat.floor_div_eq_div]
  have parts := Nat.div_add_mod a c
  have rest := Nat.mod_lt a hc
  refine Nat.div_eq_of_lt_le ?_ ?_
  · refine (roundsTo_natCast (a / c * u)).mono h ?_
    rw [Nat.cast_mul]
    exact mul_le_mul_of_nonneg_right Nat.cast_div_le hu₀.le
  · have above : (a : ℚ) + 1 ≤ (a / c + 1 : Nat) * c := by
      have : a + 1 ≤ (a / c + 1) * c := by nlinarith
      exact_mod_cast this
    have half := h.le_add_half
    have : (q : ℚ) < ((a / c + 1) * u : Nat) := by
      rw [Nat.cast_mul]
      rw [div_mul_eq_mul_div] at half
      have scaled : (q : ℚ) * c ≤ a * u + c / 2 := by
        have := mul_le_mul_of_nonneg_right half hc₀.le
        rw [add_mul, div_mul_cancel₀ _ hc₀.ne'] at this
        linarith
      have : (q : ℚ) * c < ((a / c + 1 : Nat) * u) * c := by nlinarith
      exact lt_of_mul_lt_mul_right this hc₀.le
    exact_mod_cast this

/-- The quotient of whole numbers is cut where the exact one is. -/
theorem Represents.truncate_div {a c : Nat} (small : a < 2 ^ 53) (hy : y.Represents c) (hc : 0 < c) (lo hi : ℤ) :
    (ofNat a / y).truncate lo hi = max lo (min hi (a / c : Nat)) := by
  have hc₀ : (0 : ℚ) < c := by exact_mod_cast hc
  have nearest := ((isNearest_ofNat a).represents (representable_natCast small)).div hy hc₀.ne'
  rcases a.eq_zero_or_pos with rfl | ha
  · have exact : Representable (((0 : Nat) : ℚ) / c) := by simpa using representable_natCast (m := 0) (by decide)
    rw [(nearest.represents exact).truncate_eq, Nat.zero_div]
    simp [towardZero]
  · obtain ⟨negative, num, den, hd, value, quotient⟩ := nearest
    have hx : (0 : ℚ) < a / c := div_pos (by exact_mod_cast ha) hc₀
    obtain rfl : negative = false := by
      by_contra h
      rw [Bool.not_eq_false] at h
      have : (0 : ℚ) ≤ num / den := by positivity
      rw [value, h, if_pos rfl] at hx
      linarith
    rw [if_neg Bool.false_ne_true] at value
    have hn : 0 < num := by
      rcases num.eq_zero_or_pos with rfl | hn
      · simp [value] at hx
      · exact hn
    obtain ⟨q, rounds, shows⟩ := ofRatio_shows hn hd
    rw [← value] at rounds shows
    obtain ⟨-, -, below⟩ := hy.1.exists_multiple hc₀
    have whole := floor_rounded ha small hc below rounds
    have nonneg : (0 : ℚ) ≤ q * 2 ^ exponentOf ((a : ℚ) / c) := mul_nonneg q.cast_nonneg (zpow_nonneg zero_le_two _)
    rw [quotient]
    rcases shows with ⟨s, e, finite, same, -⟩ | ⟨-, above⟩
    · rw [finite, truncate_finite, signed, if_neg Bool.false_ne_true, Int.cast_natCast, same, towardZero,
        if_pos nonneg, ← Int.natCast_floor_eq_floor nonneg, whole]
    · have less := Nat.lt_floor_add_one ((q : ℚ) * 2 ^ exponentOf ((a : ℚ) / c))
      have most : ((a / c : Nat) : ℚ) ≤ 2 ^ 53 := by exact_mod_cast (Nat.div_le_self a c).trans small.le
      have large : (2 : ℚ) ^ 53 + 1 ≤ 2 ^ (1024 : ℤ) :=
        le_trans (by norm_num : (2 : ℚ) ^ 53 + 1 ≤ 2 ^ (54 : ℤ)) (zpow_le_zpow_right₀ one_le_two (by decide))
      rw [whole] at less
      exact absurd (above.trans_lt (less.trans_le ((add_le_add_left most 1).trans large))) (lt_irrefl _)

end WireGrammar.Binary64
