import Mathlib.Data.Set.Function
import Mathlib.Dynamics.PeriodicPts.Lemmas
import WireGrammar.Mutation

/-!
# The shift register never degenerates

A step of the register combines the word three times with a shift of itself. Doing so twice with one shift is doing it
once with twice the places (`mixed_mixed`), and a shift by as many places as the word has bits leaves nothing to combine
with. So a power of the operation is the identity (`iterate_mixed_eq_id`), and every step can be taken back
(`xorshiftStep_bijective`). Zero is the one word that leads to zero, hence a register that does not start there never
gets there, never meets another one, and comes back to its first word (`shift_register_sound`).

* `bringBetween_mem`: a word is brought between two bounds, also where they are those of all words.
* `toNat_wordBetween`: in the arithmetic of words nothing overflows on the way.
-/

namespace WireGrammar

/-! ## A word and a shift of itself -/

section Mixing

variable {w : Nat} {shift : BitVec w → Nat → BitVec w}

/-- Shifts in one direction: they add up, keep exclusive or, and push all bits out in the end. -/
structure IsShift (shift : BitVec w → Nat → BitVec w) : Prop where
  xor : ∀ x y a, shift (x ^^^ y) a = shift x a ^^^ shift y a
  add : ∀ x a b, shift x (a + b) = shift (shift x a) b
  eq_zero : ∀ x a, w ≤ a → shift x a = 0#w

theorem isShift_left : IsShift fun (x : BitVec w) a => x <<< a :=
  ⟨BitVec.shiftLeft_xor_distrib, BitVec.shiftLeft_add, fun _ _ => BitVec.shiftLeft_eq_zero⟩

theorem isShift_right : IsShift fun (x : BitVec w) a => x >>> a :=
  ⟨BitVec.ushiftRight_xor_distrib, BitVec.shiftRight_add, fun _ _ => BitVec.ushiftRight_eq_zero⟩

/-- The exclusive or of a word and a shift of itself. -/
def mixed (shift : BitVec w → Nat → BitVec w) (a : Nat) (x : BitVec w) : BitVec w :=
  x ^^^ shift x a

/-- The two words that are shifted once cancel each other. -/
theorem mixed_mixed (h : IsShift shift) (a : Nat) (x : BitVec w) :
    mixed shift a (mixed shift a x) = mixed shift (2 * a) x :=
  calc x ^^^ shift x a ^^^ shift (x ^^^ shift x a) a
    _ = x ^^^ shift x a ^^^ (shift x a ^^^ shift (shift x a) a) := by rw [h.xor]
    _ = x ^^^ (shift x a ^^^ shift x a) ^^^ shift (shift x a) a := by simp only [BitVec.xor_assoc]
    _ = x ^^^ shift x (2 * a) := by rw [BitVec.xor_self, BitVec.xor_zero, ← h.add, Nat.two_mul]

theorem iterate_mixed (h : IsShift shift) (a k : Nat) :
    (mixed shift a)^[Word.count k] = mixed shift (Word.count k * a) := by
  induction k with
  | zero => rw [Word.count_zero, Function.iterate_one, Nat.one_mul]
  | succ k ih =>
    rw [Word.count_succ, Nat.two_mul, Function.iterate_add, ih, ← Nat.two_mul, Nat.mul_assoc]
    exact funext (mixed_mixed h _)

/-- As soon as a shift pushes all bits out, nothing is left to combine with. -/
theorem iterate_mixed_eq_id (h : IsShift shift) {a : Nat} (pos : 0 < a) : (mixed shift a)^[Word.count w] = id := by
  have all : w ≤ Word.count w * a := Nat.le_trans Nat.lt_two_pow_self.le (Nat.le_mul_of_pos_right _ pos)
  funext x
  rw [iterate_mixed h, mixed, h.eq_zero x _ all, BitVec.xor_zero, id]

theorem mixed_bijective (h : IsShift shift) {a : Nat} (pos : 0 < a) : Function.Bijective (mixed shift a) := by
  obtain ⟨n, hn⟩ := Nat.exists_eq_add_of_lt (Word.count_pos w)
  have back := iterate_mixed_eq_id h pos
  rw [hn, Nat.zero_add] at back
  constructor
  · rw [Function.iterate_succ] at back
    exact Function.Injective.of_comp (back ▸ Function.injective_id)
  · rw [Function.iterate_succ'] at back
    exact Function.Surjective.of_comp (back ▸ Function.surjective_id)

end Mixing

namespace NumberSource

/-! ## The step -/

theorem toBitVec_xorshiftStep (x : UInt64) :
    (xorshiftStep x).toBitVec =
      mixed (fun x a => x <<< a) 17 (mixed (fun x a => x >>> a) 7 (mixed (fun x a => x <<< a) 13 x.toBitVec)) := by
  simp [xorshiftStep, mixed]

/-- Three steps that can be taken back, one after the other. -/
theorem xorshiftStep_bijective : Function.Bijective xorshiftStep := by
  have words : Function.Bijective UInt64.toBitVec :=
    ⟨fun _ _ => UInt64.toBitVec_inj.mp, fun x => ⟨.ofBitVec x, rfl⟩⟩
  have left {a : Nat} (pos : 0 < a) : Function.Bijective (mixed (fun (x : BitVec 64) a => x <<< a) a) :=
    mixed_bijective isShift_left pos
  have right : Function.Bijective (mixed (fun (x : BitVec 64) a => x >>> a) 7) :=
    mixed_bijective isShift_right (by decide)
  have step : UInt64.toBitVec ∘ xorshiftStep = _ := funext toBitVec_xorshiftStep
  rw [← words.of_comp_iff' xorshiftStep, step]
  exact (left (by decide)).comp (right.comp ((left (by decide)).comp words))

theorem xorshiftStep_zero : xorshiftStep 0 = 0 := by decide

/-- Zero leads to itself, so the other words lead to one another. -/
theorem xorshiftStep_bijOn : Set.BijOn xorshiftStep {x | x ≠ 0} {x | x ≠ 0} := by
  have zero_iff (x : UInt64) : xorshiftStep x = 0 ↔ x = 0 := by
    rw [← xorshiftStep_bijective.injective.eq_iff (a := x), xorshiftStep_zero]
  refine ⟨fun x hx => mt (zero_iff x).mp hx, xorshiftStep_bijective.injective.injOn, fun y hy => ?_⟩
  obtain ⟨x, rfl⟩ := xorshiftStep_bijective.surjective y
  exact ⟨x, mt (zero_iff x).mpr hy, rfl⟩

/-- A word comes back after some number of steps. -/
theorem exists_iterate_xorshiftStep (x : UInt64) : ∃ period, 0 < period ∧ xorshiftStep^[period] x = x := by
  have finite : Finite UInt64 := Finite.of_injective UInt64.toFin fun _ _ => UInt64.toFin_inj.mp
  exact Function.mem_periodicPts.mp (xorshiftStep_bijective.injective.mem_periodicPts x)

/-! ## The bounds -/

/-- A word is brought between the bounds; where these are the bounds of all words it stays as it is. -/
theorem bringBetween_mem {lo hi : Nat} (h : lo ≤ hi) (top : hi < Word.count 64) (x : UInt64) :
    lo ≤ bringBetween lo hi x ∧ bringBetween lo hi x ≤ hi := by
  have small := x.toNat_lt
  change hi < 18446744073709551616 at top
  have below : x.toNat % (hi - lo + 1) < hi - lo + 1 := Nat.mod_lt _ (Nat.succ_pos _)
  unfold bringBetween
  split
  next whole =>
    change _ = 18446744073709551615 at whole
    omega
  next => omega

/-- A word brought between two bounds in the arithmetic of words, in which the span of all words has no successor. -/
def wordBetween (lo hi x : UInt64) : UInt64 :=
  if hi - lo = 0xffffffffffffffff then x else lo + x % (hi - lo + 1)

/-- In the arithmetic of words nothing overflows. -/
theorem toNat_wordBetween {lo hi : UInt64} (h : lo ≤ hi) (x : UInt64) :
    (wordBetween lo hi x).toNat = bringBetween lo.toNat hi.toNat x := by
  have span : (hi - lo).toNat = hi.toNat - lo.toNat := UInt64.toNat_sub_of_le hi lo h
  have ordered : lo.toNat ≤ hi.toNat := UInt64.le_iff_toNat_le.mp h
  have top := hi.toNat_lt
  have all : hi - lo = 0xffffffffffffffff ↔ hi.toNat - lo.toNat = Word.count 64 - 1 := by
    rw [← UInt64.toNat_inj, span]
    rfl
  unfold wordBetween bringBetween
  by_cases whole : hi - lo = 0xffffffffffffffff
  · rw [if_pos whole, if_pos (all.mp whole)]
  · rw [if_neg whole, if_neg (mt all.mpr whole)]
    have room : hi.toNat - lo.toNat + 1 < Word.count 64 := by
      have other := mt all.mpr whole
      change ¬ _ = 18446744073709551615 at other
      change _ < 18446744073709551616
      omega
    have next : (hi - lo + 1).toNat = hi.toNat - lo.toNat + 1 := by
      rw [UInt64.toNat_add, span]
      exact Nat.mod_eq_of_lt room
    have below : x.toNat % (hi.toNat - lo.toNat + 1) < hi.toNat - lo.toNat + 1 := Nat.mod_lt _ (Nat.succ_pos _)
    rw [UInt64.toNat_add, UInt64.toNat_mod, next]
    exact Nat.mod_eq_of_lt (by omega)

theorem toNat_min (lo hi : UInt64) : (min lo hi).toNat = min lo.toNat hi.toNat := by
  change (ite (lo ≤ hi) lo hi).toNat = _
  split
  next h => exact (Nat.min_eq_left (UInt64.le_iff_toNat_le.mp h)).symm
  next h => exact (Nat.min_eq_right (Nat.le_of_not_le (mt UInt64.le_iff_toNat_le.mpr h))).symm

theorem toNat_max (lo hi : UInt64) : (max lo hi).toNat = max lo.toNat hi.toNat := by
  change (ite (lo ≤ hi) hi lo).toNat = _
  split
  next h => exact (Nat.max_eq_right (UInt64.le_iff_toNat_le.mp h)).symm
  next h => exact (Nat.max_eq_left (Nat.le_of_not_le (mt UInt64.le_iff_toNat_le.mpr h))).symm

/-! ## Runs -/

/-- The source behind its first `n` numbers. -/
def after (source : NumberSource) : Nat → NumberSource
  | 0 => source
  | n + 1 => (source.after n).next.2

theorem after_xorshift (state : UInt64) (lo hi n : Nat) :
    (xorshift state lo hi).after n = xorshift (xorshiftStep^[n] state) lo hi := by
  induction n with
  | zero => rfl
  | succ n ih => rw [after, ih, Function.iterate_succ_apply']; rfl

/-- A seed starts a register that is not zero. -/
theorem xorshiftOf_eq (seed lo hi : Nat) :
    ∃ state, state ≠ 0 ∧ xorshiftOf seed lo hi = xorshift state (min lo hi) (max lo hi) := by
  refine ⟨_, ?_, rfl⟩
  split
  next => decide
  next nonzero => exact nonzero

/--
The shift register does not degenerate. Whatever the seed and the bounds, also where the lower one is given second or
all words lie between them, its state is never zero, and each number lies between the bounds and is what the arithmetic
of words gives. A step permutes the words that are not zero, so two states never become one, and the numbers repeat from
the first one on.
-/
theorem shift_register_sound (seed lo hi : UInt64) :
    (∀ n, ∃ state value, state ≠ 0 ∧
      (xorshiftOf seed.toNat lo.toNat hi.toNat).after n =
        xorshift state (min lo.toNat hi.toNat) (max lo.toNat hi.toNat) ∧
      ((xorshiftOf seed.toNat lo.toNat hi.toNat).after n).next.1 = .ok value ∧
      min lo.toNat hi.toNat ≤ value ∧ value ≤ max lo.toNat hi.toNat ∧
      value = (wordBetween (min lo hi) (max lo hi) (xorshiftStep state)).toNat) ∧
    Set.BijOn xorshiftStep {x | x ≠ 0} {x | x ≠ 0} ∧
    (∀ n, Function.Injective xorshiftStep^[n]) ∧
    ∃ period, 0 < period ∧ ∀ n, (xorshiftOf seed.toNat lo.toNat hi.toNat).after (n + period) =
      (xorshiftOf seed.toNat lo.toNat hi.toNat).after n := by
  obtain ⟨first, nonzero, start⟩ := xorshiftOf_eq seed.toNat lo.toNat hi.toNat
  refine ⟨fun n => ?_, xorshiftStep_bijOn, xorshiftStep_bijective.injective.iterate, ?_⟩
  · have ordered : min lo.toNat hi.toNat ≤ max lo.toNat hi.toNat := by omega
    have top : max lo.toNat hi.toNat < Word.count 64 := Nat.max_lt.mpr ⟨lo.toNat_lt, hi.toNat_lt⟩
    obtain ⟨least, greatest⟩ := bringBetween_mem ordered top (xorshiftStep (xorshiftStep^[n] first))
    have words : min lo hi ≤ max lo hi := by rwa [UInt64.le_iff_toNat_le, toNat_min, toNat_max]
    have computed := toNat_wordBetween words (xorshiftStep (xorshiftStep^[n] first))
    rw [toNat_min, toNat_max] at computed
    rw [start, after_xorshift]
    exact ⟨_, _, xorshiftStep_bijOn.mapsTo.iterate n nonzero, rfl, rfl, least, greatest, computed.symm⟩
  · obtain ⟨period, pos, back⟩ := exists_iterate_xorshiftStep first
    refine ⟨period, pos, fun n => ?_⟩
    rw [start, after_xorshift, after_xorshift, Function.iterate_add_apply, back]

end NumberSource

end WireGrammar
