import Mathlib.Data.List.Sort
import WireGrammar.Proofs.DataType.Lengths

/-!
# Candidate lengths are complete

The candidates can also be found by a scan: clip the greatest length to what remains, round it down to the unit, go down
from there to the least length, and keep the multiples of the unit. Rounding takes no multiple away and clipping nothing
that fits, so the scan finds the same lengths in the same order (`scannedLengths_eq`), and no allowed length that fits
is left out (`candidate_lengths_complete`).
-/

namespace WireGrammar.DataType

/-- The numbers from `greatest` down to `least`. -/
def countDown (least greatest : Nat) : List Nat :=
  (List.range' least (greatest + 1 - least)).reverse

theorem mem_countDown {least greatest l : Nat} : l ∈ countDown least greatest ↔ least ≤ l ∧ l ≤ greatest := by
  rw [countDown, List.mem_reverse, List.mem_range'_1]
  omega

theorem countDown_pairwise (least greatest : Nat) : (countDown least greatest).Pairwise (· > ·) := by
  rw [countDown, List.pairwise_reverse]
  exact List.pairwise_lt_range'

/-- The multiples of a unit between two ends from the greatest down, by a scan that starts at the last one. -/
def scanDown (unit least greatest : Nat) : List Nat :=
  if greatest < least then []
  else (countDown least (greatest - greatest % unit)).filter (· % unit == 0)

/-- A multiple of the unit is not lost when an end is rounded down to the unit. -/
theorem le_roundedDown_iff {unit greatest l : Nat} (whole : l % unit = 0) :
    l ≤ greatest - greatest % unit ↔ l ≤ greatest := by
  constructor
  · exact fun h => Nat.le_trans h (Nat.sub_le _ _)
  · intro h
    have units : l / unit ≤ greatest / unit := Nat.div_le_div_right h
    calc l = unit * (l / unit) := (Nat.mul_div_cancel' (Nat.dvd_of_mod_eq_zero whole)).symm
      _ ≤ unit * (greatest / unit) := Nat.mul_le_mul_left unit units
      _ = greatest - greatest % unit := (Nat.sub_eq_of_eq_add (Nat.div_add_mod greatest unit).symm).symm

theorem mem_scanDown {unit least greatest l : Nat} :
    l ∈ scanDown unit least greatest ↔ least ≤ l ∧ l ≤ greatest ∧ l % unit = 0 := by
  unfold scanDown
  split
  next empty =>
    refine iff_of_false List.not_mem_nil ?_
    omega
  next =>
    rw [List.mem_filter, mem_countDown, beq_iff_eq, and_assoc]
    exact and_congr_right fun _ => and_congr_left le_roundedDown_iff

theorem scanDown_pairwise (unit least greatest : Nat) : (scanDown unit least greatest).Pairwise (· > ·) := by
  unfold scanDown
  split
  · exact List.Pairwise.nil
  · exact (countDown_pairwise _ _).filter _

/-- The candidate lengths by a scan. -/
def scannedLengths (t : DataType) (remaining : Nat) : List Nat :=
  match t.constant? with
  | some content => if content.length ≤ remaining then [content.length] else []
  | none => scanDown (max t.unit 1) t.bounds.1 (t.bounds.2.elim remaining (min · remaining))

/-- The scan finds what is computed unit by unit. -/
theorem scannedLengths_eq (t : DataType) (r : Nat) : t.scannedLengths r = t.candidateLengths r := by
  cases hc : t.constant? with
  | some content => simp only [scannedLengths, candidateLengths, hc]
  | none =>
    simp only [scannedLengths, candidateLengths, hc, Nat.max_eq_left t.unit_pos]
    refine (scanDown_pairwise _ _ _).eq_of_mem_iff (multiplesDown_pairwise t.unit_pos) fun l => ?_
    rw [mem_scanDown, mem_multiplesDown t.unit_pos]

/--
The candidate lengths of a type among so many remaining bits strictly decrease, and they are the lengths that the type
allows and that fit. A scan that clips, rounds down and filters finds the same list.
-/
theorem candidate_lengths_complete (t : DataType) (r : Nat) :
    (t.candidateLengths r).Pairwise (· > ·) ∧
    (∀ l, l ∈ t.candidateLengths r ↔ l ≤ r ∧ t.acceptsLength l = true) ∧
    t.scannedLengths r = t.candidateLengths r :=
  ⟨candidateLengths_pairwise r, fun _ => mem_candidateLengths, scannedLengths_eq t r⟩

end WireGrammar.DataType
