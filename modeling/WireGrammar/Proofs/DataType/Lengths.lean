import Mathlib.Data.List.Sort
import WireGrammar.DataType.Basic
import WireGrammar.Proofs.Bits.Sequence

/-!
# Lengths that a data type allows

The candidate lengths of a type among so many remaining bits are exactly the allowed lengths that fit, in descending
order (`mem_candidateLengths`, `candidateLengths_pairwise`, together `candidateLengths_eq`); whatever a type accepts
has an allowed length (`acceptsLength_of_accepts`), and that lies between the bounds of the type
(`acceptsLength_iff`).
-/

namespace WireGrammar

theorem BitString.length_ofBytes (bytes : List UInt8) : (BitString.ofBytes bytes).length = 8 * bytes.length := rfl

namespace DataType

variable {t : DataType}

/-- An allowed length is between the bounds and a multiple of the unit. -/
theorem acceptsLength_iff {l : Nat} :
    t.acceptsLength l = true ↔ t.bounds.1 ≤ l ∧ (∀ m ∈ t.bounds.2, l ≤ m) ∧ l % t.unit = 0 := by
  simp only [acceptsLength, Bool.and_eq_true, decide_eq_true_eq, beq_iff_eq, Option.all_eq_true, Option.mem_def,
    and_assoc]

theorem IntegerWidth.bits_mod (w : IntegerWidth) : w.bits % 8 = 0 := by
  cases w <;> rfl

theorem length_wordBits (n : UInt32) : (wordBits n).length = 32 := by
  simp [wordBits, BitString.length_ofBytes]

/-- The length of a fixed content is both bounds of its type, and a multiple of the unit. -/
theorem bounds_of_constant {c : BitString} (hc : t.constant? = some c) :
    t.bounds = (c.length, some c.length) ∧ c.length % t.unit = 0 := by
  have whole (n : Nat) : (8 * n) % 8 = 0 := Nat.mul_mod_right 8 n
  cases t with
  | raw allowed =>
    cases allowed with
    | only bytes =>
      cases hc
      rw [BitString.length_ofBytes]
      exact ⟨rfl, whole _⟩
    | within range => cases hc
  | ascii allowed =>
    cases allowed with
    | only text =>
      cases hc
      rw [BitString.length_ofBytes]
      exact ⟨rfl, whole _⟩
    | within range => cases hc
  | integer type =>
    simp only [constant?] at hc
    split at hc
    · cases hc
      rw [BitString.length_ofBytes, IntegerFormat.toBytes, Endianness.length_toBytes]
      exact ⟨rfl, whole _⟩
    · cases hc
  | bits allowed =>
    cases allowed with
    | only content =>
      cases hc
      exact ⟨rfl, Nat.mod_one _⟩
    | within range => cases hc
  | ipv4 fixed =>
    cases fixed with
    | none => cases hc
    | some address =>
      cases hc
      rw [BitString.length_ofBytes]
      exact ⟨rfl, whole _⟩
  | timestamp fixed =>
    cases fixed with
    | none => cases hc
    | some seconds =>
      cases hc
      rw [length_wordBits]
      exact ⟨rfl, whole 4⟩

/-- A type with a fixed content allows the length of that content and no other. -/
theorem acceptsLength_of_constant {c : BitString} (hc : t.constant? = some c) {l : Nat} :
    t.acceptsLength l = true ↔ l = c.length := by
  obtain ⟨both, multiple⟩ := bounds_of_constant hc
  rw [acceptsLength_iff, both]
  simp only [Option.mem_def, Option.some.injEq, forall_eq']
  constructor
  · rintro ⟨least, greatest, -⟩
    exact Nat.le_antisymm greatest least
  · rintro rfl
    exact ⟨Nat.le_refl _, Nat.le_refl _, multiple⟩

/-- The least length is allowed. -/
theorem acceptsLength_least (t : DataType) : t.acceptsLength t.bounds.1 = true := by
  have ranged {unit : Nat} {range : LengthRange} :
      (scaleRange unit range).1 ≤ range.least * unit ∧ (∀ m ∈ (scaleRange unit range).2, range.least * unit ≤ m) ∧
        range.least * unit % unit = 0 := by
    refine ⟨Nat.le_refl _, fun m hm => ?_, Nat.mul_mod_left _ _⟩
    obtain ⟨greatest, hg, rfl⟩ := Option.map_eq_some_iff.mp hm
    exact Nat.mul_le_mul_right unit (range.least_le greatest hg)
  cases hc : t.constant? with
  | some c =>
    obtain ⟨both, -⟩ := bounds_of_constant hc
    rw [acceptsLength_of_constant hc, both]
  | none =>
    rw [acceptsLength_iff]
    cases t with
    | integer type => exact ⟨Nat.le_refl _, by rintro _ ⟨⟩; exact Nat.le_refl _, IntegerWidth.bits_mod _⟩
    | ipv4 | timestamp => exact ⟨Nat.le_refl _, by rintro _ ⟨⟩; exact Nat.le_refl _, Nat.mul_mod_right 8 4⟩
    | raw allowed | ascii allowed | bits allowed =>
      cases allowed with
      | only content => cases hc
      | within range => exact ranged

/-- A content that the type accepts has an allowed length. -/
theorem acceptsLength_of_accepts {c : BitString} (h : t.accepts c = true) : t.acceptsLength c.length = true := by
  cases t with
  | integer type =>
    simp only [accepts, Bool.and_eq_true, beq_iff_eq] at h
    rw [acceptsLength_iff]
    simp only [bounds, unit, h.1.1, Option.mem_def, Option.some.injEq, forall_eq']
    exact ⟨Nat.le_refl _, Nat.le_refl _, IntegerWidth.bits_mod _⟩
  | raw | ascii | bits | ipv4 | timestamp =>
    simp only [accepts, Bool.and_eq_true] at h
    simp only [h]

theorem unit_pos (t : DataType) : 0 < t.unit := by
  cases t <;> simp [unit]

/-- So many units behind the least length there is an allowed one. -/
theorem acceptsLength_of_units (t : DataType) {greatest k : Nat} (hg : ∀ m ∈ t.bounds.2, greatest = m)
    (hk : k ≤ (greatest - t.bounds.1) / t.unit) : t.acceptsLength (t.bounds.1 + k * t.unit) := by
  obtain ⟨-, least, whole⟩ := acceptsLength_iff.mp t.acceptsLength_least
  refine acceptsLength_iff.mpr ⟨Nat.le_add_right _ _, fun m hm => ?_, by rw [Nat.add_mul_mod_self_right, whole]⟩
  obtain rfl := hg m hm
  have fits := Nat.le_trans (Nat.mul_le_mul_right t.unit hk) (Nat.div_mul_le_self _ _)
  have := least greatest hm
  omega

theorem mem_multiplesDown {unit least greatest l : Nat} (hu : 0 < unit) :
    l ∈ multiplesDown unit least greatest ↔ least ≤ l ∧ l ≤ greatest ∧ l % unit = 0 := by
  simp only [multiplesDown, List.mem_filter, List.mem_reverse, List.mem_map, List.mem_range, decide_eq_true_eq]
  constructor
  · rintro ⟨⟨k, hk, rfl⟩, hl⟩
    have : k * unit ≤ greatest := (Nat.le_div_iff_mul_le hu).mp (by omega)
    exact ⟨hl, by rwa [Nat.mul_comm], Nat.mul_mod_right _ _⟩
  · rintro ⟨h₁, h₂, h₃⟩
    refine ⟨⟨l / unit, ?_, Nat.mul_div_cancel' (Nat.dvd_of_mod_eq_zero h₃)⟩, h₁⟩
    have := Nat.div_le_div_right (c := unit) h₂
    omega

theorem multiplesDown_pairwise {unit least greatest : Nat} (hu : 0 < unit) :
    (multiplesDown unit least greatest).Pairwise (· > ·) := by
  apply List.Pairwise.filter
  rw [List.pairwise_reverse, List.pairwise_map]
  exact List.pairwise_lt_range.imp fun h => Nat.mul_lt_mul_of_pos_left h hu

theorem mem_candidateLengths {r l : Nat} : l ∈ t.candidateLengths r ↔ l ≤ r ∧ t.acceptsLength l = true := by
  unfold candidateLengths
  split
  next c hc =>
    rw [acceptsLength_of_constant hc]
    split
    next h =>
      simp only [List.mem_singleton]
      exact ⟨fun e => ⟨e ▸ h, e⟩, And.right⟩
    next h =>
      simp only [List.not_mem_nil, false_iff, not_and]
      rintro hl rfl
      exact h hl
  next =>
    rw [mem_multiplesDown t.unit_pos, acceptsLength_iff]
    cases t.bounds.2 with
    | none => simp; tauto
    | some m => simp; tauto

theorem candidateLengths_pairwise (r : Nat) : (t.candidateLengths r).Pairwise (· > ·) := by
  unfold candidateLengths
  split
  · split <;> simp
  · exact multiplesDown_pairwise t.unit_pos

/-- The candidate lengths are the allowed ones among all lengths that fit, taken from the longest down. -/
theorem candidateLengths_eq (r : Nat) :
    t.candidateLengths r = (List.range (r + 1)).reverse.filter t.acceptsLength := by
  apply (candidateLengths_pairwise r).eq_of_mem_iff
  · apply List.Pairwise.filter
    rw [List.pairwise_reverse]
    exact List.pairwise_lt_range
  · intro l
    rw [mem_candidateLengths, List.mem_filter, List.mem_reverse, List.mem_range, Nat.lt_succ_iff]

end DataType

end WireGrammar
