import Mathlib.Data.List.Basic
import WireGrammar.Bits

/-!
# Bit strings as lists of bits

`BitString.toList` determines a bit string (`toList_injective`), and turns its operations into those of lists:
`toList_append`, `toList_concat`, `toList_slice`. Laws of bit strings are read off from lists here once, so that later
modules can join and cut bit strings without looking at bits.
-/

namespace WireGrammar.BitString

theorem getElem_toList (b : BitString) {i : Nat} (h : i < b.toList.length) : b.toList[i] = b.get i := by
  simp [toList]

/-- A bit string is the list of its bits. -/
theorem toList_injective {a b : BitString} (h : a.toList = b.toList) : a = b := by
  have hl : a.length = b.length := by rw [← length_toList, h, length_toList]
  refine ext_get hl fun i hi => ?_
  rw [← getElem_toList a (by simpa using hi), ← getElem_toList b (by simpa [← hl] using hi)]
  simp only [h]

@[simp] theorem toList_empty : (empty : BitString).toList = [] := rfl

@[simp] theorem length_empty : (empty : BitString).length = 0 := rfl

theorem isEmpty_iff {b : BitString} : b.isEmpty = true ↔ b = empty := by
  constructor
  · intro h
    apply toList_injective
    rw [toList_empty, List.eq_nil_iff_length_eq_zero, length_toList]
    simpa [isEmpty] using h
  · rintro rfl
    rfl

theorem eq_empty_of_length {b : BitString} (h : b.length = 0) : b = empty :=
  isEmpty_iff.mp (by simpa [isEmpty] using h)

@[simp] theorem toList_append (a b : BitString) : (a ++ b).toList = a.toList ++ b.toList := by
  apply List.ext_getElem (by simp)
  intro i h₁ h₂
  rw [getElem_toList, get_append, List.getElem_append]
  simp only [length_toList, getElem_toList]
  split <;> rfl

@[simp] theorem toList_ofList (bits : List Bool) : (ofList bits).toList = bits := by
  apply List.ext_getElem (by simp)
  intro i h₁ h₂
  rw [getElem_toList, ofList, get_ofFn]
  simp [h₂, Array.getD]

@[simp] theorem ofList_toList (b : BitString) : ofList b.toList = b :=
  toList_injective (toList_ofList _)

@[simp] theorem toList_slice (b : BitString) (start stop : Nat) :
    (b.slice start stop).toList = (b.toList.take stop).drop start := by
  apply List.ext_getElem
  · simp only [length_toList, length_slice, List.length_drop, List.length_take]
    omega
  · intro i h₁ h₂
    rw [getElem_toList, get_slice]
    simp only [length_toList] at h₁
    simp only [h₁, decide_true, Bool.true_and, List.getElem_drop, List.getElem_take, getElem_toList]

@[simp] theorem empty_append (b : BitString) : empty ++ b = b :=
  toList_injective (by simp)

@[simp] theorem append_empty (b : BitString) : b ++ empty = b :=
  toList_injective (by simp)

theorem append_assoc (a b c : BitString) : a ++ b ++ c = a ++ (b ++ c) :=
  toList_injective (by simp)

/-- Two bit strings that start a sequence at the same place, as far as the same length. -/
theorem append_inj {a b c d : BitString} (h : a ++ b = c ++ d) (hl : a.length = c.length) : a = c ∧ b = d := by
  have h := congrArg toList h
  simp only [toList_append] at h
  obtain ⟨h₁, h₂⟩ := List.append_inj h (by simpa using hl)
  exact ⟨toList_injective h₁, toList_injective h₂⟩

theorem toList_foldl_append (parts : List BitString) (b : BitString) :
    (parts.foldl (· ++ ·) b).toList = b.toList ++ parts.flatMap toList := by
  induction parts generalizing b with
  | nil => simp
  | cons p parts ih => simp [ih]

@[simp] theorem toList_concat (parts : List BitString) : (concat parts).toList = parts.flatMap toList := by
  rw [concat, toList_foldl_append, toList_empty, List.nil_append]

@[simp] theorem concat_nil : concat [] = empty := rfl

@[simp] theorem concat_cons (b : BitString) (parts : List BitString) : concat (b :: parts) = b ++ concat parts :=
  toList_injective (by simp)

@[simp] theorem concat_append (xs ys : List BitString) : concat (xs ++ ys) = concat xs ++ concat ys :=
  toList_injective (by simp)

theorem length_slice_of_le (b : BitString) {start stop : Nat} (h : start ≤ stop) (hb : stop ≤ b.length) :
    (b.slice start stop).length = stop - start := by
  rw [length_slice]
  omega

@[simp] theorem slice_self (b : BitString) (start : Nat) : b.slice start start = empty := by
  apply eq_empty_of_length
  rw [length_slice]
  omega

@[simp] theorem slice_length (b : BitString) : b.slice 0 b.length = b := by
  apply toList_injective
  rw [toList_slice, List.drop_zero, ← length_toList, List.take_length]

/-- Neighbouring slices make up one. -/
theorem slice_append_slice (b : BitString) {start middle stop : Nat} (h₁ : start ≤ middle) (h₂ : middle ≤ stop) :
    b.slice start middle ++ b.slice middle stop = b.slice start stop := by
  apply toList_injective
  simp only [toList_append, toList_slice]
  have h : b.toList.take middle = (b.toList.take stop).take middle := by rw [List.take_take, Nat.min_eq_left h₂]
  rw [h]
  have hd : (b.toList.take stop).drop start
      = ((b.toList.take stop).take middle).drop start ++ (b.toList.take stop).drop middle := by
    conv_lhs => rw [← List.take_append_drop middle (b.toList.take stop)]
    rw [List.drop_append]
    by_cases hm : middle ≤ (b.toList.take stop).length
    · have : start - ((b.toList.take stop).take middle).length = 0 := by
        rw [List.length_take]; omega
      rw [this, List.drop_zero]
    · rw [List.drop_eq_nil_of_le (by omega : (b.toList.take stop).length ≤ middle), List.drop_nil]
  exact hd.symm

/-- Bit strings are compared by their buffers. -/
theorem eq_iff_bytes {a b : BitString} : a = b ↔ a.bytes = b.bytes ∧ a.length = b.length := by
  constructor
  · rintro rfl
    exact ⟨rfl, rfl⟩
  · rintro ⟨hb, hl⟩
    cases a
    cases b
    simp_all

/-- The bytes of a slice on byte boundaries are those of the buffer. -/
theorem bytes_slice_of_aligned {b : BitString} {start length : Nat} (hs : start % 8 = 0) (hl : length % 8 = 0)
    (h : start + length ≤ b.length) :
    (b.slice start (start + length)).bytes = b.bytes.extract (start / 8) (start / 8 + length / 8) := by
  have stop : min (start + length) b.length = start + length := Nat.min_eq_left h
  have from_start : min start (start + length) = start := by omega
  have last : (start + length + 7) / 8 = start / 8 + length / 8 := by omega
  have span : start + length - start = length := by omega
  simp only [slice, stop, from_start, hs, dite_true, last, span, clearTail, hl, if_true]

/-- Bits occur at an offset when they are cut out there. -/
theorem matchesAt_iff {b data : BitString} {offset : Nat} :
    b.matchesAt data offset = true ↔
      offset + b.length ≤ data.length ∧ data.slice offset (offset + b.length) = b := by
  by_cases fit : offset + b.length ≤ data.length
  · have length : (data.slice offset (offset + b.length)).length = b.length := by
      rw [length_slice]
      omega
    rw [matchesAt, if_neg (Nat.not_lt.mpr fit)]
    split
    next whole =>
      obtain ⟨ho, hb⟩ : offset % 8 = 0 ∧ b.length % 8 = 0 := by simpa [isAligned] using whole
      have size : b.bytes.size = b.length / 8 := by rw [b.size_bytes]; omega
      rw [eq_iff_bytes, bytes_slice_of_aligned ho hb fit, beq_iff_eq, size]
      exact ⟨fun h => ⟨fit, h, length⟩, fun h => h.2.1⟩
    next =>
      simp only [List.all_eq_true, List.mem_range, beq_iff_eq]
      constructor
      · intro same
        refine ⟨fit, ext_get length fun i hi => ?_⟩
        rw [get_slice, decide_eq_true hi, Bool.true_and, same i (length ▸ hi)]
      · rintro ⟨-, cut⟩ i hi
        have bit := congrArg (get · i) cut
        rw [get_slice, decide_eq_true (length.symm ▸ hi), Bool.true_and] at bit
        exact bit.symm
  · rw [matchesAt, if_pos (Nat.lt_of_not_le fit)]
    exact ⟨fun h => absurd h Bool.false_ne_true, fun h => absurd h.1 fit⟩

end WireGrammar.BitString
