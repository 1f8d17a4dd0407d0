/-!
# Bits of a byte buffer

Bits are counted through a buffer of bytes, eight to a byte, the most significant one first.

* `bitAt_setBitAt`: setting a bit by its mask changes that bit and no other.
* `bitAt_clearTail`: clearing the tail of a buffer keeps the bits before the length and leaves zeros behind it.
* `bitAt_append_left`, `bitAt_append_right`, `bitAt_extract`: where the bits of joined and of cut buffers come from.
-/

namespace WireGrammar

/-- Bit `i` of a buffer, counted from the most significant bit of its first byte; false behind the end. -/
def bitAt (bytes : Array UInt8) (i : Nat) : Bool :=
  (bytes[i / 8]?.getD 0).toNat.testBit (7 - i % 8)

/-- The byte whose bits, most significant first, are `f 0`, …, `f 7`. -/
def byteOfBits (f : Nat → Bool) : UInt8 :=
  let step (n : Nat) (i : Nat) : Nat := 2 * n + (f i).toNat
  UInt8.ofNat (step (step (step (step (step (step (step (step 0 0) 1) 2) 3) 4) 5) 6) 7)

theorem bitAt_of_size_le {bytes : Array UInt8} {i : Nat} (h : bytes.size ≤ i / 8) : bitAt bytes i = false := by
  simp [bitAt, Array.getElem?_eq_none h]

theorem testBit_byteOfBits (f : Nat → Bool) (j : Nat) (h : j < 8) :
    (byteOfBits f).toNat.testBit (7 - j) = f j := by
  have all : ∀ a b c d e k l m : Bool, ∀ j : Fin 8,
      (byteOfBits fun i => [a, b, c, d, e, k, l, m].getD i false).toNat.testBit (7 - j) =
        [a, b, c, d, e, k, l, m].getD j false := by decide +kernel
  have same : byteOfBits f =
      byteOfBits fun i => [f 0, f 1, f 2, f 3, f 4, f 5, f 6, f 7].getD i false := rfl
  rw [same, all (f 0) (f 1) (f 2) (f 3) (f 4) (f 5) (f 6) (f 7) ⟨j, h⟩]
  match j, h with
  | 0, _ | 1, _ | 2, _ | 3, _ | 4, _ | 5, _ | 6, _ | 7, _ => rfl

/-- The byte whose only bit is bit `j`, counted from the most significant one. -/
def bitMask (j : Nat) : UInt8 :=
  0x80 >>> UInt8.ofNat j

/-- The buffer with its bit `i` set to `bit`. -/
def setBitAt (bytes : Array UInt8) (i : Nat) (bit : Bool) : Array UInt8 :=
  bytes.modify (i / 8) fun byte => if bit then byte ||| bitMask (i % 8) else byte &&& ~~~bitMask (i % 8)

/-- The buffer of `length` bits with the bits of its last byte behind them cleared. -/
def clearTail (bytes : Array UInt8) (length : Nat) : Array UInt8 :=
  if length % 8 = 0 then bytes
  else bytes.modify (bytes.size - 1) fun byte => byte &&& (0xff <<< UInt8.ofNat (8 - length % 8))

theorem testBit_bitMask {i j : Nat} (hi : i < 8) (hj : j < 8) :
    (bitMask i).toNat.testBit (7 - j) = decide (i = j) := by
  have all : ∀ i j : Fin 8, (bitMask i).toNat.testBit (7 - j) = decide (i = j) := by decide
  simpa [Fin.ext_iff] using all ⟨i, hi⟩ ⟨j, hj⟩

theorem testBit_complement_bitMask {i j : Nat} (hi : i < 8) (hj : j < 8) :
    (~~~bitMask i).toNat.testBit (7 - j) = decide (i ≠ j) := by
  have all : ∀ i j : Fin 8, (~~~bitMask i).toNat.testBit (7 - j) = decide (i ≠ j) := by decide
  simpa [Fin.ext_iff] using all ⟨i, hi⟩ ⟨j, hj⟩

theorem testBit_tailMask {r j : Nat} (hr : r < 8) (hj : j < 8) (pos : 0 < r) :
    ((0xff : UInt8) <<< UInt8.ofNat (8 - r)).toNat.testBit (7 - j) = decide (j < r) := by
  have all : ∀ r j : Fin 8, 0 < r.val →
      ((0xff : UInt8) <<< UInt8.ofNat (8 - r)).toNat.testBit (7 - j) = decide (j < r) := by decide
  simpa [Fin.lt_def] using all ⟨r, hr⟩ ⟨j, hj⟩ pos

@[simp] theorem size_setBitAt (bytes : Array UInt8) (i : Nat) (bit : Bool) :
    (setBitAt bytes i bit).size = bytes.size := by
  simp [setBitAt]

theorem bitAt_setBitAt {bytes : Array UInt8} {i : Nat} (h : i / 8 < bytes.size) (bit : Bool) (j : Nat) :
    bitAt (setBitAt bytes i bit) j = if j = i then bit else bitAt bytes j := by
  rw [bitAt, bitAt, setBitAt, Array.getElem?_modify]
  by_cases same : i / 8 = j / 8
  · have hi : i % 8 < 8 := Nat.mod_lt _ (by decide)
    have hj : j % 8 < 8 := Nat.mod_lt _ (by decide)
    have at_iff : j = i ↔ i % 8 = j % 8 := by omega
    have mask := testBit_bitMask hi hj
    have complement := testBit_complement_bitMask hi hj
    rw [if_pos same, ← same, Array.getElem?_eq_getElem h]
    simp only [Option.map_some, Option.getD_some, at_iff]
    cases bit
    · simp only [Bool.false_eq_true, if_false, UInt8.toNat_and, Nat.testBit_and, complement]
      by_cases here : i % 8 = j % 8 <;> simp [here]
    · simp only [if_true, UInt8.toNat_or, Nat.testBit_or, mask]
      by_cases here : i % 8 = j % 8 <;> simp [here]
  · rw [if_neg same, if_neg (by rintro rfl; exact same rfl)]

theorem bitAt_push_zero (bytes : Array UInt8) (i : Nat) : bitAt (bytes.push 0) i = bitAt bytes i := by
  simp only [bitAt, Array.getElem?_push]
  split
  next h => simp [h]
  next h => rfl

@[simp] theorem size_clearTail (bytes : Array UInt8) (length : Nat) : (clearTail bytes length).size = bytes.size := by
  rw [clearTail]
  split <;> simp

theorem bitAt_clearTail {bytes : Array UInt8} {length : Nat} (h : bytes.size = (length + 7) / 8) (i : Nat) :
    bitAt (clearTail bytes length) i = (decide (i < length) && bitAt bytes i) := by
  by_cases whole : length % 8 = 0
  · rw [clearTail, if_pos whole]
    by_cases hi : i < length
    · simp [hi]
    · simp [hi, bitAt_of_size_le (show bytes.size ≤ i / 8 by omega)]
  · rw [clearTail, if_neg whole, bitAt, bitAt, Array.getElem?_modify]
    have hj : i % 8 < 8 := Nat.mod_lt _ (by decide)
    by_cases last : bytes.size - 1 = i / 8
    · have inside : i / 8 < bytes.size := by omega
      have below : i < length ↔ i % 8 < length % 8 := by omega
      rw [if_pos last, Array.getElem?_eq_getElem inside]
      simp only [Option.map_some, Option.getD_some, UInt8.toNat_and, Nat.testBit_and,
        testBit_tailMask (Nat.mod_lt length (by decide)) hj (by omega), below]
      exact Bool.and_comm _ _
    · rw [if_neg last]
      by_cases hi : i < length
      · simp [hi]
      · simp [hi, Array.getElem?_eq_none (show bytes.size ≤ i / 8 by omega)]

theorem bitAt_replicate_zero (n i : Nat) : bitAt (Array.replicate n 0) i = false := by
  rw [bitAt, Array.getElem?_replicate]
  split <;> simp

/-- The buffer in which the bits of a number that stand for the first `k` of `n` places are set. -/
def setDigits (value n : Nat) (bytes : Array UInt8) (k : Nat) : Array UInt8 :=
  (List.range k).foldl (fun bytes i =>
    if n - 1 - i < 128 && value.testBit (n - 1 - i) then setBitAt bytes i true else bytes) bytes

@[simp] theorem size_setDigits (value n : Nat) (bytes : Array UInt8) (k : Nat) :
    (setDigits value n bytes k).size = bytes.size := by
  induction k with
  | zero => rfl
  | succ k ih =>
    rw [setDigits, List.range_succ, List.foldl_append, List.foldl_cons, List.foldl_nil, ← setDigits]
    split
    · rw [size_setBitAt, ih]
    · exact ih

theorem bitAt_setDigits {value n : Nat} {bytes : Array UInt8} {k : Nat} (h : k ≤ 8 * bytes.size) (i : Nat) :
    bitAt (setDigits value n bytes k) i =
      (bitAt bytes i || (decide (i < k) && (decide (n - 1 - i < 128) && value.testBit (n - 1 - i)))) := by
  induction k with
  | zero => simp [setDigits]
  | succ k ih =>
    have step := ih (by omega)
    rw [setDigits, List.range_succ, List.foldl_append, List.foldl_cons, List.foldl_nil, ← setDigits]
    by_cases here : i = k
    · subst here
      split
      next digit =>
        rw [bitAt_setBitAt (by rw [size_setDigits]; omega)]
        simp only [Bool.and_eq_true, decide_eq_true_eq] at digit
        simp [digit]
      next digit =>
        rw [step]
        simp_all
    · have below : i < k + 1 ↔ i < k := by omega
      split
      next => rw [bitAt_setBitAt (by rw [size_setDigits]; omega), if_neg here, step, decide_eq_decide.mpr below]
      next => rw [step, decide_eq_decide.mpr below]

theorem bitAt_append_left {a b : Array UInt8} {i : Nat} (h : i < 8 * a.size) : bitAt (a ++ b) i = bitAt a i := by
  simp only [bitAt]
  rw [Array.getElem?_append_left (by omega)]

theorem bitAt_append_right {a b : Array UInt8} {i : Nat} (h : 8 * a.size ≤ i) :
    bitAt (a ++ b) i = bitAt b (i - 8 * a.size) := by
  have hd : (i - 8 * a.size) / 8 = i / 8 - a.size := by omega
  have hm : (i - 8 * a.size) % 8 = i % 8 := by omega
  simp only [bitAt]
  rw [Array.getElem?_append_right (by omega), hd, hm]

theorem bitAt_extract {bytes : Array UInt8} {s e i : Nat} (h : i < 8 * (e - s)) :
    bitAt (bytes.extract s e) i = bitAt bytes (8 * s + i) := by
  have hd : (8 * s + i) / 8 = s + i / 8 := by omega
  have hm : (8 * s + i) % 8 = i % 8 := by omega
  simp only [bitAt, hd, hm]
  rw [Array.getElem?_extract]
  split
  · rfl
  · rw [Array.getElem?_eq_none (by omega)]

end WireGrammar
