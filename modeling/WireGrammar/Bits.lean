import WireGrammar.Bits.Buffer

/-!
# Bit strings

A bit string is a sequence of bits packed eight to a byte, the most significant bit first. The buffer holds exactly
the bytes that the length asks for, and the bits behind the length are zero, so equal sequences have equal buffers.

Where bits fall on byte boundaries, strings are joined, cut and compared by whole bytes; elsewhere bit by bit. That both
ways agree rests on the zero bits behind the length.

* `BitString.ext_get`: a bit string is its length and its bits.
* `BitString.get_push`, `get_append`, `get_slice`: what each operation does to a bit.
* `BitString.toList` is the sequence itself, the view in which the operations are those of lists.
-/

namespace WireGrammar

/-- A sequence of `length` bits in packed form. -/
structure BitString where
  bytes : Array UInt8
  length : Nat
  size_bytes : bytes.size = (length + 7) / 8
  clear_tail : ∀ i, length ≤ i → bitAt bytes i = false
  deriving DecidableEq

namespace BitString

/-- Bit `i`; false behind the end. -/
def get (b : BitString) (i : Nat) : Bool :=
  decide (i < b.length) && bitAt b.bytes i

/-- The bits in order. -/
def toList (b : BitString) : List Bool :=
  (List.range b.length).map b.get

@[simp] theorem length_toList (b : BitString) : b.toList.length = b.length := by
  simp [toList]

/-- Bytes of bits that are cleared from `n` on. -/
theorem bitAt_ofFn_of_le {n i : Nat} (f : Nat → Bool) (hi : n ≤ i) :
    bitAt (Array.ofFn fun k : Fin ((n + 7) / 8) => byteOfBits fun j => decide (8 * k.val + j < n) && f (8 * k.val + j))
      i = false := by
  by_cases hk : i / 8 < (n + 7) / 8
  · rw [bitAt, Array.getElem?_eq_getElem (by simpa using hk)]
    have hj : i % 8 < 8 := Nat.mod_lt _ (by decide)
    simp only [Array.getElem_ofFn, Option.getD_some]
    rw [testBit_byteOfBits _ _ hj]
    have : ¬ 8 * (i / 8) + i % 8 < n := by omega
    simp [this]
  · exact bitAt_of_size_le (by simpa using hk)

/-- The bit string of length `n` whose bit `i` is `f i`. -/
def ofFn (n : Nat) (f : Nat → Bool) : BitString where
  bytes := Array.ofFn fun k : Fin ((n + 7) / 8) => byteOfBits fun j => decide (8 * k.val + j < n) && f (8 * k.val + j)
  length := n
  size_bytes := Array.size_ofFn
  clear_tail := fun _ hi => bitAt_ofFn_of_le f hi

theorem get_eq_bitAt (b : BitString) (i : Nat) : b.get i = bitAt b.bytes i := by
  by_cases h : i < b.length
  · simp [get, h]
  · simp [get, h, b.clear_tail i (by omega)]

theorem get_ofFn (n : Nat) (f : Nat → Bool) (i : Nat) : (ofFn n f).get i = (decide (i < n) && f i) := by
  rw [get_eq_bitAt]
  by_cases hi : i < n
  · have hk : i / 8 < (n + 7) / 8 := by omega
    have hj : i % 8 < 8 := Nat.mod_lt _ (by decide)
    rw [bitAt, Array.getElem?_eq_getElem (by simpa [ofFn] using hk)]
    simp only [ofFn, Array.getElem_ofFn, Option.getD_some]
    rw [testBit_byteOfBits _ _ hj, Nat.div_add_mod]
  · rw [(ofFn n f).clear_tail i (by simpa [ofFn] using hi)]
    simp [hi]

@[simp] theorem length_ofFn (n : Nat) (f : Nat → Bool) : (ofFn n f).length = n := rfl

theorem get_of_length_le {b : BitString} {i : Nat} (h : b.length ≤ i) : b.get i = false := by
  rw [get_eq_bitAt, b.clear_tail i h]

theorem getD_toList (b : BitString) (i : Nat) : b.toList.getD i false = b.get i := by
  by_cases h : i < b.length
  · simp [toList, List.getD, h]
  · simp [toList, List.getD, h, get_of_length_le (Nat.not_lt.mp h)]

/-- A bit string is determined by its length and its bits. -/
theorem ext_get {a b : BitString} (hl : a.length = b.length) (hb : ∀ i, i < a.length → a.get i = b.get i) :
    a = b := by
  have bit : ∀ i, a.get i = b.get i := fun i => by
    by_cases h : i < a.length
    · exact hb i h
    · rw [get_of_length_le (by omega), get_of_length_le (by omega)]
  have bytes : a.bytes = b.bytes := by
    apply Array.ext (by rw [a.size_bytes, b.size_bytes, hl])
    intro k ha hb
    apply UInt8.toNat_inj.mp
    apply Nat.eq_of_testBit_eq
    intro j
    by_cases hj : j < 8
    · have h := bit (8 * k + (7 - j))
      have hd : (8 * k + (7 - j)) / 8 = k := by omega
      have hm : 7 - (8 * k + (7 - j)) % 8 = j := by omega
      rw [get_eq_bitAt, get_eq_bitAt, bitAt, bitAt, hd, hm, Array.getElem?_eq_getElem ha,
        Array.getElem?_eq_getElem hb] at h
      exact h
    · rw [Nat.testBit_lt_two_pow, Nat.testBit_lt_two_pow]
      · exact Nat.lt_of_lt_of_le (UInt8.toNat_lt _) (Nat.pow_le_pow_right (by decide) (by omega))
      · exact Nat.lt_of_lt_of_le (UInt8.toNat_lt _) (Nat.pow_le_pow_right (by decide) (by omega))
  cases a; cases b; simp_all

/-- No bits. -/
def empty : BitString := ofFn 0 fun _ => false

instance : Inhabited BitString := ⟨empty⟩

instance : EmptyCollection BitString := ⟨empty⟩

def isEmpty (b : BitString) : Bool :=
  b.length == 0

/-- Whether the bits fill whole bytes. -/
def isAligned (b : BitString) : Bool :=
  b.length % 8 == 0

theorem isAligned_iff {b : BitString} : b.isAligned = true ↔ b.length % 8 = 0 := by
  simp [isAligned]

/-- The bits of a sequence of whole bytes. -/
def ofArray (bytes : Array UInt8) : BitString where
  bytes := bytes
  length := 8 * bytes.size
  size_bytes := by omega
  clear_tail := fun i hi => bitAt_of_size_le (by omega)

/-- The bits of a sequence of whole bytes. -/
def ofBytes (bytes : List UInt8) : BitString :=
  ofArray bytes.toArray

/-- The packed form: whole bytes, the last one filled up with zero bits. -/
def toBytes (b : BitString) : List UInt8 :=
  b.bytes.toList

/-- `n` zero bits. -/
def zeros (n : Nat) : BitString where
  bytes := Array.replicate ((n + 7) / 8) 0
  length := n
  size_bytes := by simp
  clear_tail := fun i _ => bitAt_replicate_zero _ i

theorem get_zeros (n i : Nat) : (zeros n).get i = false := by
  rw [get_eq_bitAt, zeros, bitAt_replicate_zero]

/-- The `n` low bits of a number of at most 128 bits, the most significant one first. -/
def ofNat (value n : Nat) : BitString where
  bytes := setDigits value n (zeros n).bytes n
  length := n
  size_bytes := by rw [size_setDigits, (zeros n).size_bytes]; rfl
  clear_tail := by
    intro i hi
    have size : (zeros n).bytes.size = (n + 7) / 8 := (zeros n).size_bytes
    rw [bitAt_setDigits (by omega), (zeros n).clear_tail i hi]
    simp [Nat.not_lt.mpr hi]

theorem get_ofNat (value n i : Nat) :
    (ofNat value n).get i = (decide (i < n) && (decide (n - 1 - i < 128) && value.testBit (n - 1 - i))) := by
  have size : (zeros n).bytes.size = (n + 7) / 8 := (zeros n).size_bytes
  have zero : bitAt (zeros n).bytes i = false := bitAt_replicate_zero _ i
  rw [get_eq_bitAt, ofNat, bitAt_setDigits (by omega), zero, Bool.false_or]

/-- The number that the bits write in base two. -/
def toNat (b : BitString) : Nat :=
  b.toList.foldl (fun n bit => 2 * n + bit.toNat) 0

/-- The number that at most 128 bits write in base two. -/
def toNat? (b : BitString) : Option Nat :=
  if b.length ≤ 128 then some b.toNat else none

theorem room_for_bit (b : BitString) :
    b.length / 8 < (if b.length % 8 = 0 then b.bytes.push 0 else b.bytes).size := by
  have hb := b.size_bytes
  split
  · rw [Array.size_push]; omega
  · omega

theorem bitAt_with_room (b : BitString) (i : Nat) :
    bitAt (if b.length % 8 = 0 then b.bytes.push 0 else b.bytes) i = bitAt b.bytes i := by
  split
  · exact bitAt_push_zero _ _
  · rfl

/-- One bit more at the end, in a new byte where the last one is full. -/
def push (b : BitString) (bit : Bool) : BitString where
  bytes := setBitAt (if b.length % 8 = 0 then b.bytes.push 0 else b.bytes) b.length bit
  length := b.length + 1
  size_bytes := by
    have hb := b.size_bytes
    rw [size_setBitAt]
    split
    · rw [Array.size_push]; omega
    · omega
  clear_tail := by
    intro i hi
    rw [bitAt_setBitAt (room_for_bit b), if_neg (by omega), bitAt_with_room, b.clear_tail i (by omega)]

@[simp] theorem length_push (b : BitString) (bit : Bool) : (b.push bit).length = b.length + 1 := rfl

theorem get_push (b : BitString) (bit : Bool) (i : Nat) :
    (b.push bit).get i = if i = b.length then bit else b.get i := by
  rw [get_eq_bitAt, push, bitAt_setBitAt (room_for_bit b), bitAt_with_room, get_eq_bitAt]

/-- The bits of a list at the end, one by one. -/
def pushAll (b : BitString) (bits : List Bool) : BitString :=
  bits.foldl push b

@[simp] theorem length_pushAll (b : BitString) (bits : List Bool) :
    (b.pushAll bits).length = b.length + bits.length := by
  induction bits generalizing b with
  | nil => rfl
  | cons bit bits ih =>
    rw [pushAll, List.foldl_cons, ← pushAll, ih, length_push, List.length_cons]
    omega

theorem get_pushAll (b : BitString) (bits : List Bool) (i : Nat) :
    (b.pushAll bits).get i = if i < b.length then b.get i else bits.getD (i - b.length) false := by
  induction bits generalizing b with
  | nil =>
    rw [pushAll, List.foldl_nil, List.getD_nil]
    split
    · rfl
    · exact get_of_length_le (by omega)
  | cons bit bits ih =>
    rw [pushAll, List.foldl_cons, ← pushAll, ih, length_push, get_push]
    by_cases before : i < b.length
    · rw [if_pos (by omega), if_neg (by omega), if_pos before]
    by_cases here : i = b.length
    · rw [if_pos (by omega), if_pos here, if_neg before, here, Nat.sub_self, List.getD_cons_zero]
    · rw [if_neg (by omega), if_neg before, show i - b.length = i - (b.length + 1) + 1 by omega, List.getD_cons_succ]

/-- Bit `i` complemented; nothing happens behind the end. -/
def flip (b : BitString) (i : Nat) : BitString where
  bytes := if i < b.length then setBitAt b.bytes i (!b.get i) else b.bytes
  length := b.length
  size_bytes := by
    split
    · rw [size_setBitAt, b.size_bytes]
    · exact b.size_bytes
  clear_tail := by
    intro j hj
    split
    next h =>
      have hb := b.size_bytes
      rw [bitAt_setBitAt (by omega), if_neg (by omega), b.clear_tail j hj]
    next => exact b.clear_tail j hj

theorem get_flip (b : BitString) (i j : Nat) :
    (b.flip i).get j = if j = i ∧ i < b.length then !b.get j else b.get j := by
  have hb := b.size_bytes
  have bytes : (b.flip i).bytes = if i < b.length then setBitAt b.bytes i (!b.get i) else b.bytes := rfl
  rw [get_eq_bitAt, bytes]
  by_cases h : i < b.length
  · rw [if_pos h, bitAt_setBitAt (by omega), ← get_eq_bitAt]
    by_cases here : j = i
    · rw [if_pos here, if_pos ⟨here, h⟩, here]
    · rw [if_neg here, if_neg (mt And.left here)]
  · rw [if_neg h, if_neg (mt And.right h), ← get_eq_bitAt]

/-- The bits of `a` followed by those of `b`. Behind whole bytes the bytes of `b` are joined as they are. -/
def append (a b : BitString) : BitString :=
  if h : a.isAligned then
    { bytes := a.bytes ++ b.bytes
      length := a.length + b.length
      size_bytes := by
        have ha := a.size_bytes
        have hb := b.size_bytes
        have whole := isAligned_iff.mp h
        simp only [Array.size_append]
        omega
      clear_tail := by
        intro i hi
        have ha := a.size_bytes
        have whole := isAligned_iff.mp h
        rw [bitAt_append_right (by omega)]
        exact b.clear_tail _ (by omega) }
  else a.pushAll b.toList

instance : Append BitString := ⟨append⟩

@[simp] theorem length_append (a b : BitString) : (a ++ b).length = a.length + b.length := by
  change (append a b).length = _
  rw [append]
  split
  · rfl
  · rw [length_pushAll, length_toList]

theorem get_append (a b : BitString) (i : Nat) :
    (a ++ b).get i = if i < a.length then a.get i else b.get (i - a.length) := by
  change (append a b).get i = _
  rw [append]
  split
  next h =>
    have ha := a.size_bytes
    have whole := isAligned_iff.mp h
    simp only [get_eq_bitAt]
    split
    · exact bitAt_append_left (by omega)
    · rw [bitAt_append_right (by omega)]
      congr 1
      omega
  next h => rw [get_pushAll, getD_toList]

/-- The bits of all parts in order. -/
def concat (parts : List BitString) : BitString :=
  parts.foldl (· ++ ·) empty

/-- The bits from `start` up to and without `stop`, both cut down to what there is. From a byte boundary on whole bytes
are copied and the last one is cleared behind `stop`. -/
def slice (b : BitString) (start stop : Nat) : BitString :=
  let stop := min stop b.length
  let start := min start stop
  if h : start % 8 = 0 then
    have size : (b.bytes.extract (start / 8) ((stop + 7) / 8)).size = (stop - start + 7) / 8 := by
      have hb := b.size_bytes
      have h1 : start ≤ stop := Nat.min_le_right _ _
      have h2 : stop ≤ b.length := Nat.min_le_right _ _
      clear_value start stop
      rw [Array.size_extract]
      omega
    { bytes := clearTail (b.bytes.extract (start / 8) ((stop + 7) / 8)) (stop - start)
      length := stop - start
      size_bytes := by rw [size_clearTail, size]
      clear_tail := fun i hi => by rw [bitAt_clearTail size, decide_eq_false (by omega), Bool.false_and] }
  else empty.pushAll ((List.range' start (stop - start)).map b.get)

theorem length_slice (b : BitString) (start stop : Nat) :
    (b.slice start stop).length = min stop b.length - min start (min stop b.length) := by
  rw [slice]
  split
  · rfl
  · rw [length_pushAll, List.length_map, List.length_range']
    exact Nat.zero_add _

theorem get_slice (b : BitString) (start stop i : Nat) :
    (b.slice start stop).get i = (decide (i < (b.slice start stop).length) && b.get (start + i)) := by
  by_cases hi : i < (b.slice start stop).length
  · have hl := length_slice b start stop
    have hs : min start (min stop b.length) = start := by omega
    have hb := b.size_bytes
    rw [decide_eq_true hi, Bool.true_and, slice]
    split
    next h =>
      rw [get_eq_bitAt, get_eq_bitAt, bitAt_clearTail (by rw [Array.size_extract]; omega), bitAt_extract (by omega),
        decide_eq_true (by omega), Bool.true_and]
      congr 1
      omega
    next h =>
      have inside : i < min stop b.length - min start (min stop b.length) := by omega
      rw [get_pushAll, show empty.length = 0 from rfl, if_neg (Nat.not_lt_zero i), Nat.sub_zero, List.getD,
        List.getElem?_map, List.getElem?_range' inside, Option.map_some, Option.getD_some, hs, Nat.one_mul]
  · rw [get_of_length_le (by omega)]
    simp [hi]

/-- Whether the bits occur in `data` at bit `offset`. Whole bytes at a byte boundary are compared as they are. -/
def matchesAt (b data : BitString) (offset : Nat) : Bool :=
  if data.length < offset + b.length then false
  else if offset % 8 == 0 && b.isAligned then
    data.bytes.extract (offset / 8) (offset / 8 + b.bytes.size) == b.bytes
  else (List.range b.length).all fun i => b.get i == data.get (offset + i)

/-- A list of bits in packed form. -/
def ofList (bits : List Bool) : BitString :=
  let array := bits.toArray
  ofFn array.size fun i => array.getD i false

@[simp] theorem length_ofList (bits : List Bool) : (ofList bits).length = bits.length := by
  simp [ofList]

/-- One binary digit more at the end; an underscore adds nothing. -/
def pushDigit? (b : BitString) (c : Char) : Option BitString :=
  if c = '0' then some (b.push false)
  else if c = '1' then some (b.push true)
  else if c = '_' then some b
  else none

/-- The bit string that a text of binary digits writes; underscores only group them. -/
def ofBinary? (text : String) : Option BitString :=
  text.toList.foldlM pushDigit? empty

end BitString

end WireGrammar
