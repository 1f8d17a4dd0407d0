import WireGrammar.Bytes
import WireGrammar.Checksum.Internet

/-!
# The Internet checksum verifies itself

One's complement addition brings the carry out of the top bit back in at the bottom (`addAround`). A number of any size
has one form of sixteen bits under it, which is the same modulo 65535 and zero only for zero itself (`Folds`). Adding
word by word and folding a sum at the end both lead to this form, so the checksum is the complement of the one's
complement sum as long as the register holds the sum (`registerSum_eq`). In a message that holds its own checksum the
words sum up to a positive multiple of 65535, whose form has all bits set: `ones_complement`.
-/

namespace WireGrammar.Checksum

/-- The sum of two words, to which a carry out of the top bit is added. -/
def addAround (x y : BitVec 16) : BitVec 16 :=
  if x.toNat + y.toNat < 65536 then x + y else x + y + 1

/-- The one's complement sum of words. -/
def onesSum (words : List (BitVec 16)) : BitVec 16 :=
  words.foldl addAround 0

/-- The sixteen bits that stand for a number in one's complement: only zero is written with no bit set. -/
structure Folds (n s : Nat) : Prop where
  lt : s < 65536
  mod : s % 65535 = n % 65535
  eq_zero_iff : s = 0 ↔ n = 0

variable {n s t : Nat} {message front back : List UInt8}

theorem Folds.unique (h : Folds n s) (h' : Folds n t) : s = t := by
  obtain ⟨lt, mod, zero⟩ := h
  obtain ⟨lt', mod', zero'⟩ := h'
  omega

/-- A positive multiple of 65535 has all bits set. -/
theorem Folds.eq_top (h : Folds n s) (hn : n % 65535 = 0) (pos : 0 < n) : s = 65535 := by
  obtain ⟨lt, mod, zero⟩ := h
  omega

theorem folds_foldCarries (n : Nat) : Folds n (foldCarries n) := by
  fun_induction foldCarries n with
  | case1 n small => exact ⟨small, rfl, Iff.rfl⟩
  | case2 n large ih =>
    obtain ⟨lt, mod, zero⟩ := ih
    exact ⟨lt, by omega, by omega⟩

/-- Adding a word with its carry is adding it to the number. -/
theorem Folds.addAround {x : BitVec 16} (h : Folds n x.toNat) (y : BitVec 16) :
    Folds (n + y.toNat) (addAround x y).toNat := by
  obtain ⟨lt, mod, zero⟩ := h
  have hy := y.isLt
  unfold Checksum.addAround
  split
  next small =>
    have sum : (x + y).toNat = x.toNat + y.toNat := by rw [BitVec.toNat_add]; omega
    rw [sum]
    exact ⟨small, by omega, by omega⟩
  next large =>
    have sum : (x + y + 1).toNat = x.toNat + y.toNat - 65535 := by
      rw [BitVec.toNat_add, BitVec.toNat_add]
      change ((x.toNat + y.toNat) % 65536 + 1) % 65536 = _
      omega
    rw [sum]
    exact ⟨by omega, by omega, by omega⟩

/-! ## Words and their sum -/

/-- The sum of numbers of any size. -/
def total (words : List Nat) : Nat :=
  words.foldr (· + ·) 0

theorem total_append (xs ys : List Nat) : total (xs ++ ys) = total xs + total ys := by
  induction xs with
  | nil => exact (Nat.zero_add _).symm
  | cons x xs ih =>
    change x + total (xs ++ ys) = x + total xs + total ys
    rw [ih, Nat.add_assoc]

theorem folds_onesSum {words : List Nat} (h : ∀ w ∈ words, w < 65536) :
    Folds (total words) (onesSum (words.map (BitVec.ofNat 16))).toNat := by
  suffices general : ∀ (n : Nat) (x : BitVec 16), Folds n x.toNat →
      Folds (n + total words) ((words.map (BitVec.ofNat 16)).foldl addAround x).toNat by
    have run := general 0 0 ⟨by decide, rfl, iff_of_true rfl rfl⟩
    rwa [Nat.zero_add] at run
  induction words with
  | nil => exact fun n x hx => hx
  | cons w words ih =>
    intro n x hx
    have small : w % 65536 = w := Nat.mod_eq_of_lt (h w List.mem_cons_self)
    have step := hx.addAround (BitVec.ofNat 16 w)
    rw [BitVec.toNat_ofNat, small] at step
    have run := ih (fun v hv => h v (List.mem_cons_of_mem w hv)) _ _ step
    rwa [Nat.add_assoc] at run

/-- As many words as the register has room for are summed up without loss. -/
theorem registerSum_eq {words : List Nat} (h : ∀ w ∈ words, w < 65536) (room : words.length ≤ 65535) :
    registerSum words = total words := by
  suffices general : ∀ n, n + 65535 * words.length < Word.count 32 →
      words.foldl (fun sum word => (sum + word) % Word.count 32) n = n + total words by
    have run := general 0 (by change _ < 4294967296; omega)
    rwa [Nat.zero_add] at run
  clear room
  induction words with
  | nil => exact fun n _ => rfl
  | cons w words ih =>
    intro n room
    have small := h w List.mem_cons_self
    rw [List.length_cons] at room
    rw [List.foldl_cons, Nat.mod_eq_of_lt (by omega), ih (fun v hv => h v (List.mem_cons_of_mem w hv)) _ (by omega)]
    exact Nat.add_assoc n w (total words)

theorem words_lt (message : List UInt8) : ∀ w ∈ words message, w < 65536 := by
  fun_induction words message with
  | case1 => simp
  | case2 hi =>
    have := hi.toNat_lt
    simp only [List.mem_singleton, forall_eq]
    omega
  | case3 hi lo rest ih =>
    have := hi.toNat_lt
    have := lo.toNat_lt
    exact List.forall_mem_cons.mpr ⟨by omega, ih⟩

theorem length_words (message : List UInt8) : (words message).length = (message.length + 1) / 2 := by
  fun_induction words message with
  | case1 => rfl
  | case2 hi => rw [List.length_singleton, List.length_singleton]
  | case3 hi lo rest ih =>
    rw [List.length_cons, ih, List.length_cons, List.length_cons]
    omega

/-- Behind whole words others begin. -/
theorem words_append (h : front.length % 2 = 0) (back : List UInt8) :
    words (front ++ back) = words front ++ words back := by
  fun_induction words front with
  | case1 => rfl
  | case2 => cases h
  | case3 hi lo rest ih =>
    have even : rest.length % 2 = 0 := by
      rw [List.length_cons, List.length_cons] at h
      omega
    rw [List.cons_append, List.cons_append, words, ih even, List.cons_append]

/-- Two bytes in big-endian order are a word. -/
theorem words_bigEndian {c : Nat} (h : c < 65536) (back : List UInt8) :
    words (Bytes.bigEndian 2 c ++ back) = c :: words back := by
  have high : (UInt8.ofNat (c / 256)).toNat = c / 256 := by
    rw [UInt8.toNat_ofNat']
    omega
  have low : (UInt8.ofNat c).toNat = c % 256 := UInt8.toNat_ofNat'
  change ((UInt8.ofNat (c / 256)).toNat * 256 + (UInt8.ofNat c).toNat) :: words back = _
  rw [high, low]
  congr 1
  omega

/-! ## The checksum -/

/-- The register holds the whole sum of the words so far, at any time. -/
theorem registerSum_take (h : message.length ≤ 131070) (n : Nat) :
    registerSum ((words message).take n) = total ((words message).take n) := by
  refine registerSum_eq (fun w hw => words_lt message w (List.mem_of_mem_take hw)) ?_
  rw [List.length_take, length_words]
  omega

/-- What is folded at the end is the whole sum. -/
theorem folds_internet (h : message.length ≤ 131070) :
    ∃ s, internet message = 65535 - s ∧ Folds (total (words message)) s := by
  have sum := registerSum_take h (words message).length
  rw [List.take_length] at sum
  exact ⟨_, rfl, sum ▸ folds_foldCarries _⟩

theorem total_words_field {c : Nat} (h : front.length % 2 = 0) (hc : c < 65536) :
    total (words (front ++ Bytes.bigEndian 2 c ++ back)) = total (words front) + (c + total (words back)) := by
  rw [List.append_assoc, words_append h, words_bigEndian hc, total_append]
  rfl

/--
For messages that the register has room for, so that no addition overflows, the checksum is the complement of the one's
complement sum of their words. Put into the two bytes that were zero when it was computed, it makes the checksum of the
message zero.
-/
theorem ones_complement :
    (∀ message : List UInt8, message.length ≤ 131070 →
      (∀ n, registerSum ((words message).take n) = total ((words message).take n)) ∧
      internet message = (~~~onesSum ((words message).map (BitVec.ofNat 16))).toNat) ∧
    (∀ front back : List UInt8, front.length % 2 = 0 → (front ++ [0, 0] ++ back).length ≤ 131070 →
      internet (front ++ Bytes.bigEndian 2 (internet (front ++ [0, 0] ++ back)) ++ back) = 0) := by
  constructor
  · intro message h
    refine ⟨registerSum_take h, ?_⟩
    obtain ⟨s, checksum, folds⟩ := folds_internet h
    rw [checksum, folds.unique (folds_onesSum (words_lt message)), BitVec.toNat_not]
  · intro front back even h
    obtain ⟨s, checksum, folds⟩ := folds_internet h
    have zero : front ++ [0, 0] ++ back = front ++ Bytes.bigEndian 2 0 ++ back := rfl
    rw [zero, total_words_field even (by decide), Nat.zero_add] at folds
    rw [checksum]
    have room : (front ++ Bytes.bigEndian 2 (65535 - s) ++ back).length ≤ 131070 := by
      rw [List.length_append, List.length_append, Bytes.length_bigEndian]
      rwa [List.length_append, List.length_append] at h
    obtain ⟨t, again, refolds⟩ := folds_internet room
    rw [total_words_field even (by omega)] at refolds
    obtain ⟨lt, mod, empty⟩ := folds
    rw [again, refolds.eq_top (by omega) (by omega)]

/-- A packet header in front of its checksum. -/
def headerFront : List UInt8 :=
  [0x45, 0x00, 0x00, 0x73, 0x00, 0x00, 0x40, 0x00, 0x40, 0x11]

/-- The rest of the header, behind its checksum. -/
def headerBack : List UInt8 :=
  [0xc0, 0xa8, 0x00, 0x01, 0xc0, 0xa8, 0x00, 0xc7]

/-- The header has the checksum 0xb861, and none with it. -/
theorem ones_complement_header : headerFront.length % 2 = 0 ∧
    (headerFront ++ [0, 0] ++ headerBack).length ≤ 131070 ∧
    (~~~onesSum ((words (headerFront ++ [0, 0] ++ headerBack)).map (BitVec.ofNat 16))).toNat = 0xb861 ∧
    internet (headerFront ++ [0xb8, 0x61] ++ headerBack) = 0 := by
  have even : headerFront.length % 2 = 0 := by decide
  have room : (headerFront ++ [0, 0] ++ headerBack).length ≤ 131070 := by decide
  have checksum : internet (headerFront ++ [0, 0] ++ headerBack) = 0xb861 := by decide +kernel
  obtain ⟨-, sum⟩ := ones_complement.1 _ room
  have verified := ones_complement.2 headerFront headerBack even room
  rw [checksum] at sum verified
  exact ⟨even, room, sum.symm, verified⟩

end WireGrammar.Checksum
