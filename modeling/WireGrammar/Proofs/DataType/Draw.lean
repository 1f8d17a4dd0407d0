import Mathlib.Data.List.Basic
import WireGrammar.DataType.Codec
import WireGrammar.DataType.Draw
import WireGrammar.Proofs.DataType.Lengths

/-!
# What is drawn and written is accepted

Whatever the source of words, a content that is drawn for a data type is one that the type accepts (`draw_accepts`),
and so are the bits that an integer type writes for a number (`accepts_of_write`). What is drawn also keeps to the
cap where the type has no greatest length, and an integer is always the writing of some number (`draw_sound`).

* `Draws`: a condition on all results of a computation with a source, with one law for each way to put two together.
-/

namespace WireGrammar

section Draws

variable {ρ α β : Type} {P : α → Prop} {Q : β → Prop}

/-- Whatever the source, the result satisfies a condition. -/
def Draws (m : StateM ρ α) (P : α → Prop) : Prop :=
  ∀ g, P (m.run g).1

namespace Draws

theorem pure {x : α} (h : P x) : Draws (ρ := ρ) (Pure.pure x) P :=
  fun _ => h

theorem bind {m : StateM ρ α} {f : α → StateM ρ β} (h : Draws m P) (hf : ∀ x, P x → Draws (f x) Q) :
    Draws (m >>= f) Q :=
  fun g => hf _ (h g) _

theorem map {m : StateM ρ α} {f : α → β} (h : Draws m P) (hf : ∀ x, P x → Q (f x)) : Draws (f <$> m) Q :=
  fun g => hf _ (h g)

theorem any (m : StateM ρ α) : Draws m fun _ => True :=
  fun _ => trivial

end Draws

end Draws

/-! ## Random numbers -/

namespace RandomSource

/-- The high half of a product stays below the bound, also with the carry that the second draw may add. -/
theorem scaled_lt {ρ : Type} {width n : Nat} {draw : StateM ρ Nat} (hd : Draws draw (· < Word.count width))
    (hn : 0 < n) : Draws (scaled width draw n) (· < n) := by
  refine hd.bind fun x hx => ?_
  have pos := Word.count_pos width
  have shift : (x * n) >>> width = x * n / Word.count width := Nat.shiftRight_eq_div_pow _ _
  have split : Word.count width * (x * n / Word.count width) + x * n % Word.count width = x * n := Nat.div_add_mod _ _
  have product : x * n + n ≤ Word.count width * n := by
    rw [← Nat.succ_mul]
    exact Nat.mul_le_mul_right n hx
  have high : x * n / Word.count width < n := by
    rw [Nat.div_lt_iff_lt_mul pos, Nat.mul_comm n]
    omega
  dsimp only
  rw [shift]
  split
  next h =>
    refine Draws.pure ?_
    rw [h]
    exact hx
  next h =>
    split
    next hlow =>
      refine (Draws.any draw).bind fun y _ => Draws.pure ?_
      split
      next =>
        by_contra hge
        have last : x * n / Word.count width + 1 = n := by omega
        have whole : Word.count width * (x * n / Word.count width) + Word.count width = Word.count width * n := by
          rw [← Nat.mul_succ, Nat.succ_eq_add_one, last]
        omega
      next => exact high
    next => exact Draws.pure high

variable {ρ : Type} [RandomSource ρ]

theorem draw32_lt : Draws (ρ := ρ) draw32 (· < Word.count 32) :=
  (Draws.any word).bind fun x _ => Draws.pure (Nat.mod_lt x.toNat (Word.count_pos 32))

theorem draw64_lt : Draws (ρ := ρ) draw64 (· < Word.count 64) :=
  (Draws.any word).map fun x _ => x.toNat_lt

theorem draw128_lt : Draws (ρ := ρ) draw128 (· < Word.count 128) := by
  refine draw64_lt.bind fun low hl => draw64_lt.bind fun high hh => Draws.pure ?_
  have count : Word.count 128 = Word.count 64 * Word.count 64 := Word.count_add 64 64
  rw [Nat.shiftLeft_eq, count]
  change low + high * Word.count 64 < _
  have := Nat.mul_le_mul_right (Word.count 64) (Nat.succ_le_of_lt hh)
  rw [Nat.succ_mul] at this
  omega

theorem through32_mem {lo hi : Nat} (h : lo ≤ hi) : Draws (ρ := ρ) (through32 lo hi) fun n => lo ≤ n ∧ n ≤ hi :=
  (scaled_lt draw32_lt (Nat.succ_pos _)).map fun _ hx => by omega

theorem through64_mem {lo hi : Nat} (h : lo ≤ hi) : Draws (ρ := ρ) (through64 lo hi) fun n => lo ≤ n ∧ n ≤ hi :=
  (scaled_lt draw64_lt (Nat.succ_pos _)).map fun _ hx => by omega

theorem through128_mem {lo hi : Int} (h : lo ≤ hi) : Draws (ρ := ρ) (through128 lo hi) fun n => lo ≤ n ∧ n ≤ hi := by
  have pos : 0 < (hi - lo + 1).toNat := by omega
  refine (scaled_lt (ρ := ρ) draw128_lt pos).bind fun n hn => Draws.pure ?_
  omega

theorem countThrough_mem {lo hi : Nat} (h : lo ≤ hi) :
    Draws (ρ := ρ) (countThrough lo hi) fun n => lo ≤ n ∧ n ≤ hi := by
  unfold countThrough
  split
  · exact through32_mem h
  · exact through64_mem h

theorem countBelow_mem {lo stop : Nat} (h : lo < stop) :
    Draws (ρ := ρ) (countBelow lo stop) fun n => lo ≤ n ∧ n < stop := by
  have last (n : Nat) (h : lo ≤ n ∧ n ≤ stop - 1) : lo ≤ n ∧ n < stop := by omega
  unfold countBelow
  split
  · exact fun g => last _ (through32_mem (Nat.le_sub_one_of_lt h) g)
  · exact fun g => last _ (through64_mem (Nat.le_sub_one_of_lt h) g)

theorem length_bytes (n : Nat) : Draws (ρ := ρ) (bytes n) (·.length = n) := by
  have whole (counts : List Nat) :
      Draws (ρ := ρ) (counts.mapM fun _ => Bytes.littleEndian 8 <$> draw64) fun parts =>
        parts.flatten.length = 8 * counts.length := by
    induction counts with
    | nil => exact Draws.pure rfl
    | cons _ rest ih =>
      rw [List.mapM_cons]
      refine Draws.bind (P := (List.length · = 8)) (draw64_lt.map fun x _ => Bytes.length_littleEndian 8 x) fun first hf => ?_
      refine ih.bind fun parts hp => Draws.pure ?_
      rw [List.flatten_cons, List.length_append, hf, hp, List.length_cons]
      omega
  refine (whole (List.range (n / 8))).bind fun parts hp => ?_
  rw [List.length_range] at hp
  have joined {rest : List UInt8} (hr : rest.length = n % 8) : (parts.flatten ++ rest).length = n := by
    rw [List.length_append, hp, hr, Nat.div_add_mod]
  dsimp only
  split
  next h => exact Draws.pure (joined h.symm)
  next h =>
    split
    · exact (draw32_lt.map fun x _ => Bytes.length_littleEndian (n % 8) x).bind fun rest hr => Draws.pure (joined hr)
    · exact (draw64_lt.map fun x _ => Bytes.length_littleEndian (n % 8) x).bind fun rest hr => Draws.pure (joined hr)

end RandomSource

/-! ## Integers -/

namespace IntegerFormat

/-- A number of the format is read back from the bytes that are written for it. -/
theorem ofBytes_toBytes (f : IntegerFormat) {n : Int} (hl : f.lowest ≤ n) (hh : n ≤ f.highest) :
    f.ofBytes (f.toBytes n) = n := by
  have half : Word.count f.width.bits = 2 * Word.count (f.width.bits - 1) := by
    have : f.width.bits = f.width.bits - 1 + 1 := by cases f.width <;> rfl
    rw [this, Word.count_succ, Nat.add_sub_cancel]
  have pos := Word.count_pos (f.width.bits - 1)
  unfold lowest Word.leastSigned at hl
  unfold highest Word.greatestSigned at hh
  unfold ofBytes toBytes
  rw [Endianness.toNat_toBytes, show 8 * f.width.bytes = f.width.bits from rfl]
  have reduced : ((n % (Word.count f.width.bits : Int)).toNat : Int) = n % Word.count f.width.bits :=
    Int.toNat_of_nonneg (Int.emod_nonneg _ (by omega))
  have below : (n % (Word.count f.width.bits : Int)).toNat % Word.count f.width.bits =
      (n % (Word.count f.width.bits : Int)).toNat := by
    apply Nat.mod_eq_of_lt
    have := Int.emod_lt_of_pos n (b := Word.count f.width.bits) (by omega)
    omega
  dsimp only
  rw [below]
  cases hs : f.signed with
  | false =>
    rw [hs] at hl hh
    simp only [Bool.false_eq_true, if_false] at hl hh
    simp only [Bool.false_and, Bool.false_eq_true, if_false]
    rw [reduced, Int.emod_eq_of_lt hl (by omega)]
  | true =>
    rw [hs] at hl hh
    simp only [if_true] at hl hh
    simp only [Bool.true_and, decide_eq_true_eq]
    by_cases hn : 0 ≤ n
    · rw [Int.emod_eq_of_lt hn (by omega)]
      rw [if_neg (by omega)]
      omega
    · have shifted : n % (Word.count f.width.bits : Int) = n + Word.count f.width.bits := by
        rw [← Int.add_emod_right, Int.emod_eq_of_lt (by omega) (by omega)]
      rw [shifted]
      rw [if_pos (by omega)]
      omega

end IntegerFormat

theorem BitString.toBytes_ofBytes (bytes : List UInt8) : (BitString.ofBytes bytes).toBytes = bytes := rfl

namespace DataType

/-- An integer type accepts the bytes of the numbers in its range. -/
theorem accepts_toBytes (type : IntegerType) {n : Int} (hl : type.first ≤ n) (hh : n ≤ type.last) :
    (integer type).accepts (.ofBytes (type.format.toBytes n)) = true := by
  have read := type.format.ofBytes_toBytes (Int.le_trans type.lowest_le hl) (Int.le_trans hh type.le_highest)
  have length : (type.format.toBytes n).length = type.format.width.bytes := Endianness.length_toBytes _ _ _
  simp only [accepts, BitString.toBytes_ofBytes, read, BitString.length_ofBytes, length, IntegerWidth.bits, BEq.rfl,
    Bool.true_and, Bool.and_eq_true, decide_eq_true_eq]
  exact ⟨hl, hh⟩

/-- What an integer type of all numbers of a format writes it also accepts. -/
theorem accepts_of_write {format : IntegerFormat} {n : Int} {bits : BitString}
    (h : (integer (.full format)).write (.int n) = .ok bits) : (integer (.full format)).accepts bits = true := by
  by_cases hn : format.lowest ≤ n ∧ n ≤ format.highest
  · rw [write, IntegerType.full, IntegerType.checkBounds, dif_pos hn] at h
    cases h
    exact accepts_toBytes _ hn.1 hn.2
  · rw [write, IntegerType.full, IntegerType.checkBounds, dif_neg hn] at h
    cases h

section Draw

variable {ρ : Type} [RandomSource ρ]

/-- A length that is drawn lies in the range. -/
theorem drawLength_mem (range : LengthRange) (cap : Nat) :
    Draws (ρ := ρ) (drawLength range cap) fun n => range.least ≤ n ∧ ∀ greatest ∈ range.greatest?, n ≤ greatest := by
  obtain ⟨least, greatest?, ordered⟩ := range
  unfold drawLength
  cases greatest? with
  | none =>
    dsimp only [Option.getD_none]
    split
    · exact Draws.pure ⟨Nat.le_refl _, by simp⟩
    · exact fun g => ⟨(RandomSource.countThrough_mem (Nat.le_max_left _ _) g).1, by simp⟩
  | some greatest =>
    have h : least ≤ greatest := ordered greatest rfl
    dsimp only [Option.getD_some]
    split
    · exact Draws.pure ⟨Nat.le_refl _, by simpa using h⟩
    · exact fun g => ⟨(RandomSource.countThrough_mem h g).1, by simpa using (RandomSource.countThrough_mem h g).2⟩

omit [RandomSource ρ] in
theorem drawMany_forall {α : Type} {one : StateM ρ α} {P : α → Prop} (h : Draws one P) (n : Nat) :
    Draws (drawMany one n) fun xs => xs.length = n ∧ ∀ x ∈ xs, P x := by
  induction n with
  | zero => exact Draws.pure ⟨rfl, by simp⟩
  | succ n ih =>
    refine h.bind fun x hx => ih.bind fun xs hxs => Draws.pure ⟨?_, ?_⟩
    · rw [List.length_cons, hxs.1]
    · exact List.forall_mem_cons.mpr ⟨hx, hxs.2⟩

theorem drawVisible_lt : Draws (ρ := ρ) drawVisible (· < 128) := by
  refine (RandomSource.through32_mem (by decide)).map fun n hn => ?_
  rw [UInt8.lt_iff_toNat_lt, UInt8.toNat_ofNat']
  change n % 256 < 128
  omega

/-- A type without a fixed content accepts every content of an allowed length, in ASCII if it asks for that. -/
theorem acceptsLength_within (unit : Nat) {length : Nat} {range : LengthRange}
    (h : range.least ≤ length ∧ ∀ greatest ∈ range.greatest?, length ≤ greatest) :
    (scaleRange unit range).1 ≤ unit * length ∧ ∀ m ∈ (scaleRange unit range).2, unit * length ≤ m := by
  obtain ⟨least, greatest?, _⟩ := range
  obtain ⟨hl, hg⟩ := h
  unfold scaleRange
  refine ⟨by rw [Nat.mul_comm]; exact Nat.mul_le_mul_left _ hl, ?_⟩
  cases greatest? with
  | none => simp
  | some greatest => simpa [Nat.mul_comm] using Nat.mul_le_mul_left unit (hg greatest rfl)

omit [RandomSource ρ] in
/-- A type accepts its fixed content. -/
theorem accepts_constant {t : DataType} {c : BitString} (hc : t.constant? = some c) : t.accepts c = true := by
  have length : t.acceptsLength c.length = true := (acceptsLength_of_constant hc).mpr rfl
  have all : t.constant?.all (· == c) = true := by simp [hc]
  cases t with
  | integer type =>
    obtain ⟨-, hc⟩ := Option.ite_none_right_eq_some.mp hc
    cases hc
    exact accepts_toBytes type (Int.le_refl _) type.first_le
  | ascii allowed =>
    cases allowed with
    | within range => cases hc
    | only text =>
      cases hc
      have h := text.property
      simp only [accepts, length, all, BitString.toBytes_ofBytes, h, Bool.and_self]
  | raw allowed | bits allowed | ipv4 fixed | timestamp fixed => simp only [accepts, length, all, Bool.and_self]

/-- A content that is drawn for a type is one that the type accepts. -/
theorem draw_accepts (t : DataType) (cap : Nat) : Draws (ρ := ρ) (t.draw cap) (t.accepts · = true) := by
  have fixed {c : BitString} (hc : t.constant? = some c) : t.acceptsLength c.length = true :=
    (acceptsLength_of_constant hc).mpr rfl
  cases t with
  | raw allowed =>
    cases allowed with
    | only bytes => exact Draws.pure (by simp [accepts, fixed rfl, constant?])
    | within range =>
      refine (drawLength_mem range (cap / 8)).bind fun n hn => ?_
      refine (RandomSource.length_bytes n).bind fun bytes hb => Draws.pure ?_
      subst hb
      have h := acceptsLength_within 8 hn
      simp only [accepts, constant?, Option.all_none, Bool.and_true]
      rw [acceptsLength_iff]
      exact ⟨h.1, h.2, Nat.mul_mod_right _ _⟩
  | ascii allowed =>
    cases allowed with
    | only text =>
      refine Draws.pure ?_
      have h := text.property
      simp only [accepts, fixed rfl, constant?, BitString.toBytes_ofBytes, h, Option.all_some, BEq.rfl, Bool.and_self]
    | within range =>
      refine (drawLength_mem range (cap / 8)).bind fun n hn => ?_
      refine (drawMany_forall drawVisible_lt n).bind fun bytes hb => Draws.pure ?_
      obtain ⟨rfl, hb⟩ := hb
      have h := acceptsLength_within 8 hn
      simp only [accepts, constant?, Option.all_none, Bool.and_true, Bool.and_eq_true, BitString.toBytes_ofBytes,
        List.all_eq_true, decide_eq_true_eq]
      refine ⟨?_, hb⟩
      rw [acceptsLength_iff]
      exact ⟨h.1, h.2, Nat.mul_mod_right _ _⟩
  | integer type =>
    dsimp only [draw]
    split
    · exact Draws.pure (accepts_toBytes type (Int.le_refl _) type.first_le)
    · refine (RandomSource.through128_mem type.first_le).bind fun n hn => Draws.pure ?_
      exact accepts_toBytes type hn.1 hn.2
  | bits allowed =>
    cases allowed with
    | only content => exact Draws.pure (by simp [accepts, fixed rfl, constant?])
    | within range =>
      refine (drawLength_mem range cap).bind fun n hn => ?_
      refine (drawMany_forall (Draws.any _) n).bind fun bits hb => Draws.pure ?_
      obtain ⟨rfl, -⟩ := hb
      have h := acceptsLength_within 1 hn
      rw [Nat.one_mul] at h
      simp only [accepts, constant?, Option.all_none, Bool.and_true]
      rw [acceptsLength_iff, BitString.length_ofList]
      exact ⟨h.1, h.2, Nat.mod_one _⟩
  | ipv4 fixed? =>
    cases fixed? with
    | some address => exact Draws.pure (by simp [accepts, fixed rfl, constant?])
    | none =>
      refine (RandomSource.length_bytes 4).bind fun bytes hb => Draws.pure ?_
      simp [accepts, constant?, acceptsLength, bounds, unit, BitString.length_ofBytes, hb]
  | timestamp fixed? =>
    cases fixed? with
    | some seconds => exact Draws.pure (by simp [accepts, fixed rfl, constant?])
    | none =>
      refine (Draws.any _).bind fun n _ => Draws.pure ?_
      simp [accepts, constant?, acceptsLength, bounds, unit, length_wordBits]

/-! ## Bounds of what is drawn -/

/-- A length that is drawn from an open range stops at the cap, or at the least length if that is more. -/
theorem drawLength_le (range : LengthRange) (cap : Nat) :
    Draws (ρ := ρ) (drawLength range cap) (· ≤ range.greatest?.getD (max range.least cap)) := by
  have ordered : range.least ≤ range.greatest?.getD (max range.least cap) := by
    cases h : range.greatest? with
    | none => exact Nat.le_max_left _ _
    | some greatest => exact range.least_le greatest h
  unfold drawLength
  dsimp only
  split
  · exact Draws.pure ordered
  · exact fun g => (RandomSource.countThrough_mem ordered g).2

/-- A length in units is within the cap in bits if it is within as many whole units. -/
theorem length_le_of_units {unit n least cap : Nat} (h : n ≤ max least (cap / unit)) :
    unit * n ≤ max (least * unit) cap := by
  rcases Nat.le_total least (cap / unit) with hl | hl
  · rw [Nat.max_eq_right hl] at h
    calc unit * n ≤ unit * (cap / unit) := Nat.mul_le_mul_left unit h
      _ ≤ cap := Nat.mul_div_le cap unit
      _ ≤ max (least * unit) cap := Nat.le_max_right _ _
  · rw [Nat.max_eq_left hl] at h
    calc unit * n ≤ unit * least := Nat.mul_le_mul_left unit h
      _ = least * unit := Nat.mul_comm _ _
      _ ≤ max (least * unit) cap := Nat.le_max_left _ _

/-- Without a greatest length, a content that is drawn stops at the cap, or at the least length if that is more. -/
theorem length_draw_le {t : DataType} (ht : t.bounds.2 = none) (cap : Nat) :
    Draws (ρ := ρ) (t.draw cap) (·.length ≤ max t.bounds.1 cap) := by
  have cut {range : LengthRange} (hr : range.greatest? = none) (n : Nat) :
      Draws (ρ := ρ) (drawLength range n) (· ≤ max range.least n) := by
    simpa only [hr, Option.getD_none] using drawLength_le (ρ := ρ) range n
  cases t with
  | integer | ipv4 | timestamp => cases ht
  | raw allowed =>
    cases allowed with
    | only bytes => cases ht
    | within range =>
      refine (cut (Option.map_eq_none_iff.mp ht) (cap / 8)).bind fun n hn => ?_
      refine (RandomSource.length_bytes n).bind fun bytes hb => Draws.pure ?_
      rw [BitString.length_ofBytes, hb]
      exact length_le_of_units hn
  | ascii allowed =>
    cases allowed with
    | only text => cases ht
    | within range =>
      refine (cut (Option.map_eq_none_iff.mp ht) (cap / 8)).bind fun n hn => ?_
      refine (drawMany_forall drawVisible_lt n).bind fun bytes hb => Draws.pure ?_
      rw [BitString.length_ofBytes, hb.1]
      exact length_le_of_units hn
  | bits allowed =>
    cases allowed with
    | only content => cases ht
    | within range =>
      refine (cut (Option.map_eq_none_iff.mp ht) cap).bind fun n hn => ?_
      refine (drawMany_forall (Draws.any _) n).bind fun bits hb => Draws.pure ?_
      rw [BitString.length_ofList, hb.1]
      simpa only [bounds, scaleRange, Nat.mul_one] using hn

/-- What is drawn for an integer type is what the type writes for one of its numbers. -/
theorem draw_writes (type : IntegerType) (cap : Nat) :
    Draws (ρ := ρ) ((integer type).draw cap) fun content =>
      ∃ n, type.first ≤ n ∧ n ≤ type.last ∧ (integer type).write (.int n) = .ok content := by
  have written {n : Int} (hl : type.first ≤ n) (hh : n ≤ type.last) :
      (integer type).write (.int n) = .ok (.ofBytes (type.format.toBytes n)) := by
    rw [write, IntegerType.checkBounds, dif_pos ⟨Int.le_trans type.lowest_le hl, Int.le_trans hh type.le_highest⟩]
    rfl
  dsimp only [draw]
  split
  · exact Draws.pure ⟨type.first, Int.le_refl _, type.first_le, written (Int.le_refl _) type.first_le⟩
  · refine (RandomSource.through128_mem type.first_le).bind fun n hn => Draws.pure ?_
    exact ⟨n, hn.1, hn.2, written hn.1 hn.2⟩

end Draw

end DataType

end WireGrammar
