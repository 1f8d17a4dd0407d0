import WireGrammar.Proofs.DataType.Draw
import WireGrammar.Proofs.Relation.Ranges

/-!
# Numbers that relations write

Sizes and checksums compute a number and let their type write it. Writing asks less of the number than reading does: an
integer type writes all numbers of its format, and ASCII writes as many digits as there are. So what is written is
accepted exactly if the number is also one that the type takes when it reads (`written_numbers_accepted`).

* `DataType.Writes`: the numbers that a type writes.
* `DataType.Takes`: what a type that writes a number asks of it besides when it reads.
-/

namespace WireGrammar

open Variable

namespace DataType

variable {t : DataType} {n : Int}

/-- The numbers that a type writes: in bytes those that fit after leading zeros are added, in text all. -/
def Writes (t : DataType) (n : Int) : Prop :=
  match t with
  | raw _ => 0 ≤ n ∧ t.acceptsLength (8 * max (t.bounds.1 / 8) (Bytes.minimal n.toNat).length) = true
  | ascii _ => True
  | integer type => type.format.lowest ≤ n ∧ n ≤ type.format.highest
  | timestamp _ => 0 ≤ n ∧ n < Word.count 32
  | bits _ | ipv4 _ => False

/-- What reading asks of a number and writing does not: the interval of an integer, and how many digits a text has. -/
def Takes (t : DataType) (n : Int) : Prop :=
  match t with
  | ascii _ => t.acceptsLength (8 * (toString n).length) = true
  | integer type => type.first ≤ n ∧ n ≤ type.last
  | raw _ | timestamp _ | bits _ | ipv4 _ => True

/-! ## The digits of a number -/

/-- A character below 128 is one byte below 128. -/
theorem utf8EncodeChar_of_lt {c : Char} (h : c.toNat < 128) :
    ∃ b : UInt8, String.utf8EncodeChar c = [b] ∧ b < 128 := by
  have low : c.val.toNat ≤ 0x7f := Nat.le_of_lt_succ h
  refine ⟨UInt8.ofNat c.val.toNat, ?_, ?_⟩
  · unfold String.utf8EncodeChar
    exact if_pos low
  · rw [UInt8.lt_iff_toNat_lt, UInt8.toNat_ofNat']
    change _ < 128
    omega

theorem utf8_ascii {chars : List Char} (h : ∀ c ∈ chars, c.toNat < 128) :
    (chars.flatMap String.utf8EncodeChar).length = chars.length ∧
      ∀ b ∈ chars.flatMap String.utf8EncodeChar, b < 128 := by
  induction chars with
  | nil => simp
  | cons c rest ih =>
    obtain ⟨length, low⟩ := ih fun c hc => h c (List.mem_cons_of_mem _ hc)
    obtain ⟨b, hb, small⟩ := utf8EncodeChar_of_lt (h c List.mem_cons_self)
    rw [List.flatMap_cons, hb]
    refine ⟨by simp [length], fun x hx => ?_⟩
    rcases List.mem_cons.mp hx with rfl | hx
    · exact small
    · exact low x hx

/-- A number is written with digits and perhaps a sign. -/
theorem toString_ascii (n : Int) : ∀ c ∈ (toString n).toList, c.toNat < 128 := by
  have digits (m : Nat) : ∀ c ∈ m.repr.toList, c.toNat < 128 := by
    intro c hc
    rw [Nat.repr, String.toList_ofList] at hc
    have digit := Nat.isDigit_of_mem_toDigits (by decide) (by decide) hc
    simp only [Char.isDigit, Bool.and_eq_true, decide_eq_true_eq] at digit
    have := UInt32.le_iff_toNat_le.mp digit.2
    change c.toNat ≤ 57 at this
    omega
  cases n with
  | ofNat m => exact digits m
  | negSucc m =>
    change ∀ c ∈ ("-" ++ (m + 1).repr).toList, _
    rw [String.toList_append]
    intro c hc
    rcases List.mem_append.mp hc with hc | hc
    · obtain rfl : c = '-' := by simpa using hc
      decide
    · exact digits (m + 1) c hc

/-! ## What is written is accepted -/

theorem length_rawBytes {least : Nat} {m : Nat} {bytes : List UInt8} (h : rawBytes least (.int m) = .ok bytes) :
    bytes.length = max least (Bytes.minimal m).length := by
  cases h
  rw [List.length_append, List.length_replicate]
  omega

theorem write_raw {allowed : Allowed (List UInt8)} (free : (raw allowed).constant? = none) (n : Int) :
    (¬ (raw allowed).Writes n → ∃ e, (raw allowed).write (.int n) = .error e) ∧
    ((raw allowed).Writes n → ∃ content, (raw allowed).write (.int n) = .ok content ∧
      (raw allowed).accepts content = true) := by
  cases n with
  | negSucc m =>
    refine ⟨fun _ => ⟨_, rfl⟩, fun writes => ?_⟩
    have := writes.1
    omega
  | ofNat m =>
    obtain ⟨bytes, hb⟩ : ∃ bytes, rawBytes ((raw allowed).bounds.1 / 8) (.int m) = .ok bytes := ⟨_, rfl⟩
    have steps : (raw allowed).write (.int m) =
        (rawBytes ((raw allowed).bounds.1 / 8) (.int m)).bind fun bytes =>
          if (raw allowed).acceptsLength (BitString.ofBytes bytes).length then .ok (.ofBytes bytes)
          else .error (.badLength .raw (BitString.ofBytes bytes).length) := rfl
    rw [hb] at steps
    have fits : (raw allowed).Writes m ↔ (raw allowed).acceptsLength (8 * bytes.length) = true := by
      rw [length_rawBytes hb]
      exact and_iff_right (Int.natCast_nonneg m)
    change (¬ (raw allowed).Writes m → _) ∧ ((raw allowed).Writes m → _)
    rw [fits]
    constructor
    · intro h
      exact ⟨_, steps.trans (if_neg h)⟩
    · intro h
      refine ⟨.ofBytes bytes, steps.trans (if_pos h), ?_⟩
      simp only [accepts, free, BitString.length_ofBytes, h, Option.all_none, Bool.and_self]

theorem write_ascii {allowed : Allowed AsciiText} (free : (ascii allowed).constant? = none) (n : Int) :
    ∃ content, (ascii allowed).write (.int n) = .ok content ∧
      ((ascii allowed).accepts content = true ↔ (ascii allowed).Takes n) := by
  obtain ⟨length, low⟩ := utf8_ascii (toString_ascii n)
  refine ⟨.ofBytes (Text.utf8 (toString n)), rfl, ?_⟩
  have bytes : (Text.utf8 (toString n)).all (· < 128) = true := List.all_eq_true.mpr fun b hb => by simpa using low b hb
  have digits : (Text.utf8 (toString n)).length = (toString n).length := length
  rw [accepts, free, BitString.toBytes_ofBytes, bytes, BitString.length_ofBytes, digits]
  simp [Takes]

/-- An integer type writes the numbers of its format. -/
theorem write_integer_eq (type : IntegerType) (n : Int) :
    (integer type).write (.int n) = if type.format.lowest ≤ n ∧ n ≤ type.format.highest then
      .ok (.ofBytes (type.format.toBytes n)) else .error (.outOfRange .integer (toString n)) := by
  have steps : (integer type).write (.int n) =
      (discard (IntegerType.checkBounds type.format n)).bind fun _ => .ok (.ofBytes (type.format.toBytes n)) := rfl
  rw [steps, IntegerType.checkBounds]
  by_cases h : type.format.lowest ≤ n ∧ n ≤ type.format.highest
  · rw [dif_pos h, if_pos h]
    rfl
  · rw [dif_neg h, if_neg h]
    rfl

theorem write_integer (type : IntegerType) (n : Int) :
    (¬ (integer type).Writes n → ∃ e, (integer type).write (.int n) = .error e) ∧
    ((integer type).Writes n → ∃ content, (integer type).write (.int n) = .ok content ∧
      ((integer type).accepts content = true ↔ (integer type).Takes n)) := by
  rw [write_integer_eq]
  constructor
  · intro h
    exact ⟨_, if_neg h⟩
  · intro h
    have inside : type.format.lowest ≤ n ∧ n ≤ type.format.highest := h
    refine ⟨.ofBytes (type.format.toBytes n), if_pos h, ?_⟩
    have length : (type.format.toBytes n).length = type.format.width.bytes := Endianness.length_toBytes _ _ _
    simp only [accepts, BitString.toBytes_ofBytes, type.format.ofBytes_toBytes inside.1 inside.2,
      BitString.length_ofBytes, length, IntegerWidth.bits, BEq.rfl, Bool.true_and, Bool.and_eq_true, decide_eq_true_eq,
      Takes]

theorem write_timestamp {fixed : Option UInt32} (free : (timestamp fixed).constant? = none) (n : Int) :
    (¬ (timestamp fixed).Writes n → ∃ e, (timestamp fixed).write (.int n) = .error e) ∧
    ((timestamp fixed).Writes n → ∃ content, (timestamp fixed).write (.int n) = .ok content ∧
      (timestamp fixed).accepts content = true) := by
  constructor
  · intro h
    exact ⟨_, if_neg h⟩
  · intro h
    refine ⟨wordBits (UInt32.ofNat n.toNat), if_pos h, ?_⟩
    have allowed : (timestamp fixed).acceptsLength 32 = true := by simp [acceptsLength_iff, bounds, unit]
    simp only [accepts, free, length_wordBits, allowed, Option.all_none, Bool.and_self]

/-- A type writes a number or fails, and accepts what it has written exactly if it takes the number. -/
theorem write_int (free : t.constant? = none) (n : Int) :
    (¬ t.Writes n → ∃ e, t.write (.int n) = .error e) ∧
    (t.Writes n → ∃ content, t.write (.int n) = .ok content ∧ (t.accepts content = true ↔ t.Takes n)) := by
  have always {t : DataType} {content : BitString} (h : t.accepts content = true) (ht : t.Takes n) :
      t.accepts content = true ↔ t.Takes n := iff_of_true h ht
  cases t with
  | raw allowed =>
    obtain ⟨fails, writes⟩ := write_raw free n
    refine ⟨fails, fun h => ?_⟩
    obtain ⟨content, hw, ha⟩ := writes h
    exact ⟨content, hw, always ha trivial⟩
  | ascii allowed => exact ⟨fun h => absurd trivial h, fun _ => write_ascii free n⟩
  | integer type => exact write_integer type n
  | timestamp fixed =>
    obtain ⟨fails, writes⟩ := write_timestamp free n
    refine ⟨fails, fun h => ?_⟩
    obtain ⟨content, hw, ha⟩ := writes h
    exact ⟨content, hw, always ha trivial⟩
  | bits allowed | ipv4 fixed => exact ⟨fun _ => ⟨_, rfl⟩, nofun⟩

end DataType

/-! ## Relations -/

namespace Relation

variable {r : Relation} {a : Assignment}

/-- A relation that computes a number. -/
def IsNumber (r : Relation) : Prop :=
  r.rule = .internetChecksum ∨ r.rule = .crc32 ∨ ∃ scale, r.rule = .size scale

/-- The number that such a relation computes, unless a target is still missing. -/
def number? (r : Relation) (a : Assignment) : Option Int :=
  match r.rule with
  | .size scale => (r.targetsLength? a (r.ownLength? a)).map (sizeOf scale)
  | .internetChecksum => (r.targetsBits? a).map fun data => Checksum.internet data.toBytes
  | .crc32 => (r.targetsBits? a).map fun data => Checksum.crc32 data.toBytes
  | .copy | .keyedDigest .. | .padding .. => none

/-- What is known of the value of such a relation. -/
theorem IsNumber.evaluate_eq (h : r.IsNumber) (a : Assignment) :
    r.evaluate a = (r.number? a).elim (.ok .waiting) r.writeInt := by
  unfold evaluate number?
  rcases h with hr | hr | ⟨scale, hr⟩ <;> rw [hr]
  · cases r.targetsBits? a <;> rfl
  · cases r.targetsBits? a <;> rfl
  · cases r.targetsLength? a (r.ownLength? a) <;> rfl

/-- What such a relation may turn out to be is what its type accepts. -/
theorem IsNumber.isPlausible_eq (h : r.IsNumber) (bits : BitString) : r.isPlausible bits = r.type.accepts bits := by
  unfold isPlausible
  rcases h with hr | hr | ⟨scale, hr⟩ <;> rw [hr]

/-- The type of such a relation leaves the value open. -/
theorem IsNumber.constant?_eq_none {v : Variable} (h : r.IsNumber) (made : mkRelation r = .ok v) :
    r.type.constant? = none := by
  obtain ⟨-, -, -, checked⟩ := mkRelation_eq_ok made
  have free (checked : (if r.type.constant?.isSome then .error (.constantRelation r.name) else .ok () : Built Unit) =
      .ok ()) : r.type.constant? = none := by
    split at checked
    · cases checked
    next h => simpa using h
  unfold checkRule at checked
  rcases h with hr | hr | ⟨scale, hr⟩ <;> rw [hr] at checked
  · exact free checked
  · exact free checked
  · dsimp only at checked
    split at checked
    · cases checked
    · exact free checked

end Relation

/--
A size or a checksum that can be built waits as long as a target is missing, and fails if its type does not write the
number computed. Otherwise its value is accepted by its type, and so plausible where it stands before its targets,
exactly if the type takes the number: an integer must lie in the interval of the type, a text of digits must have an
allowed length, and of all other types every number that they write is accepted.
-/
theorem written_numbers_accepted {r : Relation} {v : Variable} (made : mkRelation r = .ok v) (kind : r.IsNumber)
    (a : Assignment) :
    (r.number? a = none → r.evaluate a = .ok .waiting) ∧
    ∀ n, r.number? a = some n →
      (¬ r.type.Writes n → ∃ e, r.evaluate a = .error (.value e)) ∧
      (r.type.Writes n → ∃ bits, r.evaluate a = .ok (.ready bits) ∧
        (r.type.accepts bits = true ↔ r.type.Takes n) ∧ (r.isPlausible bits = true ↔ r.type.Takes n)) := by
  rw [kind.evaluate_eq]
  constructor
  · intro missing
    rw [missing]
    rfl
  · intro n computed
    rw [computed]
    obtain ⟨fails, writes⟩ := DataType.write_int (kind.constant?_eq_none made) n
    constructor
    · intro h
      obtain ⟨e, he⟩ := fails h
      exact ⟨e, by simp only [Option.elim_some, Relation.writeInt, he]⟩
    · intro h
      obtain ⟨bits, hb, accepted⟩ := writes h
      refine ⟨bits, Relation.writeInt_eq_ready_iff.mpr hb, accepted, ?_⟩
      rw [kind.isPlausible_eq]
      exact accepted

/-- A number of bytes that is written in one byte and must lie from five through eight. -/
def boundedSize : Relation where
  id := .ofRoot 0
  name := "size"
  rule := .size ⟨.ofRatio false 1 8, 0⟩
  targets := [.ofRoot 1]
  type := .integer {
    format := ⟨.one, .big, false⟩, first := 5, last := 8, isConstant := false
    lowest_le := by decide, first_le := by decide, le_highest := by decide
    eq_of_isConstant := fun h => absurd h Bool.false_ne_true }

/-- Two bytes are two, which is written although the interval leaves it out, and so would not be read. -/
theorem written_numbers_accepted_boundedSize :
    mkRelation boundedSize = .ok (.relation boundedSize) ∧ boundedSize.IsNumber ∧
    let a := Assignment.empty.record (.ofRoot 1) (.ofBits (.zeros 16))
    boundedSize.number? a = some 2 ∧ boundedSize.type.Writes 2 ∧ ¬ boundedSize.type.Takes 2 ∧
      ∃ bits, boundedSize.evaluate a = .ok (.ready bits) ∧ boundedSize.type.accepts bits = false := by
  have made : mkRelation boundedSize = .ok (.relation boundedSize) := rfl
  have kind : boundedSize.IsNumber := Or.inr (Or.inr ⟨_, rfl⟩)
  have computed : boundedSize.number? (Assignment.empty.record (.ofRoot 1) (.ofBits (.zeros 16))) = some 2 := by
    decide +kernel
  have writes : boundedSize.type.Writes 2 := by unfold boundedSize DataType.Writes; decide
  have takes : ¬ boundedSize.type.Takes 2 := by unfold boundedSize DataType.Takes; decide
  obtain ⟨bits, ready, accepted, -⟩ := ((written_numbers_accepted made kind _).2 2 computed).2 writes
  exact ⟨made, kind, computed, writes, takes, bits, ready, Bool.eq_false_iff.mpr fun h => takes (accepted.mp h)⟩

end WireGrammar
