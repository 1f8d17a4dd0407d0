import WireGrammar.Proofs.Bits.Sequence
import WireGrammar.Proofs.Relation.Numbers

/-!
# Reading and writing typed values

The value that a type reads from a content that it accepts is written as this very content (`DataType.write_read`), so
to go through typed values loses nothing. An integer type reads back whatever it writes as well: it writes the numbers
of its format and no others, negative ones in two's complement, and the two orders of the bytes mirror each other
(`IntegerType.Codes`, `IntegerType.codes`).

* `Endianness.toBytes_toNat`, `Text.utf8_ofAscii`, `BitString.ofBytes_toBytes`: what is lost nowhere on the way.
* `IntegerFormat.ofBytes_eq`: bytes hold one word, and its sign is that of two's complement.
-/

namespace WireGrammar

/-! ## Numbers and bytes -/

namespace Bytes

theorem littleEndian_toNat_reverse (bytes : List UInt8) : littleEndian bytes.length (toNat bytes.reverse) = bytes := by
  induction bytes with
  | nil => rfl
  | cons b rest ih =>
    have small := b.toNat_lt
    have low : UInt8.ofNat (256 * toNat rest.reverse + b.toNat) = b := by
      apply UInt8.toNat_inj.mp
      rw [UInt8.toNat_ofNat']
      omega
    have high : (256 * toNat rest.reverse + b.toNat) / 256 = toNat rest.reverse := by omega
    rw [List.reverse_cons, toNat_concat, List.length_cons, littleEndian, low, high, ih]

theorem bigEndian_toNat (bytes : List UInt8) : bigEndian bytes.length (toNat bytes) = bytes := by
  have reversed := littleEndian_toNat_reverse bytes.reverse
  rw [List.reverse_reverse, List.length_reverse] at reversed
  rw [bigEndian, reversed, List.reverse_reverse]

/-- Bytes write a number that fits into them. -/
theorem toNat_lt (bytes : List UInt8) : toNat bytes < Word.count (8 * bytes.length) := by
  have h := toNat_bigEndian bytes.length (toNat bytes)
  rw [bigEndian_toNat] at h
  rw [h]
  exact Nat.mod_lt _ (Word.count_pos _)

end Bytes

namespace Endianness

/-- The number that bytes write is written with these bytes. -/
theorem toBytes_toNat (order : Endianness) (bytes : List UInt8) :
    order.toBytes bytes.length (order.toNat bytes) = bytes := by
  cases order with
  | big => exact Bytes.bigEndian_toNat bytes
  | little => exact Bytes.littleEndian_toNat_reverse bytes

theorem toNat_lt (order : Endianness) (bytes : List UInt8) : order.toNat bytes < Word.count (8 * bytes.length) := by
  cases order with
  | big => exact Bytes.toNat_lt bytes
  | little =>
    have h := Bytes.toNat_lt bytes.reverse
    rw [List.length_reverse] at h
    exact h

end Endianness

/-! ## Whole bytes -/

namespace BitString

variable {x : BitString}

theorem length_toBytes (x : BitString) : x.toBytes.length = (x.length + 7) / 8 := by
  rw [toBytes, Array.length_toList, x.size_bytes]

/-- Whole bytes are their buffer. -/
theorem ofBytes_toBytes (h : x.length % 8 = 0) : ofBytes x.toBytes = x := by
  rw [eq_iff_bytes]
  constructor
  · rfl
  · rw [length_ofBytes, length_toBytes]
    omega

end BitString

namespace Text

variable {bytes : List UInt8}

/-- The character of an ASCII code has this code. -/
theorem toNat_ofNat_of_lt {b : UInt8} (h : b < 128) : (Char.ofNat b.toNat).toNat = b.toNat := by
  have small : b.toNat < 128 := UInt8.lt_iff_toNat_lt.mp h
  have valid : b.toNat.isValidChar := Or.inl (by omega)
  rw [Char.ofNat, dif_pos valid]
  rfl

theorem utf8EncodeChar_ofNat {b : UInt8} (h : b < 128) : String.utf8EncodeChar (Char.ofNat b.toNat) = [b] := by
  have small : b.toNat < 128 := UInt8.lt_iff_toNat_lt.mp h
  have code : (Char.ofNat b.toNat).val.toNat = b.toNat := toNat_ofNat_of_lt h
  unfold String.utf8EncodeChar
  simp only [code]
  rw [if_pos (by omega)]
  exact congrArg (fun c => [c]) (UInt8.ofNat_toNat)

/-- ASCII bytes are the UTF-8 form of their text. -/
theorem utf8_ofAscii (h : ∀ b ∈ bytes, b < 128) : utf8 (ofAscii bytes) = bytes := by
  rw [utf8, ofAscii, String.toList_ofList, List.flatMap_map]
  induction bytes with
  | nil => rfl
  | cons b rest ih =>
    rw [List.flatMap_cons, utf8EncodeChar_ofNat (h b List.mem_cons_self),
      ih fun c hc => h c (List.mem_cons_of_mem b hc)]
    rfl

theorem isAscii_ofAscii (h : ∀ b ∈ bytes, b < 128) : isAscii (ofAscii bytes) = true := by
  rw [isAscii, ofAscii, String.toList_ofList, List.all_eq_true]
  intro c hc
  obtain ⟨b, hb, rfl⟩ := List.mem_map.mp hc
  rw [decide_eq_true_eq, toNat_ofNat_of_lt (h b hb)]
  exact UInt8.lt_iff_toNat_lt.mp (h b hb)

end Text

/-! ## Integers -/

namespace IntegerFormat

variable {f : IntegerFormat} {bytes : List UInt8}

/-- The word that bytes in the order of the format hold. -/
def word (f : IntegerFormat) (bytes : List UInt8) : BitVec f.width.bits :=
  BitVec.ofNat f.width.bits (f.endianness.toNat bytes)

theorem toNat_lt_of_length (h : bytes.length = f.width.bytes) :
    f.endianness.toNat bytes < Word.count f.width.bits := by
  have below := f.endianness.toNat_lt bytes
  rw [h] at below
  exact below

theorem toNat_word (h : bytes.length = f.width.bytes) : (f.word bytes).toNat = f.endianness.toNat bytes := by
  rw [word, BitVec.toNat_ofNat]
  exact Nat.mod_eq_of_lt (toNat_lt_of_length h)

theorem count_bits (w : IntegerWidth) : Word.count w.bits = 2 * Word.count (w.bits - 1) := by
  have pos : w.bits = w.bits - 1 + 1 := by cases w <;> rfl
  rw [pos, Word.count_succ, Nat.add_sub_cancel]

/-- Bytes write the number of their word: in two's complement if the format is signed. -/
theorem ofBytes_eq (h : bytes.length = f.width.bytes) :
    f.ofBytes bytes = if f.signed then (f.word bytes).toInt else (f.word bytes).toNat := by
  have half := count_bits f.width
  have power : (2 : Nat) ^ f.width.bits = Word.count f.width.bits := rfl
  unfold ofBytes
  cases hs : f.signed with
  | false =>
    rw [toNat_word h]
    rfl
  | true =>
    rw [if_pos rfl, BitVec.toInt_eq_toNat_cond, toNat_word h, power]
    simp only [Bool.true_and, decide_eq_true_eq]
    by_cases low : 2 * f.endianness.toNat bytes < Word.count f.width.bits
    · rw [if_pos low, if_neg (by omega)]
    · rw [if_neg low, if_pos (by omega)]

/-- Bytes write a number of the format, and the word of this number is the one that they hold. -/
theorem ofBytes_mem (h : bytes.length = f.width.bytes) :
    (f.lowest ≤ f.ofBytes bytes ∧ f.ofBytes bytes ≤ f.highest) ∧
      f.ofBytes bytes % Word.count f.width.bits = f.endianness.toNat bytes := by
  have below := toNat_lt_of_length h
  have half := count_bits f.width
  unfold lowest highest Word.leastSigned Word.greatestSigned ofBytes
  cases hs : f.signed with
  | false =>
    simp only [Bool.false_and, Bool.false_eq_true, if_false]
    exact ⟨⟨by omega, by omega⟩, Int.emod_eq_of_lt (by omega) (by omega)⟩
  | true =>
    simp only [Bool.true_and, decide_eq_true_eq, if_true]
    by_cases negative : Word.count (f.width.bits - 1) ≤ f.endianness.toNat bytes
    · rw [if_pos negative]
      refine ⟨⟨by omega, by omega⟩, ?_⟩
      rw [Int.sub_emod_right]
      exact Int.emod_eq_of_lt (by omega) (by omega)
    · rw [if_neg negative]
      exact ⟨⟨by omega, by omega⟩, Int.emod_eq_of_lt (by omega) (by omega)⟩

/-- The number that bytes write is written with these bytes. -/
theorem toBytes_ofBytes (h : bytes.length = f.width.bytes) : f.toBytes (f.ofBytes bytes) = bytes := by
  rw [toBytes, (ofBytes_mem h).2, Int.toNat_natCast, ← h]
  exact f.endianness.toBytes_toNat bytes

/-- The two orders of the bytes mirror each other. -/
theorem toBytes_little (w : IntegerWidth) (signed : Bool) (n : Int) :
    toBytes ⟨w, .little, signed⟩ n = (toBytes ⟨w, .big, signed⟩ n).reverse := by
  show Bytes.littleEndian _ _ = (Bytes.bigEndian _ _).reverse
  rw [Bytes.bigEndian, List.reverse_reverse]

end IntegerFormat

namespace DataType

variable {x : BitString}

/-- The bytes of an integer content are as many as the format asks for. -/
theorem length_toBytes_of_width {w : IntegerWidth} (h : x.length = w.bits) : x.toBytes.length = w.bytes := by
  rw [BitString.length_toBytes, h, IntegerWidth.bits]
  omega

theorem read_integer_eq_ok (type : IntegerType) {v : Value} :
    (integer type).read x = .ok v ↔ x.length = type.format.width.bits ∧ v = .int (type.format.ofBytes x.toBytes) := by
  rw [read]
  by_cases h : x.length = type.format.width.bits
  · rw [if_pos h]
    constructor
    · intro same
      cases same
      exact ⟨h, rfl⟩
    · rintro ⟨-, rfl⟩
      rfl
  · rw [if_neg h]
    exact ⟨nofun, fun same => absurd same.1 h⟩

/-- An integer type writes numbers of its format only. -/
theorem write_integer_eq_ok (type : IntegerType) {v : Value} :
    (integer type).write v = .ok x ↔ ∃ n, v = .int n ∧ (type.format.lowest ≤ n ∧ n ≤ type.format.highest) ∧
      x = .ofBytes (type.format.toBytes n) := by
  cases v with
  | int n =>
    rw [write_integer_eq]
    by_cases h : type.format.lowest ≤ n ∧ n ≤ type.format.highest
    · rw [if_pos h]
      constructor
      · intro same
        cases same
        exact ⟨n, rfl, h, rfl⟩
      · rintro ⟨_, same, -, rfl⟩
        cases same
        rfl
    · rw [if_neg h]
      constructor
      · exact nofun
      · rintro ⟨_, same, inside, -⟩
        cases same
        exact absurd inside h
  | bytes _ | text _ | ipv4 _ | bits _ =>
    constructor
    · exact nofun
    · rintro ⟨_, same, -⟩
      cases same

end DataType

/-- What holds of an integer type that is written and read. -/
structure IntegerType.Codes (type : IntegerType) : Prop where
  /-- It writes the numbers of its format, and no other value. -/
  written_iff : ∀ v, (∃ x, (DataType.integer type).write v = .ok x) ↔
    ∃ n, v = .int n ∧ type.format.lowest ≤ n ∧ n ≤ type.format.highest
  /-- What has been written is read back. -/
  read_of_write : ∀ v x, (DataType.integer type).write v = .ok x → (DataType.integer type).read x = .ok v
  /-- The number read is that of the word, in two's complement if the format is signed. -/
  complement : ∀ x n, (DataType.integer type).read x = .ok (.int n) →
    n = if type.format.signed then (type.format.word x.toBytes).toInt else (type.format.word x.toBytes).toNat
  /-- In little-endian order the bytes are those of big-endian order in reverse, and the failures are the same. -/
  mirrored : ∀ other : IntegerType, type.format.endianness = .big →
    other.format = { type.format with endianness := .little } → ∀ v,
      (DataType.integer other).write v = ((DataType.integer type).write v).map fun x => .ofBytes x.toBytes.reverse

theorem IntegerType.codes (type : IntegerType) : type.Codes where
  written_iff := by
    intro v
    constructor
    · rintro ⟨x, hx⟩
      obtain ⟨n, rfl, inside, -⟩ := (DataType.write_integer_eq_ok type).mp hx
      exact ⟨n, rfl, inside⟩
    · rintro ⟨n, rfl, inside⟩
      exact ⟨_, (DataType.write_integer_eq_ok type).mpr ⟨n, rfl, inside, rfl⟩⟩
  read_of_write := by
    intro v x hx
    obtain ⟨n, rfl, inside, rfl⟩ := (DataType.write_integer_eq_ok type).mp hx
    apply (DataType.read_integer_eq_ok type).mpr
    rw [BitString.toBytes_ofBytes, type.format.ofBytes_toBytes inside.1 inside.2, BitString.length_ofBytes,
      IntegerFormat.toBytes, Endianness.length_toBytes]
    exact ⟨rfl, rfl⟩
  complement := by
    intro x n hx
    obtain ⟨length, same⟩ := (DataType.read_integer_eq_ok type).mp hx
    cases same
    exact IntegerFormat.ofBytes_eq (DataType.length_toBytes_of_width length)
  mirrored := by
    intro other big little v
    obtain ⟨⟨w, order, signed⟩, first, last, isConstant, _, _, _, _⟩ := type
    obtain ⟨format, first', last', isConstant', _, _, _, _⟩ := other
    obtain rfl : order = .big := big
    obtain rfl : format = ⟨w, .little, signed⟩ := little
    cases v with
    | int n =>
      rw [DataType.write_integer_eq, DataType.write_integer_eq]
      show (if IntegerFormat.lowest ⟨w, .big, signed⟩ ≤ n ∧ n ≤ IntegerFormat.highest ⟨w, .big, signed⟩
        then _ else _) = _
      split
      · rw [IntegerFormat.toBytes_little]
        rfl
      · rfl
    | bytes _ | text _ | ipv4 _ | bits _ => rfl

/-! ## All types -/

namespace DataType

variable {x : BitString}

theorem wholeBytes_eq_ok {kind : Kind} (h : x.length % 8 = 0) : wholeBytes kind x = .ok x.toBytes := by
  rw [wholeBytes, if_pos (BitString.isAligned_iff.mpr h)]

theorem length_eq_32 {bounds : Nat × Option Nat} (hb : bounds = (32, some 32)) {n : Nat}
    (h : bounds.1 ≤ n ∧ ∀ m ∈ bounds.2, n ≤ m) : n = 32 := by
  subst hb
  exact Nat.le_antisymm (h.2 32 rfl) h.1

/-- Bytes are written as they are if there may be so many. -/
theorem write_read_raw {allowed : Allowed (List UInt8)} (h : (raw allowed).acceptsLength x.length = true) :
    ∃ v, (raw allowed).read x = .ok v ∧ (raw allowed).write v = .ok x := by
  have whole : x.length % 8 = 0 := (acceptsLength_iff.mp h).2.2
  refine ⟨.bytes x.toBytes, ?_, ?_⟩
  · show (wholeBytes .raw x).bind _ = _
    rw [wholeBytes_eq_ok whole]
    rfl
  · show (if (raw allowed).acceptsLength (BitString.ofBytes x.toBytes).length then _ else _) = _
    rw [BitString.ofBytes_toBytes whole, if_pos h]

theorem write_read_ascii {allowed : Allowed AsciiText} (whole : x.length % 8 = 0) (low : ∀ b ∈ x.toBytes, b < 128) :
    ∃ v, (ascii allowed).read x = .ok v ∧ (ascii allowed).write v = .ok x := by
  refine ⟨.text (Text.ofAscii x.toBytes), ?_, ?_⟩
  · show (wholeBytes .ascii x).bind _ = _
    rw [wholeBytes_eq_ok whole]
    exact if_pos (List.all_eq_true.mpr fun b hb => decide_eq_true (low b hb))
  · show (if Text.isAscii (Text.ofAscii x.toBytes) then _ else _) = _
    rw [if_pos (Text.isAscii_ofAscii low), Text.utf8_ofAscii low, BitString.ofBytes_toBytes whole]

theorem write_read_integer {type : IntegerType} (h : x.length = type.format.width.bits) :
    ∃ v, (integer type).read x = .ok v ∧ (integer type).write v = .ok x := by
  have length := length_toBytes_of_width h
  refine ⟨_, (read_integer_eq_ok type).mpr ⟨h, rfl⟩, ?_⟩
  apply (write_integer_eq_ok type).mpr
  refine ⟨_, rfl, (IntegerFormat.ofBytes_mem length).1, ?_⟩
  rw [IntegerFormat.toBytes_ofBytes length, BitString.ofBytes_toBytes]
  rw [h, IntegerWidth.bits_mod]

theorem write_read_ipv4 {fixed : Option Ipv4Address} (h : x.length = 32) :
    ∃ v, (ipv4 fixed).read x = .ok v ∧ (ipv4 fixed).write v = .ok x := by
  have four : x.toBytes.length = 4 := by rw [BitString.length_toBytes, h]
  obtain ⟨a, b, c, d, octets⟩ : ∃ a b c d, x.toBytes = [a, b, c, d] := by
    match hx : x.toBytes, four with
    | [a, b, c, d], _ => exact ⟨a, b, c, d, rfl⟩
  refine ⟨.ipv4 ⟨a, b, c, d⟩, ?_, ?_⟩
  · rw [read, octets]
    exact if_pos h
  · show Except.ok (BitString.ofBytes [a, b, c, d]) = _
    rw [← octets, BitString.ofBytes_toBytes (by omega)]

theorem write_timestamp_eq (fixed : Option UInt32) (n : Int) :
    (timestamp fixed).write (.int n) = if 0 ≤ n ∧ n < Word.count 32 then .ok (wordBits (UInt32.ofNat n.toNat))
      else .error (.outOfRange .timestamp (Value.int n).render) := rfl

theorem write_read_timestamp {fixed : Option UInt32} (h : x.length = 32) :
    ∃ v, (timestamp fixed).read x = .ok v ∧ (timestamp fixed).write v = .ok x := by
  have four : x.toBytes.length = 4 := by rw [BitString.length_toBytes, h]
  have below : Bytes.toNat x.toBytes < Word.count 32 := by
    have fits := Bytes.toNat_lt x.toBytes
    rw [four] at fits
    exact fits
  have same : Bytes.bigEndian 4 (Bytes.toNat x.toBytes) = x.toBytes := by
    have h := Bytes.bigEndian_toNat x.toBytes
    rw [four] at h
    exact h
  refine ⟨.int (Bytes.toNat x.toBytes), ?_, ?_⟩
  · rw [read, if_pos h]
  · have fits : (0 : Int) ≤ Bytes.toNat x.toBytes ∧ (Bytes.toNat x.toBytes : Int) < Word.count 32 :=
      ⟨Int.natCast_nonneg _, Int.ofNat_lt.mpr below⟩
    rw [write_timestamp_eq, if_pos fits, Int.toNat_natCast, wordBits, UInt32.toNat_ofNat_of_lt' below, same,
      BitString.ofBytes_toBytes (by omega)]

/-- What a type accepts it reads, and it writes the value that it has read as the same content again. -/
theorem write_read {t : DataType} (h : t.accepts x = true) : ∃ v, t.read x = .ok v ∧ t.write v = .ok x := by
  have length := acceptsLength_of_accepts h
  obtain ⟨least, greatest, multiple⟩ := acceptsLength_iff.mp length
  cases t with
  | raw allowed => exact write_read_raw length
  | ascii allowed =>
    simp only [accepts, Bool.and_eq_true, List.all_eq_true, decide_eq_true_eq] at h
    exact write_read_ascii multiple h.1.2
  | integer type =>
    simp only [accepts, Bool.and_eq_true, beq_iff_eq] at h
    exact write_read_integer h.1.1
  | bits allowed => exact ⟨.bits x, rfl, rfl⟩
  | ipv4 fixed => exact write_read_ipv4 (length_eq_32 rfl ⟨least, greatest⟩)
  | timestamp fixed => exact write_read_timestamp (length_eq_32 rfl ⟨least, greatest⟩)

/--
Typed values lose nothing: every content that a type accepts is read as a value that is written as this content. An
integer type moreover writes exactly the numbers of its format and reads them back, takes the sign of a number from
two's complement, and writes its bytes in little-endian order as the reverse of those in big-endian order.
-/
theorem codecs_lossless :
    (∀ (t : DataType) (x : BitString), t.accepts x = true → ∃ v, t.read x = .ok v ∧ t.write v = .ok x) ∧
    ∀ type : IntegerType, type.Codes :=
  ⟨fun _ _ h => write_read h, IntegerType.codes⟩

/-- Minus two in two bytes, in either order, and an address that is written as it was read. -/
theorem codecs_lossless_minusTwo :
    let big : IntegerType := .full ⟨.two, .big, true⟩
    let little : IntegerType := .full ⟨.two, .little, true⟩
    (integer big).write (.int (-2)) = .ok (.ofBytes [255, 254]) ∧
      (integer little).write (.int (-2)) = .ok (.ofBytes [254, 255]) ∧
      (integer big).read (.ofBytes [255, 254]) = .ok (.int (-2)) ∧
      (ipv4 none).accepts (.ofBytes [10, 0, 0, 1]) = true ∧
      ∃ v, (ipv4 none).read (.ofBytes [10, 0, 0, 1]) = .ok v ∧ (ipv4 none).write v = .ok (.ofBytes [10, 0, 0, 1]) := by
  intro big little
  obtain ⟨lossless, codes⟩ := codecs_lossless
  have written : (integer big).write (.int (-2)) = .ok (.ofBytes [255, 254]) := by decide
  have mirrored := (codes big).mirrored little rfl rfl (.int (-2))
  rw [written] at mirrored
  have accepted : (ipv4 none).accepts (.ofBytes [10, 0, 0, 1]) = true := by decide
  exact ⟨written, mirrored, (codes big).read_of_write _ _ written, accepted, lossless _ _ accepted⟩

end DataType

end WireGrammar
