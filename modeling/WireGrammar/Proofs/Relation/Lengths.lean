import Mathlib.Data.List.Basic
import WireGrammar.Proofs.Bits.Sequence
import WireGrammar.Proofs.Relation.Stability

/-!
# The lengths of the values of relations

A keyed digest has as many bytes as its algorithm gives (`HashAlgorithm.length_keyed`), and a number as many bits as
its integer type. So the value of such a relation has the length that its type leaves (`Relation.IsFixed.length_eq`),
which may stand for it before it is computed.
-/

namespace WireGrammar

/-! ## Digests -/

section Digests

variable (message : List UInt8)

theorem length_flatMap_const {α β : Type} {f : α → List β} {n : Nat} (h : ∀ x, (f x).length = n) (xs : List α) :
    (xs.flatMap f).length = xs.length * n := by
  induction xs with
  | nil => simp
  | cons x xs ih => rw [List.flatMap_cons, List.length_append, h, ih, List.length_cons, Nat.succ_mul, Nat.add_comm]

theorem Md5.length_digest : (Md5.digest message).length = 16 := by
  unfold Md5.digest
  rw [length_flatMap_const fun word => Bytes.length_littleEndian 4 _]
  rfl

theorem Sha1.length_digest : (Sha1.digest message).length = 20 := by
  unfold Sha1.digest
  rw [length_flatMap_const fun word => Bytes.length_bigEndian 4 _]
  rfl

theorem Sha2.length_digest (h : Sha2) (hd : h.digestBytes ≤ 8 * h.wordBytes) :
    (h.digest message).length = h.digestBytes := by
  unfold Sha2.digest
  rw [List.length_take, length_flatMap_const fun word => Bytes.length_bigEndian h.wordBytes _]
  exact Nat.min_eq_left hd

namespace HashAlgorithm

theorem digestBytes_le (algorithm : HashAlgorithm) :
    algorithm.digestBytes ≤ (algorithm.digest message).length := by
  cases algorithm with
  | md5 => rw [digest, Md5.length_digest]; decide
  | sha1 => rw [digest, Sha1.length_digest]; decide
  | sha1Truncated => rw [digest, Sha1.length_digest]; decide
  | sha224 => rw [digest, Sha2.length_digest _ Sha2.sha224 (by decide)]; decide
  | sha256 => rw [digest, Sha2.length_digest _ Sha2.sha256 (by decide)]; decide
  | sha384 => rw [digest, Sha2.length_digest _ Sha2.sha384 (by decide)]; decide
  | sha512 => rw [digest, Sha2.length_digest _ Sha2.sha512 (by decide)]; decide

/-- A keyed digest has the length of its algorithm. -/
theorem length_keyed (algorithm : HashAlgorithm) (key : List UInt8) :
    (algorithm.keyed key message).length = algorithm.digestBytes := by
  unfold keyed
  rw [List.length_take]
  exact Nat.min_eq_left (digestBytes_le _ algorithm)

end HashAlgorithm

end Digests

/-! ## Relations -/

@[simp] theorem DataType.fixedLength?_integer (type : IntegerType) :
    (DataType.integer type).fixedLength? = some type.format.width.bits := by
  simp [fixedLength?, bounds]

@[simp] theorem DataType.fixedLength?_rawExactly (n : Nat) : (rawExactly n).fixedLength? = some (n * 8) := by
  simp [fixedLength?, bounds, rawExactly, scaleRange, LengthRange.exactly]

theorem DataType.bounds_of_fixedLength? {type : DataType} {n : Nat} (h : type.fixedLength? = some n) :
    type.bounds = (n, some n) := by
  unfold fixedLength? at h
  split at h
  next least greatest hb =>
    obtain ⟨rfl, he⟩ := Option.ite_none_right_eq_some.mp h
    cases he
    exact hb
  next => cases h

namespace Relation

variable {r : Relation} {a : Assignment} {bits : BitString}

/-- A number is as long as its type. -/
theorem length_of_writeInt {n : Int} {type : IntegerType} (ht : r.type = .integer type)
    (h : r.writeInt n = .ok (.ready bits)) : bits.length = type.format.width.bits := by
  unfold writeInt at h
  rw [ht] at h
  cases hw : (DataType.integer type).write (.int n) with
  | error e => rw [hw] at h; cases h
  | ok value =>
    rw [hw] at h
    cases h
    have steps : (DataType.integer type).write (.int n) =
        discard (IntegerType.checkBounds type.format n) >>= fun _ => .ok (.ofBytes (type.format.toBytes n)) := rfl
    rw [steps] at hw
    cases hb : IntegerType.checkBounds type.format n with
    | error e => rw [hb] at hw; cases hw
    | ok checked =>
      rw [hb] at hw
      cases hw
      change 8 * (type.format.endianness.toBytes type.format.width.bytes _).length = _
      rw [Endianness.length_toBytes]
      rfl

theorem writeInt_ne_length {n : Int} {length : Nat} : r.writeInt n ≠ .ok (.length length) := by
  unfold writeInt
  split <;> nofun

/-- A relation whose values all have the one length that its type leaves. -/
def IsFixed (r : Relation) : Prop :=
  match r.rule with
  | .size _ | .internetChecksum | .crc32 => ∃ type, r.type = .integer type
  | .keyedDigest algorithm _ => r.type = .rawExactly algorithm.digestBytes
  | .copy | .padding .. => False

/-- What such a relation computes has the length that its type leaves. -/
theorem IsFixed.length_eq (h : r.IsFixed) (hc : r.Computes a bits) : r.type.fixedLength? = some bits.length := by
  have number {n : Int} (ht : ∃ type, r.type = .integer type)
      (hw : r.writeInt n = .ok (.ready bits) ∨ ∃ length, r.writeInt n = .ok (.length length) ∧ bits.length = length) :
      r.type.fixedLength? = some bits.length := by
    obtain ⟨type, ht⟩ := ht
    rcases hw with hw | ⟨length, hw, -⟩
    · rw [length_of_writeInt ht hw, ht, DataType.fixedLength?_integer]
    · exact absurd hw writeInt_ne_length
  have waits : ¬ ((Except.ok Outcome.waiting : Except RelationError Outcome) = .ok (.ready bits) ∨
      ∃ n, (Except.ok Outcome.waiting : Except RelationError Outcome) = .ok (.length n) ∧ bits.length = n) := by
    rintro (hw | ⟨n, hw, -⟩) <;> cases hw
  unfold IsFixed at h
  unfold Computes evaluate at hc
  split at hc
  next scale hr =>
    rw [hr] at h
    split at hc
    · exact number h hc
    · exact absurd hc waits
  next hr => rw [hr] at h; cases h
  next hr =>
    rw [hr] at h
    split at hc
    · exact number h hc
    · exact absurd hc waits
  next hr =>
    rw [hr] at h
    split at hc
    · exact number h hc
    · exact absurd hc waits
  next algorithm key hr =>
    rw [hr] at h
    split at hc
    · rcases hc with hw | ⟨n, hw, -⟩
      · cases hw
        rw [h, DataType.fixedLength?_rawExactly, Nat.mul_comm, ← HashAlgorithm.length_keyed _ algorithm key]
        rfl
      · cases hw
    · exact absurd hc waits
  next hr => rw [hr] at h; cases h

/-- A padding whose unit is left open, so that its bits are drawn. -/
def IsOpenPadding (r : Relation) : Prop :=
  (∃ modulo once scale, r.rule = .padding modulo once scale) ∧ r.type.constant? = none

/-- Only for a padding with an open unit the length alone is determined. -/
theorem isOpenPadding_of_length {n : Nat} (h : r.evaluate a = .ok (.length n)) : r.IsOpenPadding := by
  unfold evaluate at h
  split at h
  next => split at h <;> first | exact absurd h writeInt_ne_length | cases h
  next =>
    split at h
    next t _ =>
      split at h
      next => cases h
      next =>
        cases hb : a.targetBits? t r.id with
        | none => rw [hb] at h; cases h
        | some own => rw [hb] at h; cases h
    next => cases h
  next => split at h <;> first | exact absurd h writeInt_ne_length | cases h
  next => split at h <;> first | exact absurd h writeInt_ne_length | cases h
  next => split at h <;> cases h
  next modulo once scale hr =>
    split at h
    next =>
      cases hc : r.type.constant? with
      | none => exact ⟨⟨modulo, once, scale, hr⟩, hc⟩
      | some unit => rw [hc] at h; cases h
    next => cases h

end Relation

end WireGrammar
