import WireGrammar.Proofs.Assignment.Ranges
import WireGrammar.Proofs.Relation.Lengths
import WireGrammar.Proofs.Variable.Checked

/-!
# Relations that keep to the bounds of their types

The type of a relation bounds what it may compute, but nothing makes the rule observe these bounds: the value of a
padding depends on what is missing and not on its unit, and a number written as text on the number of its digits. A
relation keeps to its bounds when its rule can give no other lengths (`Relation.KeepsToBounds`); from an assignment that
keeps to bounds it then computes nothing else (`KeepsToBounds.within_of_computes`), nor does anything else stand for it
while it waits (`KeepsToBounds.within_of_candidate`).

* `keepsToBounds_of_number`, `keepsToBounds_of_mkCopy`, `keepsToBounds_of_mkKeyedDigest`: numbers that are not written
  as text, copies and digests do.
* `KeepsToBounds.least_of_padding`: a padding does not, unless its unit may be empty.
-/

namespace WireGrammar

open Variable

variable {vars : List Variable} {r : Relation} {v : Variable} {a : Assignment} {bits : BitString} {n : Nat}

/-! ## Numbers -/

/-- The bits of a number that is not written as text are as long as the type allows. -/
theorem DataType.within_of_write {t : DataType} {number : Int} (ht : t.kind ≠ .ascii)
    (h : t.write (.int number) = .ok bits) : Within t.bounds bits.length := by
  cases t with
  | raw allowed =>
    have steps : (DataType.raw allowed).write (.int number) =
        (rawBytes ((DataType.raw allowed).bounds.1 / 8) (.int number)).bind fun bytes =>
          if (DataType.raw allowed).acceptsLength (BitString.ofBytes bytes).length then .ok (.ofBytes bytes)
          else .error (.badLength .raw (BitString.ofBytes bytes).length) := rfl
    rw [steps] at h
    cases hb : rawBytes ((DataType.raw allowed).bounds.1 / 8) (.int number) with
    | error e => rw [hb] at h; cases h
    | ok bytes =>
      rw [hb] at h
      change (if _ then _ else _) = _ at h
      split at h
      next allowed =>
        cases h
        have range := acceptsLength_iff.mp allowed
        exact ⟨range.1, range.2.1⟩
      next => cases h
  | ascii allowed => exact absurd rfl ht
  | integer type =>
    have length : bits.length = type.format.width.bits :=
      Relation.length_of_writeInt (r := ⟨⟨0, []⟩, "", .crc32, [], .integer type⟩) rfl
        (by rw [Relation.writeInt, h])
    rw [length]
    exact ⟨Nat.le_refl _, fun m hm => by cases hm; exact Nat.le_refl _⟩
  | bits allowed => cases h
  | ipv4 fixed => cases h
  | timestamp fixed =>
    change (if _ then _ else _) = _ at h
    split at h
    next =>
      cases h
      rw [length_wordBits]
      exact ⟨Nat.le_refl _, fun m hm => by cases hm; exact Nat.le_refl _⟩
    next => cases h

namespace Relation

/--
The rule of a relation gives no lengths but those that the type of the relation allows, if the variables that it copies
keep to theirs.
-/
def KeepsToBounds (vars : List Variable) (r : Relation) : Prop :=
  match r.rule with
  | .size scale => ∀ total bits, r.type.write (.int (sizeOf scale total)) = .ok bits → Within r.type.bounds bits.length
  | .internetChecksum =>
    ∀ data bits, r.type.write (.int (Checksum.internet data)) = .ok bits → Within r.type.bounds bits.length
  | .crc32 => ∀ data bits, r.type.write (.int (Checksum.crc32 data)) = .ok bits → Within r.type.bounds bits.length
  | .keyedDigest algorithm _ => Within r.type.bounds (8 * algorithm.digestBytes)
  | .copy => ∀ target ∈ r.targets, ∃ v ∈ vars, v.id = target ∧ ∀ n, Within v.bounds n → Within r.type.bounds n
  | .padding modulo once scale =>
    (∀ total, Within r.type.bounds (paddingLength modulo once scale total)) ∧
      ∀ n ≤ scale.unapply modulo, n % max r.type.bounds.1 1 = 0 → Within r.type.bounds n

/-- Nothing is filled with an empty unit. -/
theorem length_fillWith (unit : BitString) (n : Nat) :
    (fillWith unit n).length = if unit.isEmpty then 0 else n := by
  unfold fillWith
  split
  · rfl
  · exact BitString.length_ofFn _ _

theorem writeInt_eq_ready_iff {number : Int} :
    r.writeInt number = .ok (.ready bits) ↔ r.type.write (.int number) = .ok bits := by
  unfold writeInt
  cases r.type.write (.int number) with
  | error e => exact ⟨nofun, nofun⟩
  | ok value => simp

/-- A candidate length fits into what remains. -/
theorem le_of_candidate {remaining : Nat} (hn : n ∈ r.candidateLengths remaining) : n ≤ remaining := by
  unfold candidateLengths at hn
  split at hn
  next =>
    obtain ⟨-, fit, -⟩ := (DataType.mem_multiplesDown (by omega)).mp hn
    omega
  next => exact (DataType.mem_candidateLengths.mp hn).1

namespace KeepsToBounds

variable (h : r.KeepsToBounds vars)

include h

/-- What such a relation computes is as long as its type allows. -/
theorem within_of_computes (ha : a.KeepsTo vars) (hc : r.Computes a bits) : Within r.type.bounds bits.length := by
  have number {k : Int} (hk : ∀ bits, r.type.write (.int k) = .ok bits → Within r.type.bounds bits.length)
      (hw : r.writeInt k = .ok (.ready bits) ∨ ∃ n, r.writeInt k = .ok (.length n) ∧ bits.length = n) :
      Within r.type.bounds bits.length := by
    rcases hw with hw | ⟨n, hw, -⟩
    · exact hk bits (writeInt_eq_ready_iff.mp hw)
    · exact absurd hw writeInt_ne_length
  have waits : ¬ ((Except.ok Outcome.waiting : Except RelationError Outcome) = .ok (.ready bits) ∨
      ∃ n, (Except.ok Outcome.waiting : Except RelationError Outcome) = .ok (.length n) ∧ bits.length = n) := by
    rintro (hw | ⟨n, hw, -⟩) <;> cases hw
  unfold KeepsToBounds at h
  unfold Computes evaluate at hc
  split at hc
  next scale hr =>
    rw [hr] at h
    split at hc
    next total _ => exact number (h total) hc
    next => exact absurd hc waits
  next hr =>
    rw [hr] at h
    split at hc
    next target ht =>
      obtain ⟨v, hv, rfl, within⟩ := h target (ht ▸ List.mem_singleton_self _)
      split at hc
      · rcases hc with hc | ⟨n, hc, -⟩ <;> cases hc
      · cases hb : a.targetBits? v.id r.id with
        | none => rw [hb] at hc; exact absurd hc waits
        | some value =>
          rw [hb] at hc
          rcases hc with hc | ⟨n, hc, -⟩
          · cases hc
            exact within _ (ha.within_targetBits? hv hb)
          · cases hc
    next => rcases hc with hc | ⟨n, hc, -⟩ <;> cases hc
  next hr =>
    rw [hr] at h
    split at hc
    next data _ => exact number (h data.toBytes) hc
    next => exact absurd hc waits
  next hr =>
    rw [hr] at h
    split at hc
    next data _ => exact number (h data.toBytes) hc
    next => exact absurd hc waits
  next algorithm key hr =>
    rw [hr] at h
    split at hc
    next data _ =>
      rcases hc with hc | ⟨n, hc, -⟩
      · cases hc
        rwa [BitString.length_ofBytes, HashAlgorithm.length_keyed]
      · cases hc
    next => exact absurd hc waits
  next modulo once scale hr =>
    rw [hr] at h
    split at hc
    next total _ =>
      cases hu : r.type.constant? with
      | none =>
        rw [hu] at hc
        rcases hc with hc | ⟨n, hc, hl⟩
        · cases hc
        · cases hc
          rw [hl]
          exact h.1 total
      | some unit =>
        rw [hu] at hc
        rcases hc with hc | ⟨n, hc, -⟩
        · cases hc
          rw [length_fillWith]
          split
          · exact h.2 0 (Nat.zero_le _) (Nat.zero_mod _)
          · exact h.1 total
        · cases hc
    next => exact absurd hc waits

/-- What may stand for such a relation while it waits is as long as its type allows. -/
theorem within_of_candidate {remaining : Nat} (hn : n ∈ r.candidateLengths remaining) : Within r.type.bounds n := by
  have typed (hn : n ∈ r.type.candidateLengths remaining) : Within r.type.bounds n := by
    have range := DataType.acceptsLength_iff.mp (DataType.mem_candidateLengths.mp hn).2
    exact ⟨range.1, range.2.1⟩
  unfold KeepsToBounds at h
  unfold candidateLengths at hn
  split at hn
  next modulo once scale hr =>
    rw [hr] at h
    obtain ⟨-, fit, multiple⟩ := (DataType.mem_multiplesDown (by omega)).mp hn
    exact h.2 n (by omega) multiple
  next => exact typed hn

/-- A padding can be empty, so it keeps to its bounds only if its unit can be empty, too. -/
theorem least_of_padding {modulo : Nat} {once : Bool} {scale : Scale} (hr : r.rule = .padding modulo once scale) :
    r.type.bounds.1 = 0 := by
  unfold KeepsToBounds at h
  rw [hr] at h
  exact Nat.le_zero.mp (h.2 0 (Nat.zero_le _) (Nat.zero_mod _)).1

end KeepsToBounds

/-- A length that is announced is one that the type allows. -/
theorem within_of_announced (hn : n ∈ Generation.announcedLength? r) : Within r.type.bounds n := by
  unfold Generation.announcedLength? at hn
  split at hn
  · cases hn
  · rw [DataType.bounds_of_fixedLength? hn]
    exact ⟨Nat.le_refl _, fun m hm => by cases hm; exact Nat.le_refl _⟩

/-! ## Which relations do -/

/-- A size or a checksum keeps to its bounds unless it is written as text. -/
theorem keepsToBounds_of_number (hk : r.type.kind ≠ .ascii)
    (hr : r.rule = .internetChecksum ∨ r.rule = .crc32 ∨ ∃ scale, r.rule = .size scale) : r.KeepsToBounds vars := by
  unfold KeepsToBounds
  rcases hr with hr | hr | ⟨scale, hr⟩ <;> rw [hr] <;> exact fun _ _ hw => DataType.within_of_write hk hw

/-- A copy that is built from a variable keeps to its bounds where that variable does. -/
theorem keepsToBounds_of_mkCopy {id : VarId} {name : String} (h : mkCopy id name v = .ok (.relation r)) (hv : v ∈ vars) :
    r.KeepsToBounds vars := by
  obtain ⟨type, ht, hr⟩ := mkCopy_eq_ok_iff.mp h
  cases hr
  intro target htarget
  obtain rfl := List.mem_singleton.mp htarget
  refine ⟨v, hv, rfl, fun n hn => ?_⟩
  rwa [(copyType_eq_ok ht).1]

/-- Checksums and digests keep to the bounds of the types that they are built with. -/
theorem keepsToBounds_of_mkInternetChecksum {id : VarId} {name : String} {targets : List VarId}
    (h : mkInternetChecksum id name targets = .ok (.relation r)) : r.KeepsToBounds vars := by
  obtain ⟨hr, -⟩ := mkRelation_eq_ok h
  cases hr
  exact keepsToBounds_of_number (show DataType.Kind.integer ≠ .ascii by decide) (Or.inl rfl)

theorem keepsToBounds_of_mkCrc32 {id : VarId} {name : String} {targets : List VarId}
    (h : mkCrc32 id name targets = .ok (.relation r)) : r.KeepsToBounds vars := by
  obtain ⟨hr, -⟩ := mkRelation_eq_ok h
  cases hr
  exact keepsToBounds_of_number (show DataType.Kind.integer ≠ .ascii by decide) (Or.inr (Or.inl rfl))

theorem keepsToBounds_of_mkKeyedDigest {id : VarId} {name : String} {targets : List VarId}
    {algorithm : HashAlgorithm} {key : List UInt8}
    (h : mkKeyedDigest id name targets algorithm key = .ok (.relation r)) : r.KeepsToBounds vars := by
  obtain ⟨hr, -⟩ := mkRelation_eq_ok h
  cases hr
  have length : 8 * algorithm.digestBytes = algorithm.digestBytes * 8 := Nat.mul_comm _ _
  exact ⟨length.ge, fun m hm => by cases hm; exact length.le⟩

end Relation

end WireGrammar
