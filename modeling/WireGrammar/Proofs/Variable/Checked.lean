import WireGrammar.Proofs.DataType.Lengths
import WireGrammar.Variable.Checked

/-!
# Relations that are built

A relation is built when it has targets, the lengths of its type are bounded, and its rule can be computed
(`mkRelation_eq_ok`).

A copy gets its type from the bounds of what it copies, before any value is known (`copyType_eq_ok`): the same bounds,
and any content in whole bytes if both bounds are whole bytes, in bits otherwise. There is such a type whenever the
bounds are in order (`exists_copyType`), and then the copy can be built (`mkCopy_eq_ok_iff`).
-/

namespace WireGrammar

variable {least greatest : Nat} {type : DataType}

theorem LengthRange.of?_eq_some {greatest? : Option Nat} {range : LengthRange}
    (h : LengthRange.of? least greatest? = some range) : range.least = least ∧ range.greatest? = greatest? := by
  cases greatest? with
  | none =>
    cases h
    exact ⟨rfl, rfl⟩
  | some greatest =>
    dsimp only [of?] at h
    split at h
    next =>
      cases h
      exact ⟨rfl, rfl⟩
    next => cases h

theorem DataType.lengthRange_eq_ok {kind : DataType.Kind} {greatest? : Option Nat} {range : LengthRange}
    (h : DataType.lengthRange kind least greatest? = .ok range) :
    range.least = least ∧ range.greatest? = greatest? := by
  unfold DataType.lengthRange at h
  split at h
  next he =>
    cases h
    exact LengthRange.of?_eq_some he
  next => cases h

/-- There is a range of lengths when its ends are in order. -/
theorem DataType.exists_lengthRange (kind : DataType.Kind) (h : least ≤ greatest) :
    ∃ range, DataType.lengthRange kind least (some greatest) = .ok range := by
  refine ⟨⟨least, some greatest, by simpa using h⟩, ?_⟩
  rw [lengthRange, LengthRange.of?, dif_pos h]

theorem Built.ofType_eq_ok {α : Type} {m : Except TypeError α} {x : α} (h : Built.ofType m = .ok x) : m = .ok x := by
  cases m with
  | error e => cases h
  | ok y =>
    cases h
    rfl

namespace Variable

/-- The unit in which the length of a copy is counted: bytes if both bounds of what is copied are whole bytes. -/
def copyUnit (bounds : Nat × Option Nat) : Nat :=
  if bounds.1 % 8 = 0 ∧ ∀ greatest ∈ bounds.2, greatest % 8 = 0 then 8 else 1

theorem copyUnit_eq (least greatest : Nat) :
    copyUnit (least, some greatest) = if least % 8 = 0 ∧ greatest % 8 = 0 then 8 else 1 := by
  simp only [copyUnit, Option.mem_def, Option.some.injEq, forall_eq']

/-- The type of a copy has the bounds of what is copied, and allows any content of its unit within them. -/
theorem copyType_eq_ok {name : String} {bounds : Nat × Option Nat} (h : copyType name bounds = .ok type) :
    type.bounds = bounds ∧ type.constant? = none ∧ type.unit = copyUnit bounds ∧
      ∀ bits, type.accepts bits = type.acceptsLength bits.length := by
  obtain ⟨least, greatest?⟩ := bounds
  cases greatest? with
  | none => cases h
  | some greatest =>
    have made := Built.ofType_eq_ok h
    rw [copyUnit_eq]
    split at made
    next whole =>
      cases hr : DataType.lengthRange .raw (least / 8) (some (greatest / 8)) with
      | error e => rw [DataType.rawWithin, hr] at made; cases made
      | ok range =>
        rw [DataType.rawWithin, hr] at made
        cases made
        obtain ⟨hl, hg⟩ := DataType.lengthRange_eq_ok hr
        refine ⟨?_, rfl, (if_pos whole).symm, fun bits => Bool.and_true _⟩
        rw [DataType.bounds, DataType.scaleRange, hl, hg, Option.map_some,
          Nat.div_mul_cancel (Nat.dvd_of_mod_eq_zero whole.1), Nat.div_mul_cancel (Nat.dvd_of_mod_eq_zero whole.2)]
    next odd =>
      cases hr : DataType.lengthRange .bits least (some greatest) with
      | error e => rw [DataType.bitsWithin, hr] at made; cases made
      | ok range =>
        rw [DataType.bitsWithin, hr] at made
        cases made
        obtain ⟨hl, hg⟩ := DataType.lengthRange_eq_ok hr
        refine ⟨?_, rfl, (if_neg odd).symm, fun bits => Bool.and_true _⟩
        rw [DataType.bounds, DataType.scaleRange, hl, hg, Option.map_some, Nat.mul_one, Nat.mul_one]

/-- There is a type for a copy when the bounds are in order. -/
theorem exists_copyType (name : String) (h : least ≤ greatest) :
    ∃ type, copyType name (least, some greatest) = .ok type := by
  unfold copyType
  split
  next heq => cases heq
  next heq =>
    cases heq
    split
    next =>
      obtain ⟨range, hr⟩ := DataType.exists_lengthRange .raw (Nat.div_le_div_right (c := 8) h)
      exact ⟨.raw (.within range), by rw [DataType.rawWithin, hr]; rfl⟩
    next =>
      obtain ⟨range, hr⟩ := DataType.exists_lengthRange .bits h
      exact ⟨.bits (.within range), by rw [DataType.bitsWithin, hr]; rfl⟩

/-- A relation is built when it has targets, the lengths of its type are bounded, and its rule can be computed. -/
theorem mkRelation_eq_ok {r : Relation} {v : Variable} (h : mkRelation r = .ok v) :
    v = .relation r ∧ r.targets ≠ [] ∧ r.type.bounds.2.isSome ∧ checkRule r = .ok () := by
  unfold mkRelation at h
  by_cases ht : r.targets.isEmpty = true
  · rw [if_pos ht] at h
    cases h
  · by_cases hb : r.type.bounds.2.isNone = true
    · rw [if_neg ht] at h
      dsimp only at h
      rw [if_pos hb] at h
      cases h
    · rw [if_neg ht] at h
      dsimp only at h
      rw [if_neg hb] at h
      cases hc : checkRule r with
      | error e => rw [hc] at h; cases h
      | ok checked =>
        rw [hc] at h
        cases h
        refine ⟨rfl, by simpa using ht, ?_, rfl⟩
        rw [← Option.not_isNone, Bool.eq_false_iff.mpr hb, Bool.not_false]

/-- A copy is built with the type that comes from the bounds of its target. -/
theorem mkCopy_eq_ok_iff {id : VarId} {name : String} {target copy : Variable} :
    mkCopy id name target = .ok copy ↔
      ∃ type, copyType name target.bounds = .ok type ∧ copy = .relation ⟨id, name, .copy, [target.id], type⟩ := by
  unfold mkCopy
  cases ht : copyType name target.bounds with
  | error e => exact ⟨nofun, fun ⟨type, h, _⟩ => nomatch h⟩
  | ok type =>
    obtain ⟨bounds, free, -, -⟩ := copyType_eq_ok ht
    have bounded : type.bounds.2.isNone = false := by
      rw [bounds]
      cases hb : target.bounds with
      | mk least greatest? =>
        cases greatest? with
        | none => rw [hb] at ht; cases ht
        | some greatest => rfl
    have made : mkRelation ⟨id, name, .copy, [target.id], type⟩ = .ok (.relation ⟨id, name, .copy, [target.id], type⟩) := by
      simp only [mkRelation, checkRule, bounded, free, List.isEmpty_cons, Option.isSome_none, Bool.false_eq_true, if_false]
      rfl
    constructor
    · intro h
      have h : mkRelation ⟨id, name, .copy, [target.id], type⟩ = .ok copy := h
      rw [made] at h
      cases h
      exact ⟨type, rfl, rfl⟩
    · rintro ⟨other, he, rfl⟩
      cases he
      exact made

end Variable

end WireGrammar
