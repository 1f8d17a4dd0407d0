import WireGrammar.Proofs.Generation.Closed
import WireGrammar.Proofs.Generation.Modes

/-!
# Data mutators

Where all mutators of leaves are data mutators they stay so whatever generation does, also when it fails
(`Gen.KeepsData`), and what one of them answers is returned for its leaf (`fromDataLeaf?_returns`). A value that a data
mutator makes up for a type without a greatest length may be as long as the cap of mutators
(`DataMutator.exists_longest`).
-/

namespace WireGrammar

open Generation

/-! ## The longest values -/

/-- Without a greatest length, the units between the least length and the cap of mutators are whole. -/
theorem DataType.length_of_units {type : DataType} (h : type.bounds.2 = none) :
    type.bounds.1 + (max type.bounds.1 DataMutator.capBits - type.bounds.1) / type.unit * type.unit =
      max type.bounds.1 DataMutator.capBits := by
  have units : type.unit ∣ type.bounds.1 ∧ type.unit ∣ DataMutator.capBits := by
    cases type with
    | integer | ipv4 | timestamp => cases h
    | raw allowed | ascii allowed =>
      cases allowed with
      | only content => cases h
      | within range => exact ⟨Nat.dvd_mul_left 8 range.least, Nat.dvd_mul_right 8 64⟩
    | bits allowed => exact ⟨Nat.one_dvd _, Nat.one_dvd _⟩
  have whole : type.unit ∣ max type.bounds.1 DataMutator.capBits - type.bounds.1 := by
    rcases Nat.le_total type.bounds.1 DataMutator.capBits with hle | hle
    · rw [Nat.max_eq_right hle]
      exact Nat.dvd_sub units.2 units.1
    · rw [Nat.max_eq_left hle, Nat.sub_self]
      exact Nat.dvd_zero _
  rw [Nat.div_mul_cancel whole]
  omega

/-- A register whose words are brought between a number and itself gives this number for ever. -/
theorem NumberSource.next_constant (state : UInt64) (n : Nat) :
    (xorshift state n n).next = (.ok n, xorshift (xorshiftStep state) n n) := by
  have narrow : ¬ 0 = Word.count 64 - 1 := by decide
  rw [next, bringBetween, Nat.sub_self, if_neg narrow, Nat.zero_add, Nat.mod_one, Nat.add_zero]

namespace DataMutator

variable {m : DataMutator} {k : Nat}

theorem Run.run_bind {α β : Type} {r : Run α} {f : α → Run β} {x : α} {next : DataMutator}
    (h : r.run.run m = (.ok x, next)) : (r >>= f).run.run m = (f x).run.run next := by
  rw [run_run_bind, h]

/-- The numbers of the mutator are all the same. -/
def IsConstant (m : DataMutator) (k : Nat) : Prop :=
  ∃ state, m.source = .xorshift state k k

theorem number_run (h : m.IsConstant k) : ∃ next, number.run.run m = (.ok k, next) ∧ next.IsConstant k := by
  obtain ⟨state, hs⟩ := h
  have given : m.source.next = (.ok k, .xorshift (NumberSource.xorshiftStep state) k k) := by
    rw [hs, NumberSource.next_constant]
  refine ⟨{ m with source := m.source.next.2 }, ?_, _, congrArg Prod.snd given⟩
  change (number.liftExcept m.source.next.1).run.run { m with source := m.source.next.2 } = _
  rw [given]
  rfl

theorem words_run (h : m.IsConstant k) (n : Nat) : ∃ bytes next, (words n).run.run m = (.ok bytes, next) := by
  induction n generalizing m with
  | zero => exact ⟨[], m, rfl⟩
  | succ n ih =>
    obtain ⟨next, hn, constant⟩ := number_run h
    obtain ⟨rest, last, hr⟩ := ih constant
    refine ⟨Bytes.bigEndian 8 k ++ rest, last, ?_⟩
    rw [words, Run.run_bind hn, Run.run_bind hr]
    rfl

theorem bits_run (h : m.IsConstant k) (n : Nat) :
    ∃ value next, (bits n).run.run m = (.ok value, next) ∧ value.length = n := by
  obtain ⟨bytes, next, hb⟩ := words_run h ((n + 63) / 64)
  have run : (bits n).run.run m = (.ok ((BitString.ofBytes bytes).slice 0 n), next) := by
    rw [bits, Run.run_bind hb]
    rfl
  have drawn := (bits_draws n m).2
  rw [run] at drawn
  cases drawn with
  | ok length => exact ⟨_, next, run, length⟩

/-- No bound below the cap holds of the values that data mutators make up for a type without a greatest length. -/
theorem exists_longest {type : DataType} (h : type.bounds.2 = none) :
    ∃ m : DataMutator, m.mode = .generate ∧ ∃ value,
      ((LeafMutator.data m).generate type).1 = .ok value ∧ value.length = max type.bounds.1 capBits := by
  -- the number that picks all units between the least length and the cap, whatever is drawn before and after it
  let k := (max type.bounds.1 capBits - type.bounds.1) / type.unit
  let start := DataMutator.of .generate (.xorshift 1 k k)
  let ticked := { start with used := 1 }
  have tick_run : tick.run.run start = (.ok (), ticked) := rfl
  have constant : ticked.IsConstant k := ⟨1, rfl⟩
  have run : ∃ value next, (generate type).run.run start = (.ok value, next) ∧
      value.length = max type.bounds.1 capBits := by
    rw [generate, Run.run_bind tick_run]
    dsimp only
    rw [h, Option.getD_none]
    split
    next longer =>
      obtain ⟨next, hn, constant⟩ := number_run constant
      rw [Run.run_bind hn]
      show ∃ value last, (bits (type.bounds.1 + k % (k + 1) * type.unit)).run.run next = (.ok value, last) ∧ _
      rw [Nat.mod_eq_of_lt (Nat.lt_succ_self k), DataType.length_of_units h]
      exact bits_run constant _
    next short =>
      have least : max type.bounds.1 capBits = type.bounds.1 := by omega
      rw [least]
      exact bits_run constant _
  obtain ⟨value, next, hv, length⟩ := run
  exact ⟨start, rfl, value, congrArg Prod.fst hv, length⟩

end DataMutator

/-! ## All mutators of leaves -/

/-- All mutators of leaves are data mutators. -/
def Mutators.OnlyData (m : Mutators) : Prop :=
  ∀ id mutator, m.leaves.lookup id = some mutator → ∃ own, mutator = .data own

theorem Mutators.OnlyData.of_leaves {m next : Mutators} (h : next.leaves = m.leaves) (hm : m.OnlyData) :
    next.OnlyData := by
  unfold OnlyData
  rw [h]
  exact hm

theorem Mutators.OnlyData.bindLeaf {m : Mutators} (hm : m.OnlyData) (id : VarId) (own : DataMutator) :
    (m.bindLeaf id (.data own)).OnlyData := by
  intro other mutator hl
  change (bind id (.data own) m.leaves).lookup other = some mutator at hl
  rw [lookup_bind] at hl
  split at hl
  next => exact ⟨own, (Option.some.inj hl).symm⟩
  next => exact hm other mutator hl

/-- The mutators have the given modes, and those of leaves are data mutators. -/
structure HasDataModes (modes : Modes) (mutators? : Option Mutators) : Prop where
  modes : HasModes modes mutators?
  data : ∀ m ∈ mutators?, m.OnlyData

theorem HasDataModes.of_leaves {modes : Modes} {m next : Mutators} (h : next.leaves = m.leaves)
    (hm : HasDataModes modes (some m)) : HasDataModes modes (some next) := by
  refine ⟨hm.modes.of_leaves h, ?_⟩
  rintro _ ⟨⟩
  exact (hm.data m rfl).of_leaves h

/-- What the data mutators of leaves answer is returned. -/
theorem Generation.fromDataLeaf?_returns {ρ : Type} {modes : Modes} {P : BitString → Prop} (id : VarId)
    {use : LeafMutator → Except MutationError BitString × LeafMutator} {r : DataMutator.Run BitString}
    (same : ∀ own, use (.data own) = ((r.run.run own).1, .data (r.run.run own).2)) (h : r.Ends P) :
    Returns (ρ := ρ) (HasDataModes modes) (fromLeaf? id use) fun value? =>
      value?.isSome = (modes id).isSome ∧ ∀ value, value? = some value → P value := by
  refine fromMutators?_returns (fun hm => ⟨by rw [← hm.modes id]; rfl, nofun⟩) fun m hm => ⟨fun hn => ?_, ?_⟩
  · rw [hm.modes.isSome_eq, Option.map_eq_none_iff.mp hn]
    exact ⟨rfl, nofun⟩
  · intro result next hn
    obtain ⟨mutator, hl, he⟩ := Option.map_eq_some_iff.mp hn
    obtain ⟨own, rfl⟩ := hm.data m rfl id mutator hl
    obtain ⟨mode, answers⟩ := h own
    rw [same own] at he
    cases he
    refine ⟨⟨hm.modes.bindLeaf hl mode, ?_⟩, fun value hv => ⟨?_, ?_⟩⟩
    · rintro _ ⟨⟩
      exact (hm.data m rfl).bindLeaf id _
    · rw [hm.modes.isSome_eq, hl]
      rfl
    · rintro _ ⟨⟩
      rw [hv] at answers
      cases answers with
      | ok hp => exact hp

/-! ## Whatever generation does -/

section Kept

variable {ρ α β : Type}

/-- If the mutators of leaves are data mutators before, they are so afterwards, however the computation ends. -/
def Gen.KeepsData (g : Gen ρ α) : Prop :=
  ∀ supply, (∀ m ∈ supply.mutators?, m.OnlyData) → ∀ m ∈ (g.run.run supply).2.mutators?, m.OnlyData

namespace Gen.KeepsData

theorem pure (x : α) : KeepsData (ρ := ρ) (Pure.pure x) :=
  fun _ h => h

theorem throw (e : GenerationError) : KeepsData (ρ := ρ) (α := α) (MonadExcept.throw e) :=
  fun _ h => h

theorem bind {g : Gen ρ α} {f : α → Gen ρ β} (h : KeepsData g) (hf : ∀ x, KeepsData (f x)) : KeepsData (g >>= f) := by
  intro supply hs
  have kept := h supply hs
  rw [run_bind]
  generalize g.run.run supply = left at kept
  obtain ⟨result, next⟩ := left
  cases result with
  | ok x => exact hf x next kept
  | error e => exact kept

theorem fromSource (draw : StateM ρ α) : KeepsData (fromSource draw) :=
  fun _ h => h

theorem closed [RandomSource ρ] : Gen.Closed (ρ := ρ) KeepsData :=
  .of_throw pure bind fromSource throw

theorem fromMutators? {pick : Mutators → Option (Except MutationError α × Mutators)}
    (h : ∀ {m result next}, m.OnlyData → pick m = some (result, next) → next.OnlyData) :
    KeepsData (ρ := ρ) (fromMutators? pick) := by
  intro supply hs
  rw [fromMutators?_run]
  cases hp : supply.mutators?.bind pick with
  | none => exact hs
  | some p =>
    obtain ⟨result, next⟩ := p
    obtain ⟨m, hm, hp⟩ := Option.bind_eq_some_iff.mp hp
    have kept : next.OnlyData := h (hs m hm) hp
    cases result <;>
    · rintro _ ⟨⟩
      exact kept

theorem fromLeaf? (id : VarId) {use : LeafMutator → Except MutationError BitString × LeafMutator}
    (h : ∀ own, ∃ next, (use (.data own)).2 = .data next) : KeepsData (ρ := ρ) (fromLeaf? id use) := by
  refine fromMutators? fun {m result next} hm hp => ?_
  obtain ⟨mutator, hl, he⟩ := Option.map_eq_some_iff.mp hp
  obtain ⟨own, rfl⟩ := hm id mutator hl
  obtain ⟨after, ha⟩ := h own
  cases he
  rw [ha]
  exact hm.bindLeaf id after

theorem asks [RandomSource ρ] (id : VarId) : Gen.Asks (ρ := ρ) KeepsData id where
  mode _ h := h
  generate _ := fromLeaf? id fun _ => ⟨_, rfl⟩
  mutate _ := fromLeaf? id fun _ => ⟨_, rfl⟩
  child _ := fromMutators? fun hm hp => hm.of_leaves (Mutators.leaves_pickChild? hp)
  count := fromMutators? fun hm hp => hm.of_leaves (Mutators.leaves_pickCount? hp)

end Gen.KeepsData

end Kept

end WireGrammar
