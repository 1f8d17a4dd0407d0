import WireGrammar.Proofs.Generation.Settling

/-!
# Modes of mutators

How the use of a mutator ends: a value that is made up has a length of the type, a disturbed one keeps its length, and
a failure is one of the mutator itself (`DataMutator.generate_ends`, `mutate_ends`). To use a mutator changes its
numbers and its counter, but never how it takes part in the value of a leaf, so all leaves keep their modes while a
message is generated (`fromLeaf?_returns`).

* `HasModes`: the leaves have mutators of the given modes.
-/

namespace WireGrammar

/-! ## The mutator of a leaf -/

/-- Failures of one mutator, as opposed to those of the budget that all of them share. -/
def MutationError.IsOwn : MutationError → Prop
  | depthExceeded _ => False
  | exhausted | maxCounter _ | invalidPosition .. => True

/-- A mutator answers with a value that satisfies a condition, or has a failure of its own. -/
inductive Answers {α : Type} (P : α → Prop) : Except MutationError α → Prop where
  | ok {x : α} (h : P x) : Answers P (.ok x)
  | error {e : MutationError} (h : e.IsOwn) : Answers P (.error e)

theorem Answers.mono {α : Type} {P P' : α → Prop} {result : Except MutationError α} (h : Answers P result)
    (hp : ∀ x, P x → P' x) : Answers P' result := by
  cases h with
  | ok hx => exact .ok (hp _ hx)
  | error he => exact .error he

/-- A source gives a value that satisfies a condition, or is exhausted. -/
inductive Drawn {α : Type} (P : α → Prop) : Except MutationError α → Prop where
  | ok {x : α} (h : P x) : Drawn P (.ok x)
  | exhausted : Drawn P (.error .exhausted)

theorem Drawn.answers {α : Type} {P : α → Prop} {result : Except MutationError α} (h : Drawn P result) :
    Answers P result := by
  cases h with
  | ok hx => exact .ok hx
  | exhausted => exact .error trivial

theorem NumberSource.next_drawn (source : NumberSource) : Drawn (fun _ => True) source.next.1 := by
  cases source with
  | xorshift | pcg => exact .ok trivial
  | list values position cyclic =>
    rw [next]
    split
    next => exact .ok trivial
    next => exact .exhausted

namespace DataMutator

variable {α β : Type} {P : α → Prop} {Q : β → Prop}

/-- A computation with a mutator answers so and leaves the mode as it is. -/
def Run.Ends (r : Run α) (P : α → Prop) : Prop :=
  ∀ m, (r.run.run m).2.mode = m.mode ∧ Answers P (r.run.run m).1

namespace Run.Ends

theorem pure {x : α} (h : P x) : Ends (Pure.pure x) P :=
  fun _ => ⟨rfl, .ok h⟩

theorem throw {e : MutationError} (h : e.IsOwn) : Ends (MonadExcept.throw e) P :=
  fun _ => ⟨rfl, .error h⟩

/-- The mutator may be read first. -/
theorem get_bind {f : DataMutator → Run α}
    (h : ∀ m, ((f m).run.run m).2.mode = m.mode ∧ Answers P ((f m).run.run m).1) : Ends (MonadState.get >>= f) P :=
  h

theorem bind {r : Run α} {f : α → Run β} (h : Ends r P) (hf : ∀ x, P x → Ends (f x) Q) : Ends (r >>= f) Q := by
  intro m
  rw [run_run_bind]
  obtain ⟨mode, answers⟩ := h m
  generalize r.run.run m = left at mode answers ⊢
  obtain ⟨result, next⟩ := left
  cases answers with
  | error he => exact ⟨mode, .error he⟩
  | ok hx =>
    obtain ⟨mode', answers⟩ := hf _ hx next
    exact ⟨mode'.trans mode, answers⟩

theorem mono {P' : α → Prop} {r : Run α} (h : Ends r P) (hp : ∀ x, P x → P' x) : Ends r P' := by
  intro m
  obtain ⟨mode, answers⟩ := h m
  exact ⟨mode, answers.mono hp⟩

end Run.Ends

open Run.Ends

theorem tick_ends : tick.Ends fun _ => True := by
  refine get_bind fun m => ?_
  split
  next => exact ⟨rfl, .error trivial⟩
  next => exact ⟨rfl, .ok trivial⟩

/-- A computation takes numbers of the source only, and fails only when that is exhausted. -/
def Run.Draws (r : Run α) (P : α → Prop) : Prop :=
  ∀ m, (∃ source, (r.run.run m).2 = { m with source }) ∧ Drawn P (r.run.run m).1

namespace Run.Draws

theorem pure {x : α} (h : P x) : Draws (Pure.pure x) P :=
  fun m => ⟨⟨m.source, rfl⟩, .ok h⟩

theorem bind {r : Run α} {f : α → Run β} (h : Draws r P) (hf : ∀ x, P x → Draws (f x) Q) : Draws (r >>= f) Q := by
  intro m
  rw [run_run_bind]
  obtain ⟨frame, drawn⟩ := h m
  generalize r.run.run m = left at frame drawn ⊢
  obtain ⟨result, next⟩ := left
  cases drawn with
  | exhausted => exact ⟨frame, .exhausted⟩
  | ok hx =>
    obtain ⟨source, rfl⟩ := frame
    exact hf _ hx _

theorem mono {P' : α → Prop} {r : Run α} (h : Draws r P) (hp : ∀ x, P x → P' x) : Draws r P' := by
  intro m
  obtain ⟨frame, drawn⟩ := h m
  refine ⟨frame, ?_⟩
  generalize (r.run.run m).1 = result at drawn
  cases drawn with
  | ok hx => exact .ok (hp _ hx)
  | exhausted => exact .exhausted

theorem ends {r : Run α} (h : Draws r P) : Ends r P := by
  intro m
  obtain ⟨⟨source, frame⟩, drawn⟩ := h m
  exact ⟨by rw [frame], drawn.answers⟩

end Run.Draws

theorem number_draws : number.Draws fun _ => True := by
  intro m
  have drawn := m.source.next_drawn
  change (∃ source, ((number.liftExcept m.source.next.1).run.run { m with source := m.source.next.2 }).2 =
    { m with source }) ∧
      Drawn _ ((number.liftExcept m.source.next.1).run.run { m with source := m.source.next.2 }).1
  generalize m.source.next = next at drawn ⊢
  obtain ⟨result, source⟩ := next
  cases drawn with
  | ok h => exact ⟨⟨source, rfl⟩, .ok h⟩
  | exhausted => exact ⟨⟨source, rfl⟩, .exhausted⟩

theorem words_draws (n : Nat) : (words n).Draws (·.length = 8 * n) := by
  induction n with
  | zero => exact .pure rfl
  | succ n ih =>
    refine number_draws.bind fun word _ => ih.bind fun rest hr => .pure ?_
    rw [List.length_append, Bytes.length_bigEndian, hr]
    omega

theorem bits_draws (n : Nat) : (bits n).Draws (·.length = n) := by
  refine (words_draws _).bind fun words hw => .pure ?_
  rw [BitString.length_slice, BitString.length_ofBytes, hw]
  omega

/-- A length that is picked from the least one on, in so many units, is at most the greatest one. -/
theorem picked_le {least greatest : Nat} (h : least < greatest) (unit word : Nat) :
    least + word % ((greatest - least) / unit + 1) * unit ≤ greatest := by
  have few : word % ((greatest - least) / unit + 1) ≤ (greatest - least) / unit :=
    Nat.lt_succ_iff.mp (Nat.mod_lt _ (Nat.succ_pos _))
  have fit := Nat.le_trans (Nat.mul_le_mul_right unit few) (Nat.div_mul_le_self (greatest - least) unit)
  omega

/-- A value that is made up has a length of the type, which the cap bounds if the type does not. -/
theorem generate_ends (type : DataType) :
    (generate type).Ends fun value => type.bounds.1 ≤ value.length ∧
      (type.bounds.2 = none → value.length ≤ max type.bounds.1 capBits) := by
  refine bind tick_ends fun _ _ => ?_
  dsimp only
  split
  next longer =>
    refine bind number_draws.ends fun word _ => (bits_draws _).ends.mono fun value hv => ⟨by omega, fun unbounded => ?_⟩
    rw [unbounded, Option.getD_none] at hv longer
    exact hv ▸ picked_le longer type.unit word
  next =>
    exact (bits_draws _).ends.mono fun value hv => ⟨Nat.le_of_eq hv.symm, fun _ => hv ▸ Nat.le_max_left _ _⟩

/-- A disturbed value is as long as the normal one. -/
theorem mutate_ends (value : BitString) : (mutate value).Ends (·.length = value.length) := by
  refine bind tick_ends fun _ _ => ?_
  split
  · exact .pure rfl
  · exact bind number_draws.ends fun _ _ => .pure rfl

end DataMutator

namespace LeafMutator

theorem nextBoundary_answers (width : Nat) (values : NumberSource) :
    Answers (fun _ => True) (nextBoundary width values).1 := by
  have answers := values.next_drawn.answers
  unfold nextBoundary
  dsimp only
  generalize values.next.1 = result at answers ⊢
  cases answers with
  | ok h => exact .ok h
  | error h => exact .error h

/-- To make up a value leaves the mode as it is, and fails only by itself. -/
theorem generate_ends (m : LeafMutator) (type : DataType) :
    (m.generate type).2.mode = m.mode ∧ Answers (fun _ => True) (m.generate type).1 := by
  cases m with
  | data m =>
    obtain ⟨mode, answers⟩ := DataMutator.generate_ends type m
    exact ⟨mode, answers.mono fun _ _ => trivial⟩
  | boundary width values => exact ⟨rfl, nextBoundary_answers width values⟩
  | fixed value => exact ⟨rfl, .ok trivial⟩

theorem mutate_ends (m : LeafMutator) (normal : BitString) :
    (m.mutate normal).2.mode = m.mode ∧ Answers (fun _ => True) (m.mutate normal).1 := by
  cases m with
  | data m =>
    obtain ⟨mode, answers⟩ := DataMutator.mutate_ends normal m
    exact ⟨mode, answers.mono fun _ _ => trivial⟩
  | boundary width values => exact ⟨rfl, nextBoundary_answers width values⟩
  | fixed value => exact ⟨rfl, .ok trivial⟩

end LeafMutator

/-! ## The mutators of all leaves -/

/-- Which leaves have a mutator, and how it takes part. -/
abbrev Modes : Type :=
  VarId → Option MutatorMode

/-- The modes of the mutators of a supply. -/
def Supply.modes {ρ : Type} (supply : Supply ρ) : Modes :=
  fun id => supply.mutators?.bind (·.mode? id)

/-- The mutators have the given modes. -/
def HasModes (modes : Modes) (mutators? : Option Mutators) : Prop :=
  ∀ id, (mutators?.bind (·.mode? id)) = modes id

theorem HasModes.of_leaves {modes : Modes} {m next : Mutators} (h : next.leaves = m.leaves)
    (hm : HasModes modes (some m)) : HasModes modes (some next) := by
  intro id
  rw [← hm id]
  change (next.leaves.lookup id).map _ = (m.leaves.lookup id).map _
  rw [h]

/-- Leaves have modes exactly when they have mutators. -/
theorem HasModes.isSome_eq {modes : Modes} {m : Mutators} (hm : HasModes modes (some m)) (id : VarId) :
    (modes id).isSome = (m.leaves.lookup id).isSome := by
  rw [← hm id]
  exact Option.isSome_map

/-- A mutator put in place of one with its mode changes no mode. -/
theorem HasModes.bindLeaf {modes : Modes} {m : Mutators} (hm : HasModes modes (some m)) {id : VarId}
    {old new : LeafMutator} (ho : m.leaves.lookup id = some old) (h : new.mode = old.mode) :
    HasModes modes (some (m.bindLeaf id new)) := by
  intro other
  rw [← hm other]
  change ((Mutators.bind id new m.leaves).lookup other).map _ = (m.leaves.lookup other).map _
  rw [Mutators.lookup_bind]
  split
  next he => rw [he, ho, Option.map_some, Option.map_some, h]
  next => rfl

namespace Generation

variable {ρ : Type} {modes : Modes}

/-- To use the mutator of a leaf changes no mode. -/
theorem fromLeaf?_returns (id : VarId) {use : LeafMutator → Except MutationError BitString × LeafMutator}
    (h : ∀ m, (use m).2.mode = m.mode) :
    Returns (ρ := ρ) (HasModes modes) (fromLeaf? id use) (·.isSome = (modes id).isSome) := by
  refine fromMutators?_returns (fun hm => ?_) fun m hm => ?_
  · rw [← hm id]
    rfl
  · rw [hm.isSome_eq]
    refine ⟨fun hn => ?_, fun result next hn => ?_⟩
    · rw [Option.map_eq_none_iff.mp hn]
      rfl
    · obtain ⟨mutator, hl, he⟩ := Option.map_eq_some_iff.mp hn
      cases he
      rw [hl]
      exact ⟨hm.bindLeaf hl (h mutator), fun _ _ => rfl⟩

theorem mode?_returns {J : Option Mutators → Prop} (h : ∀ {mutators?}, J mutators? → HasModes modes mutators?)
    (id : VarId) : Returns (ρ := ρ) J (mode? id) (· = modes id) := by
  intro supply hs x next hx
  cases hx
  exact ⟨hs, h hs id⟩

end Generation

end WireGrammar
