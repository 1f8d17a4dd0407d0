import WireGrammar.Proofs.Generation.Closed
import WireGrammar.Proofs.Generation.Settling

/-!
# How generation fails

Generation of a variable fails in no other way than through a relation that has no value or through a mutator
(`generate_failsInStep`). All other failures are those of a whole message.
-/

namespace WireGrammar

/-- Failures of a relation or of a mutator. -/
def GenerationError.IsOfStep : GenerationError → Prop
  | mutation _ | relation .. => True
  | unresolvable _ | relationCycle | noValue _ | placeholder _ => False

/-- Failures of a relation. -/
def GenerationError.IsOfRelation : GenerationError → Prop
  | relation .. => True
  | mutation _ | unresolvable _ | relationCycle | noValue _ | placeholder _ => False

theorem GenerationError.IsOfRelation.isOfStep {e : GenerationError} (h : e.IsOfRelation) : e.IsOfStep := by
  cases e with
  | relation | mutation => trivial
  | unresolvable | relationCycle | noValue | placeholder => exact h

section Failures

variable {ρ α β : Type}

/-- A computation fails in no other way than through a relation or a mutator. -/
def Gen.FailsInStep (g : Gen ρ α) : Prop :=
  ∀ supply e next, g.run.run supply = (.error e, next) → e.IsOfStep

namespace Gen.FailsInStep

theorem pure (x : α) : (Pure.pure x : Gen ρ α).FailsInStep := by
  intro supply e next h
  cases h

theorem throw {e : GenerationError} (h : e.IsOfStep) : (MonadExcept.throw e : Gen ρ α).FailsInStep := by
  intro supply e' next he
  cases he
  exact h

theorem bind {g : Gen ρ α} {f : α → Gen ρ β} (h : g.FailsInStep) (hf : ∀ x, (f x).FailsInStep) :
    (g >>= f).FailsInStep := by
  intro supply e last he
  rcases error_of_bind he with he | ⟨x, next, -, he⟩
  · exact h supply e last he
  · exact hf x next e last he

end Gen.FailsInStep

/-- A computation that settles relations fails in no other way than through a relation. -/
def Settling.FailsByRelation (m : Settling ρ α) : Prop :=
  ∀ a g e, ((m.run.run a).run g).1.1 = .error e → e.IsOfRelation

namespace Settling.FailsByRelation

theorem pure (x : α) : (Pure.pure x : Settling ρ α).FailsByRelation := by
  intro a g e h
  cases h

theorem throw {e : GenerationError} (h : e.IsOfRelation) : (MonadExcept.throw e : Settling ρ α).FailsByRelation := by
  intro a g e' he
  cases he
  exact h

theorem get : (MonadState.get : Settling ρ Assignment).FailsByRelation := by
  intro a g e h
  cases h

theorem update (f : Assignment → Assignment) : (modify f : Settling ρ PUnit).FailsByRelation := by
  intro a g e h
  cases h

theorem draw (m : StateM ρ α) : Settling.FailsByRelation (m : Settling ρ α) := by
  intro a g e h
  cases h

theorem bind {m : Settling ρ α} {f : α → Settling ρ β} (h : m.FailsByRelation) (hf : ∀ x, (f x).FailsByRelation) :
    (m >>= f).FailsByRelation := by
  intro a g e he
  rw [run_bind] at he
  have hm := h a g
  generalize (m.run.run a).run g = left at hm he
  obtain ⟨⟨result, b⟩, next⟩ := left
  cases result with
  | error e' =>
    cases he
    exact hm _ rfl
  | ok x => exact hf x b next e he

end Settling.FailsByRelation

end Failures

namespace Generation

open Gen.FailsInStep

variable {ρ α : Type}

theorem fromSource_failsInStep (draw : StateM ρ α) : (fromSource draw).FailsInStep := by
  intro supply e next h
  cases h

theorem fromMutators?_failsInStep (pick : Mutators → Option (Except MutationError α × Mutators)) :
    (fromMutators? (ρ := ρ) pick).FailsInStep := by
  intro supply e next h
  rw [fromMutators?_run] at h
  split at h
  next => cases h
  next => cases h
  next =>
    cases h
    trivial

end Generation

variable {ρ : Type} [RandomSource ρ]

theorem Assignment.settleRound_fails (rs : List Relation) : (settleRound rs : Settling ρ Bool).FailsByRelation := by
  induction rs with
  | nil => exact .pure false
  | cons r rest ih =>
    have more : (do discard (settleRound rest); return true : Settling ρ Bool).FailsByRelation :=
      .bind (.bind ih fun _ => .pure ()) fun _ => .pure true
    rw [settleRound]
    refine .bind .get fun a => ?_
    split
    next e _ => exact .throw trivial
    next => exact ih
    next => exact .bind (.update _) fun _ => more
    next => exact .bind (.draw _) fun bits => .bind (.update _) fun _ => more

theorem Assignment.settleRounds_fails (n : Nat) : (settleRounds n : Settling ρ Unit).FailsByRelation := by
  induction n with
  | zero => exact .pure ()
  | succ n ih =>
    rw [settleRounds]
    refine .bind .get fun a => .bind (settleRound_fails a.pending) fun filled => ?_
    cases filled with
    | false => exact .pure ()
    | true => exact ih

namespace Generation

open Gen.FailsInStep

variable {limits : GenerationLimits}

/-- Settling fails in no other way than through a relation. -/
theorem settled_fails {a : Assignment} {supply next : Supply ρ} {e : GenerationError}
    (h : (settled a).run.run supply = (.error e, next)) : e.IsOfRelation := by
  have fails := Assignment.settleRounds_fails (ρ := ρ) a.pending.length a supply.source
  rcases Gen.error_of_bind h with h | ⟨p, middle, hp, h⟩
  · cases h
  · cases hp
    split at h
    next => cases h
    next e' b hr =>
      cases h
      exact fails e (congrArg Prod.fst hr)

theorem failsInStep_closed : Gen.Closed (ρ := ρ) Gen.FailsInStep where
  pure := Gen.FailsInStep.pure
  bind := Gen.FailsInStep.bind
  draw := fromSource_failsInStep
  refuse _ _ := .throw trivial
  settled _ _ _ _ h := (settled_fails h).isOfStep

omit [RandomSource ρ] in
theorem failsInStep_asks (id : VarId) : Gen.Asks (ρ := ρ) Gen.FailsInStep id where
  mode := by
    intro supply e next h
    cases h
  generate _ := fromMutators?_failsInStep _
  mutate _ := fromMutators?_failsInStep _
  child _ := fromMutators?_failsInStep _
  count := fromMutators?_failsInStep _

/-- Generation of a variable fails in no other way than through a relation or a mutator. -/
theorem generate_failsInStep (v : Variable) (a : Assignment) : (generate (ρ := ρ) limits v a).FailsInStep :=
  generate_closed failsInStep_closed v (fun w _ => failsInStep_asks w.id) a

end Generation

end WireGrammar
