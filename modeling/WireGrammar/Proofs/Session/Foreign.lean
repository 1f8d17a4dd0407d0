import WireGrammar.Proofs.Generation.Closed
import WireGrammar.Proofs.Message.Outcome
import WireGrammar.Session

/-!
# Mutators of other variables

Mutators that are bound to none of a symbol's variables change nothing about its messages: with and without them
generation draws the same words and ends alike, and it leaves the mutators as they are (`Gen.Ignores`,
`generateMessage_ignores`, `foreign_mutators_unused`).
-/

namespace WireGrammar

open Generation

/-- Whether a mutator of any kind is bound to a variable. -/
def Mutators.binds (m : Mutators) (id : VarId) : Bool :=
  (m.leaves.lookup id).isSome || (m.choices.lookup id).isSome || (m.counts.lookup id).isSome

section Ignores

variable {ρ α β : Type} {m : Mutators}

/-- With the mutators and without any a computation draws the same and ends alike, and the mutators stay as they are. -/
def Gen.Ignores (m : Mutators) (g : Gen ρ α) : Prop :=
  ∀ source, ∃ result next, g.run.run ⟨source, none⟩ = (result, ⟨next, none⟩) ∧
    g.run.run ⟨source, some m⟩ = (result, ⟨next, some m⟩)

namespace Gen.Ignores

theorem pure (x : α) : Ignores (ρ := ρ) m (Pure.pure x) :=
  fun source => ⟨.ok x, source, rfl, rfl⟩

theorem throw (e : GenerationError) : Ignores (ρ := ρ) (α := α) m (MonadExcept.throw e) :=
  fun source => ⟨.error e, source, rfl, rfl⟩

theorem bind {g : Gen ρ α} {f : α → Gen ρ β} (h : Ignores m g) (hf : ∀ x, Ignores m (f x)) : Ignores m (g >>= f) := by
  intro source
  obtain ⟨result, next, bare, fuzzed⟩ := h source
  rw [Gen.run_bind, Gen.run_bind, bare, fuzzed]
  cases result with
  | error e => exact ⟨.error e, next, rfl, rfl⟩
  | ok x => exact hf x next

theorem fromSource (draw : StateM ρ α) : Ignores m (fromSource draw) :=
  fun source => ⟨.ok (draw.run source).1, (draw.run source).2, rfl, rfl⟩

/-- Mutators that have no say are not used. -/
theorem fromMutators? {pick : Mutators → Option (Except MutationError α × Mutators)} (h : pick m = none) :
    Ignores (ρ := ρ) m (fromMutators? pick) := by
  refine fun source => ⟨.ok none, source, rfl, ?_⟩
  rw [fromMutators?_run, Option.bind_some, h]

theorem closed [RandomSource ρ] : Gen.Closed (ρ := ρ) (Ignores m) :=
  .of_throw pure bind fromSource throw

/-- A variable without a mutator asks for none. -/
theorem asks [RandomSource ρ] {id : VarId} (h : m.binds id = false) : Gen.Asks (ρ := ρ) (Ignores m) id := by
  obtain ⟨⟨leaf, choice⟩, count⟩ : (m.leaves.lookup id = none ∧ m.choices.lookup id = none) ∧
      m.counts.lookup id = none := by
    simpa only [Mutators.binds, Bool.or_eq_false_iff, Option.isSome_eq_false_iff, Option.isNone_iff_eq_none] using h
  have unasked : (m.leaves.lookup id).map LeafMutator.mode = none := by rw [leaf]; rfl
  exact {
    mode := fun source => ⟨.ok none, source, rfl, by
      change (Except.ok ((m.leaves.lookup id).map LeafMutator.mode), _) = _
      rw [unasked]⟩
    generate := fun type => fromMutators? (by rw [leaf]; rfl)
    mutate := fun value => fromMutators? (by rw [leaf]; rfl)
    child := fun n => fromMutators? (by rw [Mutators.pickChild?, choice]; rfl)
    count := fromMutators? (by rw [Mutators.pickCount?, count]; rfl) }

end Gen.Ignores

end Ignores

variable {ρ : Type} [RandomSource ρ] {s : Symbol} {m : Mutators}

namespace Symbol

/-- Fields whose variables have no mutators are generated alike with and without them. -/
theorem generateFields_ignores {limits : GenerationLimits} {fields : List Field}
    (h : ∀ v ∈ fields.flatMap (·.domain.preorder), m.binds v.id = false) (a : Assignment) :
    Gen.Ignores (ρ := ρ) m (generateFields limits fields a) :=
  generateFields_closed Gen.Ignores.closed (fun _ => .throw _) (fun v hv => Gen.Ignores.asks (h v hv)) a

/-- Mutators of other variables end a message as they were, with nothing spent if the message was started. -/
theorem generateAssignment_ignores (limits : GenerationLimits) (h : ∀ v ∈ s.allVariables, m.binds v.id = false)
    (memory : Memory) (source : ρ) : ∃ result next,
      (s.generateAssignment limits memory).run.run ⟨source, none⟩ = (result, ⟨next, none⟩) ∧
      (s.generateAssignment limits memory).run.run ⟨source, some m⟩ = (result, ⟨next,
        some { m with spent := if s.isAcyclic then 0 else m.spent }⟩) := by
  rw [generateAssignment_run, generateAssignment_run]
  cases s.isAcyclic with
  | false => exact ⟨.error .relationCycle, source, rfl, rfl⟩
  | true =>
    have started : ∀ v ∈ s.allVariables, m.startMessage.binds v.id = false := h
    obtain ⟨result, next, bare, fuzzed⟩ := generateFields_ignores started (s.start memory) source
    change (generateFields limits s.fields (s.start memory)).run.run (Supply.started ⟨source, none⟩) = _ at bare
    change (generateFields limits s.fields (s.start memory)).run.run (Supply.started ⟨source, some m⟩) = _ at fuzzed
    rw [bare, fuzzed]
    cases result with
    | error e => exact ⟨.error e, next, rfl, rfl⟩
    | ok a =>
      dsimp only
      cases a.pending with
      | nil => exact ⟨.ok a, next, rfl, rfl⟩
      | cons r rest => exact ⟨.error (.unresolvable r.name), next, rfl, rfl⟩

/-- With mutators of other variables only, a message is generated as without mutators. -/
theorem generateMessage_ignores (h : ∀ v ∈ s.allVariables, m.binds v.id = false) (settings : Settings)
    (memory : Memory) (source : ρ) : ∃ result next,
      (s.generateMessage settings memory).run.run ⟨source, none⟩ = (result, ⟨next, none⟩) ∧
      (s.generateMessage settings memory).run.run ⟨source, some m⟩ = (result, ⟨next,
        some { m with spent := if s.isAcyclic then 0 else m.spent }⟩) := by
  obtain ⟨result, next, bare, fuzzed⟩ :=
    generateAssignment_ignores (.of settings.maxBytes settings.maxRepeat) h memory source
  rw [generateMessage_run, generateMessage_run, bare, fuzzed]
  cases result with
  | error e => exact ⟨.error e, next, rfl, rfl⟩
  | ok a =>
    dsimp only
    cases Message.ofAssignment s a with
    | error field => exact ⟨.error (.placeholder field), next, rfl, rfl⟩
    | ok message => exact ⟨.ok (message, memory.complete a settings.persist), next, rfl, rfl⟩

end Symbol

/--
Mutators that are bound to none of a symbol's variables change nothing, whatever else they are bound to and whatever
their budget: the message or the failure, the memory and the words that are left are those of a session without
mutators, and no mutator is advanced.
-/
theorem Session.foreign_mutators_unused (session : Session ρ) (h : ∀ v ∈ s.allVariables, m.binds v.id = false) :
    let bare := session.clearMutators.generate s
    let fuzzed := { session with supply := { session.supply with mutators? := some m } : Session ρ }.generate s
    fuzzed.1 = bare.1 ∧ bare.2.supply.mutators? = none ∧
      fuzzed.2 = { bare.2 with supply := { bare.2.supply with
        mutators? := some { m with spent := if s.isAcyclic then 0 else m.spent } } } := by
  obtain ⟨result, next, bare, fuzzed⟩ :=
    s.generateMessage_ignores h session.config.settings session.memory session.supply.source
  dsimp only [clearMutators, generate]
  rw [bare, fuzzed]
  cases result with
  | error e => exact ⟨rfl, rfl, rfl⟩
  | ok p => exact ⟨rfl, rfl, rfl⟩

/-- Two symbols of the same shape. -/
def sameShapes : String :=
  "symbol \"S\" \x7b x: alt(raw(1), raw(2)); items: repeat(raw(1), 1..3); \x7d
   symbol \"T\" \x7b y: alt(raw(1), raw(2)); others: repeat(raw(1), 1..3); \x7d"

/-- Mutators of a choice, of a child of it and of a repetition, none of which may be used even once. -/
def spentMutators : Mutators :=
  let spent : NumberSource := .positions []
  { ((Mutators.empty.bindLeaf ((VarId.ofRoot 2).child 0) (.data (.of .generate spent))).bindChoice (.ofRoot 2)
      spent).bindCount (.ofRoot 3) spent with budget := 0 }

/-- A new session with these mutators. -/
def Session.withSpentMutators : Session Pcg64 :=
  { ofConfig (.ofSeed 1) with supply := ⟨.ofSeed 1, some spentMutators⟩ }

/-- Mutators under which the second symbol of `sameShapes` has no message leave the first one as it is. -/
theorem Session.foreign_mutators_unused_sameShapes : ∃ symbols s t m, Grammar.symbols sameShapes = .ok symbols ∧
    s ∈ symbols ∧ t ∈ symbols ∧ (withSpentMutators.generate t).1 = .error (.mutation (.depthExceeded 0)) ∧
    (∀ v ∈ s.allVariables, spentMutators.binds v.id = false) ∧
    (withSpentMutators.generate s).1 = .ok m ∧ m.bits = .ofBytes [87, 211] ∧
    (withSpentMutators.generate s).2.supply.mutators? = some spentMutators := by
  have run : ((Grammar.symbols sameShapes).toOption.bind fun symbols =>
      symbols[0]?.bind fun s => symbols[1]?.bind fun t =>
        (withSpentMutators.clearMutators.generate s).1.toOption.map fun m =>
          (m.bits, s.allVariables.all fun v => !spentMutators.binds v.id,
            decide ((withSpentMutators.generate t).1 = .error (.mutation (.depthExceeded 0))))) =
        some (.ofBytes [87, 211], true, true) := by
    decide +kernel
  obtain ⟨symbols, ht, run⟩ := Option.bind_eq_some_iff.mp run
  obtain ⟨s, hs, run⟩ := Option.bind_eq_some_iff.mp run
  obtain ⟨t, hs', run⟩ := Option.bind_eq_some_iff.mp run
  obtain ⟨m, hm, run⟩ := Option.map_eq_some_iff.mp run
  obtain ⟨bits, run⟩ := Prod.mk.inj run
  obtain ⟨unbound, fails⟩ := Prod.mk.inj run
  have foreign : ∀ v ∈ s.allVariables, spentMutators.binds v.id = false := fun v hv =>
    Bool.not_eq_true' _ |>.mp (List.all_eq_true.mp unbound v hv)
  obtain ⟨same, -, left⟩ := foreign_mutators_unused withSpentMutators foreign
  have unspent : { spentMutators with spent := if s.isAcyclic then 0 else spentMutators.spent } = spentMutators := by
    cases s.isAcyclic <;> rfl
  exact ⟨symbols, s, t, m, Grammar.Builder.ok_of_toOption ht, List.mem_of_getElem? hs, List.mem_of_getElem? hs',
    of_decide_eq_true fails, foreign, same.trans (Grammar.Builder.ok_of_toOption hm), bits,
    (congrArg (·.supply.mutators?) left).trans (congrArg some unspent)⟩

end WireGrammar
