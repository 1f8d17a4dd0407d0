import WireGrammar.Proofs.Generation.Failures
import WireGrammar.Proofs.Generation.Modes
import WireGrammar.Proofs.Generation.Visits

/-!
# The budget of choices

What generation spends of the budget is told by its visits: each choice that it comes to and that has a mutator takes
one unit, and the first one for which none is left ends it (`Charged`, `generate_charges`). Leaves, relations and
repetitions spend nothing.

* `Visit.answer?`, `answers`: what the mutators of choices answer, in order.
-/

namespace WireGrammar

/-! ## Answers of the mutators of choices -/

section Answers

variable {ρ : Type}

/-- The choice of a visit and what its mutator answers, if it has one. -/
def Visit.answer? (x : Visit ρ) : Option (VarId × Except MutationError Nat) :=
  match x.target with
  | .choice id _ children => (x.supply.mutators?.bind (·.pickChild? id children.length)).map fun p => (id, p.1)
  | _ => none

/-- The answers of the mutators of all choices that have one, in the order of the visits. -/
def answers (visits : List (Visit ρ)) : List (VarId × Except MutationError Nat) :=
  visits.filterMap Visit.answer?

theorem answers_cons (x : Visit ρ) (xs : List (Visit ρ)) : answers (x :: xs) = x.answer?.toList ++ answers xs := by
  rw [answers, List.filterMap_cons, ← answers]
  cases x.answer? <;> rfl

theorem answers_append (xs ys : List (Visit ρ)) : answers (xs ++ ys) = answers xs ++ answers ys :=
  List.filterMap_append

theorem answers_after {α : Type} (g : Gen ρ α) (s : Supply ρ) (f : α → Supply ρ → List (Visit ρ)) :
    answers (g.after s f) = g.after s fun x t => answers (f x t) :=
  g.filterMap_after s f _

end Answers

namespace Mutators

/-- What is left of the budget in the present message. -/
def left (m : Mutators) : Nat :=
  m.budget - m.spent

/-- The sources of choices after the one of a choice has given a number. -/
def advance (choices : List (VarId × NumberSource)) (id : VarId) : List (VarId × NumberSource) :=
  match choices.lookup id with
  | some source => bind id source.next.2 choices
  | none => choices

theorem nextBelow_snd (count : Nat) (source : NumberSource) : (nextBelow count source).2 = source.next.2 := by
  unfold nextBelow
  split
  next h => rw [h]
  next h => rw [h]

theorem nextBelow_answers (count : Nat) (source : NumberSource) : Answers (· < count) (nextBelow count source).1 := by
  have own := source.next_drawn.answers
  unfold nextBelow
  generalize source.next = next at own ⊢
  obtain ⟨result, source⟩ := next
  cases own with
  | ok _ =>
    dsimp only
    split
    next h => exact .ok h
    next => exact .error trivial
  | error h => exact .error h

end Mutators

/-! ## What is charged -/

section Charged

variable {ρ α β : Type}

theorem Answers.ne_depthExceeded {P : α → Prop} {result : Except MutationError α} (h : Answers P result) (limit : Nat) :
    result ≠ .error (.depthExceeded limit) := by
  rintro rfl
  cases h with
  | error h => exact h

/--
How a computation ends that comes to choices with the given answers: those for which something is left of the budget
take one unit each and advance their sources; one more is refused, advances nothing, and ends the computation.
-/
structure Charged (log : List (VarId × Except MutationError Nat)) (result : Except GenerationError α)
    (m m' : Mutators) : Prop where
  budget : m'.budget = m.budget
  spent : m'.spent = m.spent + (log.take m.left).length
  choices : m'.choices = ((log.take m.left).map Prod.fst).foldl Mutators.advance m.choices
  answered : ∀ x ∈ log.take m.left, ∀ limit, x.2 ≠ .error (.depthExceeded limit)
  refused : ∀ x ∈ log.drop m.left, x.2 = .error (.depthExceeded m.budget)
  atMost : log.length ≤ m.left + 1
  exceeds : ∀ limit, result = .error (.mutation (.depthExceeded limit)) ↔ limit = m.budget ∧ m.left < log.length

namespace Charged

variable {m m₁ m₂ : Mutators} {log log' : List (VarId × Except MutationError Nat)}

/-- Without any such choice nothing is charged. -/
theorem nothing {result : Except GenerationError α} {m' : Mutators} (budget : m'.budget = m.budget)
    (spent : m'.spent = m.spent) (choices : m'.choices = m.choices)
    (own : ∀ limit, result ≠ .error (.mutation (.depthExceeded limit))) : Charged [] result m m' where
  budget := budget
  spent := by simpa using spent
  choices := by simpa using choices
  answered := by simp
  refused := by simp
  atMost := Nat.zero_le _
  exceeds limit := ⟨fun h => absurd h (own limit), fun h => absurd h.2 (Nat.not_lt_zero _)⟩

/-- A choice for which nothing is left is refused. -/
theorem refusal (id : VarId) (h : m.budget ≤ m.spent) :
    Charged (α := α) [(id, .error (.depthExceeded m.budget))] (.error (.mutation (.depthExceeded m.budget))) m m := by
  have left : m.left = 0 := Nat.sub_eq_zero_of_le h
  exact {
    budget := rfl
    spent := by rw [left]; rfl
    choices := by rw [left]; rfl
    answered := by simp [left]
    refused := by simp [left]
    atMost := Nat.le_add_left _ _
    exceeds := fun limit => by
      rw [left]
      constructor
      · rintro ⟨⟩
        exact ⟨rfl, Nat.one_pos⟩
      · rintro ⟨rfl, -⟩
        rfl }

/-- A choice for which something is left takes one unit and advances its source, whatever the mutator answers. -/
theorem choice {id : VarId} {source : NumberSource} {answer : Except MutationError Nat}
    {result : Except GenerationError α} (bound : m.choices.lookup id = some source) (h : m.spent < m.budget)
    (ha : ∀ limit, answer ≠ .error (.depthExceeded limit))
    (own : ∀ limit, result ≠ .error (.mutation (.depthExceeded limit))) :
    Charged [(id, answer)] result m { m.bindChoice id source.next.2 with spent := m.spent + 1 } := by
  obtain ⟨rest, left⟩ : ∃ rest, m.left = rest + 1 := Nat.exists_eq_add_one.mpr (Nat.sub_pos_of_lt h)
  have taken : [(id, answer)].take m.left = [(id, answer)] := by rw [left, List.take_succ_cons, List.take_nil]
  exact {
    budget := rfl
    spent := by rw [taken]; rfl
    choices := by
      rw [taken]
      change Mutators.bind id source.next.2 m.choices = Mutators.advance m.choices id
      rw [Mutators.advance, bound]
    answered := by
      rw [taken]
      simpa using ha
    refused := by simp [left]
    atMost := Nat.le_add_left _ _
    exceeds := fun limit => ⟨fun he => absurd he (own limit), fun he => absurd he.2 (by simp [left])⟩ }

/-- What has a result has had its choices answered. -/
theorem length_le {x : α} (h : Charged log (.ok x) m m₁) : log.length ≤ m.left := by
  by_contra more
  cases (h.exceeds m.budget).mpr ⟨rfl, by omega⟩

theorem left_eq {x : α} (h : Charged log (.ok x) m m₁) : m₁.left = m.left - log.length := by
  have all := h.length_le
  rw [Mutators.left, h.budget, h.spent, List.take_of_length_le all, Mutators.left]
  omega

/-- No more mutators make a choice than there is budget left. -/
theorem countP_le {result : Except GenerationError α} {m' : Mutators} (h : Charged log result m m') :
    log.countP (·.2.toOption.isSome) ≤ m.left := by
  have none_behind : (log.drop m.left).countP (·.2.toOption.isSome) = 0 := by
    refine List.countP_eq_zero.mpr fun x hx => ?_
    rw [h.refused x hx]
    exact Bool.false_ne_true
  calc log.countP (·.2.toOption.isSome)
      = (log.take m.left).countP (·.2.toOption.isSome) + (log.drop m.left).countP (·.2.toOption.isSome) := by
        rw [← List.countP_append, List.take_append_drop]
    _ = (log.take m.left).countP (·.2.toOption.isSome) := by rw [none_behind, Nat.add_zero]
    _ ≤ (log.take m.left).length := List.countP_le_length
    _ ≤ m.left := List.length_take_le _ _

/-- The charges of two computations one after the other add up. -/
theorem trans {x : α} {result : Except GenerationError β} (h : Charged log (.ok x) m m₁)
    (h' : Charged log' result m₁ m₂) : Charged (log ++ log') result m m₂ := by
  have all := h.length_le
  have left := h.left_eq
  have taken : (log ++ log').take m.left = log ++ log'.take m₁.left := by
    rw [List.take_append, List.take_of_length_le all, left]
  have dropped : (log ++ log').drop m.left = log'.drop m₁.left := by
    rw [List.drop_append, List.drop_of_length_le all, List.nil_append, left]
  have whole := List.take_of_length_le all
  exact {
    budget := h'.budget.trans h.budget
    spent := by
      rw [h'.spent, h.spent, taken, whole, List.length_append, Nat.add_assoc]
    choices := by
      rw [h'.choices, h.choices, taken, whole, List.map_append, List.foldl_append]
    answered := by
      rw [taken]
      exact List.forall_mem_append.mpr ⟨whole ▸ h.answered, h'.answered⟩
    refused := by
      rw [dropped, ← h.budget]
      exact h'.refused
    atMost := by
      have := h'.atMost
      rw [List.length_append]
      omega
    exceeds := fun limit => by
      rw [h'.exceeds, h.budget, List.length_append, left]
      exact and_congr_right fun _ => by omega }

/-- What follows a result without a choice is charged for nothing more. -/
theorem next {x : α} {result : Except GenerationError β} (h : Charged log (.ok x) m m₁)
    (own : ∀ limit, result ≠ .error (.mutation (.depthExceeded limit))) : Charged log result m m₁ := by
  simpa using h.trans (.nothing rfl rfl rfl own)

theorem error {e : GenerationError} (h : Charged (α := α) log (.error e) m m₁) :
    Charged (α := β) log (.error e) m m₁ where
  budget := h.budget
  spent := h.spent
  choices := h.choices
  answered := h.answered
  refused := h.refused
  atMost := h.atMost
  exceeds limit := by
    rw [← h.exceeds limit]
    constructor <;> (rintro ⟨⟩; rfl)

end Charged

/-- With mutators, a computation is charged for choices with the answers that a function tells from the supply. -/
def Gen.Charges (g : Gen ρ α) (log : Supply ρ → List (VarId × Except MutationError Nat)) : Prop :=
  ∀ source m, ∃ next m', (g.run.run ⟨source, some m⟩).2 = ⟨next, some m'⟩ ∧
    Charged (log ⟨source, some m⟩) (g.run.run ⟨source, some m⟩).1 m m'

/-- It is charged for nothing. -/
def Gen.Free (g : Gen ρ α) : Prop :=
  g.Charges fun _ => []

namespace Gen.Charges

variable {g : Gen ρ α} {f : α → Gen ρ β} {log : Supply ρ → List (VarId × Except MutationError Nat)}

theorem bind {later : α → Supply ρ → List (VarId × Except MutationError Nat)} (h : g.Charges log)
    (hf : ∀ x, (f x).Charges (later x)) : (g >>= f).Charges fun s => log s ++ g.after s later := by
  intro source m
  obtain ⟨next, m₁, left, charged⟩ := h source m
  dsimp only
  rw [run_bind, after]
  generalize g.run.run ⟨source, some m⟩ = p at left charged ⊢
  obtain ⟨result, s⟩ := p
  cases left
  cases result with
  | error e =>
    dsimp only
    rw [List.append_nil]
    exact ⟨next, m₁, rfl, charged.error⟩
  | ok x =>
    obtain ⟨last, m₂, left, charged'⟩ := hf x next m₁
    exact ⟨last, m₂, left, charged.trans charged'⟩

theorem bind_free (h : g.Charges log) (hf : ∀ x, (f x).Free) : (g >>= f).Charges log := by
  have both := bind h hf
  have nothing (s : Supply ρ) : log s ++ g.after s (fun _ _ => []) = log s := by
    rw [after]
    split <;> exact List.append_nil _
  simpa only [nothing] using both

end Gen.Charges

namespace Gen.Free

theorem pure (x : α) : (Pure.pure x : Gen ρ α).Free :=
  fun source m => ⟨source, m, rfl, .nothing rfl rfl rfl nofun⟩

theorem throw {e : GenerationError} (h : ∀ limit, e ≠ .mutation (.depthExceeded limit)) :
    (MonadExcept.throw e : Gen ρ α).Free :=
  fun source m => ⟨source, m, rfl, .nothing rfl rfl rfl fun limit he => h limit (Except.error.inj he)⟩

theorem bind {g : Gen ρ α} {f : α → Gen ρ β} (h : g.Free) (hf : ∀ x, (f x).Free) : (g >>= f).Free :=
  Gen.Charges.bind_free h hf

theorem fromSource (draw : StateM ρ α) : (Generation.fromSource draw).Free :=
  fun source m => ⟨(draw.run source).2, m, rfl, .nothing rfl rfl rfl nofun⟩

/-- Mutators that fail only by themselves and change nothing about choices are free. -/
theorem fromMutators? {pick : Mutators → Option (Except MutationError α × Mutators)}
    (h : ∀ m result m', pick m = some (result, m') → Answers (fun _ => True) result ∧
      m'.budget = m.budget ∧ m'.spent = m.spent ∧ m'.choices = m.choices) :
    (Generation.fromMutators? (ρ := ρ) pick).Free := by
  intro source m
  rw [Generation.fromMutators?_run, Option.bind_some]
  cases hp : pick m with
  | none => exact ⟨source, m, rfl, .nothing rfl rfl rfl nofun⟩
  | some p =>
    obtain ⟨result, m'⟩ := p
    obtain ⟨own, budget, spent, choices⟩ := h m result m' hp
    cases own with
    | ok _ => exact ⟨source, m', rfl, .nothing budget spent choices nofun⟩
    | @error e he =>
      refine ⟨source, m', rfl, .nothing budget spent choices fun limit hl => ?_⟩
      cases hl
      exact he

theorem fromLeaf? {id : VarId} {use : LeafMutator → Except MutationError BitString × LeafMutator}
    (h : ∀ l, Answers (fun _ => True) (use l).1) : (Generation.fromLeaf? (ρ := ρ) id use).Free := by
  refine fromMutators? fun m result m' hp => ?_
  obtain ⟨l, -, he⟩ := Option.map_eq_some_iff.mp hp
  cases he
  exact ⟨h l, rfl, rfl, rfl⟩

theorem settled [RandomSource ρ] (a : Assignment) : (Generation.settled (ρ := ρ) a).Free := by
  intro source m
  have own (limit : Nat) :
      ((Generation.settled a).run.run ⟨source, some m⟩).1 ≠ .error (.mutation (.depthExceeded limit)) :=
    fun h => Generation.settled_fails (Prod.ext h rfl)
  refine ⟨(a.settle.run source).2, m, ?_, .nothing rfl rfl rfl own⟩
  have drawn : (Generation.fromSource a.settle).run.run ⟨source, some m⟩ =
      (.ok (a.settle.run source).1, ⟨(a.settle.run source).2, some m⟩) := rfl
  rw [Generation.settled, run_bind, drawn]
  dsimp only
  split <;> rfl

theorem closed [RandomSource ρ] : Gen.Closed (ρ := ρ) Gen.Free where
  pure := pure
  bind := bind
  draw := fromSource
  refuse _ _ := throw nofun
  settled := settled

theorem asksLeaf (id : VarId) : Gen.AsksLeaf (ρ := ρ) Gen.Free id where
  mode := fun source m => ⟨source, m, rfl, .nothing rfl rfl rfl nofun⟩
  generate type := fromLeaf? fun l => (l.generate_ends type).2
  mutate value := fromLeaf? fun l => (l.mutate_ends value).2

/-- Counts of repetitions are free. -/
theorem count (id : VarId) : (Generation.fromMutators? (ρ := ρ) (·.pickCount? id)).Free := by
  refine fromMutators? fun m result m' hp => ?_
  obtain ⟨source, -, he⟩ := Option.map_eq_some_iff.mp hp
  have own := Mutators.nextBelow_answers RepeatCount.limit source
  cases he
  exact ⟨own.mono fun _ _ => trivial, rfl, rfl, rfl⟩

end Gen.Free

end Charged

/-! ## What generation is charged -/

namespace Generation

variable {ρ : Type} [RandomSource ρ] {limits : GenerationLimits}

/-- A choice with a mutator is charged once, and the others are free. -/
theorem pickChild_charges (id : VarId) (children : Nat) : (pickChild (ρ := ρ) id children).Charges fun s =>
    ((s.mutators?.bind (·.pickChild? id children)).map fun p => (id, p.1)).toList := by
  have asked : (fromMutators? (ρ := ρ) (·.pickChild? id children)).Charges fun s =>
      ((s.mutators?.bind (·.pickChild? id children)).map fun p => (id, p.1)).toList := by
    intro source m
    dsimp only
    rw [fromMutators?_run, Option.bind_some, Mutators.pickChild?]
    cases hl : m.choices.lookup id with
    | none => exact ⟨source, m, rfl, .nothing rfl rfl rfl nofun⟩
    | some choice =>
      rw [Option.map_some]
      by_cases spent : m.budget ≤ m.spent
      · rw [if_pos spent]
        exact ⟨source, m, rfl, .refusal id spent⟩
      · rw [if_neg spent]
        have own := Mutators.nextBelow_answers children choice
        have advanced := Mutators.nextBelow_snd children choice
        generalize Mutators.nextBelow children choice = next at own advanced ⊢
        obtain ⟨result, choice'⟩ := next
        cases advanced
        have within := Nat.lt_of_not_le spent
        have unrefused := own.ne_depthExceeded
        cases own with
        | ok h => exact ⟨source, _, rfl, .choice hl within unrefused nofun⟩
        | @error e h =>
          refine ⟨source, _, rfl, .choice hl within unrefused fun limit he => ?_⟩
          cases he
          exact h
  refine asked.bind_free fun index => ?_
  cases index with
  | some index => exact .pure index
  | none => exact .fromSource _

theorem generateNth_charges {children : List Variable}
    (each : ∀ c ∈ children, ∀ a, (generate (ρ := ρ) limits c a).Charges fun s => answers (visits limits c a s))
    (index : Nat) (a : Assignment) :
    (generateNth (ρ := ρ) limits children index a).Charges fun s => answers (visitsNth limits children index a s) := by
  induction children generalizing index with
  | nil => exact Gen.Free.pure none
  | cons c rest ih =>
    cases index with
    | zero => exact each c List.mem_cons_self a
    | succ index => exact ih (fun d hd => each d (List.mem_cons_of_mem _ hd)) index

theorem generateAll_charges {children : List Variable}
    (each : ∀ c ∈ children, ∀ a, (generate (ρ := ρ) limits c a).Charges fun s => answers (visits limits c a s))
    (a : Assignment) :
    (generateAll (ρ := ρ) limits children a).Charges fun s => answers (visitsAll limits children a s) := by
  induction children generalizing a with
  | nil => exact Gen.Free.pure _
  | cons c rest ih =>
    simp only [generateAll, visitsAll, answers_append, answers_after]
    refine (each c List.mem_cons_self a).bind fun b? => ?_
    cases b? with
    | none => exact Gen.Free.pure none
    | some b => exact ih (fun d hd => each d (List.mem_cons_of_mem _ hd)) b

theorem instances_charges {child : Variable}
    (each : ∀ a, (generate (ρ := ρ) limits child a).Charges fun s => answers (visits limits child a s))
    (delimiter : Option BitString) (k : Nat) (isFirst : Bool) (a : Assignment) (content : Content) :
    (instances (generate (ρ := ρ) limits child) child delimiter k isFirst a content).Charges fun s =>
      answers (instanceVisits (generate limits child) (visits limits child) child k a s) := by
  induction k generalizing isFirst a content with
  | zero => exact Gen.Free.pure _
  | succ k ih =>
    simp only [instances, instanceVisits, answers_append, answers_after]
    refine (each a).bind fun b? => ?_
    cases b? with
    | none => exact Gen.Free.pure none
    | some b =>
      dsimp only
      cases hc : b.content? child.id with
      | none =>
        have without : (some b).filter (fun b => (b.content? child.id).isSome) = none := by simp [hc]
        rw [without]
        exact Gen.Free.pure none
      | some own =>
        have recorded : (some b).filter (fun b => (b.content? child.id).isSome) = some b := by simp [hc]
        rw [recorded]
        exact ih _ _ _

/-- Generation of a variable is charged for the choices that it comes to and that have mutators. -/
theorem generate_charges (v : Variable) (a : Assignment) :
    (generate (ρ := ρ) limits v a).Charges fun s => answers (visits limits v a s) := by
  induction v using Variable.induct generalizing a with
  | data id name type scope => exact generateData_closed Gen.Free.closed (Gen.Free.asksLeaf id) type scope a
  | relation r => exact generateRelation_closed Gen.Free.closed (Gen.Free.asksLeaf r.id) a
  | choice id name children ih =>
    have log (s : Supply ρ) : answers (visits limits (.choice id name children) a s) =
        ((s.mutators?.bind (·.pickChild? id children.length)).map fun p => (id, p.1)).toList ++
          (pickChild id children.length).after s fun index t => answers (visitsNth limits children index a t) := by
      rw [visits, answers_cons, answers_after]
      rfl
    simp only [generate, log]
    refine (pickChild_charges id children.length).bind fun index => ?_
    refine (generateNth_charges ih index a).bind_free fun x => ?_
    split
    next => exact .bind (.settled _) fun _ => .pure _
    next => exact .pure none
  | sequence id name children ih =>
    simp only [generate, visits]
    refine (generateAll_charges ih a).bind_free fun x => ?_
    cases x with
    | none => exact .pure none
    | some b => exact .bind (.settled _) fun _ => .pure _
  | repetition id name child count delimiter ih =>
    have log (s : Supply ρ) : answers (visits limits (.repetition id name child count delimiter) a s) =
        [] ++ (pickCount limits id count).after s fun k t =>
          answers (instanceVisits (generate limits child) (visits limits child) child k a t) := by
      rw [visits, answers_cons, answers_after]
      rfl
    simp only [generate, log]
    refine Gen.Charges.bind (pickCount_closed Gen.Free.closed count (Gen.Free.count id)) fun k => ?_
    refine (instances_charges ih delimiter k true a .empty).bind_free fun x => ?_
    cases x with
    | none => exact .pure none
    | some p => exact .bind (.settled _) fun _ => .pure _

end Generation

end WireGrammar
