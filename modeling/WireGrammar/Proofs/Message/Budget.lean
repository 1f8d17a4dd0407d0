import WireGrammar.Proofs.Generation.Budget
import WireGrammar.Proofs.Message.Outcome

/-!
# The budget of choices in a message

Every message starts with the whole budget, however the messages before it have ended, and spends it on the choices
that its generation comes to and that have mutators (`generateMessage_charged`, `choice_budget_per_message`).

* `Symbol.visits`: all that the generation of a message comes to, in order.
* `Supply.afterMessages`: what messages one after the other leave behind.
-/

namespace WireGrammar

open Generation

variable {ρ : Type} [RandomSource ρ] {limits : GenerationLimits}

namespace Symbol

/-- All that generation of fields one after the other comes to. -/
def fieldVisits (limits : GenerationLimits) : List Field → Assignment → Supply ρ → List (Visit ρ)
  | [], _, _ => []
  | f :: rest, a, supply => Generation.visits limits f.domain a supply ++
    (generate limits f.domain a).after supply fun b? next =>
      match b? with
      | some b => fieldVisits limits rest b next
      | none => []

/-- All that generation of a message comes to; nothing is generated of a symbol whose relations wait in a cycle. -/
def visits (s : Symbol) (settings : Settings) (memory : Memory) (supply : Supply ρ) : List (Visit ρ) :=
  if s.isAcyclic then
    fieldVisits (.of settings.maxBytes settings.maxRepeat) s.fields (s.start memory) supply.started
  else []

theorem generateFields_charges (limits : GenerationLimits) (fields : List Field) (a : Assignment) :
    (generateFields (ρ := ρ) limits fields a).Charges fun supply => answers (fieldVisits limits fields a supply) := by
  induction fields generalizing a with
  | nil => exact Gen.Free.pure a
  | cons f rest ih =>
    simp only [generateFields, fieldVisits, answers_append, answers_after]
    refine (generate_charges f.domain a).bind fun b? => ?_
    cases b? with
    | none => exact Gen.Free.throw fun _ h => by cases h
    | some b => exact ih b

/-- A message is charged for the choices with mutators from the whole budget. -/
theorem generateMessage_charged (s : Symbol) (settings : Settings) (memory : Memory) (source : ρ) (m : Mutators) :
    ∃ next m', ((s.generateMessage settings memory).run.run ⟨source, some m⟩).2 = ⟨next, some m'⟩ ∧
      Charged (answers (s.visits settings memory ⟨source, some m⟩))
        ((s.generateMessage settings memory).run.run ⟨source, some m⟩).1
        (if s.isAcyclic then m.startMessage else m) m' := by
  rw [generateMessage_run, generateAssignment_run, visits]
  cases s.isAcyclic with
  | false => exact ⟨source, m, rfl, .nothing rfl rfl rfl nofun⟩
  | true =>
    obtain ⟨next, m', left, charged⟩ :=
      generateFields_charges (.of settings.maxBytes settings.maxRepeat) s.fields (s.start memory) source m.startMessage
    have started : (⟨source, some m.startMessage⟩ : Supply ρ) = Supply.started ⟨source, some m⟩ := rfl
    rw [started] at left charged
    rw [if_pos rfl, if_pos rfl, if_pos rfl]
    generalize (generateFields (.of settings.maxBytes settings.maxRepeat) s.fields (s.start memory)).run.run
      (Supply.started ⟨source, some m⟩) = p at left charged ⊢
    obtain ⟨result, supply⟩ := p
    cases left
    cases result with
    | error e => exact ⟨next, m', rfl, charged.error⟩
    | ok a =>
      dsimp only
      cases a.pending with
      | cons r rest => exact ⟨next, m', rfl, charged.next nofun⟩
      | nil =>
        dsimp only
        cases Message.ofAssignment s a with
        | error field => exact ⟨next, m', rfl, charged.next nofun⟩
        | ok message => exact ⟨next, m', rfl, charged.next nofun⟩

/-- A message starts with the whole budget: what was spent before changes neither how it ends nor what it leaves. -/
theorem generateMessage_started (s : Symbol) (settings : Settings) (memory : Memory) {supply supply' : Supply ρ}
    (h : supply'.started = supply.started) :
    ((s.generateMessage settings memory).run.run supply').1 = ((s.generateMessage settings memory).run.run supply).1 ∧
      ((s.generateMessage settings memory).run.run supply').2.started =
        ((s.generateMessage settings memory).run.run supply).2.started := by
  rw [generateMessage_run, generateMessage_run, generateAssignment_run, generateAssignment_run, h]
  cases s.isAcyclic with
  | false => exact ⟨rfl, h⟩
  | true => exact ⟨rfl, rfl⟩

end Symbol

/-- What messages leave behind that are generated one after the other, each with a memory of its own, or fail. -/
def Supply.afterMessages : List (Symbol × Symbol.Settings × Memory) → Supply ρ → Supply ρ
  | [], supply => supply
  | (s, settings, memory) :: rest, supply => afterMessages rest ((s.generateMessage settings memory).run.run supply).2

/-- Messages never change the budget. -/
theorem Supply.afterMessages_budget (messages : List (Symbol × Symbol.Settings × Memory)) (source : ρ) (m : Mutators) :
    ∃ next m', afterMessages messages ⟨source, some m⟩ = ⟨next, some m'⟩ ∧ m'.budget = m.budget := by
  induction messages generalizing source m with
  | nil => exact ⟨source, m, rfl, rfl⟩
  | cons message rest ih =>
    obtain ⟨s, settings, memory⟩ := message
    obtain ⟨next, m₁, left, charged⟩ := s.generateMessage_charged settings memory source m
    obtain ⟨last, m₂, after, budget⟩ := ih next m₁
    refine ⟨last, m₂, by rw [afterMessages, left, after], budget.trans (charged.budget.trans ?_)⟩
    split <;> rfl

end WireGrammar
