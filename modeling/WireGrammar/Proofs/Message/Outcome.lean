import WireGrammar.Message
import WireGrammar.Proofs.Generation.Closed
import WireGrammar.Proofs.Generation.Settling
import WireGrammar.Proofs.Grammar.Structure

/-!
# How the generation of a message ends

A message is made of the assignment that all fields leave behind, and either there is such an assignment or the reason
why there is none is passed on (`generateAssignment_run`, `generateMessage_run`).
-/

namespace WireGrammar

variable {ρ : Type} [RandomSource ρ] {s : Symbol} {limits : GenerationLimits} {settings : Symbol.Settings}
  {memory memory' : Memory} {supply next : Supply ρ} {a : Assignment} {m : Message} {e : GenerationError}

/-- The supply when a message is started. -/
def Supply.started {ρ : Type} (supply : Supply ρ) : Supply ρ :=
  { supply with mutators? := supply.mutators?.map Mutators.startMessage }

namespace Symbol

/-- An assignment is what all fields leave behind, if no relation waits in it. -/
theorem generateAssignment_run : (s.generateAssignment limits memory).run.run supply =
    if s.isAcyclic then
      match (generateFields limits s.fields (s.start memory)).run.run supply.started with
      | (.ok a, next) =>
        match a.pending with
        | [] => (.ok a, next)
        | r :: _ => (.error (.unresolvable r.name), next)
      | (.error e, next) => (.error e, next)
    else (.error .relationCycle, supply) := by
  cases hc : s.isAcyclic with
  | false =>
    unfold generateAssignment
    rw [hc]
    rfl
  | true =>
    unfold generateAssignment
    rw [hc]
    refine (Gen.run_bind (generateFields limits s.fields (s.start memory)) _ supply.started).trans ?_
    rw [if_pos rfl]
    split
    next a next ha =>
      rw [ha]
      dsimp only
      cases a.pending with
      | nil => rfl
      | cons r rest => rfl
    next e next ha => rw [ha]

/-- A message is made of an assignment that gives bits to all fields. -/
theorem generateMessage_run : (s.generateMessage settings memory).run.run supply =
    match (s.generateAssignment (.of settings.maxBytes settings.maxRepeat) memory).run.run supply with
    | (.ok a, next) =>
      match Message.ofAssignment s a with
      | .error field => (.error (.placeholder field), next)
      | .ok m => (.ok (m, memory.complete a settings.persist), next)
    | (.error e, next) => (.error e, next) := by
  refine (Gen.run_bind _ _ supply).trans ?_
  split
  next a next ha =>
    rw [ha]
    dsimp only
    cases Message.ofAssignment s a with
    | error field => rfl
    | ok m => rfl
  next e next ha => rw [ha]

/-- The supply that is left is that of the fields, if they are generated at all. -/
theorem generateMessage_supply : ((s.generateMessage settings memory).run.run supply).2 =
    if s.isAcyclic then
      ((generateFields (.of settings.maxBytes settings.maxRepeat) s.fields (s.start memory)).run.run supply.started).2
    else supply := by
  rw [generateMessage_run, generateAssignment_run]
  cases s.isAcyclic with
  | false => rfl
  | true =>
    rw [if_pos rfl, if_pos rfl]
    generalize (generateFields (.of settings.maxBytes settings.maxRepeat) s.fields (s.start memory)).run.run
      supply.started = left
    obtain ⟨result, next⟩ := left
    cases result with
    | error e => rfl
    | ok a =>
      dsimp only
      cases a.pending with
      | cons r rest => rfl
      | nil =>
        dsimp only
        cases Message.ofAssignment s a <;> rfl

/-- Generation of fields has a property that the steps have. -/
theorem generateFields_closed {P : ∀ {α : Type}, Gen ρ α → Prop} (h : Gen.Closed P)
    (refuse : ∀ name, P (throw (.noValue name) : Gen ρ Assignment)) {fields : List Field}
    (asks : ∀ v ∈ fields.flatMap (·.domain.preorder), Gen.Asks P v.id) (a : Assignment) :
    P (generateFields (ρ := ρ) limits fields a) := by
  induction fields generalizing a with
  | nil => exact h.pure a
  | cons f rest ih =>
    obtain ⟨own, others⟩ := List.forall_mem_append.mp asks
    rw [generateFields]
    refine h.bind (Generation.generate_closed h f.domain own a) fun x => ?_
    cases x with
    | none => exact refuse _
    | some b => exact ih others b

theorem generateAssignment_eq_ok (h : (s.generateAssignment limits memory).run.run supply = (.ok a, next)) :
    (generateFields limits s.fields (s.start memory)).run.run supply.started = (.ok a, next) ∧ a.pending = [] := by
  rw [generateAssignment_run] at h
  split at h
  next =>
    split at h
    next b _ hf =>
      split at h
      next hp =>
        cases h
        exact ⟨hf, hp⟩
      next => cases h
    next => cases h
  next => cases h

/-- Only symbols without a relation that waits for itself have messages. -/
theorem isAcyclic_of_generated (h : (s.generateAssignment limits memory).run.run supply = (.ok a, next)) :
    s.isAcyclic = true := by
  rw [generateAssignment_run] at h
  split at h
  next hc => exact hc
  next => cases h

theorem generateMessage_eq_ok (h : (s.generateMessage settings memory).run.run supply = (.ok (m, memory'), next)) :
    ∃ a, (s.generateAssignment (.of settings.maxBytes settings.maxRepeat) memory).run.run supply = (.ok a, next) ∧
      Message.ofAssignment s a = .ok m ∧ memory' = memory.complete a settings.persist := by
  rw [generateMessage_run] at h
  split at h
  next a _ ha =>
    split at h
    next => cases h
    next message hm =>
      cases h
      exact ⟨a, ha, hm, rfl⟩
  next => cases h

/-- When no message is generated, some field has none, relations wait for each other, or one waits at the end. -/
theorem generateMessage_eq_error (h : (s.generateMessage settings memory).run.run supply = (.error e, next)) :
    (∃ a field, (s.generateAssignment (.of settings.maxBytes settings.maxRepeat) memory).run.run supply = (.ok a, next) ∧
      Message.ofAssignment s a = .error field ∧ e = .placeholder field) ∨
    (s.isAcyclic = false ∧ e = .relationCycle) ∨
    (generateFields (.of settings.maxBytes settings.maxRepeat) s.fields (s.start memory)).run.run supply.started =
      (.error e, next) ∨
    ∃ a r rest, (generateFields (.of settings.maxBytes settings.maxRepeat) s.fields (s.start memory)).run.run
      supply.started = (.ok a, next) ∧ a.pending = r :: rest ∧ e = .unresolvable r.name := by
  rw [generateMessage_run] at h
  split at h
  next a _ ha =>
    split at h
    next field hm =>
      cases h
      exact Or.inl ⟨a, field, ha, hm, rfl⟩
    next => cases h
  next ha =>
    cases h
    rw [generateAssignment_run] at ha
    split at ha
    next =>
      split at ha
      next b _ hf =>
        split at ha
        next => cases ha
        next r rest hp =>
          cases ha
          exact Or.inr (Or.inr (Or.inr ⟨b, r, rest, hf, hp, rfl⟩))
      next hf =>
        cases ha
        exact Or.inr (Or.inr (Or.inl hf))
    next hc =>
      cases ha
      exact Or.inr (Or.inl ⟨Bool.eq_false_of_not_eq_true hc, rfl⟩)

/-- What the fields leave behind without a relation that waits is returned. -/
theorem generateAssignment_returns {J : Option Mutators → Prop} {P : Assignment → Prop}
    (started : ∀ {m}, J (some m) → J (some m.startMessage))
    (h : Returns (ρ := ρ) J (generateFields limits s.fields (s.start memory)) P) :
    Returns (ρ := ρ) J (s.generateAssignment limits memory) fun a => a.pending = [] ∧ P a := by
  intro supply hs a next ha
  obtain ⟨hf, hp⟩ := generateAssignment_eq_ok ha
  have start : J supply.started.mutators? := by
    unfold Supply.started
    cases hm : supply.mutators? with
    | none => rwa [hm] at hs
    | some m => exact started (hm ▸ hs)
  obtain ⟨hn, hP⟩ := h supply.started start a next hf
  exact ⟨hn, hp, hP⟩

end Symbol

/-- A supply without mutators. -/
def Supply.ofSeed (seed : Nat) : Supply Pcg64 :=
  ⟨.ofSeed seed, none⟩

/-- The symbol of a text, with a message of it. -/
theorem exists_generated (text : String) (settings : Symbol.Settings) (supply : Supply Pcg64) (p : Symbol → Bool)
    (bits : BitString)
    (h : ((Grammar.symbols text).toOption.bind List.head?).bind (fun s =>
      ((s.generateMessage settings .empty).run.run supply).1.toOption.map fun q => (q.1.bits, p s)) =
        some (bits, true)) :
    ∃ symbols s m memory next, Grammar.symbols text = .ok symbols ∧ s ∈ symbols ∧
      (s.generateMessage settings .empty).run.run supply = (.ok (m, memory), next) ∧ m.bits = bits ∧ p s = true := by
  obtain ⟨s, hs, hr⟩ := Option.bind_eq_some_iff.mp h
  obtain ⟨symbols, ht, hs⟩ := Option.bind_eq_some_iff.mp hs
  obtain ⟨⟨m, memory⟩, hm, hb⟩ := Option.map_eq_some_iff.mp hr
  obtain ⟨hb, hp⟩ := Prod.mk.inj hb
  exact ⟨symbols, s, m, memory, _, Grammar.Builder.ok_of_toOption ht, List.mem_of_mem_head? hs,
    Prod.ext (Grammar.Builder.ok_of_toOption hm) rfl, hb, hp⟩

end WireGrammar
