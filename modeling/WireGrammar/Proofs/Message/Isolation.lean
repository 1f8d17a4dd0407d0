import WireGrammar.Proofs.Generation.Twin
import WireGrammar.Proofs.Interpretation.Twin
import WireGrammar.Proofs.Message.Outcome

/-!
# How far memory reaches into a message

Two memories that agree on the variables which a message reads from memory (`Symbol.recalled`) lead to the same
interpretations of data in the same order, and to the same outcome of generation: the same message with the same values
learned, or the same failure, and the same supply afterwards. The value of a variable of the message itself is never
read from memory for a relation (`memory_isolated`).
-/

namespace WireGrammar

open Assignment

section Messages

variable {s : Symbol} {committed : Store} {a b : Assignment} {memory memory' : Memory}

theorem Symbol.complete?_twin {data : BitString} {p q : Assignment × Nat}
    (h : Twin s committed p.1 q.1 ∧ q.2 = p.2) :
    Option.Rel (Twin s committed) (complete? data p) (complete? data q) := by
  obtain ⟨a, offset⟩ := p
  obtain ⟨b, offset'⟩ := q
  obtain ⟨hab, rfl⟩ := h
  unfold complete?
  dsimp only
  split
  next =>
    have compared := hab.verified?
    generalize a.verified? = x at compared
    generalize b.verified? = y at compared
    cases compared with
    | none => exact .none
    | some h =>
      rw [Option.filter_some, Option.filter_some, h.pending_eq]
      split
      · exact .some h
      · exact .none
  next => exact .none

/-- The same interpretations of data in front of memories that agree on what the message reads from them. -/
theorem Symbol.interpretations_twin (h : ∀ id ∈ s.recalled, memory'.known? id = memory.known? id) (maxRepeat : Nat)
    (data : BitString) :
    List.Forall₂ (Twin s memory'.committed) (s.interpretations maxRepeat data memory).toList
      (s.interpretations maxRepeat data memory').toList := by
  unfold interpretations
  rw [Choices.toList_filterMap, Choices.toList_filterMap]
  refine List.rel_filterMap (fun p q hpq => complete?_twin hpq) (Reading.interpretAll_twin ?_ (.start h))
  rw [List.flatMap_map]
  exact List.Subset.refl _

theorem Message.collect_recalling (a : Assignment) (committed : Store) (fields : List Field) (offset : Nat) :
    collect (a.recalling committed) fields offset = collect a fields offset := by
  induction fields generalizing offset with
  | nil => rfl
  | cons f rest ih =>
    have bits : (a.recalling committed).bits? f.id = a.bits? f.id := rfl
    rw [collect, collect, bits]
    cases a.bits? f.id with
    | none => rfl
    | some bits =>
      dsimp only
      rw [ih]

theorem Message.ofAssignment_twin (h : Twin s committed a b) : ofAssignment s b = ofAssignment s a := by
  rw [h.same, ofAssignment, collect_recalling, ofAssignment]

section Generation

variable {ρ : Type} [RandomSource ρ]

/-- Generation of a message fails alike in front of both, or it ends in assignments that correspond. -/
theorem Symbol.generateAssignment_twin (h : ∀ id ∈ s.recalled, memory'.known? id = memory.known? id)
    (limits : GenerationLimits) :
    Gen.InStep (ρ := ρ) (Twin s memory'.committed) (s.generateAssignment limits memory)
      (s.generateAssignment limits memory') := by
  intro supply
  have twin : Gen.InStep (ρ := ρ) (Twin s memory'.committed) (generateFields limits s.fields (s.start memory))
      (generateFields limits s.fields (s.start memory')) := generateFields_twin (List.Subset.refl _) (.start h)
  obtain ⟨outcome, left⟩ := twin supply.started
  rw [generateAssignment_run, generateAssignment_run]
  split
  next =>
    generalize (generateFields limits s.fields (s.start memory)).run.run supply.started = p at outcome left ⊢
    generalize (generateFields limits s.fields (s.start memory')).run.run supply.started = q at outcome left ⊢
    obtain ⟨result, next⟩ := p
    obtain ⟨result', next'⟩ := q
    cases left
    cases outcome with
    | error e => exact ⟨.error e, rfl⟩
    | @ok a b hab =>
      dsimp only
      rw [hab.pending_eq]
      split
      next => exact ⟨.ok hab, rfl⟩
      next => exact ⟨.error _, rfl⟩
  next => exact ⟨.error _, rfl⟩

end Generation

end Messages

/--
When two memories agree on the variables that a message reads from memory, data have the same interpretations in the
same order in front of both; but for the memory itself these are the same assignments. Generation ends in the same
assignment or with the same error, makes the same message of it, and leaves the same supply. Whatever memory there is,
no target of a relation that is a variable of the message is read from it.
-/
theorem memory_isolated {ρ : Type} [RandomSource ρ] (s : Symbol) {memory memory' : Memory}
    (agree : ∀ id ∈ s.recalled, memory'.known? id = memory.known? id) :
    (∀ maxRepeat data, (s.interpretations maxRepeat data memory').toList =
      (s.interpretations maxRepeat data memory).toList.map (·.recalling memory'.committed)) ∧
    (∀ limits (supply : Supply ρ), (s.generateAssignment limits memory').run.run supply =
      ((s.generateAssignment limits memory).run.run supply).map (.map (·.recalling memory'.committed)) id) ∧
    (∀ settings (supply : Supply ρ), ∃ (outcome : Except GenerationError (Message × Assignment)) (next : Supply ρ),
      (s.generateMessage settings memory).run.run supply =
        (outcome.map fun p => (p.1, memory.complete p.2 settings.persist), next) ∧
      (s.generateMessage settings memory').run.run supply =
        (outcome.map fun p => (p.1, memory'.complete p.2 settings.persist), next)) ∧
    ∀ r, .relation r ∈ s.allVariables → ∀ t ∈ r.targets, t ∈ s.variableIds → ∀ a : Assignment,
      a.scope = s.variableIds → ∀ committed, (a.recalling committed).targetBits? t r.id = a.targetBits? t r.id ∧
        (a.recalling committed).targetLength? t = a.targetLength? t := by
  refine ⟨fun maxRepeat data => ?_, fun limits supply => ?_, fun settings supply => ?_,
    fun r _ t _ ht a hs committed => ?_⟩
  · have same := (s.interpretations_twin agree maxRepeat data).imp fun _ _ h => h.same
    rw [← List.forall₂_eq_eq_eq, List.forall₂_map_right_iff]
    exact same.flip
  · obtain ⟨outcome, left⟩ := s.generateAssignment_twin (ρ := ρ) agree limits supply
    generalize (s.generateAssignment limits memory).run.run supply = p at outcome left ⊢
    generalize (s.generateAssignment limits memory').run.run supply = q at outcome left ⊢
    obtain ⟨result, next⟩ := p
    obtain ⟨result', next'⟩ := q
    cases left
    cases outcome with
    | ok h => rw [h.same]; rfl
    | error e => rfl
  · obtain ⟨outcome, left⟩ :=
      s.generateAssignment_twin (ρ := ρ) agree (.of settings.maxBytes settings.maxRepeat) supply
    rw [Symbol.generateMessage_run, Symbol.generateMessage_run]
    generalize (s.generateAssignment _ memory).run.run supply = p at outcome left ⊢
    generalize (s.generateAssignment _ memory').run.run supply = q at outcome left ⊢
    obtain ⟨result, next⟩ := p
    obtain ⟨result', next'⟩ := q
    cases left
    cases outcome with
    | error e => exact ⟨.error e, _, rfl, rfl⟩
    | @ok a b hab =>
      dsimp only
      rw [Message.ofAssignment_twin hab]
      cases Message.ofAssignment s a with
      | error field => exact ⟨.error (.placeholder field), _, rfl, rfl⟩
      | ok m =>
        have learned : memory'.complete b settings.persist = memory'.complete a settings.persist := by
          rw [hab.same]
          rfl
        refine ⟨.ok (m, a), _, rfl, ?_⟩
        rw [learned]
        rfl
  · have own (hn : a.scope.contains t = false) : (a.recalling committed).known? t = a.known? t := by
      rw [hs, List.contains_iff_mem.mpr ht] at hn
      cases hn
    exact ⟨targetBits?_recalling own r.id, targetLength?_recalling own⟩

/-- A size in front of the byte that it measures, and a token that stays the same for the whole session. -/
def sizedByteAndToken : String :=
  "symbol \"S\" \x7b n: size(x); x: raw(1); token: raw(2) @persistent; \x7d"

/-- A memory that knows the token. -/
def tokenKnown : Memory :=
  ⟨⟨[(.ofRoot 2, .ofBytes [1, 2])]⟩, .empty⟩

/-- The same with a byte left over, as if it had been remembered. -/
def byteLeftOver : Memory :=
  ⟨⟨[(.ofRoot 1, .ofBytes [7, 7, 7]), (.ofRoot 2, .ofBytes [1, 2])]⟩, .empty⟩

/-- A byte left over changes nothing in the messages of `sizedByteAndToken`: the size is that of the byte in them. -/
theorem memory_isolated_byteLeftOver : ∃ symbols s, Grammar.symbols sizedByteAndToken = .ok symbols ∧ s ∈ symbols ∧
    (∀ id ∈ s.recalled, byteLeftOver.known? id = tokenKnown.known? id) ∧
    (∀ maxRepeat data, (s.interpretations maxRepeat data byteLeftOver).toList =
      (s.interpretations maxRepeat data tokenKnown).toList.map (·.recalling byteLeftOver.committed)) ∧
    (s.start tokenKnown).scope = s.variableIds ∧
    ∃ r, .relation r ∈ s.allVariables ∧ VarId.ofRoot 1 ∈ r.targets ∧ VarId.ofRoot 1 ∈ s.variableIds ∧
      ((s.start tokenKnown).recalling byteLeftOver.committed).targetLength? (.ofRoot 1) =
        (s.start tokenKnown).targetLength? (.ofRoot 1) := by
  have run : ((Grammar.symbols sizedByteAndToken).toOption.bind List.head?).map (fun s =>
      (s.recalled.all fun id => byteLeftOver.known? id == tokenKnown.known? id) &&
        (s.allVariables.filterMap Variable.relation?).any (·.targets.contains (.ofRoot 1)) &&
        s.variableIds.contains (.ofRoot 1)) = some true := by
    decide +kernel
  obtain ⟨s, hs, hr⟩ := Option.map_eq_some_iff.mp run
  obtain ⟨symbols, ht, hs⟩ := Option.bind_eq_some_iff.mp hs
  obtain ⟨hr, own⟩ := Bool.and_eq_true_iff.mp hr
  obtain ⟨agree, target⟩ := Bool.and_eq_true_iff.mp hr
  obtain ⟨r, hr, target⟩ := List.any_eq_true.mp target
  obtain ⟨v, hv, hvr⟩ := List.mem_filterMap.mp hr
  have known : ∀ id ∈ s.recalled, byteLeftOver.known? id = tokenKnown.known? id :=
    fun id hid => beq_iff_eq.mp (List.all_eq_true.mp agree id hid)
  have relation : .relation r ∈ s.allVariables := Variable.relation?_eq_some hvr ▸ hv
  have named := List.contains_iff_mem.mp target
  have inside := List.contains_iff_mem.mp own
  obtain ⟨same, -, -, unread⟩ := memory_isolated (ρ := Pcg64) s known
  exact ⟨symbols, s, Grammar.Builder.ok_of_toOption ht, List.mem_of_mem_head? hs, known, same, rfl, r, relation, named,
    inside, (unread r relation _ named inside (s.start tokenKnown) rfl byteLeftOver.committed).2⟩

end WireGrammar
