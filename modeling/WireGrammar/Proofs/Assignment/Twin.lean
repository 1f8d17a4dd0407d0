import WireGrammar.Message
import WireGrammar.Proofs.Interpretation.Steps
import WireGrammar.Proofs.Relation.Stability

/-!
# What is read from memory

A message of a symbol reads remembered values of few variables (`Symbol.recalled`): those of its leaves that replay a
value and have no fixed one, and of the targets of relations that are no variables of the message. Two assignments that
differ in other remembered values only (`Assignment.Twin`) give relations the same values, and stay twins in
everything that is done to both.
-/

namespace WireGrammar

/-- The variables of which a message reads remembered values. -/
def Symbol.recalled (s : Symbol) : List VarId :=
  s.allVariables.flatMap fun
    | .data id _ type scope =>
      if (scope = .constant ∨ scope = .persistent) ∧ type.constant? = none then [id] else []
    | .relation r => r.targets.filter fun t => !s.variableIds.contains t
    | .choice .. | .sequence .. | .repetition .. => []

section Recalled

variable {s : Symbol}

theorem Symbol.mem_recalled_of_leaf {id : VarId} {name : String} {type : DataType} {scope : Scope}
    (hv : .data id name type scope ∈ s.allVariables) (hr : scope.replays = true) (hc : type.constant? = none) :
    id ∈ s.recalled := by
  refine List.mem_flatMap.mpr ⟨_, hv, ?_⟩
  have replaying : scope = .constant ∨ scope = .persistent := by
    cases scope with
    | constant => exact Or.inl rfl
    | persistent => exact Or.inr rfl
    | ephemeral | volatile => cases hr
  dsimp only
  rw [if_pos ⟨replaying, hc⟩]
  exact List.mem_singleton_self id

theorem Symbol.mem_recalled_of_target {r : Relation} (hr : .relation r ∈ s.allVariables) {t : VarId}
    (ht : t ∈ r.targets) (hs : s.variableIds.contains t = false) : t ∈ s.recalled := by
  refine List.mem_flatMap.mpr ⟨_, hr, List.mem_filter.mpr ⟨ht, ?_⟩⟩
  rw [hs]
  rfl

end Recalled

namespace Assignment

/-- The same assignment in front of other committed values. -/
def recalling (a : Assignment) (committed : Store) : Assignment :=
  { a with committed }

section Recalling

variable {a : Assignment} {committed : Store} {t : VarId}
  (h : a.scope.contains t = false → (a.recalling committed).known? t = a.known? t)

include h

/-- Only the bits of a target outside the message come from memory. -/
theorem targetBits?_recalling (exclude : VarId) :
    (a.recalling committed).targetBits? t exclude = a.targetBits? t exclude := by
  have entry : Assignment.entry? (a.recalling committed) t = a.entry? t := rfl
  have scope : (a.recalling committed).scope = a.scope := rfl
  unfold targetBits?
  rw [entry, scope]
  cases a.entry? t with
  | some entry => cases entry <;> rfl
  | none =>
    dsimp only
    split
    next => rfl
    next hs => exact h (Bool.of_not_eq_true hs)

/-- The same of its length. -/
theorem targetLength?_recalling : (a.recalling committed).targetLength? t = a.targetLength? t := by
  have entry : Assignment.entry? (a.recalling committed) t = a.entry? t := rfl
  have scope : (a.recalling committed).scope = a.scope := rfl
  unfold targetLength?
  rw [entry, scope]
  cases a.entry? t with
  | some entry => rfl
  | none =>
    dsimp only
    split
    next => rfl
    next hs => rw [h (Bool.of_not_eq_true hs)]

end Recalling

/--
Two assignments of a message that differ in committed values only, and in none that the message reads. The relations
that wait are those of the message.
-/
structure Twin (s : Symbol) (committed : Store) (a b : Assignment) : Prop where
  same : b = a.recalling committed
  scope : a.scope = s.variableIds
  agree : ∀ id ∈ s.recalled, committed.get? id = a.committed.get? id
  waits : ∀ r ∈ a.pending, .relation r ∈ s.allVariables

namespace Twin

variable {s : Symbol} {committed : Store} {a b : Assignment} {id : VarId}

/-! ## What both have in common -/

section Common

variable (h : Twin s committed a b)

include h

theorem entry?_eq (id : VarId) : b.entry? id = a.entry? id := by
  rw [h.same]
  rfl

theorem cell?_eq (id : VarId) : b.cell? id = a.cell? id := by
  rw [h.same]
  rfl

theorem content?_eq (id : VarId) : b.content? id = a.content? id := by
  rw [h.same]
  rfl

theorem freeze_eq (content : Content) : b.freeze content = a.freeze content := by
  rw [h.same]
  rfl

theorem consumed_eq (v : Variable) : b.consumed v = a.consumed v := by
  rw [h.same]
  rfl

theorem pending_eq : b.pending = a.pending := by
  rw [h.same]
  rfl

theorem known?_eq (hid : id ∈ s.recalled) : b.known? id = a.known? id := by
  rw [h.same, known?, known?, ← h.agree id hid]
  rfl

/-- A leaf has the same value to replay. -/
theorem replayed?_eq {name : String} {type : DataType} {scope : Scope}
    (hv : .data id name type scope ∈ s.allVariables) : b.replayed? id type scope = a.replayed? id type scope := by
  unfold replayed?
  cases hr : scope.replays with
  | false => rfl
  | true =>
    cases hc : type.constant? with
    | some value => rfl
    | none => rw [h.known?_eq (s.mem_recalled_of_leaf hv hr hc)]

variable {r : Relation} (hr : .relation r ∈ s.allVariables)

include hr

theorem targetBits?_eq {t : VarId} (ht : t ∈ r.targets) (exclude : VarId) :
    b.targetBits? t exclude = a.targetBits? t exclude := by
  have known (hs : a.scope.contains t = false) := h.known?_eq (s.mem_recalled_of_target hr ht (h.scope ▸ hs))
  rw [h.same] at known ⊢
  exact targetBits?_recalling known exclude

theorem targetLength?_eq {t : VarId} (ht : t ∈ r.targets) : b.targetLength? t = a.targetLength? t := by
  have known (hs : a.scope.contains t = false) := h.known?_eq (s.mem_recalled_of_target hr ht (h.scope ▸ hs))
  rw [h.same] at known ⊢
  exact targetLength?_recalling known

theorem evaluate_eq : r.evaluate b = r.evaluate a := by
  refine Relation.evaluate_congr (fun t ht _ => h.targetBits?_eq hr ht _) (fun t ht _ => h.targetLength?_eq hr ht)
    fun _ => ?_
  rw [Relation.ownLength?, h.cell?_eq, Relation.ownLength?]

theorem agrees?_eq : r.agrees? b = r.agrees? a := by
  rw [Relation.agrees?, h.evaluate_eq hr, h.cell?_eq, Relation.agrees?]

end Common

/-! ## What is done to both -/

theorem start {memory memory' : Memory} (h : ∀ id ∈ s.recalled, memory'.known? id = memory.known? id) :
    Twin s memory'.committed (s.start memory) (s.start memory') :=
  ⟨rfl, rfl, h, fun _ hr => nomatch hr⟩

section Steps

variable (h : Twin s committed a b)

include h

theorem record (id : VarId) (content : Content) : Twin s committed (a.record id content) (b.record id content) := by
  obtain ⟨rfl, hs, hc, hw⟩ := h
  exact ⟨rfl, hs, hc, hw⟩

theorem setCell (id : VarId) (cell : Cell) : Twin s committed (a.setCell id cell) (b.setCell id cell) := by
  obtain ⟨rfl, hs, hc, hw⟩ := h
  exact ⟨rfl, hs, hc, hw⟩

theorem learn (id : VarId) (value : BitString) : Twin s committed (a.learn id value) (b.learn id value) := by
  obtain ⟨rfl, hs, hc, hw⟩ := h
  exact ⟨rfl, hs, hc, hw⟩

theorem learnFresh (scope : Scope) (id : VarId) (value : BitString) :
    Twin s committed (a.learnFresh scope id value) (b.learnFresh scope id value) := by
  unfold Assignment.learnFresh
  split
  · exact h
  · exact h.learn id value

theorem endWait (id : VarId) : Twin s committed (a.endWait id) (b.endWait id) := by
  obtain ⟨rfl, hs, hc, hw⟩ := h
  exact ⟨rfl, hs, hc, fun r hr => hw r (List.mem_of_mem_filter hr)⟩

theorem fillIn (id : VarId) (bits : BitString) : Twin s committed (a.fillIn id bits) (b.fillIn id bits) :=
  (h.setCell id (.known bits)).endWait id

theorem awaitRelation {r : Relation} (hr : .relation r ∈ s.allVariables) :
    Twin s committed (a.awaitRelation r) (b.awaitRelation r) := by
  obtain ⟨rfl, hs, hc, hw⟩ := h
  unfold Assignment.awaitRelation
  change Twin _ _ _ (if a.isPending r.id then _ else _)
  split
  · exact ⟨rfl, hs, hc, hw⟩
  · refine ⟨rfl, hs, hc, fun q hq => ?_⟩
    rcases List.mem_append.mp hq with hq | hq
    · exact hw q hq
    · rw [List.mem_singleton.mp hq]
      exact hr

theorem verifyEach {relations : List Relation} (hr : ∀ r ∈ relations, .relation r ∈ s.allVariables) :
    (verifyEach relations b).1 = (verifyEach relations a).1 ∧
      Twin s committed (verifyEach relations a).2 (verifyEach relations b).2 := by
  induction relations generalizing a b with
  | nil => exact ⟨rfl, h⟩
  | cons r rest ih =>
    obtain ⟨own, hrest⟩ := List.forall_mem_cons.mp hr
    rw [Assignment.verifyEach, Assignment.verifyEach, h.agrees?_eq own]
    split
    next => exact ih h hrest
    next => exact ih (h.endWait r.id) hrest
    next => exact ⟨rfl, h⟩

/-- A comparison of the relations that wait ends in the same way. -/
theorem verified? : Option.Rel (Twin s committed) a.verified? b.verified? := by
  obtain ⟨hb, ha⟩ := h.verifyEach h.waits
  unfold Assignment.verified? Assignment.verify
  rw [h.pending_eq]
  cases hx : Assignment.verifyEach a.pending a with
  | mk ok x =>
    cases hy : Assignment.verifyEach a.pending b with
    | mk ok' y =>
      rw [hx, hy] at hb ha
      cases hb
      cases ok with
      | true => exact .some ha
      | false => exact .none

/-- A node is recorded from its children in both, or in none. -/
theorem compose? (id : VarId) (children : List Variable) :
    Option.Rel (Twin s committed) (a.compose? id children) (b.compose? id children) := by
  have contents : children.mapM (fun child => b.content? child.id) = children.mapM fun child => a.content? child.id :=
    mapM_congr_mem fun child _ => h.content?_eq child.id
  unfold Assignment.compose?
  rw [contents]
  cases children.mapM fun child => a.content? child.id with
  | none => exact .none
  | some contents =>
    have freeze : b.freeze = a.freeze := funext h.freeze_eq
    change Option.Rel _ (Assignment.verified? _) (Assignment.verified? _)
    rw [freeze]
    exact (h.record id _).verified?

end Steps

end Twin

end Assignment

end WireGrammar
