import WireGrammar.Proofs.Grammar.Layout
import WireGrammar.Proofs.Message.Learning
import WireGrammar.Session

/-!
# The memory of a session

A session generates and recognizes messages, binds and clears mutators, and forks (`Session.Step`), and after any number
of such steps (`Session.Run`) all that its memory holds are values that leaves may remember: each belongs to a leaf that
is chosen anew for every message or once in a session, and the type of the leaf accepts it (`committed_values`).

* `Memory.Advances`: what the messages of some symbols may do to a memory.
-/

namespace WireGrammar

open Assignment Variable

/-! ## What a message does to a memory -/

/-- When a complete message is committed, what it taught comes before what was staged, and that before what was known. -/
theorem Memory.known?_complete_true (memory : Memory) (a : Assignment) (id : VarId) :
    (memory.complete a true).known? id =
      (a.learned.lookup id).or ((memory.staged.get? id).or (memory.known? id)) := by
  change (memory.committed.union (memory.staged.union a.learnedStore)).get? id = _
  rw [Store.get?_union, Store.get?_union, learnedStore, Store.get?_union]
  change (((a.learned.lookup id).or none).or _).or _ = _
  rw [Option.or_none, Option.or_assoc]
  rfl

/-- A complete message commits what was learned, or leaves the memory as it is. -/
theorem Memory.known?_complete {memory : Memory} (h : memory.staged = .empty) (a : Assignment) (persist : Bool)
    (id : VarId) : (memory.complete a persist).known? id =
      if persist then (a.learned.lookup id).or (memory.known? id) else memory.known? id := by
  cases persist with
  | false => rfl
  | true =>
    rw [known?_complete_true, h]
    rfl

theorem Memory.staged_complete (memory : Memory) (a : Assignment) (persist : Bool) :
    (memory.complete a persist).staged = .empty := by
  cases persist <;> rfl

/-- What the messages of some symbols may do to a memory, where silent leaves teach nothing. -/
inductive Memory.Advances (symbols : List Symbol) (silent : VarId → Bool) (memory : Memory) : Memory → Prop where
  | stays : Advances symbols silent memory memory
  | learns {s : Symbol} {a : Assignment} (hs : s ∈ symbols) (hl : Learns s.allVariables silent (s.start memory) a)
    (persist : Bool) : Advances symbols silent memory (memory.complete a persist)

/-- A value that a leaf of one of the symbols may remember. -/
def Remembered (symbols : List Symbol) (id : VarId) (value : BitString) : Prop :=
  ∃ s ∈ symbols, ∃ name type scope, .data id name type scope ∈ s.allVariables ∧
    (scope = .ephemeral ∨ scope = .persistent) ∧ type.accepts value = true

/-- Between messages nothing is staged, and all that is committed are values that leaves may remember. -/
structure Memory.Tidy (symbols : List Symbol) (memory : Memory) : Prop where
  staged : memory.staged = .empty
  remembered : ∀ {id value}, memory.known? id = some value → Remembered symbols id value

namespace Memory.Advances

variable {symbols : List Symbol} {silent : VarId → Bool} {memory memory' : Memory} {id : VarId} {value : BitString}

/-- What is known after a message was known before, or the message taught it. -/
theorem known (h : memory.Advances symbols silent memory') (ht : memory.staged = .empty)
    (hk : memory'.known? id = some value) : memory.known? id = some value ∨
      silent id = false ∧ ∃ s ∈ symbols, Learnable s.allVariables memory.committed id value := by
  cases h with
  | stays => exact Or.inl hk
  | @learns s a hs hl persist =>
    rw [known?_complete ht] at hk
    split at hk
    next =>
      rcases Option.or_eq_some_iff.mp hk with hk | ⟨-, hk⟩
      · obtain ⟨front, back, he, -⟩ := List.lookup_eq_some_iff.mp hk
        obtain ⟨hq, hv⟩ := hl.of_start (id, value) (he ▸ List.mem_append_right _ List.mem_cons_self)
        exact Or.inr ⟨hq, s, hs, hv⟩
      · exact Or.inl hk
    next => exact Or.inl hk

/-- What is known before a message is known after it, perhaps with another value. -/
theorem isSome_known? (h : memory.Advances symbols silent memory') (ht : memory.staged = .empty)
    (hk : (memory.known? id).isSome) : (memory'.known? id).isSome := by
  cases h with
  | stays => exact hk
  | learns hs hl persist =>
    rw [known?_complete ht]
    split
    next => rw [Option.isSome_or, hk, Bool.or_true]
    next => exact hk

/-- A leaf that is silent keeps the value that it had, or has none as before. -/
theorem known?_of_silent (h : memory.Advances symbols silent memory') (ht : memory.staged = .empty)
    (hq : silent id = true) : memory'.known? id = memory.known? id := by
  cases hk : memory'.known? id with
  | some value =>
    rcases h.known ht hk with hk | ⟨hn, -⟩
    · exact hk.symm
    · rw [hq] at hn
      cases hn
  | none =>
    cases hm : memory.known? id with
    | none => rfl
    | some value =>
      have kept := h.isSome_known? ht (hm ▸ rfl : (memory.known? id).isSome)
      rw [hk] at kept
      cases kept

theorem tidy (h : memory.Advances symbols silent memory') (ht : memory.Tidy symbols) : memory'.Tidy symbols := by
  refine ⟨?_, fun hk => ?_⟩
  · cases h with
    | stays => exact ht.staged
    | learns => exact staged_complete _ _ _
  · rcases h.known ht.staged hk with hk | ⟨-, s, hs, hv⟩
    · exact ht.remembered hk
    · cases hv with
      | ephemeral hv ha => exact ⟨s, hs, _, _, _, hv, Or.inl rfl, ha⟩
      | persistent hv ha => exact ⟨s, hs, _, _, _, hv, Or.inr rfl, ha⟩

end Memory.Advances

/-! ## Steps of a session -/

namespace Session

variable {symbols ss : List Symbol} {s : Symbol} {config : SessionConfig} {x y z : Session Pcg64}

/-- What is done in a session, and which session it leads to. -/
inductive Step (symbols : List Symbol) : Session Pcg64 → Session Pcg64 → Prop where
  | generate {x : Session Pcg64} {s : Symbol} (hs : s ∈ symbols) : Step symbols x (x.generate s).2
  | recognize {x : Session Pcg64} {ss : List Symbol} (hs : ss ⊆ symbols) (data : List UInt8) :
    Step symbols x (x.recognize ss data).2
  | setMutators (x : Session Pcg64) (mutators : Mutators) : Step symbols x (x.setMutators mutators)
  | clearMutators (x : Session Pcg64) : Step symbols x x.clearMutators
  /-- To the session that is forked off. -/
  | fork (x : Session Pcg64) : Step symbols x x.fork.1
  /-- To the session from which another one was forked off. -/
  | forked (x : Session Pcg64) : Step symbols x x.fork.2

/-- Any number of steps. -/
def Run (symbols : List Symbol) : Session Pcg64 → Session Pcg64 → Prop :=
  Relation.ReflTransGen (Step symbols)

theorem generate_eq_ok {m : Message} (h : x.generate s = (.ok m, y)) : ∃ memory' next,
    (s.generateMessage x.config.settings x.memory).run.run x.supply = (.ok (m, memory'), next) ∧
      y = { x with memory := memory', supply := next } := by
  unfold generate at h
  split at h
  next message memory' next hg =>
    cases h
    exact ⟨memory', next, hg, rfl⟩
  next => cases h

/-- Generation leaves the memory as it is, or makes it take over what a complete message taught. -/
theorem memory_generate (x : Session Pcg64) (s : Symbol) : (x.generate s).2.memory = x.memory ∨ ∃ a next,
    (s.generateAssignment (.of x.config.settings.maxBytes x.config.settings.maxRepeat) x.memory).run.run x.supply =
      (.ok a, next) ∧ (x.generate s).2.memory = x.memory.complete a x.config.settings.persist := by
  cases hx : x.generate s with
  | mk result y =>
    cases result with
    | ok m =>
      obtain ⟨memory', next, hg, rfl⟩ := generate_eq_ok hx
      obtain ⟨a, ha, -, he⟩ := Symbol.generateMessage_eq_ok hg
      exact Or.inr ⟨a, next, ha, he⟩
    | error e =>
      unfold generate at hx
      split at hx
      next => cases hx
      next =>
        cases hx
        exact Or.inl rfl

/-- Generation teaches nothing about leaves whose mutators make up their values. -/
theorem generate_advances (x : Session Pcg64) (hs : s ∈ symbols) :
    x.memory.Advances symbols x.supply.modes.replaced (x.generate s).2.memory := by
  rcases x.memory_generate s with same | ⟨a, next, ha, taken⟩
  · rw [same]
    exact .stays
  · rw [taken]
    exact .learns hs (generateAssignment_learns ha) _

/-- A message that is recognized is one of the first symbol that accepts it. -/
theorem recognizeBits_eq_some {data : BitString} {m : Message} (h : x.recognizeBits ss data = (some m, y)) :
    ∃ s ∈ ss, ∃ memory', s.recognize x.config.settings.maxRepeat x.config.settings.persist data x.memory =
      (some m, memory') ∧ y = { x with memory := memory' } := by
  induction ss with
  | nil => cases h
  | cons s rest ih =>
    rw [recognizeBits] at h
    split at h
    next message memory' hr =>
      cases h
      exact ⟨s, List.mem_cons_self, memory', hr, rfl⟩
    next =>
      obtain ⟨s', hs', rest⟩ := ih h
      exact ⟨s', List.mem_cons_of_mem _ hs', rest⟩

theorem recognizeBits_eq_none {data : BitString} (h : x.recognizeBits ss data = (none, y)) : y = x := by
  induction ss with
  | nil =>
    cases h
    rfl
  | cons s rest ih =>
    rw [recognizeBits] at h
    split at h
    next => cases h
    next => exact ih h

theorem recognize_advances (x : Session Pcg64) (hs : ss ⊆ symbols) (data : List UInt8) :
    x.memory.Advances symbols (fun _ => false) (x.recognize ss data).2.memory := by
  cases hx : x.recognize ss data with
  | mk result y =>
    cases result with
    | some m =>
      obtain ⟨s, hm, memory', hr, rfl⟩ := recognizeBits_eq_some hx
      obtain ⟨a, ha, -, rfl⟩ := recognize_eq_some hr
      exact .learns (hs hm) (interpretations_learn ha) _
    | none =>
      rw [recognizeBits_eq_none hx]
      exact .stays

theorem memory_fork {ρ : Type} [RandomSource ρ] (x : Session ρ) :
    x.fork.1.memory = x.memory ∧ x.fork.2.memory = x.memory := by
  unfold fork
  cases RandomSource.next64 x.supply.source with
  | mk seed source => exact ⟨rfl, rfl⟩

/-- Every step of a session changes its memory only as messages do. -/
theorem Step.advances (h : Step symbols x y) : ∃ silent, x.memory.Advances symbols silent y.memory := by
  cases h with
  | generate hs => exact ⟨_, x.generate_advances hs⟩
  | recognize hs data => exact ⟨_, x.recognize_advances hs data⟩
  | setMutators | clearMutators => exact ⟨fun _ => false, .stays⟩
  | fork =>
    rw [(memory_fork x).1]
    exact ⟨fun _ => false, .stays⟩
  | forked =>
    rw [(memory_fork x).2]
    exact ⟨fun _ => false, .stays⟩

theorem Run.tidy (h : Run symbols x y) (hx : x.memory.Tidy symbols) : y.memory.Tidy symbols := by
  induction h with
  | refl => exact hx
  | tail _ hs ih =>
    obtain ⟨silent, advances⟩ := hs.advances
    exact advances.tidy ih

theorem Run.tidy_of_config (h : Run symbols (.ofConfig config) x) : x.memory.Tidy symbols :=
  h.tidy ⟨rfl, fun hk => nomatch hk⟩

end Session

/-- A token that stays the same for the whole session, and a byte that is chosen anew for every message. -/
def tokenThenByte : String :=
  "symbol \"S\" \x7b token: raw(2) @persistent; x: raw(1); \x7d"

/-- The session after one message, in which the second field has a value of its own from then on. -/
def Session.fixedByte (s : Symbol) : Session Pcg64 :=
  ((ofConfig (.ofSeed 1)).generate s).2.setMutators (Mutators.empty.bindLeaf (.ofRoot 1) (.fixed (.ofBytes [7])))

end WireGrammar
