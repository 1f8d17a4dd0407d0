import WireGrammar.Proofs.Message.Cuts
import WireGrammar.Proofs.Session.Memory

/-!
# Bounds of a session

In a session that only generates, under any data mutators, the values of open types are cut at the bound of the
session, whether they are drawn, replayed from memory or disturbed by a mutator. Values that mutators make up are cut at
a cap of their own instead, whatever the bound of the session is (`generated_lengths_capped`).

* `Session.Generating`: the steps of such a session.
-/

namespace WireGrammar

open Assignment Variable

namespace Session

variable {symbols : List Symbol} {s : Symbol} {config : SessionConfig} {x y : Session Pcg64}

/-- What is done in a session that only generates, under data mutators, and which session it leads to. -/
inductive Generating (symbols : List Symbol) : Session Pcg64 → Session Pcg64 → Prop where
  | generate {x : Session Pcg64} {s : Symbol} (hs : s ∈ symbols) : Generating symbols x (x.generate s).2
  /-- Mutators are bound, changed or taken away. -/
  | mutators (x : Session Pcg64) {mutators? : Option Mutators} (h : ∀ m ∈ mutators?, m.OnlyData) :
    Generating symbols x { x with supply := { x.supply with mutators? } }
  /-- To the session that is forked off. -/
  | fork (x : Session Pcg64) : Generating symbols x x.fork.1
  /-- To the session from which another one was forked off. -/
  | forked (x : Session Pcg64) : Generating symbols x x.fork.2

/-- Between messages all values that are known of leaves are cut, and mutators of leaves are data mutators. -/
structure Bounded (symbols : List Symbol) (config : SessionConfig) (x : Session Pcg64) : Prop where
  same : x.config = config
  staged : x.memory.staged = .empty
  known : ∀ {id name type scope value}, .data id name type scope ∈ symbols.flatMap Symbol.allVariables →
    x.memory.known? id = some value → type.CutAt (config.settings.maxBytes * 8) value
  data : ∀ m ∈ x.supply.mutators?, m.OnlyData

theorem config_generate (x : Session Pcg64) (s : Symbol) : (x.generate s).2.config = x.config := by
  unfold generate
  split <;> rfl

theorem supply_generate (x : Session Pcg64) (s : Symbol) :
    (x.generate s).2.supply = ((s.generateMessage x.config.settings x.memory).run.run x.supply).2 := by
  unfold generate
  split
  next h => rw [h]
  next h => rw [h]

theorem config_fork {ρ : Type} [RandomSource ρ] (x : Session ρ) :
    x.fork.1.config = x.config ∧ x.fork.2.config = x.config := by
  unfold fork
  cases RandomSource.next64 x.supply.source with
  | mk seed source => exact ⟨rfl, rfl⟩

theorem mutators_fork {ρ : Type} [RandomSource ρ] (x : Session ρ) :
    x.fork.1.supply.mutators? = none ∧ x.fork.2.supply.mutators? = x.supply.mutators? := by
  unfold fork
  cases RandomSource.next64 x.supply.source with
  | mk seed source => exact ⟨rfl, rfl⟩

/-- Data mutators are left behind, whether a message is generated or not. -/
theorem data_generate (hd : ∀ m ∈ x.supply.mutators?, m.OnlyData) (s : Symbol) :
    ∀ m ∈ (x.generate s).2.supply.mutators?, m.OnlyData := by
  have started : ∀ m ∈ x.supply.started.mutators?, m.OnlyData := by
    intro m hm
    obtain ⟨old, ho, rfl⟩ := Option.map_eq_some_iff.mp hm
    exact (hd old ho).of_leaves rfl
  rw [supply_generate, Symbol.generateMessage_supply]
  split
  next =>
    exact Symbol.generateFields_closed Gen.KeepsData.closed (fun _ => .throw _) (fun v _ => Gen.KeepsData.asks v.id)
      (s.start x.memory) x.supply.started started
  next => exact hd

namespace Bounded

theorem ofConfig (symbols : List Symbol) (config : SessionConfig) : (ofConfig config).Bounded symbols config :=
  ⟨rfl, rfl, fun _ hk => (nomatch hk), fun _ hm => (nomatch hm)⟩

theorem of_eq (h : x.Bounded symbols config) (hc : y.config = x.config) (hm : y.memory = x.memory)
    (hd : ∀ m ∈ y.supply.mutators?, m.OnlyData) : y.Bounded symbols config := by
  refine ⟨hc.trans h.same, ?_, ?_, hd⟩
  · rw [hm]
    exact h.staged
  · rw [hm]
    exact h.known

variable (unique : Unambiguous (symbols.flatMap Symbol.allVariables)) (h : x.Bounded symbols config)

include unique h

/-- All values of leaves in a message are cut. -/
theorem cut (hs : s ∈ symbols) {a : Assignment} {next : Supply Pcg64}
    (ha : (s.generateAssignment (.of config.settings.maxBytes config.settings.maxRepeat) x.memory).run.run x.supply =
      (.ok a, next)) : a.Cut (symbols.flatMap Symbol.allVariables) (config.settings.maxBytes * 8)
        (x.supply.modes.capOf (config.settings.maxBytes * 8)) :=
  generateAssignment_cut unique (fun _ hv => List.mem_flatMap.mpr ⟨s, hs, hv⟩) h.known h.data ha

theorem generate (hs : s ∈ symbols) : (x.generate s).2.Bounded symbols config := by
  refine ⟨(x.config_generate s).trans h.same, ?_, ?_, data_generate h.data s⟩
  all_goals rcases x.memory_generate s with same | ⟨a, next, ha, taken⟩
  · exact same ▸ h.staged
  · rw [taken]
    exact Memory.staged_complete _ _ _
  · exact same ▸ h.known
  · rw [h.same] at ha
    have committed : a.committed = x.memory.committed := (generateAssignment_learns ha).committed
    intro id name type scope value hv hk
    rw [taken, Memory.known?_complete h.staged] at hk
    split at hk
    next =>
      -- the message started from this memory, so its assignment knows all that is known after it
      have known : a.known? id = some value := by
        rw [known?, committed]
        exact hk
      exact (h.cut unique hs ha).known hv known
    next => exact h.known hv hk

theorem step (hs : Generating symbols x y) : y.Bounded symbols config := by
  cases hs with
  | generate hs => exact h.generate unique hs
  | mutators hm => exact h.of_eq rfl rfl hm
  | fork =>
    refine h.of_eq (config_fork x).1 (memory_fork x).1 ?_
    rw [(mutators_fork x).1]
    exact fun _ hm => nomatch hm
  | forked =>
    refine h.of_eq (config_fork x).2 (memory_fork x).2 ?_
    rw [(mutators_fork x).2]
    exact h.data

omit h in
theorem run (hr : Relation.ReflTransGen (Generating symbols) (.ofConfig config) x) : x.Bounded symbols config := by
  induction hr with
  | refl => exact .ofConfig symbols config
  | tail _ hs ih => exact ih.step unique hs

end Bounded

end Session

/-- The fields of a message that are leaves show values that were recorded. -/
theorem Assignment.Cut.fields {vars : List Variable} {normal : Nat} {cap : VarId → Nat} {a : Assignment} {s : Symbol}
    {m : Message} (h : a.Cut vars normal cap) (hs : s.allVariables ⊆ vars) (hm : Message.ofAssignment s a = .ok m) :
    List.Forall₂ (fun f v => ∀ id name type scope, f.domain = .data id name type scope → type.CutAt (cap id) v.bits)
      s.fields m.fields := by
  obtain ⟨values, hvalues, hm⟩ := Grammar.Builder.ok_of_bind hm
  cases hm
  have mem : ∀ f ∈ s.fields, f.domain ∈ vars := fun f hf =>
    hs (Grammar.mem_allVariables.mpr ⟨f, hf, f.domain.self_mem_preorder⟩)
  refine ((List.forall₂_and_left _ _).mpr ⟨mem, collect_eq hvalues⟩).imp ?_
  rintro f v ⟨hf, hb⟩ id name type scope hd
  have own : f.id = id := congrArg Variable.id hd
  rw [hd] at hf
  rw [own] at hb
  cases he : a.entry? id with
  | none =>
    rw [bits?, he] at hb
    cases hb
  | some entry =>
    obtain ⟨front, back, split, -⟩ := List.lookup_eq_some_iff.mp he
    obtain ⟨value, rfl, cut⟩ := h.recorded hf (split ▸ List.mem_append_right _ List.mem_cons_self)
    cases hb.symm.trans (bits?_of_ofBits he (Content.atoms_ofBits value))
    exact cut

/--
In a session that only generates, under any data mutators and through all forks, every value that a message records for
a leaf of an open type is cut: at the bound of the session, or at the cap of mutators where one makes up the value. The
same holds of the fields of the message that are leaves. No bound below this cap holds of the values that are made up.
-/
theorem generated_lengths_capped {symbols : List Symbol} (unique : Unambiguous (symbols.flatMap Symbol.allVariables))
    {config : SessionConfig} {x : Session Pcg64}
    (hx : Relation.ReflTransGen (Session.Generating symbols) (.ofConfig config) x) :
    (∀ s ∈ symbols, ∀ m y, x.generate s = (.ok m, y) →
      let cap (id : VarId) := if x.supply.modes.replaced id then DataMutator.capBits else config.settings.maxBytes * 8
      ∃ a, (s.generateAssignment (.of config.settings.maxBytes config.settings.maxRepeat) x.memory).run.run x.supply =
          (.ok a, y.supply) ∧
        Message.ofAssignment s a = .ok m ∧
        (∀ id name type scope, .data id name type scope ∈ s.allVariables → ∀ entry, (id, entry) ∈ a.entries →
          ∃ value, entry = .content (.ofBits value) ∧ type.CutAt (cap id) value) ∧
        List.Forall₂ (fun f v => ∀ id name type scope, f.domain = .data id name type scope →
          type.CutAt (cap id) v.bits) s.fields m.fields) ∧
    ∀ type : DataType, type.bounds.2 = none → ∃ mutator : DataMutator, mutator.mode = .generate ∧ ∃ value,
      ((LeafMutator.data mutator).generate type).1 = .ok value ∧
        value.length = max type.bounds.1 DataMutator.capBits := by
  refine ⟨fun s hs m y hg => ?_, fun type unbounded => DataMutator.exists_longest unbounded⟩
  have bounded := Session.Bounded.run unique hx
  obtain ⟨memory', next, hm, rfl⟩ := Session.generate_eq_ok hg
  obtain ⟨a, ha, hm, -⟩ := Symbol.generateMessage_eq_ok hm
  rw [bounded.same] at ha
  have below : s.allVariables ⊆ symbols.flatMap Symbol.allVariables := fun _ hv => List.mem_flatMap.mpr ⟨s, hs, hv⟩
  have cut := bounded.cut unique hs ha
  exact ⟨a, ha, hm, fun id name type scope hv entry he => cut.recorded (below hv) he, cut.fields below hm⟩

/-- Two fields of open types. -/
def openFields : String :=
  "symbol \"S\" \x7b x: raw(); y: raw(); \x7d"

/-- A session that allows no bytes for open types. -/
def SessionConfig.tight : SessionConfig :=
  let config := ofSeed 1
  { config with settings := { config.settings with maxBytes := 0 } }

/-- A mutator that makes up one byte for the first field. -/
def oneByte : Mutators :=
  Mutators.empty.bindLeaf (.ofRoot 0) (.data (.of .generate (.list [1, 0] 0 false)))

/-- The session after one message, with this mutator. -/
def Session.withOneByte (s : Symbol) : Session Pcg64 :=
  let session := ((ofConfig .tight).generate s).2
  { session with supply := { session.supply with mutators? := some oneByte } }

/-- In a session that allows no bytes the second field of `openFields` is empty, and the first one has a byte. -/
theorem generated_lengths_capped_openFields : ∃ symbols s m y, Grammar.symbols openFields = .ok symbols ∧ s ∈ symbols ∧
    Relation.ReflTransGen (Session.Generating symbols) (.ofConfig .tight) (Session.withOneByte s) ∧
    (Session.withOneByte s).generate s = (.ok m, y) ∧ m.fields.map (·.bits) = [.ofBytes [0], .empty] ∧
    (Session.withOneByte s).supply.modes.replaced (.ofRoot 0) = true ∧
    (Session.withOneByte s).supply.modes.replaced (.ofRoot 1) = false ∧
    ∃ a, Message.ofAssignment s a = .ok m ∧
      ∀ id name type scope, .data id name type scope ∈ s.allVariables → ∀ entry, (id, entry) ∈ a.entries →
        ∃ value, entry = .content (.ofBits value) ∧
          type.CutAt (if (Session.withOneByte s).supply.modes.replaced id then DataMutator.capBits else 0) value := by
  have run : ((Grammar.symbols openFields).toOption.bind List.head?).bind (fun s =>
      ((Session.withOneByte s).generate s).1.toOption.map fun m => m.fields.map (·.bits)) =
        some [.ofBytes [0], .empty] := by
    decide +kernel
  obtain ⟨s, hs, run⟩ := Option.bind_eq_some_iff.mp run
  obtain ⟨symbols, ht, hs⟩ := Option.bind_eq_some_iff.mp hs
  obtain ⟨m, hm, bits⟩ := Option.map_eq_some_iff.mp run
  have text : Grammar.symbols openFields = .ok symbols := Grammar.Builder.ok_of_toOption ht
  have mem : s ∈ symbols := List.mem_of_mem_head? hs
  have data : ∀ m ∈ some oneByte, m.OnlyData := by
    rintro _ ⟨⟩
    have none : Mutators.empty.OnlyData := fun id mutator h => by cases h
    exact none.bindLeaf _ _
  have steps : Relation.ReflTransGen (Session.Generating symbols) (.ofConfig .tight) (Session.withOneByte s) :=
    .tail (.single (.generate mem)) (.mutators _ data)
  have made : (Session.withOneByte s).generate s = (.ok m, _) := Prod.ext (Grammar.Builder.ok_of_toOption hm) rfl
  obtain ⟨messages, -⟩ := generated_lengths_capped (Grammar.symbols_unambiguous text) steps
  obtain ⟨a, -, ha, cut, -⟩ := messages s mem m _ made
  exact ⟨symbols, s, m, _, text, mem, steps, made, bits, rfl, rfl, a, ha, cut⟩

end WireGrammar
