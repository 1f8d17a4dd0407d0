import WireGrammar.Proofs.Message.Generated
import WireGrammar.Proofs.Session.Memory

/-!
# Values that persist

The value of a persistent leaf that is committed once is the value of the leaf for the rest of the session: no message
teaches another one, and every message has it in all places of the leaf (`persistent_values`). Leaves of all symbols
count here, for an identity belongs to one variable of the grammar.

* `Symbol.Carries`: the fields hold a value in all places of a leaf.
-/

namespace WireGrammar

open Assignment Variable Grammar

/-- The derivations of the fields hold a value in all places of a leaf. -/
def Symbol.Carries (s : Symbol) (parts : List Derivation) (id : VarId) (value : BitString) : Prop :=
  FitsAll (fun i _ _ bits => i = id → bits = value) (fun _ _ => True) (s.fields.map (·.domain)) parts

section Leaf

variable {fields : Fields} {symbols : List Symbol} {s t : Symbol} {memory memory' : Memory} {a : Assignment}
  {silent : VarId → Bool} {id : VarId} {name : String} {type : DataType} {value : BitString}

variable (ho : InOrder fields) (made : ∀ s ∈ symbols, MadeOf fields s) (hs : s ∈ symbols)
  (leaf : .data id name type .persistent ∈ s.allVariables)

include ho made hs leaf

/-- A persistent leaf that has a value learns none. -/
theorem not_learnable (ht : t ∈ symbols) (hk : memory.known? id = some value) (bits : BitString) :
    ¬ Learnable t.allVariables memory.committed id bits := by
  intro h
  cases h with
  | ephemeral hv =>
    cases (made s hs).eq_of_id_of_made ho (made t ht) leaf hv rfl
  | persistent _ _ _ hc => exact nomatch hk.symm.trans hc

/-- What is known of a persistent leaf stays. -/
theorem Memory.Advances.known?_of_persistent (h : memory.Advances symbols silent memory') (hm : memory.staged = .empty)
    (hk : memory.known? id = some value) : memory'.known? id = some value := by
  obtain ⟨value', hk'⟩ := Option.isSome_iff_exists.mp (h.isSome_known? hm (hk ▸ rfl : (memory.known? id).isSome))
  rcases h.known hm hk' with same | ⟨-, t, ht, learned⟩
  · exact hk'.trans (same.symm.trans hk)
  · exact absurd learned (not_learnable ho made hs leaf ht hk value')

/-- A leaf whose value is settled holds it. -/
theorem Variable.HoldsLeaf.eq_of_settled (ht : t ∈ symbols) (hl : Learns t.allVariables silent (t.start memory) a)
    (settled : type.constant?.or (memory.known? id) = some value) {bits : BitString}
    (h : HoldsLeaf a id type .persistent bits) : bits = value := by
  rcases h.replayed rfl with hc | ⟨hc, hk⟩
  · rw [hc] at settled
    exact Option.some.inj settled
  · rw [hc, Option.none_or] at settled
    rcases hk with learned | committed
    · exact absurd (hl.of_start _ learned).2 (not_learnable ho made hs leaf ht settled bits)
    · rw [hl.committed] at committed
      exact Option.some.inj (committed.symm.trans settled)

/-- Where leaves hold what they may, all places of a leaf whose value is settled hold this value. -/
theorem Symbol.carries_of_settled (ht : t ∈ symbols) (hl : Learns t.allVariables silent (t.start memory) a)
    (settled : type.constant?.or (memory.known? id) = some value) {rule : LeafRule} {counts : RepeatCount → Nat → Prop}
    (holds : ∀ {type scope bits}, rule id type scope bits → HoldsLeaf a id type scope bits) {parts : List Derivation}
    (h : FitsAll rule counts (t.fields.map (·.domain)) parts) : t.Carries parts id value := by
  refine fitsAll_mono (fun v hv d hd => hd.weaken (fun {i own _ _ bits} hi hb he => ?_) fun _ => trivial) h
  subst he
  obtain ⟨f, hf, rfl⟩ := List.mem_map.mp hv
  cases (made s hs).eq_of_id_of_made ho (made t ht) leaf (mem_allVariables.mpr ⟨f, hf, hi⟩) rfl
  exact (holds hb).eq_of_settled ho made hs leaf ht hl settled

/-- What is known of a persistent leaf stays for the rest of the session. -/
theorem Session.Run.known?_of_persistent {x y : Session Pcg64} (hm : x.memory.Tidy symbols) (h : Session.Run symbols x y)
    (hk : x.memory.known? id = some value) : y.memory.known? id = some value := by
  induction h with
  | refl => exact hk
  | @tail y z h step ih =>
    obtain ⟨silent, advances⟩ := step.advances
    exact advances.known?_of_persistent ho made hs leaf (Session.Run.tidy h hm).staged ih

end Leaf

/--
In every session a value that is committed for a persistent leaf stays in all that follows, forks included. Where the
leaf has one, or its type has only one, every recognized message holds this value in all places of the leaf, and so does
every generated message unless a mutator is bound to the leaf.
-/
theorem persistent_values {text : String} {symbols : List Symbol} (ht : Grammar.symbols text = .ok symbols)
    {config : SessionConfig} {x y : Session Pcg64} (hx : Session.Run symbols (.ofConfig config) x)
    (hy : Session.Run symbols x y) {s : Symbol} (hs : s ∈ symbols) {id : VarId} {name : String} {type : DataType}
    (leaf : .data id name type .persistent ∈ s.allVariables) :
    (∀ value, x.memory.known? id = some value → y.memory.known? id = some value) ∧
    ∀ value, type.constant?.or (x.memory.known? id) = some value →
      (∀ t ∈ symbols, ∀ m z, y.generate t = (.ok m, z) → y.supply.bindings.has id = false →
        ∃ a parts traces, Generated t y.config.settings y.memory y.supply m a parts traces ∧
          t.Carries parts id value) ∧
      ∀ ts ⊆ symbols, ∀ data m z, y.recognize ts data = (some m, z) → ∃ t ∈ ts, ∃ a parts trace,
        Recognized t y.config.settings.maxRepeat (.ofBytes data) y.memory m a parts trace ∧ t.Carries parts id value := by
  obtain ⟨fields, ho, made⟩ := symbols_made ht
  have kept (value : BitString) (hk : x.memory.known? id = some value) : y.memory.known? id = some value :=
    hy.known?_of_persistent ho made hs leaf hx.tidy_of_config hk
  have settled {value : BitString} (h : type.constant?.or (x.memory.known? id) = some value) :
      type.constant?.or (y.memory.known? id) = some value := by
    rcases Option.or_eq_some_iff.mp h with hc | ⟨hc, hk⟩
    · rw [hc, Option.some_or]
    · rw [hc, Option.none_or, kept value hk]
  refine ⟨kept, fun value hv => ⟨fun t ht m z hg unbound => ?_, fun ts hts data m z hr => ?_⟩⟩
  · obtain ⟨memory', next, hm, -⟩ := Session.generate_eq_ok hg
    obtain ⟨a, parts, traces, generated, -⟩ := generated_holds (made t ht) ho hm
    obtain ⟨next, ha⟩ := generated.made
    exact ⟨a, parts, traces, generated, Symbol.carries_of_settled ho made hs leaf ht (generateAssignment_learns ha) (settled hv)
      (fun h => h unbound) generated.fits⟩
  · obtain ⟨t, ht, memory', hm, -⟩ := Session.recognizeBits_eq_some hr
    obtain ⟨a, parts, trace, recognized⟩ := exists_recognized (made t (hts ht)) ho hm
    exact ⟨t, ht, a, parts, trace, recognized, Symbol.carries_of_settled ho made hs leaf (hts ht)
      (interpretations_learn recognized.read) (settled hv) (fun h => h) recognized.fits⟩

/-- Whether the variable is a persistent leaf of this identity whose type leaves a choice. -/
def Variable.isPersistentAt (id : VarId) : Variable → Bool
  | .data i _ type .persistent => i = id ∧ type.constant? = none
  | _ => false

/-- The token of `tokenThenByte` is the same in the next messages of a session, those that are read included. -/
theorem persistent_values_tokenThenByte : ∃ symbols s, Grammar.symbols tokenThenByte = .ok symbols ∧ s ∈ symbols ∧
    let y := ((Session.fixedByte s).generate s).2
    y.memory.known? (.ofRoot 0) = some (.ofBytes [71, 45]) ∧
    (∃ m z, y.generate s = (.ok m, z) ∧ m.bits = .ofBytes [71, 45, 7] ∧ ∃ a parts traces,
      Generated s y.config.settings y.memory y.supply m a parts traces ∧
        s.Carries parts (.ofRoot 0) (.ofBytes [71, 45])) ∧
    ∃ m z, y.recognize [s] [71, 45, 9] = (some m, z) ∧ ∃ t ∈ [s], ∃ a parts trace,
      Recognized t y.config.settings.maxRepeat (.ofBytes [71, 45, 9]) y.memory m a parts trace ∧
        t.Carries parts (.ofRoot 0) (.ofBytes [71, 45]) := by
  let next (s : Symbol) : Session Pcg64 := ((Session.fixedByte s).generate s).2
  have run : ((Grammar.symbols tokenThenByte).toOption.bind List.head?).map (fun s =>
      ((Session.fixedByte s).memory.known? (.ofRoot 0), ((next s).generate s).1.toOption.map (·.bits),
        (next s).supply.bindings.has (.ofRoot 0), ((next s).recognize [s] [71, 45, 9]).1.isSome,
        s.allVariables.any (·.isPersistentAt (.ofRoot 0)))) =
        some (some (.ofBytes [71, 45]), some (.ofBytes [71, 45, 7]), false, true, true) := by
    decide +kernel
  obtain ⟨s, hs, he⟩ := Option.map_eq_some_iff.mp run
  obtain ⟨symbols, ht, hs⟩ := Option.bind_eq_some_iff.mp hs
  have text : Grammar.symbols tokenThenByte = .ok symbols := Builder.ok_of_toOption ht
  have mem : s ∈ symbols := List.mem_of_mem_head? hs
  simp only [Prod.mk.injEq, Option.map_eq_some_iff, Option.isSome_iff_exists] at he
  obtain ⟨known, ⟨m, hm, bits⟩, unbound, ⟨m', hm'⟩, hleaf⟩ := he
  obtain ⟨v, hv, hp⟩ := List.any_eq_true.mp hleaf
  unfold Variable.isPersistentAt at hp
  split at hp
  next i name type =>
    obtain ⟨rfl, hc⟩ := of_decide_eq_true hp
    have first : Session.Run symbols (.ofConfig (.ofSeed 1)) (Session.fixedByte s) :=
      .tail (.single (.generate mem)) (.setMutators _ _)
    obtain ⟨kept, carried⟩ := persistent_values text first (.single (.generate mem)) mem hv
    obtain ⟨generated, recognized⟩ := carried (.ofBytes [71, 45]) (by rw [hc, Option.none_or]; exact known)
    have made : (next s).generate s = (.ok m, _) := Prod.ext (Builder.ok_of_toOption hm) rfl
    have read : (next s).recognize [s] [71, 45, 9] = (some m', _) := Prod.ext hm' rfl
    exact ⟨symbols, s, text, mem, kept _ known, ⟨m, _, made, bits, generated s mem m _ made unbound⟩,
      m', _, read, recognized [s] (by simpa using mem) _ _ _ read⟩
  next => cases hp

end WireGrammar
