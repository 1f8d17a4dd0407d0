import WireGrammar.Proofs.Generation.Discipline
import WireGrammar.Proofs.Generation.Modes
import WireGrammar.Proofs.Interpretation.Discipline
import WireGrammar.Proofs.Message.Faithful
import WireGrammar.Proofs.Message.Outcome

/-!
# What a message teaches

While a message is generated or interpreted, the only values that are learned are those of leaves whose scope remembers
values: each is one that the type of the leaf accepts, a persistent leaf learns none when it has one already
(`Learnable`), and a leaf whose mutator makes up its values learns none at all (`generateAssignment_learns`,
`interpretations_learn`). Without mutators a persistent leaf learns one value at most (`generateAssignment_steady`).
-/

namespace WireGrammar

open Assignment Generation Variable

/-- What may be learned for a variable when the given values are committed. -/
inductive Learnable (vars : List Variable) (committed : Store) (id : VarId) (value : BitString) : Prop where
  | ephemeral {name : String} {type : DataType} (hv : .data id name type .ephemeral ∈ vars)
    (ha : type.accepts value = true)
  | persistent {name : String} {type : DataType} (hv : .data id name type .persistent ∈ vars)
    (ha : type.accepts value = true) (hf : type.constant? = none) (hc : committed.get? id = none)

namespace Assignment

variable {vars : List Variable} {silent : VarId → Bool} {a b c : Assignment} {id : VarId} {type : DataType}
  {scope : Scope} {value : BitString}

/-- More values are learned, each of a leaf that may learn it and is not silent. -/
structure Learns (vars : List Variable) (silent : VarId → Bool) (a b : Assignment) : Prop where
  committed : b.committed = a.committed
  learned : ∃ new, b.learned = new ++ a.learned ∧ ∀ e ∈ new, silent e.1 = false ∧ Learnable vars a.committed e.1 e.2

namespace Learns

theorem of_eq (hl : b.learned = a.learned) (hc : b.committed = a.committed) : Learns vars silent a b :=
  ⟨hc, [], hl, fun _ he => nomatch he⟩

theorem refl (a : Assignment) : Learns vars silent a a :=
  of_eq rfl rfl

theorem trans (h₁ : Learns vars silent a b) (h₂ : Learns vars silent b c) : Learns vars silent a c := by
  obtain ⟨new, hn, hnew⟩ := h₁.learned
  obtain ⟨newer, hm, hnewer⟩ := h₂.learned
  refine ⟨h₂.committed.trans h₁.committed, newer ++ new, by rw [hm, hn, List.append_assoc], fun e he => ?_⟩
  rcases List.mem_append.mp he with he | he
  · exact h₁.committed ▸ hnewer e he
  · exact hnew e he

/-- A leaf learns a fresh value if its scope remembers values and it has none to replay. -/
theorem learnFresh {name : String} (hv : .data id name type scope ∈ vars) (hs : silent id = false)
    (hr : a.replayed? id type scope = none) (hc : scope ≠ .constant) (ha : type.accepts value = true) :
    Learns vars silent a (a.learnFresh scope id value) := by
  have learned (h : Learnable vars a.committed id value) : Learns vars silent a (a.learn id value) :=
    ⟨rfl, [(id, value)], rfl, fun e he => by rw [List.mem_singleton.mp he]; exact ⟨hs, h⟩⟩
  cases scope with
  | constant => exact absurd rfl hc
  | volatile => exact refl a
  | ephemeral => exact learned (.ephemeral hv ha)
  | persistent =>
    obtain ⟨hf, hk⟩ := Option.or_eq_none_iff.mp hr
    exact learned (.persistent hv ha hf (Option.or_eq_none_iff.mp hk).2)

/-- Settling teaches nothing. -/
theorem settles (h : Settles a b) : Learns vars silent a b := by
  induction h with
  | refl => exact refl _
  | @fill a b r bits _ _ _ ih =>
    have filled : Learns vars silent a (a.fillIn r.id bits) := of_eq rfl rfl
    exact filled.trans ih

/-- What is learned when nothing was at first. -/
theorem of_start {s : Symbol} {memory : Memory} (h : Learns vars silent (s.start memory) a) :
    ∀ e ∈ a.learned, silent e.1 = false ∧ Learnable vars memory.committed e.1 e.2 := by
  obtain ⟨new, hn, hnew⟩ := h.learned
  have same : a.learned = new := hn.trans (List.append_nil new)
  rw [same]
  exact hnew

end Learns

end Assignment

/-- The discipline in which only leaves that may learn a value do so. -/
def Discipline.learning (vars : List Variable) (silent : VarId → Bool) : Discipline where
  Inv := Distinct
  Step := Learns vars silent
  Fit _ _ := True
  Done _ _ := True
  refl := .refl
  trans := .trans
  done _ h := h
  kept _ h := h
  empty _ := trivial
  pushBits h _ := h
  append _ h _ := h

/-! ## Interpretation -/

section Interpretation

variable {vars : List Variable} {a b : Assignment}

/-- A comparison teaches nothing and lets no relation wait. -/
theorem Assignment.Distinct.verified {made : Assignment} {v : Variable} (hd : made.Distinct)
    (hl : Learns vars (fun _ => false) a made) (hb : made.verified? = some b) :
    (Discipline.learning vars fun _ => false).After v a b := by
  obtain ⟨-, rfl⟩ := verified?_eq_some_iff.mp hb
  exact ⟨hd.sublist List.filter_sublist, hl.trans (.of_eq rfl rfl), trivial⟩

theorem learning_interprets (reading : Reading) (vars : List Variable) :
    Interprets (.learning vars fun _ => false) reading vars where
  data {id name type scope a b offset} hv hi hb := by
    have leaf {x : Assignment} {value : BitString} (hp : x.pending = a.pending) (hl : Learns vars (fun _ => false) a x)
        (hb : (x.record id (.ofBits value)).verified? = some b) :
        (Discipline.learning vars fun _ => false).After (.data id name type scope) a b := by
      have distinct : (x.record id (.ofBits value)).Distinct := hi.sublist (hp ▸ List.Sublist.refl _)
      exact distinct.verified (hl.trans (.of_eq rfl rfl)) hb
    rcases Reading.mem_interpretData.mp hb with ⟨value, -, -, hb⟩ | ⟨hr, hc, length, -, ha, hb⟩
    · exact leaf rfl (.refl a) hb
    · exact leaf (pending_learnFresh _ _ _) (.learnFresh hv rfl hr hc ha) hb
  relation {r a b offset} hv hi hb := by
    have distinct (cell : Cell) : (a.setCell r.id cell).Distinct := hi
    rcases Reading.mem_interpretRelation.mp hb with ⟨bits, -, -, hb⟩ | ⟨n, -, -, -, hb⟩ | ⟨-, n, -, -, hb⟩
    · exact (distinct _).verified (.of_eq rfl rfl) hb
    · exact (distinct _).verified (.of_eq rfl rfl) hb
    · refine ((distinct _).awaitRelation r).verified ?_ hb
      unfold awaitRelation
      split <;> exact .of_eq rfl rfl
  node {v a b content} hv hn hi hf hb := by
    have distinct : (a.record v.id content).Distinct := hi
    exact distinct.verified (.of_eq rfl rfl) hb

/-- All values learned by an interpretation of a message are ones that may be learned. -/
theorem interpretations_learn {s : Symbol} {a : Assignment} {maxRepeat : Nat} {data : BitString} {memory : Memory}
    (h : a ∈ (s.interpretations maxRepeat data memory).toList) :
    Learns s.allVariables (fun _ => false) (s.start memory) a := by
  obtain ⟨p, hp, -, hv, -⟩ := mem_interpretations h
  have below : (s.fields.map (·.domain)).flatMap preorder ⊆ s.allVariables := by
    rw [List.flatMap_map]
    exact List.Subset.refl _
  have start : (s.start memory).Distinct := List.nodup_nil
  have after := (learning_interprets (.of data maxRepeat) s.allVariables).interpretAll_after below start hp
  obtain ⟨-, rfl⟩ := verified?_eq_some_iff.mp hv
  exact after.step.trans (.of_eq rfl rfl)

end Interpretation

/-! ## Generation -/

/-- Whether the mutator of a leaf makes up its value, in place of the normal one. -/
def MutatorMode.replaces : MutatorMode → Bool
  | generate | fixed => true
  | mutate => false

/-- The leaves whose mutators make up their values. -/
def Modes.replaced (modes : Modes) (id : VarId) : Bool :=
  (modes id).any (·.replaces)

section Generation

variable {ρ : Type} [RandomSource ρ] {modes : Modes} {limits : GenerationLimits} {vars : List Variable} {a : Assignment}
  {id : VarId} {name : String} {type : DataType} {scope : Scope}

/-- To find a value for a leaf teaches no more than this value, and records nothing. -/
def Assignment.Finds (vars : List Variable) (silent : VarId → Bool) (a : Assignment) (p : BitString × Assignment) : Prop :=
  Learns vars silent a p.2 ∧ p.2.pending = a.pending

theorem leafValue_learns {J : Option Mutators → Prop} {silent : VarId → Bool}
    (hv : .data id name type scope ∈ vars) (hs : silent id = false) :
    Returns (ρ := ρ) J (leafValue limits id type scope a) (IfSome (a.Finds vars silent)) := by
  have drawn : Returns (ρ := ρ) J (fromSource (type.draw limits.capBits)) (type.accepts · = true) :=
    fromSource_returns (DataType.draw_accepts type limits.capBits)
  unfold leafValue
  dsimp only
  split
  next value h => exact Returns.pure (.some ⟨.refl a, rfl⟩)
  next h => exact Returns.pure .none
  next h => exact drawn.bind fun value hv => Returns.pure (.some ⟨.refl a, rfl⟩)
  next hc hn h =>
    refine drawn.bind fun value ha => Returns.pure (.some ?_)
    have fresh : Learns vars silent a (a.learnFresh _ id value) := .learnFresh hv hs h hc ha
    rw [learnFresh, if_neg hn] at fresh
    exact ⟨fresh, rfl⟩

/-- A mutator that disturbs a value leaves the normal one to be learned, and one that replaces it leaves none. -/
theorem mutatedValue_learns (hv : .data id name type scope ∈ vars) :
    Returns (ρ := ρ) (HasModes modes) (mutatedValue limits id type scope a) (IfSome (a.Finds vars modes.replaced)) := by
  refine (mode?_returns (fun h => h) id).bind fun mode hm => ?_
  have loud (h : mode.any (·.replaces) = false) : modes.replaced id = false := by rwa [hm] at h
  cases mode with
  | none => exact leafValue_learns hv (loud rfl)
  | some mode =>
    cases mode with
    | generate | fixed =>
      refine (fromLeaf?_returns id fun m => (m.generate_ends type).1).bind fun value _ => ?_
      cases value with
      | some value => exact Returns.pure (.some ⟨.refl a, rfl⟩)
      | none => exact (fromSource_returns (Draws.any _)).bind fun value _ => Returns.pure (.some ⟨.refl a, rfl⟩)
    | mutate =>
      refine (leafValue_learns hv (loud rfl)).bind fun p hp => ?_
      cases p with
      | none => exact Returns.pure .none
      | some p =>
        exact (fromLeaf?_returns id fun m => (m.mutate_ends p.1).1).bind fun value _ => Returns.pure (.some (hp p rfl))

theorem learning_generates (modes : Modes) (limits : GenerationLimits) (vars : List Variable) :
    Generates ρ (.learning vars modes.replaced) (HasModes modes) limits vars where
  leaves h hm := hm.of_leaves h
  data {id name type scope a} hv hi := by
    refine (mutatedValue_learns hv).bind fun p hp => ?_
    cases p with
    | none => exact Returns.pure .none
    | some p =>
      obtain ⟨hl, hq⟩ := hp p rfl
      have distinct : (p.2.record id (.ofBits p.1)).Distinct := hi.sublist (hq ▸ List.Sublist.refl _)
      refine (settled_returns _ distinct).bind fun b hb => Returns.pure (.some ⟨?_, ?_, trivial⟩)
      · exact distinct.sublist hb.1.pending_sublist
      · have recorded : Learns vars modes.replaced a (p.2.record id (.ofBits p.1)) := hl.trans (.of_eq rfl rfl)
        exact recorded.trans (.settles hb.1)
  relation {r a} hv hi := by
    have mutator : Returns (ρ := ρ) (HasModes modes) (fromLeaf? r.id (·.generate r.type))
        (·.isSome = Bindings.has (some fun id => (modes id).isSome) r.id) :=
      fromLeaf?_returns r.id fun m => (m.generate_ends r.type).1
    refine (generateRelation_returns mutator hi).mono fun x hx b hb => ?_
    obtain ⟨made, hm, hs⟩ := hx b hb
    have after (hd : made.Distinct) (hl : Learns vars modes.replaced a made) :
        (Discipline.learning vars modes.replaced).After (.relation r) a b :=
      ⟨hd.sublist hs.1.pending_sublist, hl.trans (.settles hs.1), trivial⟩
    cases hm with
    | node hn => cases hn
    | mutated | ready => exact after hi (.of_eq rfl rfl)
    | wait =>
      refine after (Distinct.awaitRelation (a := a.setCell r.id _) hi r) ?_
      unfold awaitRelation
      split <;> exact .of_eq rfl rfl
  node {v a content} hv hn hi hf := by
    have distinct : (a.record v.id content).Distinct := hi
    refine (settled_returns _ distinct).mono fun b hb => ⟨distinct.sublist hb.1.pending_sublist, ?_, trivial⟩
    have recorded : Learns vars modes.replaced a (a.record v.id content) := .of_eq rfl rfl
    exact recorded.trans (.settles hb.1)

/-- All values learned by the generation of a message are ones that may be learned, of leaves without a replaced value. -/
theorem generateAssignment_learns {s : Symbol} {memory : Memory} {supply next : Supply ρ}
    (h : (s.generateAssignment limits memory).run.run supply = (.ok a, next)) :
    Learns s.allVariables supply.modes.replaced (s.start memory) a := by
  have start : (s.start memory).Distinct := List.nodup_nil
  have started {m : Mutators} (hm : HasModes supply.modes (some m)) : HasModes supply.modes (some m.startMessage) :=
    hm.of_leaves rfl
  have fields := (learning_generates (ρ := ρ) supply.modes limits s.allVariables).generateFields_after (List.Subset.refl _) start
  exact (Symbol.generateAssignment_returns started fields supply (fun _ => rfl) a next h).2.2.step

end Generation

/-! ## Persistent leaves -/

section Steady

variable {vars : List Variable} {a b : Assignment}

/-- A persistent leaf has learned one value at most. -/
structure Assignment.Steady (vars : List Variable) (a : Assignment) : Prop where
  distinct : a.Distinct
  once : ∀ {id name type bits}, .data id name type .persistent ∈ vars → (id, bits) ∈ a.learned →
    a.learned.lookup id = some bits

namespace Assignment.Steady

theorem congr (h : a.Steady vars) (hl : b.learned = a.learned) (hd : b.Distinct) : b.Steady vars :=
  ⟨hd, by rw [hl]; exact h.once⟩

theorem settles (h : a.Steady vars) (hs : Settles a b) : b.Steady vars := by
  induction hs with
  | refl => exact h
  | fill _ _ _ ih => exact ih (h.congr rfl (h.distinct.sublist List.filter_sublist))

/-- A leaf that learns a value had none to replay. -/
theorem learnFresh (h : a.Steady vars) (unique : ∀ {v w}, v ∈ vars → w ∈ vars → v.id = w.id → v = w) {id : VarId}
    {name : String} {type : DataType} {scope : Scope} {value : BitString} (hv : .data id name type scope ∈ vars)
    (hr : a.replayed? id type scope = none) : (a.learnFresh scope id value).Steady vars := by
  have pending := pending_learnFresh (a := a) scope id value
  refine ⟨h.distinct.sublist (by rw [pending]), fun {other _ _ bits} ho hm => ?_⟩
  rw [learned_learnFresh] at hm ⊢
  split at hm
  next hc =>
    rw [if_pos hc]
    exact h.once ho hm
  next hc =>
    rw [if_neg hc, List.lookup_cons]
    by_cases he : other = id
    · subst he
      rw [BEq.rfl]
      rcases List.mem_cons.mp hm with hm | hm
      · exact congrArg some (Prod.mk.inj hm).2.symm
      · -- the leaf would have replayed this value
        cases unique ho hv rfl
        have known := (Option.or_eq_none_iff.mp (Option.or_eq_none_iff.mp hr).2).1
        rw [h.once ho hm] at known
        cases known
    · rw [beq_false_of_ne he]
      exact h.once ho ((List.mem_cons.mp hm).resolve_left fun hm => he (Prod.mk.inj hm).1)

end Assignment.Steady

/-- The discipline in which persistent leaves learn one value at most. -/
def Discipline.steady (vars : List Variable) : Discipline where
  Inv := Steady vars
  Step _ _ := True
  Fit _ _ := True
  Done _ _ := True
  refl _ := trivial
  trans _ _ := trivial
  done _ h := h
  kept _ h := h
  empty _ := trivial
  pushBits h _ := h
  append _ h _ := h

variable {ρ : Type} [RandomSource ρ] {limits : GenerationLimits}

theorem steady_generates (unique : ∀ {v w}, v ∈ vars → w ∈ vars → v.id = w.id → v = w) :
    Generates ρ (.steady vars) (fun mutators? => mutators?.map Mutators.hasLeaf = none) limits vars where
  leaves h hm := (congrArg some (Mutators.hasLeaf_congr h)).trans hm
  data {id name type scope a} hv hi := by
    have leaf : Yields (ρ := ρ) none (generateData limits id type scope a) _ :=
      generateData_yields hi.distinct id name type scope
    refine Returns.mono leaf fun x hx b hb => ?_
    obtain ⟨made, hm, hs⟩ := hx b hb
    have after (hi : made.Steady vars) : (Discipline.steady vars).After (.data id name type scope) a b :=
      ⟨hi.settles hs.1, trivial, trivial⟩
    cases hm with
    | node hn => cases hn
    | @data _ _ _ _ _ c value hvalue =>
      cases hvalue with
      | replay hr => exact after (Steady.congr hi rfl hi.distinct)
      | fresh hr hc ha =>
        have learned : (a.learnFresh scope id value).Steady vars := Steady.learnFresh hi unique hv hr
        exact after (learned.congr rfl learned.distinct)
      | mutated hm => cases hm
  relation {r a} hv hi := by
    have value : Yields (ρ := ρ) none (generateRelation r a) _ := generateRelation_yields hi.distinct r
    refine Returns.mono value fun x hx b hb => ?_
    obtain ⟨made, hm, hs⟩ := hx b hb
    have after (hl : made.learned = a.learned) (hd : made.Distinct) :
        (Discipline.steady vars).After (.relation r) a b :=
      ⟨(Steady.congr hi hl hd).settles hs.1, trivial, trivial⟩
    cases hm with
    | node hn => cases hn
    | mutated | ready => exact after rfl hi.distinct
    | wait =>
      refine after ?_ (Distinct.awaitRelation (a := a.setCell r.id _) hi.distinct r)
      unfold awaitRelation
      split <;> rfl
  node {v a content} hv hn hi hf := by
    have distinct : (a.record v.id content).Distinct := hi.distinct
    have steady : (a.record v.id content).Steady vars := Steady.congr hi rfl distinct
    exact (settled_returns _ distinct).mono fun b hs => ⟨steady.settles hs.1, trivial, trivial⟩

/-- While a message is generated without mutators, each persistent leaf learns one value at most. -/
theorem generateAssignment_steady {s : Symbol} (unique : ∀ {v w}, v ∈ s.allVariables → w ∈ s.allVariables → v.id = w.id →
    v = w) {memory : Memory} {supply next : Supply ρ} (hn : supply.mutators? = none)
    (h : (s.generateAssignment limits memory).run.run supply = (.ok a, next)) : a.Steady s.allVariables := by
  have start : (s.start memory).Steady s.allVariables := ⟨List.nodup_nil, fun _ hm => (nomatch hm)⟩
  have generates : Generates ρ (.steady s.allVariables) (fun mutators? => mutators?.map Mutators.hasLeaf = none) limits
      s.allVariables :=
    steady_generates unique
  have fields := generates.generateFields_after (List.Subset.refl _) start
  have kind : supply.mutators?.map Mutators.hasLeaf = none := by rw [hn]; rfl
  exact (Symbol.generateAssignment_returns (fun hm => hm) fields supply kind a next h).2.2.inv

end Steady

end WireGrammar
