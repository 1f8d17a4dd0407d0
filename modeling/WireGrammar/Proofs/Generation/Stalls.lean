import WireGrammar.Proofs.Generation.Modes
import WireGrammar.Proofs.Generation.Ranges

/-!
# Why generation finds no value

Generation of a variable draws one derivation: a child of each choice, a count of each repetition. It finds no value
exactly when it comes to a constant on this way that has none and no mutator to make one up (`generate_eq_none_iff`);
nothing is drawn behind that leaf. The way is described by what generation returns for everything before (`Starts`), so
a derivation that breaks off in the middle of a sequence or a repetition is described as well.

* `Generation.LacksValue`: a constant leaf without a value.
* `Generation.Stalls`: generation comes to such a leaf.
-/

namespace WireGrammar

open Assignment Variable

/-- Every choice has children to choose from; `mkChoice` builds no other. -/
def Variable.HasChoices (v : Variable) : Prop :=
  ∀ id name children, .choice id name children ∈ v.preorder → children ≠ []

theorem Variable.HasChoices.child {v c : Variable} (h : v.HasChoices) (hc : c ∈ v.children) : c.HasChoices :=
  fun id name children hm =>
    h id name children (children_subset_preorder v (preorder_subset_of_mem hc hm))

namespace Generation

variable {ρ : Type} {α β : Type}

/-! ## Results that may be missing -/

section Missing

variable {supply next : Supply ρ}

/-- What is made of another result is not missing. -/
theorem some_ne_none {g : Gen ρ α} (f : α → β) : (do return some (f (← g)) : Gen ρ (Option β)).run.run supply ≠
    (.ok none, next) := by
  intro h
  obtain ⟨x, s, -, h⟩ := Gen.ok_of_bind h
  cases h

/--
A result is missing in the end when it was missing before, if what is made of one is never missing. In most cases one
more step is made of it, which returns something.
-/
theorem bind_eq_none_iff {g : Gen ρ (Option α)} {f : Option α → Gen ρ (Option β)}
    (missing : f none = pure none := by rfl)
    (made : ∀ x s t, (f (some x)).run.run s ≠ (.ok none, t) := by exact fun _ _ _ => some_ne_none fun b => b) :
    (g >>= f).run.run supply = (.ok none, next) ↔ g.run.run supply = (.ok none, next) := by
  rw [Gen.run_bind]
  cases hg : g.run.run supply with
  | mk result s =>
    match result with
    | .error e => exact ⟨nofun, nofun⟩
    | .ok none =>
      dsimp only
      rw [missing]
      constructor <;> (intro h; cases h; rfl)
    | .ok (some x) => exact ⟨fun h => absurd h (made x s next), nofun⟩

/-- What mutators return is what one of them has picked. -/
theorem exists_picked {pick : Mutators → Option (Except MutationError α × Mutators)} {x : α}
    (h : (fromMutators? pick).run.run supply = (.ok (some x), next)) :
    ∃ m m', supply.mutators? = some m ∧ pick m = some (.ok x, m') := by
  rw [fromMutators?_run] at h
  split at h
  next => cases h
  next y m' hp =>
    obtain ⟨m, hm, hp⟩ := Option.bind_eq_some_iff.mp hp
    cases h
    exact ⟨m, m', hm, hp⟩
  next => cases h

end Missing

variable [RandomSource ρ] {limits : GenerationLimits} {a b : Assignment} {s t next : Supply ρ}

/-! ## Whatever is generated is recorded -/

section Recorded

/-- What is recorded stays so while relations are settled. -/
theorem settleRound_keeps (rs : List Relation) (a : Assignment) :
    Leaves (ρ := ρ) (settleRound rs) a fun _ b => ∀ id, (a.content? id).isSome → (b.content? id).isSome := by
  induction rs generalizing a with
  | nil => exact Leaves.pure fun _ h => h
  | cons r rest ih =>
    have filled (bits : BitString) :
        Leaves (ρ := ρ) (do discard (settleRound rest); return true) (a.fillIn r.id bits) fun _ b =>
          ∀ id, (a.content? id).isSome → (b.content? id).isSome := by
      refine Leaves.bind (P := fun _ b => ∀ id, ((a.fillIn r.id bits).content? id).isSome → (b.content? id).isSome)
        ((ih (a.fillIn r.id bits)).bind fun _ _ hb => Leaves.pure hb) fun _ b hb => ?_
      refine Leaves.pure fun id hid => hb id ?_
      rw [content?, Option.isSome_map] at hid ⊢
      rw [entry?_fillIn]
      split
      · rfl
      · exact hid
    rw [settleRound]
    refine Leaves.get.bind fun x c hx => ?_
    obtain ⟨rfl, rfl⟩ := hx
    split
    next => exact Leaves.throw _
    next => exact ih c
    next bits _ =>
      refine (Leaves.update _).bind fun _ d hd => ?_
      rw [hd]
      exact filled bits
    next n _ =>
      refine (Leaves.draw (Draws.any (r.drawFill n))).bind fun bits d hd => ?_
      refine (Leaves.update _).bind fun _ e he => ?_
      rw [he, hd.2]
      exact filled bits

theorem settleRounds_keeps (n : Nat) (a : Assignment) :
    Leaves (ρ := ρ) (settleRounds n) a fun _ b => ∀ id, (a.content? id).isSome → (b.content? id).isSome := by
  induction n generalizing a with
  | zero => exact Leaves.pure fun _ h => h
  | succ n ih =>
    rw [settleRounds]
    refine Leaves.get.bind fun x b hx => ?_
    obtain ⟨rfl, rfl⟩ := hx
    refine (settleRound_keeps b.pending b).bind fun filled c hc => ?_
    cases filled with
    | false => exact Leaves.pure hc
    | true =>
      intro g y hy id hid
      exact ih c g y hy id (hc id hid)

/-- Whatever mutators there are. -/
abbrev Always (g : Gen ρ α) (P : α → Prop) : Prop :=
  Returns (fun _ => True) g P

omit [RandomSource ρ] in
theorem Always.any (g : Gen ρ α) : Always g fun _ => True :=
  fun _ _ _ _ _ => ⟨trivial, trivial⟩

theorem settled_keeps (a : Assignment) :
    Always (ρ := ρ) (settled a) fun b => ∀ id, (a.content? id).isSome → (b.content? id).isSome := by
  have drawn : Draws (ρ := ρ) a.settle fun p =>
      p.1 = .ok () → ∀ id, (a.content? id).isSome → (p.2.content? id).isSome :=
    fun g hg => settleRounds_keeps a.pending.length a g () hg
  refine (fromSource_returns drawn).bind fun p hp => ?_
  obtain ⟨result, b⟩ := p
  cases result with
  | error e => exact Returns.throw e
  | ok x => exact Returns.pure (hp rfl)

/-- A step that records a variable and settles relations leaves it recorded. -/
theorem settled_recorded {id : VarId} (h : (a.content? id).isSome) :
    Always (ρ := ρ) (do return some (← settled a)) (IfSome fun b => (b.content? id).isSome) :=
  (settled_keeps a).bind fun _ hb => Returns.pure (.some (hb id h))

/-- A variable that has been generated is recorded. -/
theorem generate_recorded (v : Variable) (a : Assignment) :
    Always (ρ := ρ) (generate limits v a) (IfSome fun b => (b.content? v.id).isSome) := by
  cases v with
  | data id name type scope =>
    rw [generate]
    refine (Always.any _).bind fun x _ => ?_
    cases x with
    | none => exact Returns.pure .none
    | some p => exact settled_recorded (isSome_content?_record id _)
  | relation r =>
    rw [generate]
    refine (Always.any _).bind fun x _ => ?_
    cases x with
    | some bits => exact settled_recorded (isSome_content?_setCell r.id _)
    | none =>
      dsimp only
      split
      next => exact Returns.throw _
      next => exact settled_recorded (isSome_content?_setCell r.id _)
      next => exact (Always.any _).bind fun _ _ => settled_recorded (isSome_content?_setCell r.id _)
      next =>
        apply settled_recorded
        rw [content?, entry?, entries_awaitRelation]
        exact isSome_content?_setCell r.id _
  | choice id name children =>
    rw [generate]
    refine (Always.any _).bind fun index _ => (Always.any _).bind fun x _ => ?_
    split
    next => exact settled_recorded (isSome_content?_record id _)
    next => exact Returns.pure .none
  | sequence id name children =>
    rw [generate]
    refine (Always.any _).bind fun x _ => ?_
    cases x with
    | none => exact Returns.pure .none
    | some b => exact settled_recorded (isSome_content?_record id _)
  | repetition id name child count delimiter =>
    rw [generate]
    refine (Always.any _).bind fun k _ => (Always.any _).bind fun x _ => ?_
    cases x with
    | none => exact Returns.pure .none
    | some p => exact settled_recorded (isSome_content?_record id _)

theorem isSome_content?_of_generate {v : Variable} (h : (generate limits v a).run.run s = (.ok (some b), t)) :
    (b.content? v.id).isSome :=
  (generate_recorded v a s trivial _ t h).2 b rfl

end Recorded

/-! ## Where generation stops -/

/-- The child that is picked is one of the children. -/
theorem pickChild_lt {id : VarId} {n index : Nat} (hn : 0 < n)
    (h : (pickChild id n).run.run s = (.ok index, next)) : index < n := by
  obtain ⟨picked?, t, hp, h⟩ := Gen.ok_of_bind h
  cases picked? with
  | none =>
    cases h
    exact (RandomSource.countBelow_mem hn t.source).2
  | some picked =>
    cases h
    obtain ⟨m, m', -, hm⟩ := exists_picked hp
    obtain ⟨source, -, hm⟩ := Option.map_eq_some_iff.mp hm
    split at hm
    next => cases hm
    next =>
      have below := congrArg Prod.fst hm
      unfold Mutators.nextBelow at below
      dsimp only at below
      split at below
      next =>
        dsimp only at below
        split at below
        next hlt =>
          cases below
          exact hlt
        next => cases below
      next => cases below

/-- A leaf without a value, and without a mutator that would make one up in place of it. -/
structure LacksValue (id : VarId) (type : DataType) (a : Assignment) (s : Supply ρ) : Prop where
  unset : type.constant? = none
  unknown : a.known? id = none
  notGenerated : s.modes id ≠ some .generate
  notFixed : s.modes id ≠ some .fixed

/--
The variables that generation of a variable comes to, each with the assignment and the supply that it starts from there:
the variable itself, and what generation of a child that is picked, of a child behind others, or of one more instance
comes to.
-/
inductive Starts (limits : GenerationLimits) :
    Variable → Assignment → Supply ρ → Variable → Assignment → Supply ρ → Prop where
  | here (v : Variable) (a : Assignment) (s : Supply ρ) : Starts limits v a s v a s
  | choice {id : VarId} {name : String} {children : List Variable} {index : Nat} {child w : Variable}
      {a b : Assignment} {s s' t : Supply ρ} (picked : (pickChild id children.length).run.run s = (.ok index, s'))
      (hc : children[index]? = some child) (h : Starts limits child a s' w b t) :
      Starts limits (.choice id name children) a s w b t
  | sequence {id : VarId} {name : String} {children before rest : List Variable} {child w : Variable}
      {a a' b : Assignment} {s s' t : Supply ρ} (hc : children = before ++ child :: rest)
      (made : (generateAll limits before a).run.run s = (.ok (some a'), s')) (h : Starts limits child a' s' w b t) :
      Starts limits (.sequence id name children) a s w b t
  | repetition {id : VarId} {name : String} {child w : Variable} {count : RepeatCount} {delimiter : Option BitString}
      {k i : Nat} {a a' b : Assignment} {content : Content} {s s' s'' t : Supply ρ}
      (counted : (pickCount limits id count).run.run s = (.ok k, s')) (hi : i < k)
      (made : (instances (generate limits child) child delimiter i true a .empty).run.run s' =
        (.ok (some (a', content)), s''))
      (h : Starts limits child a' s'' w b t) : Starts limits (.repetition id name child count delimiter) a s w b t

/-- Generation of a variable comes to a constant that lacks a value, with so much of the supply left. -/
def Stalls (limits : GenerationLimits) (v : Variable) (a : Assignment) (s next : Supply ρ) : Prop :=
  ∃ id name type b, Starts limits v a s (.data id name type .constant) b next ∧ LacksValue id type b next

/-! ### One variable -/

omit [RandomSource ρ] in
theorem mode?_run (id : VarId) : (mode? id).run.run s = (.ok (s.modes id), s) :=
  rfl

theorem leafValue_eq_none_iff {id : VarId} {type : DataType} {scope : Scope} :
    (leafValue limits id type scope a).run.run s = (.ok none, next) ↔
      s = next ∧ scope = .constant ∧ type.constant? = none ∧ a.known? id = none := by
  unfold leafValue
  dsimp only
  constructor
  · intro h
    split at h
    next => cases h
    next known =>
      cases h
      exact ⟨rfl, rfl, Option.or_eq_none_iff.mp known⟩
    next => exact absurd h (some_ne_none (fun value => (value, a)))
    next =>
      exact absurd h (some_ne_none (fun value => (value, a.learn id value)))
  · rintro ⟨rfl, rfl, unset, unknown⟩
    rw [unset, unknown]
    rfl

/-- A mutator that makes up values makes one up. -/
theorem mutatedValue_ne_none {id : VarId} {type : DataType} {scope : Scope}
    (h : s.modes id = some .generate ∨ s.modes id = some .fixed) :
    (mutatedValue limits id type scope a).run.run s ≠ (.ok none, next) := by
  intro missing
  obtain ⟨mode?, t, hm, missing⟩ := Gen.ok_of_bind missing
  cases hm
  split at missing
  next hm => simp [Supply.modes, hm] at h
  next hm => simp [Supply.modes, hm] at h
  next =>
    obtain ⟨value?, u, -, missing⟩ := Gen.ok_of_bind missing
    cases value? with
    | some value => cases missing
    | none => exact some_ne_none (fun value => (value, a)) missing

theorem mutatedValue_eq_none_iff {id : VarId} {type : DataType} {scope : Scope} :
    (mutatedValue limits id type scope a).run.run s = (.ok none, next) ↔
      s = next ∧ scope = .constant ∧ LacksValue id type a s := by
  have normal (quiet : s.modes id ≠ some .generate ∧ s.modes id ≠ some .fixed) :
      (leafValue limits id type scope a).run.run s = (.ok none, next) ↔
        s = next ∧ scope = .constant ∧ LacksValue id type a s := by
    rw [leafValue_eq_none_iff]
    refine and_congr_right fun _ => and_congr_right fun _ => ?_
    constructor
    · rintro ⟨unset, unknown⟩
      exact ⟨unset, unknown, quiet.1, quiet.2⟩
    · intro lacks
      exact ⟨lacks.unset, lacks.unknown⟩
  have made (h : s.modes id = some .generate ∨ s.modes id = some .fixed) :
      (mutatedValue limits id type scope a).run.run s = (.ok none, next) ↔
        s = next ∧ scope = .constant ∧ LacksValue id type a s := by
    constructor
    · intro missing
      exact absurd missing (mutatedValue_ne_none h)
    · rintro ⟨-, -, lacks⟩
      exact absurd h (not_or.mpr ⟨lacks.notGenerated, lacks.notFixed⟩)
  cases hm : s.modes id with
  | none =>
    rw [← normal (by simp [hm]), mutatedValue, Gen.run_bind, mode?_run, hm]
  | some mutator =>
    cases mutator with
    | generate => exact made (.inl hm)
    | fixed => exact made (.inr hm)
    | mutate =>
      rw [← normal (by simp [hm]), mutatedValue, Gen.run_bind, mode?_run, hm]
      refine bind_eq_none_iff rfl ?_
      exact fun p _ _ => some_ne_none fun value? : Option BitString => (value?.getD p.1, p.2)

/-- A data leaf gets no value exactly when it is a constant that lacks one, and then nothing is drawn. -/
theorem generateData_eq_none_iff {id : VarId} {type : DataType} {scope : Scope} :
    (generateData limits id type scope a).run.run s = (.ok none, next) ↔
      s = next ∧ scope = .constant ∧ LacksValue id type a s :=
  (bind_eq_none_iff).trans mutatedValue_eq_none_iff

/-- A relation gets a value, or waits for one. -/
theorem generateRelation_ne_none (r : Relation) :
    (generateRelation r a).run.run s ≠ (.ok none, next) := by
  intro h
  obtain ⟨value?, t, -, h⟩ := Gen.ok_of_bind h
  cases value? with
  | some bits => exact some_ne_none (fun b => b) h
  | none =>
    dsimp only at h
    split at h
    next => cases h
    next => exact some_ne_none (fun b => b) h
    next =>
      obtain ⟨bits, u, -, h⟩ := Gen.ok_of_bind h
      exact some_ne_none (fun b => b) h
    next => exact some_ne_none (fun b => b) h

/-! ### Several variables one after the other -/

theorem generateNth_of_getElem? {children : List Variable} {index : Nat} {child : Variable}
    (h : children[index]? = some child) (a : Assignment) :
    generateNth (ρ := ρ) limits children index a = generate limits child a := by
  induction children generalizing index with
  | nil => cases h
  | cons c rest ih =>
    cases index with
    | zero =>
      cases h
      rw [generateNth]
    | succ index =>
      rw [generateNth]
      exact ih h

/-- Children get no values exactly when one of them gets none after those before it have. -/
theorem generateAll_eq_none_iff {children : List Variable} :
    (generateAll limits children a).run.run s = (.ok none, next) ↔
      ∃ before child rest b t, children = before ++ child :: rest ∧
        (generateAll limits before a).run.run s = (.ok (some b), t) ∧
        (generate limits child b).run.run t = (.ok none, next) := by
  induction children generalizing a s with
  | nil =>
    rw [generateAll]
    constructor
    · intro h
      cases h
    · rintro ⟨before, child, rest, b, t, hc, -, -⟩
      simp at hc
  | cons c rest ih =>
    constructor
    · intro h
      rw [generateAll] at h
      obtain ⟨x, t, hx, h⟩ := Gen.ok_of_bind h
      cases x with
      | none =>
        cases h
        exact ⟨[], c, rest, a, s, rfl, rfl, hx⟩
      | some b =>
        obtain ⟨before, child, last, b', t', rfl, made, stalls⟩ := ih.mp h
        refine ⟨c :: before, child, last, b', t', rfl, ?_, stalls⟩
        rw [generateAll, Gen.run_bind, hx]
        exact made
    · rintro ⟨before, child, last, b, t, hc, made, stalls⟩
      rw [generateAll, Gen.run_bind]
      cases before with
      | nil =>
        cases made
        cases hc
        rw [stalls]
        rfl
      | cons d before =>
        cases hc
        rw [generateAll] at made
        obtain ⟨x, u, hx, made⟩ := Gen.ok_of_bind made
        cases x with
        | none => cases made
        | some b' =>
          rw [hx]
          exact ih.mpr ⟨before, child, last, b, t, rfl, made, stalls⟩

/-- There are no `k` instances exactly when there are fewer, and then there is none more. -/
theorem instances_eq_none_iff {child : Variable} {delimiter : Option BitString} {k : Nat} {isFirst : Bool}
    {content : Content} :
    (instances (generate limits child) child delimiter k isFirst a content).run.run s = (.ok none, next) ↔
      ∃ i < k, ∃ b made t,
        (instances (generate limits child) child delimiter i isFirst a content).run.run s = (.ok (some (b, made)), t) ∧
        (generate limits child b).run.run t = (.ok none, next) := by
  induction k generalizing isFirst a content s with
  | zero => exact ⟨nofun, nofun⟩
  | succ k ih =>
    constructor
    · intro h
      rw [instances] at h
      obtain ⟨x, t, hx, h⟩ := Gen.ok_of_bind h
      cases x with
      | none =>
        cases h
        exact ⟨0, Nat.succ_pos k, a, content, s, rfl, hx⟩
      | some b =>
        obtain ⟨own, hown⟩ := Option.isSome_iff_exists.mp (isSome_content?_of_generate hx)
        dsimp only at h
        rw [hown] at h
        obtain ⟨i, hi, b', made, t', before, stalls⟩ := ih.mp h
        refine ⟨i + 1, Nat.succ_lt_succ hi, b', made, t', ?_, stalls⟩
        rw [instances, Gen.run_bind, hx]
        dsimp only
        rw [hown]
        exact before
    · rintro ⟨i, hi, b, made, t, before, stalls⟩
      rw [instances, Gen.run_bind]
      cases i with
      | zero =>
        cases before
        rw [stalls]
        rfl
      | succ i =>
        rw [instances] at before
        obtain ⟨x, u, hx, before⟩ := Gen.ok_of_bind before
        cases x with
        | none => cases before
        | some b' =>
          obtain ⟨own, hown⟩ := Option.isSome_iff_exists.mp (isSome_content?_of_generate hx)
          dsimp only at before
          rw [hown] at before
          rw [hx]
          dsimp only
          rw [hown]
          exact ih.mpr ⟨i, Nat.lt_of_succ_lt_succ hi, b, made, t, before, stalls⟩

/-! ### Whole trees -/

/-- Generation of a variable finds no value exactly when it comes to a constant that lacks one, and then it stops. -/
theorem generate_eq_none_iff {v : Variable} (hv : v.HasChoices) :
    (generate limits v a).run.run s = (.ok none, next) ↔ Stalls limits v a s next := by
  induction v using Variable.induct generalizing a s with
  | data id name type scope =>
    rw [generate, generateData_eq_none_iff]
    constructor
    · rintro ⟨rfl, rfl, lacks⟩
      exact ⟨id, name, type, a, .here _ a s, lacks⟩
    · rintro ⟨_, _, _, b, starts, lacks⟩
      cases starts
      exact ⟨rfl, rfl, lacks⟩
  | relation r =>
    rw [generate]
    refine ⟨fun h => absurd h (generateRelation_ne_none r), ?_⟩
    rintro ⟨_, _, _, b, starts, -⟩
    cases starts
  | choice id name children ih =>
    have nonempty := List.length_pos_of_ne_nil (hv id name children List.mem_cons_self)
    rw [generate]
    constructor
    · intro h
      obtain ⟨index, s', picked, h⟩ := Gen.ok_of_bind h
      have hc := List.getElem?_eq_getElem (pickChild_lt nonempty picked)
      have mem := List.getElem_mem (pickChild_lt nonempty picked)
      rw [generateNth_of_getElem? hc, hc] at h
      have missing := (bind_eq_none_iff).mp h
      obtain ⟨i, n, type, b, starts, lacks⟩ := (ih _ mem (hv.child mem)).mp missing
      exact ⟨i, n, type, b, .choice picked hc starts, lacks⟩
    · rintro ⟨i, n, type, b, starts, lacks⟩
      cases starts with
      | choice picked hc starts =>
        have mem := List.mem_of_getElem? hc
        rw [Gen.run_bind, picked]
        dsimp only
        rw [generateNth_of_getElem? hc, hc]
        refine (bind_eq_none_iff).mpr ?_
        exact (ih _ mem (hv.child mem)).mpr ⟨i, n, type, b, starts, lacks⟩
  | sequence id name children ih =>
    rw [generate]
    refine (bind_eq_none_iff).trans (generateAll_eq_none_iff.trans ?_)
    constructor
    · rintro ⟨before, child, rest, b, t, hc, made, missing⟩
      have mem : child ∈ children := by rw [hc]; exact List.mem_append_cons_self
      obtain ⟨i, n, type, b', starts, lacks⟩ := (ih _ mem (hv.child mem)).mp missing
      exact ⟨i, n, type, b', .sequence hc made starts, lacks⟩
    · rintro ⟨i, n, type, b', starts, lacks⟩
      cases starts with
      | @sequence _ _ _ before rest child _ _ b _ _ t _ hc made starts =>
        have mem : child ∈ children := by rw [hc]; exact List.mem_append_cons_self
        exact ⟨before, child, rest, b, t, hc, made, (ih _ mem (hv.child mem)).mpr ⟨i, n, type, b', starts, lacks⟩⟩
  | repetition id name child count delimiter ih =>
    have below : child.HasChoices := hv.child List.mem_cons_self
    rw [generate]
    constructor
    · intro h
      obtain ⟨k, s', counted, h⟩ := Gen.ok_of_bind h
      have missing := (bind_eq_none_iff).mp h
      obtain ⟨i, hi, b, content, t, made, missing⟩ := instances_eq_none_iff.mp missing
      obtain ⟨l, n, type, b', starts, lacks⟩ := (ih below).mp missing
      exact ⟨l, n, type, b', .repetition counted hi made starts, lacks⟩
    · rintro ⟨l, n, type, b', starts, lacks⟩
      cases starts with
      | repetition counted hi made starts =>
        rw [Gen.run_bind, counted]
        refine (bind_eq_none_iff).mpr ?_
        exact instances_eq_none_iff.mpr ⟨_, hi, _, _, _, made, (ih below).mpr ⟨l, n, type, b', starts, lacks⟩⟩

end Generation

end WireGrammar
