import WireGrammar.Proofs.Generation.Stalls

/-!
# The way of generation

All that generation of a variable comes to, in order (`Generation.visits`): the variable itself, and in front of which
assignment and supply each of those below it is generated, once for every instance, up to the step that fails or the
leaf that has no value. The list has exactly the visits that the steps of `Starts` lead to (`mem_visits_iff`); as a list
it also tells how many there are.
-/

namespace WireGrammar

section After

variable {ρ α β γ : Type}

/-- What follows from the result of a computation and the supply after it; nothing follows from a failure. -/
def Gen.after (g : Gen ρ α) (s : Supply ρ) (f : α → Supply ρ → List β) : List β :=
  match g.run.run s with
  | (.ok x, t) => f x t
  | (.error _, _) => []

theorem Gen.mem_after {g : Gen ρ α} {s : Supply ρ} {f : α → Supply ρ → List β} {y : β} :
    y ∈ g.after s f ↔ ∃ x t, g.run.run s = (.ok x, t) ∧ y ∈ f x t := by
  unfold after
  constructor
  · intro h
    split at h
    next x t hg => exact ⟨x, t, hg, h⟩
    next => cases h
  · rintro ⟨x, t, hg, h⟩
    rwa [hg]

theorem Gen.filterMap_after (g : Gen ρ α) (s : Supply ρ) (f : α → Supply ρ → List β) (p : β → Option γ) :
    (g.after s f).filterMap p = g.after s fun x t => (f x t).filterMap p := by
  unfold after
  split <;> rfl

end After

/-- A variable that generation comes to, with the assignment and the supply that it starts from there. -/
structure Visit (ρ : Type) where
  target : Variable
  start : Assignment
  supply : Supply ρ

namespace Generation

variable {ρ : Type} [RandomSource ρ]

/-- The visits of `k` more instances, where `below` has those of one. -/
def instanceVisits (one : Assignment → Gen ρ (Option Assignment)) (below : Assignment → Supply ρ → List (Visit ρ))
    (child : Variable) : Nat → Assignment → Supply ρ → List (Visit ρ)
  | 0, _, _ => []
  | k + 1, a, s => below a s ++ (one a).after s fun b? t =>
    match b?.filter fun b => (b.content? child.id).isSome with
    | some b => instanceVisits one below child k b t
    | none => []

mutual

/-- All that generation of a variable comes to, in order. -/
def visits (limits : GenerationLimits) : Variable → Assignment → Supply ρ → List (Visit ρ)
  | .data id name type scope, a, s => [⟨.data id name type scope, a, s⟩]
  | .relation r, a, s => [⟨.relation r, a, s⟩]
  | .choice id name children, a, s => ⟨.choice id name children, a, s⟩ ::
    (pickChild id children.length).after s fun index t => visitsNth limits children index a t
  | .sequence id name children, a, s => ⟨.sequence id name children, a, s⟩ :: visitsAll limits children a s
  | .repetition id name child count delimiter, a, s => ⟨.repetition id name child count delimiter, a, s⟩ ::
    (pickCount limits id count).after s fun k t =>
      instanceVisits (generate limits child) (visits limits child) child k a t

/-- All that generation of the child with an index comes to. -/
def visitsNth (limits : GenerationLimits) : List Variable → Nat → Assignment → Supply ρ → List (Visit ρ)
  | [], _, _, _ => []
  | child :: _, 0, a, s => visits limits child a s
  | _ :: rest, index + 1, a, s => visitsNth limits rest index a s

/-- All that generation of the children one after the other comes to. -/
def visitsAll (limits : GenerationLimits) : List Variable → Assignment → Supply ρ → List (Visit ρ)
  | [], _, _ => []
  | child :: rest, a, s => visits limits child a s ++ (generate limits child a).after s fun b? t =>
    match b? with
    | some b => visitsAll limits rest b t
    | none => []

end

variable {limits : GenerationLimits} {a : Assignment} {s : Supply ρ} {y : Visit ρ}

theorem mem_visitsNth {children : List Variable} {index : Nat} :
    y ∈ visitsNth limits children index a s ↔ ∃ child, children[index]? = some child ∧ y ∈ visits limits child a s := by
  induction children generalizing index with
  | nil => simp [visitsNth]
  | cons c rest ih =>
    cases index with
    | zero => simp [visitsNth]
    | succ index => rw [visitsNth, List.getElem?_cons_succ, ih]

theorem mem_visitsAll {children : List Variable} :
    y ∈ visitsAll limits children a s ↔ ∃ before child rest b t, children = before ++ child :: rest ∧
      (generateAll limits before a).run.run s = (.ok (some b), t) ∧ y ∈ visits limits child b t := by
  induction children generalizing a s with
  | nil => simp [visitsAll]
  | cons c rest ih =>
    rw [visitsAll, List.mem_append, Gen.mem_after]
    constructor
    · rintro (own | ⟨b?, t, made, later⟩)
      · exact ⟨[], c, rest, a, s, rfl, rfl, own⟩
      · cases b? with
        | none => cases later
        | some b =>
          obtain ⟨before, child, last, b', t', rfl, made', below⟩ := ih.mp later
          refine ⟨c :: before, child, last, b', t', rfl, ?_, below⟩
          rw [generateAll, Gen.run_bind, made]
          exact made'
    · rintro ⟨before, child, last, b, t, hc, made, below⟩
      cases before with
      | nil =>
        cases made
        cases hc
        exact Or.inl below
      | cons d before =>
        cases hc
        rw [generateAll] at made
        obtain ⟨x, u, hx, made⟩ := Gen.ok_of_bind made
        cases x with
        | none => cases made
        | some b' => exact Or.inr ⟨some b', u, hx, ih.mpr ⟨before, child, last, b, t, rfl, made, below⟩⟩

theorem mem_instanceVisits {child : Variable} (delimiter : Option BitString) {k : Nat} (isFirst : Bool)
    (content : Content) : y ∈ instanceVisits (generate limits child) (visits limits child) child k a s ↔
      ∃ i < k, ∃ b made t,
        (instances (generate limits child) child delimiter i isFirst a content).run.run s = (.ok (some (b, made)), t) ∧
        y ∈ visits limits child b t := by
  induction k generalizing isFirst a content s with
  | zero => simp [instanceVisits]
  | succ k ih =>
    rw [instanceVisits, List.mem_append, Gen.mem_after]
    constructor
    · rintro (own | ⟨b?, t, one, later⟩)
      · exact ⟨0, Nat.succ_pos k, a, content, s, rfl, own⟩
      · split at later
        next b hb =>
          obtain ⟨rfl, hc⟩ := Option.filter_eq_some_iff.mp hb
          obtain ⟨own, hown⟩ := Option.isSome_iff_exists.mp hc
          obtain ⟨i, hi, b', made, t', before, below⟩ := (ih _ _).mp later
          refine ⟨i + 1, Nat.succ_lt_succ hi, b', made, t', ?_, below⟩
          rw [instances, Gen.run_bind, one]
          dsimp only
          rw [hown]
          exact before
        next => cases later
    · rintro ⟨i, hi, b, made, t, before, below⟩
      cases i with
      | zero =>
        cases before
        exact Or.inl below
      | succ i =>
        rw [instances] at before
        obtain ⟨x, u, hx, before⟩ := Gen.ok_of_bind before
        cases x with
        | none => cases before
        | some b' =>
          have recorded := isSome_content?_of_generate hx
          obtain ⟨own, hown⟩ := Option.isSome_iff_exists.mp recorded
          dsimp only at before
          rw [hown] at before
          refine Or.inr ⟨some b', u, hx, ?_⟩
          rw [Option.filter_some, if_pos recorded]
          exact (ih _ _).mpr ⟨i, Nat.lt_of_succ_lt_succ hi, b, made, t, before, below⟩

/-- The visits of the list are those that the steps of generation lead to. -/
theorem mem_visits_iff {v w : Variable} {b : Assignment} {t : Supply ρ} :
    ⟨w, b, t⟩ ∈ visits limits v a s ↔ Starts limits v a s w b t := by
  induction v using Variable.induct generalizing a s with
  | data id name type scope =>
    rw [visits, List.mem_singleton]
    constructor
    · rintro ⟨⟩
      exact .here _ _ _
    · rintro ⟨⟩
      rfl
  | relation r =>
    rw [visits, List.mem_singleton]
    constructor
    · rintro ⟨⟩
      exact .here _ _ _
    · rintro ⟨⟩
      rfl
  | choice id name children ih =>
    rw [visits, List.mem_cons, Gen.mem_after]
    constructor
    · rintro (⟨⟨⟩⟩ | ⟨index, s', picked, below⟩)
      · exact .here _ _ _
      · obtain ⟨child, hc, below⟩ := mem_visitsNth.mp below
        exact .choice picked hc ((ih child (List.mem_of_getElem? hc)).mp below)
    · intro starts
      cases starts with
      | here => exact Or.inl rfl
      | choice picked hc h =>
        exact Or.inr ⟨_, _, picked, mem_visitsNth.mpr ⟨_, hc, (ih _ (List.mem_of_getElem? hc)).mpr h⟩⟩
  | sequence id name children ih =>
    rw [visits, List.mem_cons, mem_visitsAll]
    constructor
    · rintro (⟨⟨⟩⟩ | ⟨before, child, rest, b', t', hc, made, below⟩)
      · exact .here _ _ _
      · have mem : child ∈ children := by rw [hc]; exact List.mem_append_cons_self
        exact .sequence hc made ((ih child mem).mp below)
    · intro starts
      cases starts with
      | here => exact Or.inl rfl
      | @sequence _ _ _ before rest child _ _ b' _ _ t' _ hc made h =>
        have mem : child ∈ children := by rw [hc]; exact List.mem_append_cons_self
        exact Or.inr ⟨before, child, rest, b', t', hc, made, (ih child mem).mpr h⟩
  | repetition id name child count delimiter ih =>
    rw [visits, List.mem_cons, Gen.mem_after]
    constructor
    · rintro (⟨⟨⟩⟩ | ⟨k, s', counted, below⟩)
      · exact .here _ _ _
      · obtain ⟨i, hi, b', made, t', before, below⟩ :=
          (mem_instanceVisits delimiter true .empty).mp below
        exact .repetition counted hi before (ih.mp below)
    · intro starts
      cases starts with
      | here => exact Or.inl rfl
      | repetition counted hi made h =>
        exact Or.inr ⟨_, _, counted, (mem_instanceVisits delimiter true .empty).mpr ⟨_, hi, _, _, _, made, ih.mpr h⟩⟩

end Generation

end WireGrammar
