import Mathlib.Data.List.Range
import WireGrammar.Interpretation
import WireGrammar.Proofs.Assignment.Growth
import WireGrammar.Proofs.Variable.Tree

/-!
# Steps of interpretation

What the interpretations of a variable are, one law for each kind of variable: as a list where their order matters
(`toList_interpretAll_append`), and otherwise as conditions on one interpretation (`mem_interpretData`,
`mem_interpretRelation`, `mem_interpretAny`, `mem_interpretAll_cons`, `mem_instances_succ`). From them follows that
interpretation only adds to an assignment, and only for the variables in the tree (`interpret_grows`).
-/

namespace WireGrammar

namespace Assignment

/-- The value that a data leaf has already. -/
def replayed? (a : Assignment) (id : VarId) (type : DataType) (scope : Scope) : Option BitString :=
  if scope.replays then type.constant?.or (a.known? id) else none

/-- A fresh value learned, if the scope of its leaf remembers values. -/
def learnFresh (a : Assignment) (scope : Scope) (id : VarId) (value : BitString) : Assignment :=
  if scope = .volatile then a else a.learn id value

theorem Grows.learnFresh {ids : List VarId} {a b : Assignment} {id : VarId} (h : Grows ids a b) (hid : id ∈ ids)
    (scope : Scope) (value : BitString) : Grows ids a (b.learnFresh scope id value) := by
  unfold Assignment.learnFresh
  split
  · exact h
  · exact h.learn hid value

end Assignment

namespace Reading

variable {reading : Reading} {a b : Assignment} {offset : Nat}

/-! ## Leaves -/

section Leaves

variable {id : VarId} {type : DataType} {scope : Scope}

theorem interpretData_eq : reading.interpretData id type scope a offset =
    match a.replayed? id type scope, scope with
    | some expected, _ =>
      if expected.matchesAt reading.data offset then .ofOption (a.record id (.ofBits expected)).verified? else .nil
    | none, .constant => .nil
    | none, _ =>
      (Choices.ofList (type.candidateLengths (reading.remaining offset))).filterMap fun length =>
        if type.accepts (reading.bitsAt offset length) then
          ((a.learnFresh scope id (reading.bitsAt offset length)).record id
            (.ofBits (reading.bitsAt offset length))).verified?
        else none := rfl

theorem toList_interpretData_replay {value : BitString} (h : a.replayed? id type scope = some value) :
    (reading.interpretData id type scope a offset).toList =
      if value.matchesAt reading.data offset then (a.record id (.ofBits value)).verified?.toList else [] := by
  rw [interpretData_eq, h]
  dsimp only
  split
  · rw [Choices.toList_ofOption]
  · rfl

theorem toList_interpretData_constant (h : a.replayed? id type .constant = none) :
    (reading.interpretData id type .constant a offset).toList = [] := by
  rw [interpretData_eq, h]
  rfl

theorem toList_interpretData_fresh (h : a.replayed? id type scope = none) (hs : scope ≠ .constant) :
    (reading.interpretData id type scope a offset).toList =
      (type.candidateLengths (reading.remaining offset)).filterMap fun length =>
        if type.accepts (reading.bitsAt offset length) then
          ((a.learnFresh scope id (reading.bitsAt offset length)).record id
            (.ofBits (reading.bitsAt offset length))).verified?
        else none := by
  rw [interpretData_eq, h]
  cases scope with
  | constant => exact absurd rfl hs
  | ephemeral | volatile | persistent => simp only [Choices.toList_filterMap, Choices.toList_ofList]

/-- A leaf replays the value that it has, or takes any bits that its type accepts. -/
theorem mem_interpretData :
    b ∈ (reading.interpretData id type scope a offset).toList ↔
      (∃ value, a.replayed? id type scope = some value ∧ value.matchesAt reading.data offset = true ∧
        (a.record id (.ofBits value)).verified? = some b) ∨
      (a.replayed? id type scope = none ∧ scope ≠ .constant ∧
        ∃ length ∈ type.candidateLengths (reading.remaining offset),
          type.accepts (reading.bitsAt offset length) = true ∧
            ((a.learnFresh scope id (reading.bitsAt offset length)).record id
              (.ofBits (reading.bitsAt offset length))).verified? = some b) := by
  cases h : a.replayed? id type scope with
  | some value =>
    rw [toList_interpretData_replay h]
    split
    next hm => simp [hm]
    next hm => simp [hm]
  | none =>
    by_cases hs : scope = .constant
    · subst hs
      rw [toList_interpretData_constant h]
      simp
    · rw [toList_interpretData_fresh h hs]
      simp [hs, List.mem_filterMap]

theorem toList_interpretRelation_ready {r : Relation} {expected : BitString} (h : r.evaluate a = .ok (.ready expected)) :
    (reading.interpretRelation r a offset).toList =
      if expected.matchesAt reading.data offset then (a.setCell r.id (.known expected)).verified?.toList else [] := by
  unfold interpretRelation
  rw [h]
  dsimp only
  split
  · rw [Choices.toList_ofOption]
  · rfl

theorem toList_interpretRelation_waiting {r : Relation} (h : r.evaluate a = .ok .waiting) :
    (reading.interpretRelation r a offset).toList =
      (r.candidateLengths (reading.remaining offset)).filterMap fun length =>
        if r.isPlausible (reading.bitsAt offset length) then
          ((a.setCell r.id (.known (reading.bitsAt offset length))).awaitRelation r).verified?
        else none := by
  unfold interpretRelation
  rw [h]
  simp only [Choices.toList_filterMap, Choices.toList_ofList]

theorem toList_interpretRelation_error {r : Relation} {e : RelationError} (h : r.evaluate a = .error e) :
    (reading.interpretRelation r a offset).toList = [] := by
  unfold interpretRelation
  rw [h]
  rfl

/-- A relation has the value or the length that it computes, and any plausible bits while it cannot. -/
theorem mem_interpretRelation {r : Relation} :
    b ∈ (reading.interpretRelation r a offset).toList ↔
      (∃ expected, r.evaluate a = .ok (.ready expected) ∧ expected.matchesAt reading.data offset = true ∧
        (a.setCell r.id (.known expected)).verified? = some b) ∨
      (∃ n, r.evaluate a = .ok (.length n) ∧ n ≤ reading.remaining offset ∧
        r.isPlausible (reading.bitsAt offset n) = true ∧
        (a.setCell r.id (.known (reading.bitsAt offset n))).verified? = some b) ∨
      (r.evaluate a = .ok .waiting ∧ ∃ length ∈ r.candidateLengths (reading.remaining offset),
        r.isPlausible (reading.bitsAt offset length) = true ∧
        ((a.setCell r.id (.known (reading.bitsAt offset length))).awaitRelation r).verified? = some b) := by
  unfold interpretRelation
  split
  next expected h =>
    split
    next hm => simp [h, hm]
    next hm => simp [h, hm, Choices.toList]
  next n h =>
    dsimp only
    split
    next hm => simp [h, hm]
    next hm =>
      simp only [h, Choices.toList, List.not_mem_nil, false_iff]
      rintro (⟨_, he, -⟩ | ⟨_, he, hn, hp, -⟩ | ⟨he, -⟩)
      · cases he
      · cases he
        exact hm ⟨hn, hp⟩
      · cases he
  next h => simp [h, List.mem_filterMap]
  next e h => simp [h, Choices.toList]

end Leaves

/-! ## Nodes -/

section Nodes

variable {id : VarId} {children rest : List Variable} {child : Variable} {delimiter : Option BitString}

@[simp] theorem toList_interpretAny_cons :
    (reading.interpretAny id (child :: rest) a offset).toList =
      ((reading.interpret child a offset).toList.filterMap fun b => b.compose? id [child]) ++
        (reading.interpretAny id rest a offset).toList := by
  rw [interpretAny, Choices.toList_append, Choices.toList_filterMap]

/-- An interpretation of a choice is one of a child, recorded for the choice. -/
theorem mem_interpretAny :
    b ∈ (reading.interpretAny id children a offset).toList ↔
      ∃ child ∈ children, ∃ c ∈ (reading.interpret child a offset).toList, c.compose? id [child] = some b := by
  induction children with
  | nil => simp [interpretAny, Choices.toList]
  | cons child rest ih =>
    rw [toList_interpretAny_cons, List.mem_append, ih, List.mem_filterMap, List.exists_mem_cons_iff]

@[simp] theorem toList_interpretAll_nil : (reading.interpretAll [] a offset).toList = [(a, offset)] := by
  rw [interpretAll]
  rfl

@[simp] theorem toList_interpretAll_cons :
    (reading.interpretAll (child :: rest) a offset).toList =
      (reading.interpret child a offset).toList.flatMap fun b =>
        (reading.interpretAll rest b (offset + b.consumed child)).toList := by
  rw [interpretAll, Choices.toList_flatMap]

theorem toList_interpretAll_append :
    (reading.interpretAll (children ++ rest) a offset).toList =
      (reading.interpretAll children a offset).toList.flatMap fun p =>
        (reading.interpretAll rest p.1 p.2).toList := by
  induction children generalizing a offset with
  | nil => simp
  | cons child children ih => simp [ih, List.flatMap_assoc]

/-- An interpretation of all children is one of the first child, extended by one of the others. -/
theorem mem_interpretAll_cons {p : Assignment × Nat} :
    p ∈ (reading.interpretAll (child :: rest) a offset).toList ↔
      ∃ b ∈ (reading.interpret child a offset).toList,
        p ∈ (reading.interpretAll rest b (offset + b.consumed child)).toList := by
  rw [toList_interpretAll_cons, List.mem_flatMap]

theorem mem_interpret_sequence {name : String} :
    b ∈ (reading.interpret (.sequence id name children) a offset).toList ↔
      ∃ p ∈ (reading.interpretAll children a offset).toList, p.1.compose? id children = some b := by
  rw [interpret, Choices.toList_filterMap, List.mem_filterMap]

variable {one : Assignment → Nat → Choices Assignment} {isFirst : Bool} {content : Content} {k : Nat}

/-- What is left to be done after an instance: it must not be empty. -/
def afterInstance (reading : Reading) (one : Assignment → Nat → Choices Assignment) (child : Variable)
    (delimiter : Option BitString) (k start : Nat) (content : Content) (b : Assignment) :
    Choices (Assignment × Content) :=
  match b.consumed child, b.content? child.id with
  | 0, _ | _, none => .nil
  | _, some c => reading.instances one child delimiter k false b (start + b.consumed child) (content.append (b.freeze c))

@[simp] theorem toList_instances_zero :
    (reading.instances one child delimiter 0 isFirst a offset content).toList = [(a, content)] := by
  rw [instances, Choices.toList_ofOption, Option.toList_some]

theorem toList_instances_succ :
    (reading.instances one child delimiter (k + 1) isFirst a offset content).toList =
      match reading.passDelimiter? delimiter isFirst offset content with
      | none => []
      | some (start, content) => (one a start).toList.flatMap fun b =>
          (afterInstance reading one child delimiter k start content b).toList := by
  rw [instances]
  cases reading.passDelimiter? delimiter isFirst offset content with
  | none => rfl
  | some q =>
    dsimp only
    rw [Choices.toList_flatMap]
    rfl

theorem toList_afterInstance {c : Content} (hn : b.consumed child ≠ 0) (hc : b.content? child.id = some c) :
    (afterInstance reading one child delimiter k offset content b).toList =
      (reading.instances one child delimiter k false b (offset + b.consumed child)
        (content.append (b.freeze c))).toList := by
  rw [afterInstance, hc]
  obtain ⟨n, hn⟩ := Nat.exists_eq_succ_of_ne_zero hn
  rw [hn]
  rfl

/-- Instances are one that is not empty, behind the delimiter, and the others after it. -/
theorem mem_instances_succ {p : Assignment × Content} :
    p ∈ (reading.instances one child delimiter (k + 1) isFirst a offset content).toList ↔
      ∃ start before, reading.passDelimiter? delimiter isFirst offset content = some (start, before) ∧
        ∃ b ∈ (one a start).toList, b.consumed child ≠ 0 ∧ ∃ c, b.content? child.id = some c ∧
          p ∈ (reading.instances one child delimiter k false b (start + b.consumed child)
            (before.append (b.freeze c))).toList := by
  rw [toList_instances_succ]
  cases hp : reading.passDelimiter? delimiter isFirst offset content with
  | none => simp
  | some q =>
    obtain ⟨start, before⟩ := q
    simp only [List.mem_flatMap, Option.some.injEq, Prod.mk.injEq]
    constructor
    · rintro ⟨b, hb, h⟩
      refine ⟨start, before, ⟨rfl, rfl⟩, b, hb, ?_⟩
      have hn : b.consumed child ≠ 0 := by
        intro hn
        unfold afterInstance at h
        simp [hn, Choices.toList] at h
      cases hc : b.content? child.id with
      | none =>
        unfold afterInstance at h
        simp [hc, Choices.toList] at h
      | some c =>
        rw [toList_afterInstance hn hc] at h
        exact ⟨hn, c, rfl, h⟩
    · rintro ⟨_, _, ⟨rfl, rfl⟩, b, hb, hn, c, hc, h⟩
      refine ⟨b, hb, ?_⟩
      rw [toList_afterInstance hn hc]
      exact h

theorem mem_interpret_repetition {name : String} {count : RepeatCount} :
    b ∈ (reading.interpret (.repetition id name child count delimiter) a offset).toList ↔
      ∃ k ∈ reading.counts child count delimiter offset,
        ∃ p ∈ (reading.instances (reading.interpret child) child delimiter k true a offset .empty).toList,
          (p.1.record id p.2).verified? = some b := by
  rw [interpret, Choices.toList_flatMap, List.mem_flatMap]
  simp only [Choices.toList_ofList, Choices.toList_filterMap, List.mem_filterMap]

/-- A condition that holds up to some number cuts a range there. -/
theorem takeWhile_range' {p : Nat → Bool} (hp : ∀ {i j}, i ≤ j → p j = true → p i = true) (least n : Nat) :
    (List.range' least n).takeWhile p = (List.range' least n).filter p := by
  induction n generalizing least with
  | zero => rfl
  | succ n ih =>
    rw [List.range'_succ, List.takeWhile_cons, List.filter_cons, ih]
    split
    next => rfl
    next hf =>
      symm
      rw [List.filter_eq_nil_iff]
      intro k hk hpk
      exact hf (hp (Nat.le_of_succ_le (List.mem_range'_1.mp hk).1) hpk)

/-- The counts tried are those of the repetition, within the limit, whose shortest contents fit. -/
theorem counts_eq (count : RepeatCount) :
    reading.counts child count delimiter offset =
      (List.range' count.least (min count.stop (max reading.maxRepeat (count.least + 1)) - count.least)).filter fun k =>
        Variable.repeated k (max child.bounds.1 1) (Variable.delimiterLength delimiter) ≤ reading.remaining offset := by
  refine takeWhile_range' (fun {i j} hij hj => ?_) _ _
  rw [decide_eq_true_eq] at hj ⊢
  exact Nat.le_trans (Variable.repeated_le_repeated hij) hj

theorem mem_counts {count : RepeatCount} :
    k ∈ reading.counts child count delimiter offset ↔
      (count.least ≤ k ∧ k < min count.stop (max reading.maxRepeat (count.least + 1))) ∧
        Variable.repeated k (max child.bounds.1 1) (Variable.delimiterLength delimiter) ≤ reading.remaining offset := by
  rw [counts_eq, List.mem_filter, List.mem_range'_1, decide_eq_true_eq]
  exact and_congr_left fun _ => by omega

end Nodes

end Reading

/-! ## Growth -/

section Growth

open Assignment

variable {ids : List VarId} {a b c : Assignment} {id : VarId} {children : List Variable} {reading : Reading}

namespace Assignment

/-- A node is recorded when all children are, from their contents as far as these have settled. -/
theorem compose?_eq_some_iff : a.compose? id children = some b ↔
    ∃ contents, children.mapM (fun child => a.content? child.id) = some contents ∧
      (a.record id (contents.foldl (fun content c => content.append (a.freeze c)) .empty)).verified? = some b := by
  rw [compose?, Option.bind_eq_bind, Option.bind_eq_some_iff]

theorem Grows.compose? (h : Grows ids a b) (hid : id ∈ ids) (hc : b.compose? id children = some c) :
    Grows ids a c := by
  obtain ⟨contents, -, hv⟩ := compose?_eq_some_iff.mp hc
  exact (h.record hid _).verified? hv

end Assignment

namespace Reading

theorem interpretData_grows {type : DataType} {scope : Scope} {offset : Nat}
    (h : b ∈ (reading.interpretData id type scope a offset).toList) : Grows [id] a b := by
  have hid : id ∈ [id] := List.mem_singleton_self id
  rcases mem_interpretData.mp h with ⟨value, -, -, hv⟩ | ⟨-, -, length, -, -, hv⟩
  · exact ((Grows.refl _ a).record hid _).verified? hv
  · exact (((Grows.refl _ a).learnFresh hid _ _).record hid _).verified? hv

theorem interpretRelation_grows {r : Relation} {offset : Nat}
    (h : b ∈ (reading.interpretRelation r a offset).toList) : Grows [r.id] a b := by
  have set (bits : BitString) : Grows [r.id] a (a.setCell r.id (.known bits)) :=
    (Grows.refl _ a).setCell (List.mem_singleton_self r.id) _
  rcases mem_interpretRelation.mp h with ⟨bits, -, -, hv⟩ | ⟨n, -, -, -, hv⟩ | ⟨-, n, -, -, hv⟩
  · exact (set _).verified? hv
  · exact (set _).verified? hv
  · refine Grows.verified? ?_ hv
    unfold awaitRelation
    split
    · exact set _
    · exact (set _).of_pending _

theorem interpretAll_grows {offset : Nat} {p : Assignment × Nat}
    (one : ∀ child ∈ children, ∀ a offset b, b ∈ (reading.interpret child a offset).toList → Grows ids a b)
    (h : p ∈ (reading.interpretAll children a offset).toList) : Grows ids a p.1 := by
  induction children generalizing a offset with
  | nil =>
    rw [toList_interpretAll_nil, List.mem_singleton] at h
    rw [h]
    exact Grows.refl _ a
  | cons child rest ih =>
    obtain ⟨b, hb, hp⟩ := mem_interpretAll_cons.mp h
    exact (one child List.mem_cons_self a offset b hb).trans
      (ih (fun c hc => one c (List.mem_cons_of_mem _ hc)) hp)

theorem instances_grows {one : Assignment → Nat → Choices Assignment} {child : Variable}
    {delimiter : Option BitString} {isFirst : Bool} {content : Content} {k offset : Nat} {p : Assignment × Content}
    (each : ∀ a offset b, b ∈ (one a offset).toList → Grows ids a b)
    (h : p ∈ (reading.instances one child delimiter k isFirst a offset content).toList) : Grows ids a p.1 := by
  induction k generalizing a isFirst offset content with
  | zero =>
    rw [toList_instances_zero, List.mem_singleton] at h
    rw [h]
    exact Grows.refl _ a
  | succ k ih =>
    obtain ⟨start, _, -, b, hb, -, _, -, hp⟩ := mem_instances_succ.mp h
    exact (each a start b hb).trans (ih hp)

/-- Interpretation adds to an assignment, and only for the variables in the tree. -/
theorem interpret_grows (v : Variable) {a b : Assignment} {offset : Nat}
    (h : b ∈ (reading.interpret v a offset).toList) : Grows v.ids a b := by
  induction v using Variable.induct generalizing a b offset with
  | data id name type scope =>
    rw [Variable.ids_data]
    exact interpretData_grows (by rwa [interpret] at h)
  | relation r =>
    rw [Variable.ids_relation]
    exact interpretRelation_grows (by rwa [interpret] at h)
  | choice id name children ih =>
    rw [interpret] at h
    obtain ⟨child, hc, c, hi, hb⟩ := mem_interpretAny.mp h
    rw [Variable.ids_choice]
    refine Grows.compose? ((ih child hc hi).mono fun i hi => ?_) List.mem_cons_self hb
    exact List.mem_cons_of_mem _ (Variable.ids_subset_of_mem hc hi)
  | sequence id name children ih =>
    obtain ⟨p, hp, hb⟩ := mem_interpret_sequence.mp h
    rw [Variable.ids_sequence]
    refine Grows.compose? (interpretAll_grows (fun child hc a offset b hb => ?_) hp) List.mem_cons_self hb
    exact (ih child hc hb).mono fun i hi => List.mem_cons_of_mem _ (Variable.ids_subset_of_mem hc hi)
  | repetition id name child count delimiter ih =>
    obtain ⟨k, -, p, hp, hb⟩ := mem_interpret_repetition.mp h
    rw [Variable.ids_repetition]
    refine Grows.verified? (Grows.record (instances_grows (fun a offset b hb => ?_) hp) List.mem_cons_self _) hb
    exact (ih hb).mono fun i hi => List.mem_cons_of_mem _ hi

end Reading

end Growth

end WireGrammar
