import WireGrammar.Proofs.Generation.Candidates
import WireGrammar.Proofs.Generation.Failures
import WireGrammar.Proofs.Generation.Stalls
import WireGrammar.Proofs.Message.Outcome

/-!
# Messages as a search among candidates

In its general form generation of a message is a search, depth first over the candidates of each field: where no
candidate of a later field is left, the next candidate of this field is tried. There is one candidate at most, so the
search never turns back: it is the single pass over the fields, draw by draw (`searchMessage_eq`). It ends for want of a
value at the first field that comes to a constant without one (`generateMessage_eq_noValue_iff`).

* `Symbol.searchMessage`: a message by search.
-/

namespace WireGrammar

open Generation

variable {ρ : Type}

/-! ## The search -/

namespace Symbol

/-- The first candidate from which the rest is done; else the field that has no candidate behind the last one. -/
def firstDone (rest : Assignment → Gen ρ (Except String Assignment)) :
    List Assignment → String → Gen ρ (Except String Assignment)
  | [], missing => return .error missing
  | a :: more, _ => do
    match ← rest a with
    | .ok b => return .ok b
    | .error missing => firstDone rest more missing

/-- No relation may wait at the end. -/
def finish (a : Assignment) : Gen ρ Assignment :=
  match a.pending with
  | [] => return a
  | r :: _ => throw (.unresolvable r.name)

variable [RandomSource ρ]

/-- Depth first over the candidates of each field; an assignment for all fields, or a field without a candidate. -/
def walk (shuffle : Shuffle ρ) (limits : GenerationLimits) :
    List Field → Assignment → Gen ρ (Except String Assignment)
  | [], a => do return .ok (← finish a)
  | f :: rest, a => do
    let found ← candidates shuffle limits f.domain a
    firstDone (walk shuffle limits rest) found f.name

variable (s : Symbol)

/-- An assignment for all fields by search. -/
def searchAssignment (shuffle : Shuffle ρ) (limits : GenerationLimits) (memory : Memory) : Gen ρ Assignment := do
  if !s.isAcyclic then throw .relationCycle
  modify fun supply => { supply with mutators? := supply.mutators?.map Mutators.startMessage }
  match ← walk shuffle limits s.fields (s.start memory) with
  | .ok a => return a
  | .error missing => throw (.noValue missing)

/-- A message of the symbol by search, with the memory after it. -/
def searchMessage (shuffle : Shuffle ρ) (settings : Settings) (memory : Memory) : Gen ρ (Message × Memory) := do
  let a ← s.searchAssignment shuffle (.of settings.maxBytes settings.maxRepeat) memory
  match Message.ofAssignment s a with
  | .error field => throw (.placeholder field)
  | .ok message => return (message, memory.complete a settings.persist)

/-! ## A single pass -/

section Pass

variable {shuffle : Shuffle ρ} {limits : GenerationLimits}

omit [RandomSource ρ] in
/-- From the only candidate the rest is done or not, and there is no other to go back to. -/
theorem firstDone_toList (rest : Assignment → Gen ρ (Except String Assignment)) (a? : Option Assignment)
    (missing : String) :
    firstDone rest a?.toList missing = match a? with
      | some a => rest a
      | none => return .error missing := by
  cases a? with
  | none => rfl
  | some a =>
    rw [Option.toList_some, firstDone]
    calc (rest a >>= fun
            | .ok b => pure (.ok b)
            | .error missing => firstDone rest [] missing)
      _ = rest a >>= pure := bind_congr fun result => by cases result <;> rfl
      _ = rest a := bind_pure _

/-- The search among the candidates of all fields is one pass over the fields. -/
theorem walk_eq (short : shuffle.LeavesShort) (fields : List Field) (a : Assignment) :
    (do match ← walk shuffle limits fields a with
        | .ok b => return b
        | .error missing => throw (.noValue missing) : Gen ρ Assignment) =
      generateFields limits fields a >>= finish := by
  induction fields generalizing a with
  | nil =>
    rw [walk, generateFields, pure_bind, bind_assoc]
    exact bind_pure (finish a)
  | cons f rest ih =>
    rw [walk, generateFields, candidates_eq_generate short]
    simp only [bind_assoc, bind_map_left, firstDone_toList]
    refine bind_congr fun a? => ?_
    cases a? with
    | none => rfl
    | some b => exact ih b

/-- A message that is searched for is the message that is generated, and the draws are the same. -/
theorem searchMessage_eq (short : shuffle.LeavesShort) (settings : Settings) (memory : Memory) :
    s.searchMessage shuffle settings memory = s.generateMessage settings memory := by
  have assignment (limits : GenerationLimits) :
      s.searchAssignment shuffle limits memory = s.generateAssignment limits memory := by
    unfold searchAssignment generateAssignment
    rw [walk_eq short]
    rfl
  unfold searchMessage generateMessage
  exact congrArg (· >>= _) (assignment _)

end Pass

/-! ## The first field without a value -/

section Missing

variable {limits : GenerationLimits} {a : Assignment} {supply next : Supply ρ} {name : String}

/-- The pass ends for want of a value at the first field for which none is found. -/
theorem generateFields_eq_noValue_iff {fields : List Field} :
    (generateFields limits fields a).run.run supply = (.error (.noValue name), next) ↔
      ∃ before f after b middle, fields = before ++ f :: after ∧ f.name = name ∧
        (generateFields limits before a).run.run supply = (.ok b, middle) ∧
        (generate limits f.domain b).run.run middle = (.ok none, next) := by
  induction fields generalizing a supply with
  | nil =>
    rw [generateFields]
    constructor
    · intro h
      cases h
    · rintro ⟨before, f, after, b, middle, hf, -, -, -⟩
      simp at hf
  | cons c rest ih =>
    constructor
    · intro h
      rw [generateFields] at h
      rcases Gen.error_of_bind h with h | ⟨x, middle, hx, h⟩
      · -- A failure within a field is one of a relation or of a mutator.
        exact absurd (generate_failsInStep c.domain a supply _ next h) id
      · cases x with
        | none =>
          cases h
          exact ⟨[], c, rest, a, supply, rfl, rfl, rfl, hx⟩
        | some b =>
          obtain ⟨before, f, after, b', middle', rfl, hn, made, missing⟩ := ih.mp h
          refine ⟨c :: before, f, after, b', middle', rfl, hn, ?_, missing⟩
          rw [generateFields, Gen.run_bind, hx]
          exact made
    · rintro ⟨before, f, after, b, middle, hf, rfl, made, missing⟩
      rw [generateFields, Gen.run_bind]
      cases before with
      | nil =>
        cases made
        cases hf
        rw [missing]
        rfl
      | cons d before =>
        cases hf
        rw [generateFields] at made
        obtain ⟨x, last, hx, made⟩ := Gen.ok_of_bind made
        cases x with
        | none => cases made
        | some b' =>
          rw [hx]
          exact ih.mpr ⟨before, f, after, b, middle, rfl, rfl, made, missing⟩

theorem generateMessage_eq_noValue_iff {settings : Settings} {memory : Memory} :
    (s.generateMessage settings memory).run.run supply = (.error (.noValue name), next) ↔
      s.isAcyclic ∧ (generateFields (.of settings.maxBytes settings.maxRepeat) s.fields (s.start memory)).run.run
        supply.started = (.error (.noValue name), next) := by
  constructor
  · intro h
    have acyclic : s.isAcyclic := by
      by_contra cyclic
      rw [generateMessage_run, generateAssignment_run, if_neg cyclic] at h
      cases h
    refine ⟨acyclic, ?_⟩
    rcases generateMessage_eq_error h with ⟨_, _, -, -, he⟩ | ⟨-, he⟩ | hf | ⟨_, _, _, -, -, he⟩
    · cases he
    · cases he
    · exact hf
    · cases he
  · rintro ⟨acyclic, hf⟩
    rw [generateMessage_run, generateAssignment_run, if_pos acyclic, hf]

/--
The search never turns back. A list of candidates for a variable has one element at most, and none exactly when the
derivation that is drawn comes to a constant that has no value and no mutator to make one up. So the search for a
message is one pass over the fields of the symbol, with the same draws and the same results, and it ends for want of a
value at a field exactly when those before it have values and this one comes to such a constant.
-/
theorem search_single_pass {shuffle : Shuffle ρ} (short : shuffle.LeavesShort) :
    (∀ (limits : GenerationLimits) (v : Variable) (a : Assignment) (supply next : Supply ρ) (found : List Assignment),
      v.HasChoices → (candidates shuffle limits v a).run.run supply = (.ok found, next) →
        found.length ≤ 1 ∧ (found = [] ↔ Stalls limits v a supply next)) ∧
    ∀ (s : Symbol) (settings : Settings) (memory : Memory) (supply : Supply ρ),
      (s.searchMessage shuffle settings memory).run.run supply = (s.generateMessage settings memory).run.run supply ∧
      ((∀ f ∈ s.fields, f.domain.HasChoices) → ∀ (name : String) (next : Supply ρ),
        (s.searchMessage shuffle settings memory).run.run supply = (.error (.noValue name), next) ↔
          s.isAcyclic ∧ ∃ before f after a middle, s.fields = before ++ f :: after ∧ f.name = name ∧
            (generateFields (.of settings.maxBytes settings.maxRepeat) before (s.start memory)).run.run supply.started =
              (.ok a, middle) ∧
            Stalls (.of settings.maxBytes settings.maxRepeat) f.domain a middle next) := by
  refine ⟨fun limits v a supply next found hv h => ?_, fun s settings memory supply => ⟨?_, fun hs name next => ?_⟩⟩
  · rw [candidates_eq_generate short, map_eq_pure_bind] at h
    obtain ⟨a?, middle, ha, h⟩ := Gen.ok_of_bind h
    cases h
    rw [← generate_eq_none_iff hv, ha]
    cases a? with
    | none => exact ⟨Nat.zero_le 1, fun _ => rfl, fun _ => rfl⟩
    | some b => exact ⟨Nat.le_refl 1, by simp, by intro h; cases h⟩
  · rw [s.searchMessage_eq short]
  · rw [s.searchMessage_eq short, generateMessage_eq_noValue_iff, generateFields_eq_noValue_iff]
    refine and_congr_right fun _ => ?_
    constructor
    · rintro ⟨before, f, after, a, middle, hf, hn, made, missing⟩
      have choices : f.domain.HasChoices := hs f (by rw [hf]; exact List.mem_append_cons_self)
      exact ⟨before, f, after, a, middle, hf, hn, made, (generate_eq_none_iff choices).mp missing⟩
    · rintro ⟨before, f, after, a, middle, hf, hn, made, stalls⟩
      have choices : f.domain.HasChoices := hs f (by rw [hf]; exact List.mem_append_cons_self)
      exact ⟨before, f, after, a, middle, hf, hn, made, (generate_eq_none_iff choices).mpr stalls⟩

end Missing

end Symbol

/-! ## A constant among other children -/

/-- Puts each element into a random place among those behind it. -/
def insertions {α : Type} [RandomSource ρ] : List α → StateM ρ (List α)
  | [] => return []
  | [x] => return [x]
  | x :: y :: rest => do
    let others ← insertions (y :: rest)
    let place ← RandomSource.countBelow 0 (others.length + 1)
    return others.insertIdx place x

theorem insertions_leavesShort [RandomSource ρ] : Shuffle.LeavesShort (ρ := ρ) insertions := by
  intro as h
  match as with
  | [] => rfl
  | [_] => rfl
  | _ :: _ :: _ => exact absurd h (by simp)

/-- A number of two bytes, or a constant of one byte that has no value. -/
def numberOrUnset : Variable :=
  .choice ⟨1, []⟩ "rest" [
    .data ⟨1, [0]⟩ "number" (.uint .two) .volatile,
    .data ⟨1, [1]⟩ "unset" (.rawExactly 1) .constant]

theorem hasChoices_numberOrUnset : numberOrUnset.HasChoices := by
  intro id name children h
  simp only [numberOrUnset, Variable.preorder, Variable.preorderAll, List.mem_cons, Variable.choice.injEq,
    reduceCtorEq, List.not_mem_nil, or_false, List.append_nil, List.cons_append, List.nil_append] at h
  rw [h.2.2]
  simp

/-- A kind, and behind it a number or a constant without a value. -/
def kindAndRest : Symbol :=
  ⟨"message", [⟨"kind", .data ⟨0, []⟩ "kind" (.uint .one) .ephemeral⟩, ⟨"rest", numberOrUnset⟩]⟩

/--
One source of words draws the constant when there are no other fields, so there is no candidate. Another one draws it
behind a kind, and then there is no value for the second field.
-/
theorem Symbol.search_single_pass_kindAndRest :
    (∃ next, (candidates insertions (.of 64 5) numberOrUnset .empty).run.run (Supply.ofSeed 0) = (.ok [], next) ∧
      Stalls (.of 64 5) numberOrUnset .empty (Supply.ofSeed 0) next) ∧
    ∃ next, (kindAndRest.searchMessage insertions ⟨64, 5, true⟩ .empty).run.run (Supply.ofSeed 2) =
        (.error (.noValue "rest"), next) ∧
      ∃ before f after a middle, kindAndRest.fields = before ++ f :: after ∧ f.name = "rest" ∧
        (generateFields (.of 64 5) before (kindAndRest.start .empty)).run.run (Supply.ofSeed 2).started =
          (.ok a, middle) ∧ Stalls (.of 64 5) f.domain a middle next := by
  obtain ⟨few, single⟩ := search_single_pass (ρ := Pcg64) insertions_leavesShort
  have choices : ∀ f ∈ kindAndRest.fields, f.domain.HasChoices := by
    intro f hf
    rcases List.mem_cons.mp hf with rfl | hf
    · intro id name children h
      cases List.mem_singleton.mp h
    · rw [List.mem_singleton.mp hf]
      exact hasChoices_numberOrUnset
  have empty : ((candidates insertions (.of 64 5) numberOrUnset .empty).run.run (Supply.ofSeed 0)).1 = .ok [] := rfl
  have missing : ((kindAndRest.searchMessage insertions ⟨64, 5, true⟩ .empty).run.run (Supply.ofSeed 2)).1 =
      .error (.noValue "rest") := by decide +kernel
  have stuck : (candidates insertions (.of 64 5) numberOrUnset .empty).run.run (Supply.ofSeed 0) = (.ok [], _) :=
    Prod.ext empty rfl
  have failed : (kindAndRest.searchMessage insertions ⟨64, 5, true⟩ .empty).run.run (Supply.ofSeed 2) =
      (.error (.noValue "rest"), _) := Prod.ext missing rfl
  constructor
  · exact ⟨_, stuck, (few _ _ _ _ _ _ hasChoices_numberOrUnset stuck).2.mp rfl⟩
  · exact ⟨_, failed, (((single kindAndRest ⟨64, 5, true⟩ .empty (Supply.ofSeed 2)).2 choices "rest" _).mp failed).2⟩

end WireGrammar
