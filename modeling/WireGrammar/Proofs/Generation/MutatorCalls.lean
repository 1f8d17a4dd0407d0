import WireGrammar.Proofs.Generation.DataMutators

/-!
# Calls of a data mutator

A data mutator is called to make up values and to disturb them, in any order. A call that is counted has a value that
its leaf allows or finds the source of numbers exhausted (`Call.content_draws`), and calls that come after the limit
are refused, so a list of calls is answered up to the limit and no further (`calls_answered`). From a list that is read
once, each call takes the numbers at the front, and none of them is taken again (`calls_of_numbers`).
-/

namespace WireGrammar

namespace DataMutator

/-! ## One call -/

/-- A call of a data mutator. -/
inductive Call where
  | generate (type : DataType)
  | mutate (normal : BitString)

namespace Call

def use : Call → Run BitString
  | generate type => DataMutator.generate type
  | mutate normal => DataMutator.mutate normal

/-- What a call does when it has been counted. -/
def content : Call → Run BitString
  | generate type => do
    let (least, greatest?) := type.bounds
    let greatest := greatest?.getD (max least capBits)
    if least < greatest then
      let choice := (← number) % ((greatest - least) / type.unit + 1)
      bits (least + choice * type.unit)
    else bits least
  | mutate normal => do
    if normal.isEmpty then return normal
    return normal.flip ((← number) % normal.length)

/-- A value that is made up has a length of the type; a disturbed one differs in one bit if it has any. -/
def Allows : Call → BitString → Prop
  | generate type, value => type.acceptsLength value.length
  | mutate normal, value => value.length = normal.length ∧ (normal.length = 0 → value = normal) ∧
      (0 < normal.length → ∃ i < normal.length, ∀ j, value.get j ≠ normal.get j ↔ j = i)

theorem use_eq (call : Call) : call.use = tick >>= fun _ => call.content := by
  cases call <;> rfl

end Call

variable {m : DataMutator} {α β : Type}

theorem tick_run_of_limit_le (h : m.limit ≤ m.used) : tick.run.run m = (.error (.maxCounter m.limit), m) := by
  unfold tick
  change StateT.run (ExceptT.run (ite (m.limit ≤ m.used) _ _)) m = _
  rw [if_pos h]
  rfl

theorem tick_run_of_lt (h : m.used < m.limit) : tick.run.run m = (.ok (), { m with used := m.used + 1 }) := by
  unfold tick
  change StateT.run (ExceptT.run (ite (m.limit ≤ m.used) _ _)) m = _
  rw [if_neg (Nat.not_le.mpr h)]
  rfl

/-- Behind the limit a call is refused, and nothing else happens. -/
theorem Call.use_run_of_limit_le (call : Call) (h : m.limit ≤ m.used) :
    call.use.run.run m = (.error (.maxCounter m.limit), m) := by
  rw [use_eq, run_run_bind, tick_run_of_limit_le h]

theorem Call.use_run_of_lt (call : Call) (h : m.used < m.limit) :
    call.use.run.run m = call.content.run.run { m with used := m.used + 1 } := by
  rw [use_eq, Run.run_bind (tick_run_of_lt h)]

/-- A call that is counted has a value that is allowed, or finds the source exhausted. -/
theorem Call.content_draws (call : Call) : call.content.Draws call.Allows := by
  cases call with
  | generate type =>
    unfold content
    dsimp only
    split
    · refine number_draws.bind fun word _ => (bits_draws _).mono fun value hv => ?_
      change type.acceptsLength value.length = true
      rw [hv]
      refine type.acceptsLength_of_units (fun m hm => ?_) (Nat.lt_succ_iff.mp (Nat.mod_lt _ (Nat.succ_pos _)))
      rw [hm, Option.getD_some]
    · refine (bits_draws _).mono fun value hv => ?_
      change type.acceptsLength value.length = true
      rw [hv]
      exact type.acceptsLength_least
  | mutate normal =>
    rw [content]
    split
    next h =>
      have empty : normal.length = 0 := by simpa [BitString.isEmpty] using h
      exact .pure ⟨rfl, fun _ => rfl, fun pos => by omega⟩
    next h =>
      have pos : 0 < normal.length := Nat.pos_of_ne_zero fun empty => h (by simp [BitString.isEmpty, empty])
      refine number_draws.bind fun word _ => .pure ⟨rfl, fun empty => by omega, fun _ => ?_⟩
      have inside := Nat.mod_lt word pos
      refine ⟨word % normal.length, inside, fun j => ?_⟩
      rw [BitString.get_flip]
      by_cases hj : j = word % normal.length
      · simp [hj, inside]
      · simp [hj]

/-! ## One call after the other -/

/-- The results of calls, and the mutator after them. -/
def calls (m : DataMutator) : List Call → List (Except MutationError BitString) × DataMutator
  | [] => ([], m)
  | call :: rest =>
    let (result, next) := call.use.run.run m
    let (results, last) := next.calls rest
    (result :: results, last)

theorem calls_cons {call : Call} {rest : List Call} {result : Except MutationError BitString} {next : DataMutator}
    (h : call.use.run.run m = (result, next)) : (m.calls (call :: rest)).1 = result :: (next.calls rest).1 := by
  rw [calls, h]

/-- Behind the limit all calls are refused. -/
theorem calls_of_limit_le (h : m.limit ≤ m.used) (cs : List Call) :
    (m.calls cs).1 = List.replicate cs.length (.error (.maxCounter m.limit)) := by
  induction cs with
  | nil => rfl
  | cons call rest ih => rw [calls_cons (call.use_run_of_limit_le h), ih, List.length_cons, List.replicate_succ]

/-- Calls are answered up to the limit, and refused from there on. -/
theorem calls_answered (m : DataMutator) (cs : List Call) :
    ∃ answered, (m.calls cs).1 = answered ++
        List.replicate (cs.length - (m.limit - m.used)) (.error (.maxCounter m.limit)) ∧
      List.Forall₂ (fun call result => Drawn call.Allows result) (cs.take (m.limit - m.used)) answered := by
  induction cs generalizing m with
  | nil => exact ⟨[], by simp [calls], by simp⟩
  | cons call rest ih =>
    by_cases h : m.limit ≤ m.used
    · refine ⟨[], ?_, ?_⟩
      · rw [calls_of_limit_le h, Nat.sub_eq_zero_of_le h, Nat.sub_zero, List.nil_append]
      · rw [Nat.sub_eq_zero_of_le h, List.take_zero]
        exact .nil
    · have one := call.content_draws { m with used := m.used + 1 }
      have run := call.use_run_of_lt (Nat.not_le.mp h)
      generalize call.content.run.run { m with used := m.used + 1 } = left at one run
      obtain ⟨result, next⟩ := left
      obtain ⟨⟨source, rfl⟩, drawn⟩ := one
      obtain ⟨answered, results, allowed⟩ := ih { m with used := m.used + 1, source }
      have more : m.limit - m.used = m.limit - (m.used + 1) + 1 := by omega
      refine ⟨result :: answered, ?_, ?_⟩
      · rw [calls_cons run, results, more, List.length_cons, Nat.add_sub_add_right]
        rfl
      · rw [more, List.take_succ_cons]
        exact .cons drawn allowed

/-! ## Numbers of a list -/

/-- The numbers that are left of a list that is read once. -/
def HasNumbers (m : DataMutator) (ns : List Nat) : Prop :=
  ∃ values position, m.source = .list values position false ∧ values.drop position = ns

/-- What comes of the numbers that are left, if there are enough of them; otherwise all of them are used up. -/
inductive Took {α : Type} (m : DataMutator) : Option (α × List Nat) → Except MutationError α × DataMutator → Prop where
  | enough {x : α} {rest : List Nat} {source : NumberSource} (h : HasNumbers { m with source } rest) :
      Took m (some (x, rest)) (.ok x, { m with source })
  | exhausted {source : NumberSource} (h : HasNumbers { m with source } []) :
      Took m none (.error .exhausted, { m with source })

/-- A computation takes numbers from the front of a list as a function does. -/
def Run.Reads (r : Run α) (take? : List Nat → Option (α × List Nat)) : Prop :=
  ∀ m ns, m.HasNumbers ns → Took m (take? ns) (r.run.run m)

namespace Run.Reads

theorem pure (x : α) : Reads (Pure.pure x) fun ns => some (x, ns) :=
  fun _ _ h => .enough h

theorem bind {r : Run α} {f : α → Run β} {take? : List Nat → Option (α × List Nat)}
    {then? : α → List Nat → Option (β × List Nat)} (h : Reads r take?) (hf : ∀ x, Reads (f x) (then? x)) :
    Reads (r >>= f) fun ns => (take? ns).bind fun p => then? p.1 p.2 := by
  intro m ns left
  rw [run_run_bind]
  dsimp only
  have first := h m ns left
  generalize take? ns = taken at first ⊢
  generalize r.run.run m = run at first ⊢
  cases first with
  | exhausted left => exact .exhausted left
  | @enough x rest source left =>
    have second := hf x { m with source } rest left
    change Took m (then? x rest) ((f x).run.run { m with source })
    generalize then? x rest = taken at second ⊢
    generalize (f x).run.run { m with source } = run at second ⊢
    cases second with
    | exhausted left => exact .exhausted left
    | enough left => exact .enough left

theorem bind_pure {r : Run α} {f : α → β} {take? : List Nat → Option (α × List Nat)} (h : Reads r take?) :
    Reads (r >>= fun x => Pure.pure (f x)) fun ns => (take? ns).map fun p => (f p.1, p.2) := by
  intro m ns left
  have read := h.bind (fun x => .pure (f x)) m ns left
  dsimp only at read ⊢
  generalize take? ns = taken at read ⊢
  cases taken <;> exact read

end Run.Reads

/-- The number at the front of a list. -/
def number? : List Nat → Option (Nat × List Nat)
  | [] => none
  | n :: rest => some (n, rest)

/-- The bytes of the numbers at the front of a list. -/
def words? (n : Nat) (ns : List Nat) : Option (List UInt8 × List Nat) :=
  if n ≤ ns.length then some ((ns.take n).flatMap (Bytes.bigEndian 8), ns.drop n) else none

/-- The bits of as many numbers at the front of a list as are needed. -/
def bits? (n : Nat) (ns : List Nat) : Option (BitString × List Nat) :=
  (words? ((n + 63) / 64) ns).map fun (bytes, rest) => ((BitString.ofBytes bytes).slice 0 n, rest)

/-- The value of a call from the numbers at the front of a list. -/
def Call.take? : Call → List Nat → Option (BitString × List Nat)
  | generate type, ns =>
    let least := type.bounds.1
    let greatest := type.bounds.2.getD (max least capBits)
    if least < greatest then
      (number? ns).bind fun (n, rest) => bits? (least + n % ((greatest - least) / type.unit + 1) * type.unit) rest
    else bits? least ns
  | mutate normal, ns =>
    if normal.isEmpty then some (normal, ns)
    else (number? ns).map fun (n, rest) => (normal.flip (n % normal.length), rest)

theorem number_reads : number.Reads number? := by
  rintro m ns ⟨values, position, hs, rfl⟩
  change Took m _ ((number.liftExcept m.source.next.1).run.run { m with source := m.source.next.2 })
  rw [hs, NumberSource.next, if_neg (by simp)]
  cases hv : values[position]? with
  | none =>
    rw [List.drop_of_length_le (List.getElem?_eq_none_iff.mp hv)]
    exact .exhausted ⟨values, position, rfl, List.drop_of_length_le (List.getElem?_eq_none_iff.mp hv)⟩
  | some n =>
    obtain ⟨inside, he⟩ := List.getElem?_eq_some_iff.mp hv
    rw [List.drop_eq_getElem_cons inside, he]
    exact .enough ⟨values, position + 1, rfl, rfl⟩

theorem words_reads (n : Nat) : (words n).Reads (words? n) := by
  induction n with
  | zero => exact fun m ns left => .enough left
  | succ n ih =>
    intro m ns left
    have read := (number_reads.bind fun word => ih.bind fun rest => .pure (Bytes.bigEndian 8 word ++ rest)) m ns left
    have same : ((number? ns).bind fun p => (words? n p.2).bind fun q =>
        some (Bytes.bigEndian 8 p.1 ++ q.1, q.2)) = words? (n + 1) ns := by
      cases ns with
      | nil => rfl
      | cons word rest =>
        unfold words?
        by_cases h : n ≤ rest.length <;> simp [number?, h]
    exact same ▸ read

theorem bits_reads (n : Nat) : (bits n).Reads (bits? n) :=
  (words_reads ((n + 63) / 64)).bind_pure

theorem Call.content_reads (call : Call) : call.content.Reads call.take? := by
  cases call with
  | generate type =>
    intro m ns left
    rw [content, take?]
    dsimp only
    split
    · exact number_reads.bind (fun n => bits_reads (type.bounds.1 +
        n % ((type.bounds.2.getD (max type.bounds.1 capBits) - type.bounds.1) / type.unit + 1) * type.unit)) m ns left
    · exact bits_reads _ m ns left
  | mutate normal =>
    intro m ns left
    rw [content, take?]
    split
    · exact .enough left
    · exact number_reads.bind_pure (f := fun n => normal.flip (n % normal.length)) m ns left

/-- The results of calls that take numbers from a list, where so many calls are left to the limit. -/
def answers (limit : Nat) : Nat → List Nat → List Call → List (Except MutationError BitString)
  | _, _, [] => []
  | 0, ns, _ :: rest => .error (.maxCounter limit) :: answers limit 0 ns rest
  | left + 1, ns, call :: rest =>
    match call.take? ns with
    | some (value, ns) => .ok value :: answers limit left ns rest
    | none => .error .exhausted :: answers limit left [] rest

/-- From a list that is read once, each call takes the numbers at its front, and none of them is taken again. -/
theorem calls_of_numbers {ns : List Nat} (h : m.HasNumbers ns) (cs : List Call) :
    (m.calls cs).1 = answers m.limit (m.limit - m.used) ns cs := by
  induction cs generalizing m ns with
  | nil => rw [answers]; rfl
  | cons call rest ih =>
    by_cases hl : m.limit ≤ m.used
    · rw [calls_cons (call.use_run_of_limit_le hl), ih h, Nat.sub_eq_zero_of_le hl, answers]
    · have one := call.content_reads { m with used := m.used + 1 } ns h
      have run := call.use_run_of_lt (Nat.not_le.mp hl)
      have more : m.limit - m.used = m.limit - (m.used + 1) + 1 := by omega
      rw [more, answers]
      generalize call.take? ns = taken at one ⊢
      generalize call.content.run.run { m with used := m.used + 1 } = left at one run
      cases one with
      | enough left => rw [calls_cons run, ih left]
      | exhausted left => rw [calls_cons run, ih left]

end DataMutator

end WireGrammar
