import WireGrammar.Proofs.Generation.DataMutators
import WireGrammar.Proofs.Message.Learning

/-!
# Where open values are cut

A value of a type without a greatest length is cut at a cap: at that of generation when it is drawn or known from
before, also when a mutator disturbs it, but at the cap of mutators when one makes it up (`mutatedValue_cut`). If the
values that are known when a message starts are cut at the cap of generation, then so are all that are known after it,
and all that it records are cut where they should be (`generateAssignment_cut`).

* `Assignment.Cut`: all values known and recorded are cut.
-/

namespace WireGrammar

open Assignment Generation Variable

/-- A value stops at a cap, or at the least length if that is more, unless the type has a greatest length. -/
def DataType.CutAt (type : DataType) (cap : Nat) (value : BitString) : Prop :=
  type.bounds.2 = none → value.length ≤ max type.bounds.1 cap

/-- The data type of a leaf. -/
def Variable.leafType? : Variable → Option DataType
  | .data _ _ type _ => some type
  | .relation _ | .choice .. | .sequence .. | .repetition .. => none

/-- Variables of one identity are leaves of the same type, whatever their scopes, or no leaves. -/
def Unambiguous (vars : List Variable) : Prop :=
  ∀ v ∈ vars, ∀ w ∈ vars, v.id = w.id → v.leafType? = w.leafType?

/-- An identity belongs to one variable of all the symbols that are built from a text. -/
theorem Grammar.symbols_unambiguous {text : String} {symbols : List Symbol} (h : Grammar.symbols text = .ok symbols) :
    Unambiguous (symbols.flatMap Symbol.allVariables) := by
  obtain ⟨fields, ho, made⟩ := symbols_made h
  intro v hv w hw he
  obtain ⟨s, hs, hv⟩ := List.mem_flatMap.mp hv
  obtain ⟨t, ht, hw⟩ := List.mem_flatMap.mp hw
  exact congrArg leafType? ((made s hs).eq_of_id_of_made ho (made t ht) hv hw he)

/-- Where the values of a leaf are cut: at the cap of mutators if its mutator makes them up. -/
def Modes.capOf (modes : Modes) (normal : Nat) (id : VarId) : Nat :=
  if modes.replaced id then DataMutator.capBits else normal

theorem DataType.CutAt.of_constant {type : DataType} {cap : Nat} {value : BitString} (h : type.constant? = some value) :
    type.CutAt cap value := by
  intro unbounded
  rw [(bounds_of_constant h).1] at unbounded
  cases unbounded

/-! ## Values of leaves -/

section Leaf

variable {ρ : Type} [RandomSource ρ] {limits : GenerationLimits} {modes : Modes} {a : Assignment} {id : VarId}
  {type : DataType} {scope : Scope}

/-- The value found for a leaf is cut, and so is the normal one if it was learned. -/
structure Assignment.FindsCut (id : VarId) (type : DataType) (normal cap : Nat) (a : Assignment)
    (p : BitString × Assignment) : Prop where
  value : type.CutAt cap p.1
  learned : p.2 = a ∨ ∃ known, p.2 = a.learn id known ∧ type.CutAt normal known

theorem leafValue_cut {J : Option Mutators → Prop}
    (known : ∀ value, a.known? id = some value → type.CutAt limits.capBits value) :
    Returns (ρ := ρ) J (leafValue limits id type scope a)
      (IfSome (a.FindsCut id type limits.capBits limits.capBits)) := by
  have drawn : Returns (ρ := ρ) J (fromSource (type.draw limits.capBits)) (type.CutAt limits.capBits) :=
    fromSource_returns fun g unbounded => DataType.length_draw_le unbounded limits.capBits g
  unfold leafValue
  dsimp only
  split
  next value h =>
    obtain ⟨-, h⟩ := Option.ite_none_right_eq_some.mp h
    refine Returns.pure (.some ⟨?_, Or.inl rfl⟩)
    rcases Option.or_eq_some_iff.mp h with hc | ⟨-, hk⟩
    · exact .of_constant hc
    · exact known value hk
  next h => exact Returns.pure .none
  next h => exact drawn.bind fun value hv => Returns.pure (.some ⟨hv, Or.inl rfl⟩)
  next h => exact drawn.bind fun value hv => Returns.pure (.some ⟨hv, Or.inr ⟨value, rfl, hv⟩⟩)

/-- Only a value that a mutator makes up is not cut where the limits of generation say. -/
theorem mutatedValue_cut (known : ∀ value, a.known? id = some value → type.CutAt limits.capBits value) :
    Returns (ρ := ρ) (HasDataModes modes) (mutatedValue limits id type scope a)
      (IfSome (a.FindsCut id type limits.capBits (modes.capOf limits.capBits id))) := by
  refine (mode?_returns HasDataModes.modes id).bind fun mode hm => ?_
  have cap : modes.capOf limits.capBits id = if mode.any (·.replaces) then DataMutator.capBits else limits.capBits := by
    rw [hm]
    rfl
  rw [cap]
  cases mode with
  | none => exact leafValue_cut known
  | some mode =>
    cases mode with
    | generate | fixed =>
      refine (fromDataLeaf?_returns id (fun _ => rfl) (DataMutator.generate_ends type)).bind fun value hv => ?_
      cases value with
      | some value => exact Returns.pure (.some ⟨(hv.2 value rfl).2, Or.inl rfl⟩)
      | none =>
        -- a leaf with a mode has a mutator, so its value is not drawn in place of the missing one
        rw [← hm] at hv
        cases hv.1
    | mutate =>
      refine (leafValue_cut known).bind fun p hp => ?_
      cases p with
      | none => exact Returns.pure .none
      | some p =>
        obtain ⟨normal, learned⟩ := hp p rfl
        refine (fromDataLeaf?_returns id (fun _ => rfl) (DataMutator.mutate_ends p.1)).bind fun value hv => ?_
        refine Returns.pure (.some ⟨fun unbounded => ?_, learned⟩)
        cases value with
        | none => exact normal unbounded
        | some value =>
          rw [Option.getD_some, hv.2 value rfl]
          exact normal unbounded

end Leaf

/-! ## Messages -/

section Messages

variable {vars : List Variable} {normal : Nat} {cap : VarId → Nat} {a b : Assignment}

/-- All known values of leaves are cut at one cap, and the recorded ones each at that of the leaf. -/
structure Assignment.Cut (vars : List Variable) (normal : Nat) (cap : VarId → Nat) (a : Assignment) : Prop where
  distinct : a.Distinct
  waits : ∀ r ∈ a.pending, .relation r ∈ vars
  known : ∀ {id name type scope value}, .data id name type scope ∈ vars → a.known? id = some value →
    type.CutAt normal value
  recorded : ∀ {id name type scope entry}, .data id name type scope ∈ vars → (id, entry) ∈ a.entries →
    ∃ value, entry = .content (.ofBits value) ∧ type.CutAt (cap id) value

namespace Assignment.Cut

theorem of_pending (h : a.Cut vars normal cap) {pending : List Relation} (hp : pending.Sublist a.pending) :
    ({ a with pending } : Assignment).Cut vars normal cap :=
  ⟨h.distinct.sublist hp, fun r hr => h.waits r (hp.subset hr), h.known, h.recorded⟩

theorem start {s : Symbol} {memory : Memory}
    (h : ∀ {id name type scope value}, .data id name type scope ∈ vars → memory.known? id = some value →
      type.CutAt normal value) : (s.start memory).Cut vars normal cap :=
  ⟨List.nodup_nil, fun _ hr => (nomatch hr), h, fun _ he => (nomatch he)⟩

/-- The value found for a leaf is recorded. -/
theorem leaf (unique : Unambiguous vars) (h : a.Cut vars normal cap) {id : VarId} {name : String} {type : DataType}
    {scope : Scope} (hv : .data id name type scope ∈ vars) {p : BitString × Assignment}
    (hp : a.FindsCut id type normal (cap id) p) : (p.2.record id (.ofBits p.1)).Cut vars normal cap := by
  have kept : p.2.pending = a.pending ∧ p.2.entries = a.entries := by
    rcases hp.learned with he | ⟨known, he, -⟩ <;> rw [he] <;> exact ⟨rfl, rfl⟩
  have same {other : VarId} {name' : String} {type' : DataType} {scope' : Scope}
      (ho : .data other name' type' scope' ∈ vars) (he : other = id) : type' = type := by
    cases unique _ ho _ hv he
    rfl
  refine ⟨h.distinct.sublist (kept.1 ▸ List.Sublist.refl _), fun r hr => h.waits r (kept.1 ▸ hr), ?_, ?_⟩
  · intro other _ _ _ value ho hk
    change p.2.known? other = some value at hk
    rcases hp.learned with he | ⟨known, he, cut⟩
    · rw [he] at hk
      exact h.known ho hk
    · rw [he, known?_learn] at hk
      split at hk
      next hi =>
        cases hk
        exact same ho hi ▸ cut
      next => exact h.known ho hk
  · intro other _ _ _ entry ho hm
    rcases List.mem_cons.mp hm with hm | hm
    · obtain ⟨rfl, rfl⟩ := Prod.mk.inj hm
      exact ⟨p.1, rfl, same ho rfl ▸ hp.value⟩
    · exact h.recorded ho (kept.2 ▸ hm)

/-- What is no leaf is recorded. -/
theorem other (unique : Unambiguous vars) (h : a.Cut vars normal cap) {v : Variable} (hv : v ∈ vars)
    (hn : v.leafType? = none) (entry : Entry) :
    ({ a with entries := (v.id, entry) :: a.entries } : Assignment).Cut vars normal cap := by
  refine ⟨h.distinct, h.waits, h.known, fun ho hm => ?_⟩
  rcases List.mem_cons.mp hm with hm | hm
  · cases hn.symm.trans (unique v hv _ ho (Prod.mk.inj hm).1.symm)
  · exact h.recorded ho hm

theorem setCell (unique : Unambiguous vars) (h : a.Cut vars normal cap) {r : Relation} (hr : .relation r ∈ vars)
    (cell : Cell) : (a.setCell r.id cell).Cut vars normal cap :=
  h.other unique hr rfl (.cell cell)

theorem awaitRelation (h : a.Cut vars normal cap) {r : Relation} (hr : .relation r ∈ vars) :
    (a.awaitRelation r).Cut vars normal cap := by
  have waits : ∀ q ∈ (a.awaitRelation r).pending, .relation q ∈ vars := fun q hq => by
    rcases List.mem_append.mp (pending_awaitRelation r hq) with hq | hq
    · exact h.waits q hq
    · exact List.mem_singleton.mp hq ▸ hr
  refine ⟨h.distinct.awaitRelation r, waits, ?_, ?_⟩
  · intro _ _ _ _ value hv hk
    refine h.known hv (Eq.trans ?_ hk)
    unfold Assignment.awaitRelation
    split <;> rfl
  · intro _ _ _ _ entry hv he
    rw [entries_awaitRelation] at he
    exact h.recorded hv he

theorem settles (unique : Unambiguous vars) (h : a.Cut vars normal cap) (hs : Settles a b) : b.Cut vars normal cap := by
  induction hs with
  | refl => exact h
  | fill hr _ _ ih => exact ih ((h.setCell unique (h.waits _ hr) _).of_pending List.filter_sublist)

/-- A relation is generated. -/
theorem lastStep (unique : Unambiguous vars) (h : a.Cut vars normal cap) {bound : Bindings} {r : Relation}
    (hr : .relation r ∈ vars) (hs : LastStep bound (.relation r) a b) : b.Cut vars normal cap := by
  obtain ⟨made, hm, settled⟩ := hs
  cases hm with
  | node hn => cases hn
  | mutated | ready => exact (h.setCell unique hr _).settles unique settled.1
  | wait => exact ((h.setCell unique hr _).awaitRelation hr).settles unique settled.1

end Assignment.Cut

/-- The discipline in which all values are cut. -/
def Discipline.cutting (vars : List Variable) (normal : Nat) (cap : VarId → Nat) : Discipline where
  Inv := Cut vars normal cap
  Step _ _ := True
  Fit _ _ := True
  Done _ _ := True
  refl _ := trivial
  trans _ _ := trivial
  done _ h := h
  kept _ h := h
  empty _ := trivial
  pushBits h _ := h
  append _ h _ := h

variable {ρ : Type} [RandomSource ρ] {limits : GenerationLimits} {modes : Modes}

theorem cutting_generates (unique : Unambiguous vars) (limits : GenerationLimits) (modes : Modes) :
    Generates ρ (.cutting vars limits.capBits (modes.capOf limits.capBits)) (HasDataModes modes) limits vars where
  leaves h hm := hm.of_leaves h
  data {id name type scope a} hv hi := by
    refine (mutatedValue_cut fun value hk => hi.known hv hk).bind fun p hp => ?_
    cases p with
    | none => exact Returns.pure .none
    | some p =>
      have recorded : (p.2.record id (.ofBits p.1)).Cut vars limits.capBits (modes.capOf limits.capBits) :=
        Cut.leaf unique hi hv (hp p rfl)
      refine (settled_returns _ recorded.distinct).bind fun b hb => Returns.pure (.some ?_)
      exact ⟨recorded.settles unique hb.1, trivial, trivial⟩
  relation {r a} hv hi := by
    have mutator : Returns (ρ := ρ) (HasDataModes modes) (fromLeaf? r.id (·.generate r.type))
        (·.isSome = Bindings.has (some fun id => (modes id).isSome) r.id) :=
      (fromDataLeaf?_returns r.id (fun _ => rfl) (DataMutator.generate_ends r.type)).mono fun _ h => h.1
    refine (generateRelation_returns mutator hi.distinct).mono fun x hx b hb => ?_
    exact ⟨Cut.lastStep unique hi hv (hx b hb), trivial, trivial⟩
  node {v a content} hv hn hi _ := by
    have recorded : (a.record v.id content).Cut vars limits.capBits (modes.capOf limits.capBits) := by
      refine Cut.other unique hi hv ?_ (.content content)
      cases v with
      | data | relation => cases hn
      | choice | sequence | repetition => rfl
    exact (settled_returns _ recorded.distinct).mono fun b hb => ⟨recorded.settles unique hb.1, trivial, trivial⟩

/-- All values of leaves that a message records are cut, and so are those that are known after it. -/
theorem generateAssignment_cut {s : Symbol} (unique : Unambiguous vars) (hs : s.allVariables ⊆ vars) {memory : Memory}
    (known : ∀ {id name type scope value}, .data id name type scope ∈ vars → memory.known? id = some value →
      type.CutAt limits.capBits value)
    {supply next : Supply ρ} (data : ∀ m ∈ supply.mutators?, m.OnlyData)
    (h : (s.generateAssignment limits memory).run.run supply = (.ok a, next)) :
    a.Cut vars limits.capBits (supply.modes.capOf limits.capBits) := by
  have start : (s.start memory).Cut vars limits.capBits (supply.modes.capOf limits.capBits) := .start known
  have started {m : Mutators} (hm : HasDataModes supply.modes (some m)) :
      HasDataModes supply.modes (some m.startMessage) := by
    have same : m.startMessage.leaves = m.leaves := rfl
    exact hm.of_leaves same
  have fields := (cutting_generates (ρ := ρ) unique limits supply.modes).generateFields_after hs start
  exact (Symbol.generateAssignment_returns started fields supply ⟨fun _ => rfl, data⟩ a next h).2.2.inv

end Messages

end WireGrammar
