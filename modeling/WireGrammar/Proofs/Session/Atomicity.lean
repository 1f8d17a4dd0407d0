import Mathlib.Data.List.Forall2
import WireGrammar.Proofs.Session.Memory

/-!
# Messages change the memory as a whole

A message that fails, in either direction and wherever it does, leaves the memory as it was. A complete one leaves
nothing staged, and what it commits are the values learned in its own assignment: each of them goes with a record of
the same leaf there (`Assignment.OwnValues`), so none comes from a branch that was given up. A list of symbols therefore
reads data as its first symbol that accepts them does alone (`message_atomic`).

* `Memory.Takes`: what a memory takes over from a complete message.
-/

namespace WireGrammar

open Assignment Generation Variable

/-! ## Values of an assignment's own -/

namespace Assignment

variable {bound : Bindings} {a b : Assignment}

/-- A record of the leaf for which a value was learned; it holds this value, unless the leaf has a mutator. -/
def GoesWith (bound : Bindings) (learned : VarId × BitString) (record : VarId × Entry) : Prop :=
  record.1 = learned.1 ∧ (bound.has learned.1 = false → record.2 = .content (.ofBits learned.2))

/-- Each value learned goes with a record of its own, in the same order. -/
def OwnValues (bound : Bindings) (a : Assignment) : Prop :=
  List.SublistForall₂ (GoesWith bound) a.learned a.entries

namespace OwnValues

theorem start (s : Symbol) (memory : Memory) : (s.start memory).OwnValues bound :=
  .nil

theorem congr (h : a.OwnValues bound) (hl : b.learned = a.learned) (he : b.entries = a.entries) :
    b.OwnValues bound := by
  unfold OwnValues
  rw [hl, he]
  exact h

theorem record (h : a.OwnValues bound) (id : VarId) (content : Content) : (a.record id content).OwnValues bound :=
  .cons_right h

theorem setCell (h : a.OwnValues bound) (id : VarId) (cell : Cell) : (a.setCell id cell).OwnValues bound :=
  .cons_right h

/-- A value learned and recorded at once. -/
theorem learn (h : a.OwnValues bound) {id : VarId} {normal value : BitString}
    (hv : bound.has id = false → value = normal) : ((a.learn id normal).record id (.ofBits value)).OwnValues bound :=
  .cons ⟨rfl, fun hm => by rw [hv hm]⟩ h

theorem learnFresh (h : a.OwnValues bound) (scope : Scope) (id : VarId) (value : BitString) :
    ((a.learnFresh scope id value).record id (.ofBits value)).OwnValues bound := by
  unfold Assignment.learnFresh
  split
  · exact h.record id _
  · exact h.learn fun _ => rfl

theorem awaitRelation (h : a.OwnValues bound) (r : Relation) : (a.awaitRelation r).OwnValues bound := by
  unfold Assignment.awaitRelation
  split
  · exact h
  · exact h.congr rfl rfl

theorem settles (h : a.OwnValues bound) (hs : Settles a b) : b.OwnValues bound := by
  induction hs with
  | refl => exact h
  | @fill a b r bits _ _ _ ih => exact ih ((h.setCell r.id (.known bits)).congr rfl rfl)

theorem verified? (h : a.OwnValues bound) (hb : a.verified? = some b) : b.OwnValues bound := by
  obtain ⟨-, rfl⟩ := verified?_eq_some_iff.mp hb
  exact h

end OwnValues

/-- A leaf is recorded with the value that it learned, unless a mutator disturbed it. -/
theorem LeafValue.ownValues {id : VarId} {type : DataType} {scope : Scope} {value : BitString}
    (hv : LeafValue bound id type scope a value b) (h : a.OwnValues bound) :
    (b.record id (.ofBits value)).OwnValues bound := by
  cases hv with
  | replay => exact h.record id _
  | fresh => exact h.learnFresh scope id value
  | mutated hm hb =>
    rcases hb with rfl | ⟨normal, rfl⟩
    · exact h.record id _
    · exact h.learn fun hn => nomatch hm.symm.trans hn

end Assignment

/--
What a memory takes over from a complete message: nothing is staged any more; what was staged is committed, and over it
the assignment's own values, or neither.
-/
structure Memory.Takes (memory : Memory) (bound : Bindings) (a : Assignment) (persist : Bool) (memory' : Memory) :
    Prop where
  staged : memory'.staged = .empty
  kept : persist = false → memory'.committed = memory.committed
  committed : persist = true → ∀ id, memory'.committed.get? id =
    (a.learned.lookup id).or ((memory.staged.get? id).or (memory.committed.get? id))
  own : a.OwnValues bound

theorem Assignment.OwnValues.takes {bound : Bindings} {a : Assignment} (h : a.OwnValues bound) (memory : Memory)
    (persist : Bool) : memory.Takes bound a persist (memory.complete a persist) := by
  refine ⟨memory.staged_complete a persist, ?_, ?_, h⟩
  · rintro rfl
    rfl
  · rintro rfl id
    exact memory.known?_complete_true a id

/-- The discipline in which each value learned goes with a record. -/
def Discipline.owning (bound : Bindings) : Discipline where
  Inv a := a.Distinct ∧ a.OwnValues bound
  Step _ _ := True
  Fit _ _ := True
  Done _ _ := True
  refl _ := trivial
  trans _ _ := trivial
  done _ h := h
  kept _ h := h
  empty _ := trivial
  pushBits h _ := h
  append _ h _ := h

section Interpretation

variable {vars : List Variable} {a b : Assignment}

theorem owning_interprets (reading : Reading) (vars : List Variable) : Interprets (.owning none) reading vars := by
  have after {v : Variable} {a made b : Assignment} (hd : made.Distinct) (ho : made.OwnValues none)
      (hb : made.verified? = some b) : (Discipline.owning none).After v a b := by
    refine ⟨⟨?_, ho.verified? hb⟩, trivial, trivial⟩
    obtain ⟨-, rfl⟩ := verified?_eq_some_iff.mp hb
    exact hd.sublist List.filter_sublist
  have recorded {a : Assignment} (hd : a.Distinct) (id : VarId) (content : Content) : (a.record id content).Distinct := hd
  refine ⟨fun {id name type scope a b offset} _ hi hb => ?_, fun {r a b offset} _ hi hb => ?_,
    fun {v a b content} _ _ hi _ hb => ?_⟩
  · rcases Reading.mem_interpretData.mp hb with ⟨value, -, -, hb⟩ | ⟨-, -, length, -, -, hb⟩
    · exact after (recorded hi.1 id _) (hi.2.record id _) hb
    · refine after (hi.1.sublist ?_) (hi.2.learnFresh scope id _) hb
      exact (pending_learnFresh (a := a) ..) ▸ List.Sublist.refl _
  · have distinct (cell : Cell) : (a.setCell r.id cell).Distinct := hi.1
    rcases Reading.mem_interpretRelation.mp hb with ⟨bits, -, -, hb⟩ | ⟨n, -, -, -, hb⟩ | ⟨-, n, -, -, hb⟩
    · exact after (distinct _) (hi.2.setCell r.id _) hb
    · exact after (distinct _) (hi.2.setCell r.id _) hb
    · exact after ((distinct _).awaitRelation r) ((hi.2.setCell r.id _).awaitRelation r) hb
  · exact after (recorded hi.1 v.id content) (hi.2.record v.id content) hb

/-- The values learned by an interpretation of a message are its own. -/
theorem interpretations_own {s : Symbol} {maxRepeat : Nat} {data : BitString} {memory : Memory}
    (h : a ∈ (s.interpretations maxRepeat data memory).toList) : a.OwnValues none := by
  obtain ⟨p, hp, -, hv, -⟩ := mem_interpretations h
  have start : (Discipline.owning none).Inv (s.start memory) := ⟨List.nodup_nil, .start s memory⟩
  have after := (owning_interprets (.of data maxRepeat) s.allVariables).interpretAll_after
    (by rw [List.flatMap_map]; exact List.Subset.refl _) start hp
  exact after.inv.2.verified? hv

end Interpretation

section Generation

variable {ρ : Type} [RandomSource ρ] {bound : Bindings} {limits : GenerationLimits} {a : Assignment}

theorem owning_generates (bound : Bindings) (limits : GenerationLimits) (vars : List Variable) :
    Generates ρ (.owning bound) (fun mutators? => mutators?.map Mutators.hasLeaf = bound) limits vars where
  leaves h hm := (congrArg some (Mutators.hasLeaf_congr h)).trans hm
  data {id name type scope a} _ hi := by
    refine Returns.mono (yields_iff_returns.mp (generateData_yields hi.1 id name type scope)) fun x hx b hb => ?_
    obtain ⟨made, hm, hs⟩ := hx b hb
    cases hm with
    | node hn => cases hn
    | @data _ _ _ _ _ c value hv =>
      have distinct : (c.record id (.ofBits value)).Distinct := hi.1.sublist (hv.kept.2 ▸ List.Sublist.refl _)
      exact ⟨⟨distinct.sublist hs.1.pending_sublist, (hv.ownValues hi.2).settles hs.1⟩, trivial, trivial⟩
  relation {r a} _ hi := by
    refine Returns.mono (yields_iff_returns.mp (generateRelation_yields hi.1 r)) fun x hx b hb => ?_
    obtain ⟨made, hm, hs⟩ := hx b hb
    have after (hd : made.Distinct) (ho : made.OwnValues bound) : (Discipline.owning bound).After (.relation r) a b :=
      ⟨⟨hd.sublist hs.1.pending_sublist, ho.settles hs.1⟩, trivial, trivial⟩
    cases hm with
    | node hn => cases hn
    | mutated | ready => exact after hi.1 (hi.2.setCell _ _)
    | wait =>
      exact after (Distinct.awaitRelation (a := a.setCell r.id _) hi.1 r) ((hi.2.setCell r.id _).awaitRelation r)
  node {v a content} _ _ hi _ := by
    have distinct : (a.record v.id content).Distinct := hi.1
    refine (settled_returns _ distinct).mono fun b hs => ?_
    exact ⟨⟨distinct.sublist hs.1.pending_sublist, (hi.2.record v.id content).settles hs.1⟩, trivial, trivial⟩

/-- The values learned by the generation of a message are its own. -/
theorem generateAssignment_owns {s : Symbol} {memory : Memory} {supply next : Supply ρ}
    (h : (s.generateAssignment limits memory).run.run supply = (.ok a, next)) : a.OwnValues supply.bindings := by
  have start : (Discipline.owning supply.bindings).Inv (s.start memory) := ⟨List.nodup_nil, .start s memory⟩
  have fields := (owning_generates (ρ := ρ) supply.bindings limits s.allVariables).generateFields_after
    (List.Subset.refl _) start
  exact (Symbol.generateAssignment_returns (fun hm => hm) fields supply rfl a next h).2.2.inv.2

end Generation

/-! ## Messages of a session -/

namespace Session

variable {ρ : Type} (x : Session ρ)

/-- Whether a symbol has a message for the data. -/
def accepts (data : BitString) (s : Symbol) : Bool :=
  (s.recognize x.config.settings.maxRepeat x.config.settings.persist data x.memory).1.isSome

/-- A list of symbols reads data as its first symbol that accepts them. -/
theorem recognizeBits_eq (ss : List Symbol) (data : BitString) :
    x.recognizeBits ss data = match ss.find? (x.accepts data) with
      | none => (none, x)
      | some s =>
        let p := s.recognize x.config.settings.maxRepeat x.config.settings.persist data x.memory
        (p.1, { x with memory := p.2 }) := by
  induction ss with
  | nil => rfl
  | cons s rest ih =>
    rw [recognizeBits, List.find?_cons]
    split
    next m memory hs =>
      have accepted : x.accepts data s = true := by rw [accepts, hs]; rfl
      rw [accepted]
      dsimp only
      rw [hs]
    next memory hs =>
      have refused : x.accepts data s = false := by rw [accepts, hs]; rfl
      rw [refused]
      exact ih

end Session

/--
When a message is not generated or data are not recognized, the memory stays as it was, both what is committed and what
is staged. Otherwise there is one assignment that the message is made of, the first interpretation when data are
recognized, and the memory takes over what was staged and the values that this assignment learned for itself, or nothing
when they do not persist. So a list of symbols has the message and the memory of its first symbol that accepts the data.
-/
theorem message_atomic {ρ : Type} [RandomSource ρ] (x : Session ρ) (s : Symbol) (ss : List Symbol) (data : BitString) :
    (match x.generate s with
      | (.error _, y) => y.memory = x.memory
      | (.ok m, y) => ∃ a,
        (s.generateAssignment (.of x.config.settings.maxBytes x.config.settings.maxRepeat) x.memory).run.run x.supply =
          (.ok a, y.supply) ∧
        Message.ofAssignment s a = .ok m ∧
        x.memory.Takes x.supply.bindings a x.config.settings.persist y.memory) ∧
    (match s.recognize x.config.settings.maxRepeat x.config.settings.persist data x.memory with
      | (none, memory) => memory = x.memory
      | (some m, memory) => ∃ a,
        (s.interpretations x.config.settings.maxRepeat data x.memory).head? = some a ∧
        Message.ofAssignment s a = .ok m ∧ x.memory.Takes none a x.config.settings.persist memory) ∧
    x.recognizeBits ss data = match ss.find? (x.accepts data) with
      | none => (none, x)
      | some s =>
        let p := s.recognize x.config.settings.maxRepeat x.config.settings.persist data x.memory
        (p.1, { x with memory := p.2 }) := by
  refine ⟨?_, ?_, x.recognizeBits_eq ss data⟩
  · rw [Session.generate]
    cases hg : (s.generateMessage x.config.settings x.memory).run.run x.supply with
    | mk result next =>
      cases result with
      | error e => rfl
      | ok p =>
        obtain ⟨a, ha, hm, hp⟩ := Symbol.generateMessage_eq_ok hg
        exact ⟨a, ha, hm, hp ▸ (generateAssignment_owns ha).takes x.memory _⟩
  · rw [Symbol.recognize]
    cases ha : (s.interpretations x.config.settings.maxRepeat data x.memory).head? with
    | none => rfl
    | some a =>
      have mem : a ∈ (s.interpretations x.config.settings.maxRepeat data x.memory).toList :=
        List.mem_of_head? ((Choices.head?_toList _).trans ha)
      dsimp only
      cases hm : Message.ofAssignment s a with
      | error field => rfl
      | ok m => exact ⟨a, rfl, hm, (interpretations_own mem).takes x.memory _⟩

end WireGrammar
