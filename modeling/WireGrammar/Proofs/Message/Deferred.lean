import WireGrammar.Proofs.Assignment.Known
import WireGrammar.Proofs.Interpretation.ReadSteps
import WireGrammar.Proofs.Message.Faithful

/-!
# Comparing early and comparing at the end

While a message is read, a relation is compared with what it computes as soon as that is known. It might as well be
compared once, when all fields are read: the interpretations are the same (`interpretations_deferred`). A relation that
can be computed has all its targets, so no later field changes its value (`Reached.agrees?_eq`), and below a field
nothing that waits can be computed.

* `Reached`: what is true between two fields of the search that compares nothing.
-/

namespace WireGrammar

/-! ## Comparisons behind one another -/

namespace Assignment

variable {a b : Assignment}

/-- A comparison, for relations of which no two go by one identity. -/
theorem verified?_eq_some_iff_of_unique (unique : ∀ p ∈ a.pending, ∀ q ∈ a.pending, p.id = q.id → p = q) :
    a.verified? = some b ↔ (∀ r ∈ a.pending, r.agrees? a ≠ some false) ∧
      b = { a with pending := a.pending.filter fun r => r.agrees? a != some true } := by
  have kept : (a.pending.filter fun r => !a.anyAgrees a.pending r.id) =
      a.pending.filter fun r => r.agrees? a != some true := by
    refine List.filter_congr fun r hr => ?_
    rw [bne, Bool.not_inj_iff, Bool.eq_iff_iff, anyAgrees, List.any_eq_true]
    constructor
    · rintro ⟨q, hq, h⟩
      rw [Bool.and_eq_true, beq_iff_eq] at h
      rw [← unique q hq r hr h.1]
      exact h.2
    · intro h
      exact ⟨r, hr, by rw [h, BEq.rfl, Bool.and_self]⟩
  rw [verified?_eq_some_iff, kept]

/-- What a comparison found stays so, so it may be made twice. -/
theorem verified?_behind (unique : ∀ p ∈ a.pending ++ b.pending, ∀ q ∈ a.pending ++ b.pending, p.id = q.id → p = q)
    (stable : ∀ q ∈ a.pending, ∀ agrees, q.agrees? a = some agrees → q.agrees? b = some agrees) :
    (b.behind a.pending).verified? = a.verified?.bind fun c => (b.behind c.pending).verified? := by
  have own : ∀ p ∈ a.pending, ∀ q ∈ a.pending, p.id = q.id → p = q :=
    fun p hp q hq => unique p (List.mem_append_left _ hp) q (List.mem_append_left _ hq)
  -- those that agree or disagree in the first place do so later on
  have filtered : ((a.pending.filter fun r => r.agrees? a != some true) ++ b.pending).filter
      (fun r => r.agrees? b != some true) = (a.pending ++ b.pending).filter fun r => r.agrees? b != some true := by
    rw [List.filter_append, List.filter_append, List.filter_filter]
    congr 1
    refine List.filter_congr fun q hq => ?_
    cases h : q.agrees? a with
    | none => simp
    | some agrees =>
      rw [stable q hq agrees h]
      cases agrees <;> rfl
  have sub : (a.pending.filter fun r => r.agrees? a != some true) ++ b.pending ⊆ a.pending ++ b.pending :=
    List.append_subset.mpr ⟨fun _ hr => List.mem_append_left _ (List.mem_filter.mp hr).1, List.subset_append_right _ _⟩
  refine Option.ext fun c => ?_
  rw [Option.bind_eq_some_iff, verified?_eq_some_iff_of_unique (a := b.behind a.pending) unique]
  constructor
  · rintro ⟨hd, rfl⟩
    refine ⟨_, (verified?_eq_some_iff_of_unique own).mpr ⟨fun r hr hf => ?_, rfl⟩, ?_⟩
    · exact hd r (List.mem_append_left _ hr) (stable r hr false hf)
    · refine (verified?_eq_some_iff_of_unique fun p hp q hq => unique p (sub hp) q (sub hq)).mpr
        ⟨fun r hr => hd r (sub hr), ?_⟩
      exact congrArg (fun l => { b with pending := l }) filtered.symm
  · rintro ⟨d, hd, hc⟩
    obtain ⟨ha, rfl⟩ := (verified?_eq_some_iff_of_unique own).mp hd
    obtain ⟨hb, rfl⟩ := (verified?_eq_some_iff_of_unique fun p hp q hq => unique p (sub hp) q (sub hq)).mp hc
    refine ⟨fun r hr hf => ?_, congrArg (fun l => { b with pending := l }) filtered⟩
    rcases List.mem_append.mp hr with hr | hr
    · cases hag : r.agrees? a with
      | none => exact hb r (List.mem_append_left _ (List.mem_filter.mpr ⟨hr, by rw [hag]; rfl⟩)) hf
      | some agrees =>
        have kept := stable r hr agrees hag
        rw [show r.agrees? b = some false from hf] at kept
        cases kept
        exact ha r hr hag
    · exact hb r (List.mem_append_right _ hr) hf

/-- The assignment, with no relation waiting. -/
def cleared (a : Assignment) : Assignment :=
  { a with pending := [] }

theorem cleared_behind (a : Assignment) : a.cleared.behind a.pending = a := by
  rw [behind, cleared, List.append_nil]

theorem Apart.mono {ids ids' : List VarId} {id : VarId} (h : a.Apart ids id) (hs : ids' ⊆ ids) : a.Apart ids' id :=
  ⟨fun hi => h.1 (hs hi), fun content hc q hq hi => h.2 content hc q hq (hs hi)⟩

theorem Apart.grows {ids ids' : List VarId} {id : VarId} (h : a.Apart ids id) (hg : Grows ids' a b) (hs : ids' ⊆ ids) :
    b.Apart ids id :=
  ⟨h.1, fun content hc => h.2 content (by rwa [hg.entry?_eq fun hi => h.1 (hs hi)] at hc)⟩

end Assignment

/-! ## Between two fields -/

open Assignment Variable Grammar

/-- What is true between two fields of the search that compares nothing. -/
structure Reached (s : Symbol) (memory : Memory) (before : List Field) (a : Assignment) : Prop
    extends Between s memory before a where
  homed : a.Homed s.allVariables
  waits : ∀ q ∈ a.pending, .relation q ∈ s.allVariables ∧ (a.cell? q.id).isSome

section Fields

variable {fields : Fields} {s : Symbol} {memory : Memory} {a b : Assignment} {before after : List Field} {f : Field}

theorem reached_start (s : Symbol) (memory : Memory) : Reached s memory [] (s.start memory) :=
  ⟨between_start, fun _ _ _ hc => (nomatch hc), fun _ hq => (nomatch hq)⟩

theorem Reached.cleared (ha : Reached s memory before a) : Reached s memory before a.cleared :=
  ⟨⟨ha.grows.of_pending _, ha.closed.congr rfl, ha.recorded, fun _ hq => (nomatch hq)⟩, ha.homed.congr rfl,
    fun _ hq => (nomatch hq)⟩

variable (h : MadeOf fields s) (ho : InOrder fields)

include h ho

theorem Reached.unique (ha : Reached s memory before a) :
    ∀ p ∈ a.pending, ∀ q ∈ a.pending, p.id = q.id → p = q := by
  intro p hp q hq he
  exact Variable.relation.inj (h.eq_of_id ho (ha.waits p hp).1 (ha.waits q hq).1 he)

variable (hs : s.fields = before ++ f :: after)

include hs

/-- A root that is recorded is one of the fields before, and shows nothing of those to come. -/
theorem apart_root (hg : Grows (idsOf (before.map (·.domain))) (s.start memory) a)
    (slots : ∀ g ∈ before, ∀ content, a.entry? g.id = some (.content content) → ∀ q, .slot q ∈ content.atoms →
      q ∈ g.domain.ids)
    {t : VarId} (ht : t.branch = []) (hne : t ≠ f.id) : a.Apart f.domain.ids t := by
  have placed := (h.made ho (mem_fields_between hs)).placed
  refine ⟨fun hi => placed.branch_ne_nil hi hne ht, fun content hc q hq hi => ?_⟩
  have hm : t ∈ idsOf (before.map (·.domain)) := by
    by_contra hm
    rw [hg.entry?_eq hm] at hc
    cases hc
  obtain ⟨v, hv, him⟩ := mem_idsOf.mp hm
  obtain ⟨g, hg, rfl⟩ := List.mem_map.mp hv
  have hgs : g ∈ s.fields := by
    rw [hs]
    exact List.mem_append_left _ hg
  have own : t = g.id := by
    by_contra hne
    exact (h.made ho hgs).placed.branch_ne_nil him hne ht
  have slot := slots g hg content (show a.entry? g.id = _ from own ▸ hc) q hq
  exact (ids_apart h ho hs hi).1 g hg slot

/-- Nothing is recorded for the next field as a whole. -/
theorem entry?_next (hg : Grows (idsOf (before.map (·.domain))) (s.start memory) a) : a.entry? f.id = none := by
  rw [hg.entry?_eq fun hm => ?_]
  · rfl
  · obtain ⟨v, hv, him⟩ := mem_idsOf.mp hm
    obtain ⟨g, hg, rfl⟩ := List.mem_map.mp hv
    exact (ids_apart h ho hs f.domain.id_mem_ids).1 g hg him

theorem Reached.apart (ha : Reached s memory before a) {t : VarId} (ht : t.branch = []) (hne : t ≠ f.id) :
    a.Apart f.domain.ids t := by
  refine apart_root h ho hs ha.grows (fun g hg content hc q hq => ?_) ht hne
  have hgs : g ∈ s.fields := by
    rw [hs]
    exact List.mem_append_left _ hg
  exact ha.homed g.domain (mem_allVariables.mpr ⟨g, hgs, self_mem_preorder _⟩) content hc q hq

theorem Reached.unread (ha : Reached s memory before a) : a.entry? f.id = none :=
  entry?_next h ho hs ha.grows

theorem notMem_below : f.id ∉ idsOf f.domain.children := by
  have nodup := (h.made ho (mem_fields_between hs)).placed.nodup
  rw [ids_eq, List.nodup_cons] at nodup
  exact nodup.1

/-- Below a field nothing that a root shows is touched. -/
theorem Reached.apart_below (ha : Reached s memory before a) {t : VarId} (ht : t.branch = []) :
    a.Apart (idsOf f.domain.children) t := by
  by_cases hne : t = f.id
  · subst hne
    exact ⟨notMem_below h ho hs, fun content hc => by rw [ha.unread h ho hs] at hc; cases hc⟩
  · refine (ha.apart h ho hs ht hne).mono ?_
    rw [ids_eq]
    exact List.subset_cons_self _ _

/-- A relation that can be computed has all its targets, and none of them is touched by the next field. -/
theorem Reached.apart_of_ready (ha : Reached s memory before a) (hg : Grows (idsOf f.domain.children) a b)
    (hb : b.Closed s.allVariables) {r : Relation} (hr : .relation r ∈ s.allVariables)
    (own : r.ReadsItself → (r.ownLength? b).isSome) (hw : r.evaluate b ≠ .ok .waiting) :
    ∀ t ∈ r.targets, t ≠ r.id → b.Apart f.domain.ids t := by
  intro t ht hne
  have root := h.target_root ho hr ht
  have below : idsOf f.domain.children ⊆ f.domain.ids := by
    rw [ids_eq]
    exact List.subset_cons_self _ _
  refine (ha.apart h ho hs root ?_).grows hg below
  rintro rfl
  have tidy := tidy_between h ho hs ha.toBetween
  refine hw ((Relation.evaluate_waiting_iff hb (tidy.single hr) own).mpr ?_)
  have inScope : a.scope.contains f.id := by
    rw [ha.grows.scope]
    exact List.contains_iff_mem.mpr (mem_variableIds.mpr ⟨f, mem_fields_between hs, f.domain.id_mem_ids⟩)
  refine List.any_eq_true.mpr ⟨f.id, ht, ?_⟩
  rw [hg.misses_eq (notMem_below h ho hs), misses, ha.unread h ho hs, inScope, bne_iff_ne.mpr hne]
  rfl

/-- What waits between two fields has no place in the next one. -/
theorem Reached.pending_apart (ha : Reached s memory before a) {q : Relation} (hq : q ∈ a.pending) :
    q.id ∉ f.domain.ids := by
  intro hi
  obtain ⟨v, hv, him⟩ := mem_idsOf.mp (ha.pending q hq)
  obtain ⟨g, hg, rfl⟩ := List.mem_map.mp hv
  exact (ids_apart h ho hs hi).1 g hg him

/-- What a comparison finds between two fields, it finds behind the next one. -/
theorem Reached.agrees?_stable (ha : Reached s memory before a) (hg : Grows f.domain.ids a b) {q : Relation}
    (hq : q ∈ a.pending) {agrees : Bool} (hv : q.agrees? a = some agrees) : q.agrees? b = some agrees := by
  rw [← hv]
  refine hg.agrees?_eq (ha.apart_of_ready h ho hs (.refl _ a) ha.closed (ha.waits q hq).1 (fun _ => ?_) fun hw => ?_)
    (ha.pending_apart h ho hs hq)
  · obtain ⟨bits, hb⟩ := ha.closed.bits (ha.waits q hq).2
    rw [Relation.ownLength?, hb]
    rfl
  · rw [Relation.agrees?, hw] at hv
    cases hv

/-- Below a field a comparison finds what it found before. -/
theorem Reached.agrees?_below (ha : Reached s memory before a) (hg : Grows (idsOf f.domain.children) a b)
    {q : Relation} (hq : q ∈ a.pending) : q.agrees? b = q.agrees? a := by
  refine hg.agrees?_eq (fun t ht _ => ha.apart_below h ho hs (h.target_root ho (ha.waits q hq).1 ht)) fun hi => ?_
  refine ha.pending_apart h ho hs hq ?_
  rw [ids_eq]
  exact List.mem_cons_of_mem _ hi

section Reading

variable {reading : Reading} {offset : Nat}

/-- The steps with which a field is read. -/
theorem Reached.steps (ha : Reached s memory before a) (hb : b ∈ reading.recordsWith some f.domain a offset) :
    ∃ c, ReadSteps (preorderAll f.domain.children) a c ∧ ReadStep f.domain c b :=
  Reading.records_steps (fun hv hw he => h.eq_of_id ho hv hw he) f.domain
    (tidy_between h ho hs ha.toBetween).mem ha.homed ha.closed hb

/-- A field that was read brings to what is true between two fields. -/
theorem Reached.next (ha : Reached s memory before a) (hb : b ∈ reading.recordsWith some f.domain a offset) :
    Grows f.domain.ids a b ∧ Reached s memory (before ++ [f]) b := by
  have unique : ∀ {v w}, v ∈ s.allVariables → w ∈ s.allVariables → v.id = w.id → v = w :=
    fun hv hw he => h.eq_of_id ho hv hw he
  have mem := (tidy_between h ho hs ha.toBetween).mem
  obtain ⟨c, hc, hl⟩ := ha.steps h ho hs hb
  have steps : ReadSteps f.domain.preorder a b :=
    (hc.mono (children_subset_preorder _)).step (self_mem_preorder _) hl
  have grows : Grows f.domain.ids a b := steps.grows
  have waits := steps.pending unique mem ha.closed fun q hq => (ha.waits q hq).2
  have ids : idsOf ((before ++ [f]).map (·.domain)) = idsOf (before.map (·.domain)) ++ f.domain.ids := by
    rw [List.map_append, idsOf_append, List.map_singleton, idsOf_cons, idsOf_nil, List.append_nil]
  refine ⟨grows, ⟨?_, steps.closed unique mem ha.closed, fun g hg => ?_, fun q hq => ?_⟩,
    steps.homed unique mem ha.homed, fun q hq => ?_⟩
  · rw [ids]
    exact (ha.grows.mono (List.subset_append_left _ _)).trans (grows.mono (List.subset_append_right _ _))
  · rcases List.mem_append.mp hg with hg | hg
    · have apart : g.id ∉ f.domain.ids := fun hi => (ids_apart h ho hs hi).1 g hg g.domain.id_mem_ids
      rw [grows.entry?_eq apart]
      exact ha.recorded g hg
    · rw [List.mem_singleton.mp hg]
      exact hl.isSome_entry?
  · rw [ids]
    rcases (waits q hq).1 with hq | hq
    · exact List.mem_append_left _ (ha.pending q hq)
    · exact List.mem_append_right _ (List.mem_map_of_mem (f := Variable.id) hq)
  · refine ⟨?_, (waits q hq).2⟩
    rcases (waits q hq).1 with hq | hq
    · exact (ha.waits q hq).1
    · exact mem hq

/-- A field is read alike with and without comparisons below it. -/
theorem Reached.records_eq {c : Assignment} (ha : Reached s memory before a) (hc : a.verified? = some c) :
    reading.recordsWith verified? f.domain c offset =
      (reading.recordsWith some f.domain a.cleared offset).map (behind · c.pending) := by
  obtain ⟨hd, hc⟩ := (verified?_eq_some_iff_of_unique (ha.unique h ho)).mp hc
  have waiting : ∀ q ∈ c.pending, q ∈ a.pending ∧ q.agrees? a = none := by
    intro q hq
    rw [hc] at hq
    obtain ⟨hq, hne⟩ := List.mem_filter.mp hq
    refine ⟨hq, ?_⟩
    cases hag : q.agrees? a with
    | none => rfl
    | some agrees =>
      cases agrees with
      | false => exact absurd hag (hd q hq)
      | true => rw [hag] at hne; cases hne
  have start : c = a.cleared.behind c.pending := by
    rw [hc, Assignment.behind, Assignment.cleared, List.append_nil]
  have clear := ha.cleared
  conv_lhs => rw [start]
  refine Reading.recordsWith_behind (fun hv hw he => h.eq_of_id ho hv hw he) f.domain
    (tidy_between h ho hs ha.toBetween).mem (fun q hq => ha.pending_apart h ho hs (waiting q hq).1) clear.homed
    clear.closed fun w hw x y hx hy => ?_
  have tidy := tidy_between h ho hs clear.toBetween
  have steps := hx.step hw hy
  have underway := steps.underway tidy (underway_between h ho hs clear.toBetween)
  have grows : Grows (idsOf f.domain.children) a y := by
    rw [← map_id_preorderAll]
    have grows := steps.grows
    exact ⟨grows.entries, grows.learned, grows.committed, grows.scope⟩
  refine verified?_of_waiting fun q hq => ?_
  rcases List.mem_append.mp hq with hq | hq
  · obtain ⟨hqa, hn⟩ := waiting q hq
    exact (ha.agrees?_below h ho hs grows hqa).trans hn
  · obtain ⟨late, hm⟩ := (underway.pending q hq).resolve_left List.not_mem_nil
    exact agrees?_eq_none_iff.mpr ((underway.waiting_iff tidy hm).mpr late)

end Reading

end Fields

/-! ## Whole messages -/

section Messages

variable {fields : Fields} {s : Symbol} {memory : Memory} {a b : Assignment} {reading : Reading} {offset : Nat}

/-- A comparison changes nothing but which relations wait. -/
theorem consumed_of_verified? (hv : a.verified? = some b) (v : Variable) : b.consumed v = a.consumed v := by
  obtain ⟨-, rfl⟩ := verified?_eq_some_iff.mp hv
  rfl

theorem flatMap_filterMap {α β γ : Type} (g : α → Option β) (k : β → List γ) (l : List α) :
    (l.filterMap g).flatMap k = l.flatMap fun x => (g x).elim [] k := by
  induction l with
  | nil => rfl
  | cons x rest ih =>
    rw [List.filterMap_cons, List.flatMap_cons, ← ih]
    cases g x with
    | none => rfl
    | some y => rw [List.flatMap_cons, Option.elim_some]

/-- All fields that are left are read alike, with comparisons on the way and with one at the end. -/
theorem Reached.searchAll_verified (h : MadeOf fields s) (ho : InOrder fields) {before after : List Field}
    (hs : s.fields = before ++ after) (ha : Reached s memory before a) (reading : Reading) (offset : Nat) :
    (reading.searchAll some (after.map (·.domain)) a offset).filterMap
        (fun p => p.1.verified?.map fun c => (c, p.2)) =
      a.verified?.elim [] fun c => reading.searchAll verified? (after.map (·.domain)) c offset := by
  induction after generalizing before a offset with
  | nil =>
    rw [List.map_nil, Reading.searchAll, List.filterMap_cons, List.filterMap_nil]
    cases a.verified? with
    | none => rfl
    | some c => rw [Option.map_some, Option.elim_some, Reading.searchAll]
  | cons f after ih =>
    have hs' : s.fields = (before ++ [f]) ++ after := by rw [hs, List.append_assoc]; rfl
    have clear := ha.cleared
    -- a field is read from where nothing waits, and what waited is put in front again
    have records : reading.recordsWith some f.domain a offset =
        (reading.recordsWith some f.domain a.cleared offset).map (behind · a.pending) := by
      conv_lhs => rw [← a.cleared_behind]
      exact Reading.recordsWith_behind (fun hv hw he => h.eq_of_id ho hv hw he) f.domain
        (tidy_between h ho hs ha.toBetween).mem (fun q hq => ha.pending_apart h ho hs hq) clear.homed clear.closed
        fun _ _ _ _ _ _ => rfl
    have after_field (b : Assignment) (hb : b ∈ reading.recordsWith some f.domain a.cleared offset) :
        (b.behind a.pending).verified? = a.verified?.bind fun c => (b.behind c.pending).verified? := by
      have grows := (clear.next h ho hs hb).1
      have hm : b.behind a.pending ∈ reading.recordsWith some f.domain a offset := by
        rw [records]
        exact List.mem_map_of_mem hb
      refine verified?_behind ((ha.next h ho hs hm).2.unique h ho) fun q hq agrees hv => ?_
      exact ha.agrees?_stable h ho hs ⟨grows.entries, grows.learned, grows.committed, grows.scope⟩ hq hv
    rw [List.map_cons, Reading.searchAll, List.filterMap_some, List.filterMap_flatMap]
    have rest : ∀ b ∈ reading.recordsWith some f.domain a offset,
        (reading.searchAll some (after.map (·.domain)) b (offset + b.consumed f.domain)).filterMap
            (fun p => p.1.verified?.map fun c => (c, p.2)) =
          b.verified?.elim [] fun c =>
            reading.searchAll verified? (after.map (·.domain)) c (offset + b.consumed f.domain) :=
      fun b hb => ih hs' (ha.next h ho hs hb).2 _
    rw [List.flatMap_congr rest, records, List.flatMap_map]
    cases hv : a.verified? with
    | none =>
      rw [Option.elim_none, List.flatMap_eq_nil_iff]
      intro b hb
      rw [after_field b hb, hv]
      rfl
    | some c =>
      rw [Option.elim_some, Reading.searchAll, ha.records_eq h ho hs hv, List.filterMap_map, flatMap_filterMap]
      refine List.flatMap_congr fun b hb => ?_
      rw [after_field b hb, hv, Option.bind_some, Function.comp_apply]
      cases hd : (b.behind c.pending).verified? with
      | none => rfl
      | some d =>
        rw [Option.elim_some, Option.elim_some, consumed_of_verified? hd]
        rfl

/-- What a comparison leaves to wait goes on to wait in the next one. -/
theorem verified?_verified? (unique : ∀ p ∈ a.pending, ∀ q ∈ a.pending, p.id = q.id → p = q)
    (hv : a.verified? = some b) : b.verified? = some b := by
  obtain ⟨hd, rfl⟩ := (verified?_eq_some_iff_of_unique unique).mp hv
  refine verified?_of_waiting fun q hq => ?_
  obtain ⟨hq, hne⟩ := List.mem_filter.mp hq
  change q.agrees? a = none
  cases hag : q.agrees? a with
  | none => rfl
  | some agrees =>
    cases agrees with
    | false => exact absurd hag (hd q hq)
    | true => rw [hag] at hne; cases hne

/-- What each field keeps between two of them, the search that compares nothing keeps. -/
theorem Reached.searchAll (h : MadeOf fields s) (ho : InOrder fields) {P : Assignment → Prop}
    (step : ∀ {before after f a b offset}, s.fields = before ++ f :: after → Reached s memory before a → P a →
      b ∈ reading.recordsWith some f.domain a offset → P b) {before after : List Field}
    (hs : s.fields = before ++ after) (ha : Reached s memory before a) (hi : P a) {p : Assignment × Nat}
    (hp : p ∈ reading.searchAll some (after.map (·.domain)) a offset) : Reached s memory s.fields p.1 ∧ P p.1 := by
  induction after generalizing before a offset with
  | nil =>
    rw [List.map_nil, Reading.searchAll, List.mem_singleton] at hp
    rw [hp, hs, List.append_nil]
    exact ⟨ha, hi⟩
  | cons f after ih =>
    rw [List.map_cons, Reading.searchAll, List.mem_flatMap] at hp
    obtain ⟨b, hb, hp⟩ := hp
    rw [List.filterMap_some] at hb
    exact ih (by rw [hs, List.append_assoc]; rfl) (ha.next h ho hs hb).2 (step hs ha hi hb) hp

/-- The interpretations are what the search that compares nothing finds, compared at the end. -/
theorem toList_interpretations (h : MadeOf fields s) (ho : InOrder fields) (maxRepeat : Nat) (data : BitString)
    (memory : Memory) : (s.interpretations maxRepeat data memory).toList =
      ((Reading.of data maxRepeat).searchAll some (s.fields.map (·.domain)) (s.start memory) 0).filterMap
        (Symbol.complete? data) := by
  have early := (reached_start s memory).searchAll_verified h ho (List.nil_append s.fields).symm (.of data maxRepeat) 0
  rw [verified?_of_pending_nil rfl, Option.elim_some] at early
  rw [Symbol.interpretations, Choices.toList_filterMap, Reading.toList_interpretAll, ← early, List.filterMap_filterMap]
  refine List.filterMap_congr fun p hp => ?_
  have reached := ((reached_start s memory).searchAll h ho (P := fun _ => True) (fun _ _ _ _ => trivial)
    (List.nil_append s.fields).symm trivial hp).1
  obtain ⟨x, offset⟩ := p
  unfold Symbol.complete?
  dsimp only
  cases hv : x.verified? with
  | none => rw [Option.map_none, Option.bind_none, Option.filter_none, ite_self]
  | some c => rw [Option.map_some, Option.bind_some, verified?_verified? (reached.unique h ho) hv]

/--
The interpretations of a message do not depend on when relations are compared: with comparisons after each record, or
with a single one when all fields are read, the same assignments are found in the same order.
-/
theorem interpretations_deferred {text : String} {symbols : List Symbol} (ht : Grammar.symbols text = .ok symbols)
    (hs : s ∈ symbols) (maxRepeat : Nat) (data : BitString) (memory : Memory) :
    ((Reading.of data maxRepeat).interpretAll (s.fields.map (·.domain)) (s.start memory) 0).toList =
        (Reading.of data maxRepeat).searchAll verified? (s.fields.map (·.domain)) (s.start memory) 0 ∧
      (s.interpretations maxRepeat data memory).toList =
        ((Reading.of data maxRepeat).searchAll some (s.fields.map (·.domain)) (s.start memory) 0).filterMap
          (Symbol.complete? data) := by
  obtain ⟨fields, ho, made⟩ := symbols_made ht
  exact ⟨Reading.toList_interpretAll _ _ _, toList_interpretations (made s hs) ho maxRepeat data memory⟩

/-- A symbol whose size stands before what it measures. -/
def sizeAhead : String :=
  "symbol \"S\" \x7b n: size(x); x: raw(0..4); \x7d"

/-- Read as `sizeAhead`, two bytes have two ways to be read without comparisons, and one interpretation. -/
theorem interpretations_deferred_sizeAhead : ∃ symbols s, Grammar.symbols sizeAhead = .ok symbols ∧ s ∈ symbols ∧
    ((Reading.of (.ofBytes [1, 0x41]) 5).searchAll some (s.fields.map (·.domain)) (s.start .empty) 0).length = 2 ∧
    (s.interpretations 5 (.ofBytes [1, 0x41]) .empty).toList.length = 1 ∧
    (s.interpretations 5 (.ofBytes [1, 0x41]) .empty).toList =
      ((Reading.of (.ofBytes [1, 0x41]) 5).searchAll some (s.fields.map (·.domain)) (s.start .empty) 0).filterMap
        (Symbol.complete? (.ofBytes [1, 0x41])) := by
  have run : ((Grammar.symbols sizeAhead).toOption.bind List.head?).map (fun s =>
      (((Reading.of (.ofBytes [1, 0x41]) 5).searchAll some (s.fields.map (·.domain)) (s.start .empty) 0).length,
        (s.interpretations 5 (.ofBytes [1, 0x41]) .empty).toList.length)) = some (2, 1) := by
    decide +kernel
  obtain ⟨s, hs, hr⟩ := Option.map_eq_some_iff.mp run
  obtain ⟨symbols, ht, hs⟩ := Option.bind_eq_some_iff.mp hs
  have text : Grammar.symbols sizeAhead = .ok symbols := Builder.ok_of_toOption ht
  have mem : s ∈ symbols := List.mem_of_mem_head? hs
  obtain ⟨hl, hi⟩ := Prod.mk.inj hr
  exact ⟨symbols, s, text, mem, hl, hi, (interpretations_deferred text mem 5 (.ofBytes [1, 0x41]) .empty).2⟩

end Messages

end WireGrammar
