import WireGrammar.Proofs.Generation.Placeholders
import WireGrammar.Proofs.Generation.Runs
import WireGrammar.Proofs.Message.Deferred
import WireGrammar.Proofs.Message.Outcome

/-!
# How a message is composed

While the fields of a symbol are generated, a relation refers to fields as a whole, so below a field nothing that waits
can be computed (`Filling`). A relation is computed from fields that are complete, and later fields change none of
these, so between two fields the values that relations have got are right (`Filled`), and they still are when the next
field is complete (`Filled.next`). So all values are right when the message is complete (`generateFields_yields`).
-/

namespace WireGrammar

open Assignment Variable Grammar Generation

/-- Values of the relations in a field: they are right, and none of these relations refers to the field. -/
def ValueIn (all : List Variable) (bound : Bindings) (a : Assignment) (f : Field) (id : VarId) (bits : BitString) :
    Prop :=
  ∀ r, .relation r ∈ f.domain.preorder → r.id = id → bound.has id = false → r.Sound all a bits ∧ f.id ∉ r.targets

/-- The content of a field follows a derivation, with values of relations in some of its slots. -/
structure Follows (all : List Variable) (bound : Bindings) (maxRepeat : Nat) (a : Assignment) (f : Field)
    (content : Content) (d : Derivation) : Prop where
  recorded : a.content? f.id = some content
  own : ∀ r, f.domain = .relation r → content = .slot r.id
  fits : Fits (MadeLeaf bound a) (CountsTo bound maxRepeat) f.domain d
  resolves : Atom.Resolves (ValueIn all bound a f) d.atoms content.atoms

/-- What is true between two fields. -/
structure Filled (s : Symbol) (memory : Memory) (bound : Bindings) (maxRepeat : Nat) (before : List Field)
    (a : Assignment) : Prop where
  grows : Grows (idsOf (before.map (·.domain))) (s.start memory) a
  orderly : Orderly s.allVariables bound (fun r bits => r.Sound s.allVariables a bits) a
  stuck : a.Stuck
  pending : ∀ r ∈ a.pending, r.id ∈ idsOf (before.map (·.domain))
  recorded : ∀ f ∈ before, ∃ content d, Follows s.allVariables bound maxRepeat a f content d

/-- What is true below a field, when `a` is what there was before the field. -/
structure Filling (s : Symbol) (bound : Bindings) (f : Field) (a x : Assignment) : Prop where
  grows : Grows (idsOf f.domain.children) a x
  orderly : Orderly s.allVariables bound
    (fun r bits => .relation r ∈ f.domain.preorder → r.id ≠ f.id ∧ r.Computes a bits) x
  stuck : x.Stuck
  pending : ∀ r ∈ x.pending, r ∈ a.pending ∨ .relation r ∈ f.domain.preorder

section Fields

variable {fields : Fields} {s : Symbol} {memory : Memory} {bound : Bindings} {maxRepeat : Nat} {a b c x y : Assignment}
  {before after : List Field} {f : Field}

theorem filled_start (s : Symbol) (memory : Memory) (bound : Bindings) (maxRepeat : Nat) :
    Filled s memory bound maxRepeat [] (s.start memory) :=
  ⟨.refl _ _, ⟨fun _ h => (nomatch h), List.nodup_nil, fun _ h => (nomatch h), fun _ h => (nomatch h),
    fun _ _ _ _ h => (nomatch h)⟩, fun _ h => (nomatch h), fun _ h => (nomatch h), fun _ h => (nomatch h)⟩

/-- The slots in the content of a field are those of its relations. -/
theorem Follows.slots {all : List Variable} {content : Content} {d : Derivation}
    (h : Follows all bound maxRepeat a f content d) {q : VarId} (hq : .slot q ∈ content.atoms) : q ∈ f.domain.ids :=
  h.fits.slot_mem (h.resolves.slot_mem hq)

theorem Filled.slots (ha : Filled s memory bound maxRepeat before a) {g : Field} (hg : g ∈ before) {content : Content}
    (hc : a.content? g.id = some content) {q : VarId} (hq : .slot q ∈ content.atoms) : q ∈ g.domain.ids := by
  obtain ⟨own, d, hf⟩ := ha.recorded g hg
  cases hf.recorded.symm.trans hc
  exact hf.slots hq

variable (h : MadeOf fields s) (ho : InOrder fields)

include h ho

theorem wellPlaced : WellPlaced s.allVariables := by
  refine ⟨fun {id name children} hm => ?_, fun hv hw he => h.eq_of_id ho hv hw he, fun {id name child count delimiter} hm =>
    (h.checks ho hm).1⟩
  obtain ⟨f, hf, hm⟩ := mem_allVariables.mp hm
  exact separate_of_nodup (h.made ho hf).placed.nodup hm

/-- The values of a relation that reads bits have one length, unless it is a copy. -/
theorem isFixed_of_readsBits {r : Relation} (hr : .relation r ∈ s.allVariables) (hl : r.rule.readsLengthsOnly = false)
    (hc : r.rule ≠ .copy) : r.IsFixed := by
  have rule := (h.checks ho hr).1
  unfold RuleHolds at rule
  unfold Relation.IsFixed
  cases he : r.rule with
  | size scale => rw [he] at hl; cases hl
  | copy => exact absurd he hc
  | internetChecksum => rw [he] at rule; exact ⟨_, rule⟩
  | crc32 => rw [he] at rule; exact ⟨_, rule⟩
  | keyedDigest algorithm key => rw [he] at rule; exact rule
  | padding modulo once scale => rw [he] at hl; cases hl

/-- A copy refers to another field than its own. -/
theorem copy_apart {g : Field} (hg : g ∈ s.fields) {r : Relation} (hr : .relation r ∈ g.domain.preorder)
    (hc : r.rule = .copy) : g.id ∉ r.targets :=
  ho.apart _ (h.mem g hg) r hr hc

/-- A root that shows something is one of the fields before. -/
theorem Filled.field_of_content? (ha : Filled s memory bound maxRepeat before a) (hb : before ⊆ s.fields) {t : VarId}
    (ht : t.branch = []) {content : Content} (hc : a.content? t = some content) : ∃ g ∈ before, g.id = t := by
  have hm : t ∈ idsOf (before.map (·.domain)) := by
    by_contra hm
    rw [ha.grows.content?_eq hm] at hc
    cases hc
  obtain ⟨v, hv, him⟩ := mem_idsOf.mp hm
  obtain ⟨g, hg, rfl⟩ := List.mem_map.mp hv
  refine ⟨g, hg, ?_⟩
  by_contra hne
  exact (h.made ho (hb hg)).placed.branch_ne_nil him (Ne.symm hne) ht

variable (hs : s.fields = before ++ f :: after)

include hs

omit h ho in
theorem mem_field {v : Variable} (hv : v ∈ f.domain.preorder) : v ∈ s.allVariables :=
  mem_allVariables.mpr ⟨f, mem_fields_between hs, hv⟩

theorem Filled.apart (ha : Filled s memory bound maxRepeat before a) {t : VarId} (ht : t.branch = []) (hne : t ≠ f.id) :
    a.Apart f.domain.ids t :=
  apart_root h ho hs ha.grows (fun _ hg _ hc _ hq => ha.slots hg (content?_of_record hc) hq) ht hne

theorem Filled.unread (ha : Filled s memory bound maxRepeat before a) : a.entry? f.id = none :=
  entry?_next h ho hs ha.grows

/-- Nothing is recorded for the variables of the next field. -/
theorem Filled.cell?_eq_none (ha : Filled s memory bound maxRepeat before a) {id : VarId} (hi : id ∈ f.domain.ids) :
    a.cell? id = none := by
  rw [ha.grows.cell?_eq fun hm => ?_]
  · rfl
  · obtain ⟨v, hv, him⟩ := mem_idsOf.mp hm
    obtain ⟨g, hg, rfl⟩ := List.mem_map.mp hv
    exact (ids_apart h ho hs hi).1 g hg him

/-! ## Below a field -/

/-- Below a field all relations are computed as before it. -/
theorem Filled.evaluate_below (ha : Filled s memory bound maxRepeat before a) (hg : Grows (idsOf f.domain.children) a x)
    {r : Relation} (hr : .relation r ∈ s.allVariables) : r.evaluate x = r.evaluate a := by
  have below : idsOf f.domain.children ⊆ f.domain.ids := by
    rw [ids_eq]
    exact List.subset_cons_self _ _
  have placed := (h.made ho (mem_fields_between hs)).placed
  refine hg.evaluate_eq (fun t ht _ => ?_) fun hm hi => ?_
  · by_cases hne : t = f.id
    · subst hne
      exact ⟨notMem_below h ho hs, fun content hc => by rw [ha.unread h ho hs] at hc; cases hc⟩
    · exact (ha.apart h ho hs (h.target_root ho hr ht) hne).mono below
  · refine placed.branch_ne_nil (below hi) (fun he => notMem_below h ho hs ?_) (h.target_root ho hr hm.1)
    rwa [← he]

theorem Filled.filling (ha : Filled s memory bound maxRepeat before a) : Filling s bound f a a := by
  refine ⟨.refl _ a, ha.orderly.mono fun r hr hm bits hc _ hrf => ?_, ha.stuck, fun r hr => Or.inl hr⟩
  have none : a.cell? r.id = none := ha.cell?_eq_none h ho hs (List.mem_map_of_mem (f := Variable.id) hrf)
  rw [none] at hc
  cases hc

/-- The record of a variable below a field. -/
theorem Filling.makes (ha : Filled s memory bound maxRepeat before a) (hx : Filling s bound f a x) {v : Variable}
    (hv : v ∈ preorderAll f.domain.children) (hm : Makes bound v x y) : Filling s bound f a y := by
  have hvf : v ∈ f.domain.preorder := children_subset_preorder _ hv
  have below : [v.id] ⊆ idsOf f.domain.children := by
    rw [← map_id_preorderAll]
    exact List.cons_subset.mpr ⟨List.mem_map_of_mem hv, List.nil_subset _⟩
  have grows := hx.grows.trans (hm.grows.mono below)
  have same {r : Relation} (hr : .relation r ∈ s.allVariables) : r.evaluate y = r.evaluate x :=
    (ha.evaluate_below h ho hs grows hr).trans (ha.evaluate_below h ho hs hx.grows hr).symm
  have orderly := hm.orderly (fun hv hw he => h.eq_of_id ho hv hw he) (mem_field hs hvf) hx.orderly hx.stuck
    fun r bits he hc _ hrf => ⟨fun hid => ?_, hc.congr (ha.evaluate_below h ho hs hx.grows (mem_field hs hrf)).symm⟩
  · refine ⟨grows, orderly, fun r hr => ?_, fun r hr => ?_⟩
    · rw [same (orderly.mem r hr)]
      cases hm with
      | data hv => exact hx.stuck r (hv.kept.2 ▸ hr)
      | mutated | ready | node => exact hx.stuck r hr
      | @wait q _ hn hw =>
        rcases List.mem_append.mp (pending_awaitRelation q hr) with hr | hr
        · exact hx.stuck r hr
        · rw [List.mem_singleton.mp hr]
          exact hw
    · rcases hm.pending r hr with hr | rfl
      · exact hx.pending r hr
      · exact Or.inr hvf
  · subst he
    refine notMem_below h ho hs ?_
    rw [← hid, ← map_id_preorderAll]
    exact List.mem_map_of_mem (f := Variable.id) hv

/-- A last step below a field. -/
theorem Filling.step (ha : Filled s memory bound maxRepeat before a) (hx : Filling s bound f a x) {v : Variable}
    (hv : v ∈ preorderAll f.domain.children) (hl : LastStep bound v x y) : Filling s bound f a y := by
  obtain ⟨made, hm, hsettled⟩ := hl
  have next := hx.makes h ho hs ha hv hm
  rw [hsettled.1.eq_of_stuck next.stuck]
  exact next

/-- Values of the relations below a field, as they are put into the contents of nodes there. -/
def ValueBelow (bound : Bindings) (f : Field) (a : Assignment) (id : VarId) (bits : BitString) : Prop :=
  ∀ r, .relation r ∈ f.domain.preorder → r.id = id → bound.has id = false → id ≠ f.id ∧ r.Computes a bits

omit hs in
theorem Filled.keeps (hs : s.fields = before ++ f :: after) (ha : Filled s memory bound maxRepeat before a) :
    Keeps bound s.allVariables (preorderAll f.domain.children) (Filling s bound f a) (ValueBelow bound f a) := by
  refine ⟨fun v hv x y hx hl => hx.step h ho hs ha hv hl, fun x hx => hx.orderly.mem, fun x hx => hx.orderly.distinct,
    fun x hx id bits _ hc r hr hid hm => ?_⟩
  subst hid
  exact hx.orderly.values r (mem_field hs hr) hm bits hc hr

/-! ## The record of a field -/

/-- A relation that can be computed before a field does not refer to it. -/
theorem Filled.notMem_targets (ha : Filled s memory bound maxRepeat before a) {r : Relation} {bits : BitString}
    (hc : r.Computes a bits) (hne : r.id ≠ f.id) : f.id ∉ r.targets := by
  intro ht
  have inScope : a.scope.contains f.id = true := by
    rw [ha.grows.scope]
    exact List.contains_iff_mem.mpr (mem_variableIds.mpr ⟨f, mem_fields_between hs, f.domain.id_mem_ids⟩)
  have recorded := hc.recorded ht (Ne.symm hne) inScope
  rw [ha.unread h ho hs] at recorded
  cases recorded

/-- What a relation computes before a field it computes when the field is recorded. -/
theorem Filled.computes_next (ha : Filled s memory bound maxRepeat before a) (hg : Grows f.domain.ids a y)
    {r : Relation} (hr : .relation r ∈ s.allVariables) (hne : r.id ≠ f.id) {bits : BitString}
    (hc : r.Computes a bits) : r.Computes y bits := by
  have placed := (h.made ho (mem_fields_between hs)).placed
  refine hc.congr (hg.evaluate_eq (fun t ht _ => ?_) fun hm hi => ?_)
  · refine ha.apart h ho hs (h.target_root ho hr ht) fun he => ?_
    exact ha.notMem_targets h ho hs hc hne (he ▸ ht)
  · exact placed.branch_ne_nil hi hne (h.target_root ho hr hm.1)

/-- Announced lengths that are kept when a field is recorded were kept before. -/
theorem Filled.kept_before (ha : Filled s memory bound maxRepeat before a) (hg : Grows f.domain.ids a y)
    {r : Relation} (hr : .relation r ∈ s.allVariables) (hk : r.Kept s.allVariables y) : r.Kept s.allVariables a := by
  intro t ht content hc q hq hslot hf bits hb n hn
  have apart : a.Apart f.domain.ids t := by
    refine ha.apart h ho hs (h.target_root ho hr ht) fun he => ?_
    rw [content?, he, ha.unread h ho hs] at hc
    cases hc
  refine hk t ht content ((hg.content?_eq apart.1).trans hc) q hq hslot hf bits ?_ n hn
  rw [hg.cell?_eq (apart.slot_notMem hc hslot), hb]

/-- Values that are right before a field are right when it is recorded. -/
theorem Filled.sound_next (ha : Filled s memory bound maxRepeat before a) (hg : Grows f.domain.ids a y)
    {r : Relation} (hr : .relation r ∈ s.allVariables) (hne : r.id ≠ f.id) {bits : BitString}
    (hv : r.Sound s.allVariables a bits) : r.Sound s.allVariables y bits :=
  ⟨hv.length, fun hk => ha.computes_next h ho hs hg hr hne
    (hv.computes fun hl => ha.kept_before h ho hs hg hr (hk hl))⟩

/-- A field that is a relation and can be computed gets a value that is right, also when it refers to itself. -/
theorem Filled.sound_own (ha : Filled s memory bound maxRepeat before a) {r : Relation} {bits : BitString}
    (hf : f.domain = .relation r) (hg : Grows f.domain.ids a y) (hc : r.Computes a bits)
    (hy : y.cell? r.id = some (.known bits)) : r.Sound s.allVariables y bits := by
  have hid : f.id = r.id := congrArg Variable.id hf
  have hr : .relation r ∈ s.allVariables := mem_field hs (by rw [hf]; exact self_mem_preorder _)
  have unread : a.cell? r.id = none := by rw [cell?, ← hid, ha.unread h ho hs]
  refine ⟨fun hfixed => hfixed.length_eq hc, fun hk => ?_⟩
  have apart {t : VarId} (ht : t ∈ r.targets) (hne : t ≠ r.id) : a.Apart f.domain.ids t :=
    ha.apart h ho hs (h.target_root ho hr ht) (hid ▸ hne)
  refine hc.congr (Relation.evaluate_mono hc.not_waiting (fun _ t ht hne _ => hg.targetBits?_eq (apart ht hne) _)
    (fun _ t ht hne _ => hg.targetLength?_eq_of_apart (apart ht hne)) fun hm hsome => ?_)
  -- the length that its type leaves is that of its value
  rw [Relation.ownLength?, unread] at hsome
  rw [Relation.ownLength?, hy, Relation.ownLength?, unread]
  obtain ⟨n, hn⟩ := Option.isSome_iff_exists.mp hsome
  have fixed : r.type.fixedLength? = some n := hn
  have length : bits.length = n := by
    by_cases hfixed : r.IsFixed
    · exact Option.some.inj ((hfixed.length_eq hc).symm.trans fixed)
    · have reads := hm.2
      have lengths : r.rule.readsLengthsOnly = true := by
        by_contra hl
        refine hfixed (isFixed_of_readsBits h ho hr (Bool.not_eq_true _ ▸ hl) fun hcopy => ?_)
        rw [hcopy] at reads
        cases reads
      have announced : announcedLength? r = some n := by
        unfold announcedLength?
        split
        next hr => rw [hr] at reads; cases reads
        next => exact fixed
      refine hk lengths r.id hm.1 (.slot r.id) (content?_of_cell? (by rw [hy]; rfl)) r hr ?_ hfixed bits hy n announced
      rw [Content.atoms_slot]
      exact List.mem_singleton_self _
  rw [fixed]
  exact congrArg some length

/-- Values that are right below a field are right when it is recorded. -/
theorem Filled.sound_below (ha : Filled s memory bound maxRepeat before a) (hc : Filling s bound f a c)
    (hg : Grows f.domain.ids a y) {r : Relation} (hr : .relation r ∈ s.allVariables) (hm : bound.has r.id = false)
    {bits : BitString} (hcell : c.cell? r.id = some (.known bits)) : r.Sound s.allVariables y bits := by
  by_cases hi : r.id ∈ f.domain.ids
  · obtain ⟨v, hv, he⟩ := List.mem_map.mp hi
    obtain rfl := h.eq_of_id ho (mem_field hs hv) hr he
    obtain ⟨hne, hcomputes⟩ := hc.orderly.values r hr hm bits hcell hv
    exact (ha.computes_next h ho hs hg hr hne hcomputes).sound
  · have kept : a.cell? r.id = some (.known bits) := by
      rw [← hcell, hc.grows.cell?_eq fun hm => hi ?_]
      rw [ids_eq]
      exact List.mem_cons_of_mem _ hm
    exact ha.sound_next h ho hs hg hr (fun he => hi (he ▸ f.domain.id_mem_ids))
      (ha.orderly.values r hr hm bits kept)

/-- The slot of a copy stands in its own field only, to which it does not refer. -/
theorem Filled.copy_slot (ha : Filled s memory bound maxRepeat before a) (hg : Grows f.domain.ids a y)
    (hf : ∀ {content : Content} {q}, y.content? f.id = some content → .slot q ∈ content.atoms → q ∈ f.domain.ids)
    {r : Relation} (hr : .relation r ∈ s.allVariables) (hcopy : r.rule = .copy) {t : VarId} (ht : t ∈ r.targets)
    {content : Content} (hc : y.content? t = some content) : .slot r.id ∉ content.atoms := by
  intro hslot
  have inField {g : Field} (hgs : g ∈ s.fields) (he : t = g.id) (hi : r.id ∈ g.domain.ids) : False := by
    obtain ⟨v, hv, hid⟩ := List.mem_map.mp hi
    obtain rfl := h.eq_of_id ho (mem_allVariables.mpr ⟨g, hgs, hv⟩) hr hid
    exact copy_apart h ho hgs hv hcopy (he ▸ ht)
  by_cases he : t = f.id
  · exact inField (mem_fields_between hs) he (hf (he ▸ hc) hslot)
  · have apart := ha.apart h ho hs (h.target_root ho hr ht) he
    have earlier : before ⊆ s.fields := by
      rw [hs]
      exact List.subset_append_left _ _
    rw [hg.content?_eq apart.1] at hc
    obtain ⟨g, hgm, hgt⟩ := ha.field_of_content? h ho earlier (h.target_root ho hr ht) hc
    subst hgt
    exact inField (earlier hgm) rfl (ha.slots hgm hc hslot)

/-- A field that was generated leads to what is true between two fields. -/
theorem Filled.next {d : Derivation} (ha : Filled s memory bound maxRepeat before a)
    (run : Run bound maxRepeat (Filling s bound f a) (ValueBelow bound f a) f.domain a c b d) :
    Filled s memory bound maxRepeat (before ++ [f]) b := by
  have unique : ∀ {v w}, v ∈ s.allVariables → w ∈ s.allVariables → v.id = w.id → v = w :=
    fun hv hw he => h.eq_of_id ho hv hw he
  have hf : f.domain ∈ s.allVariables := mem_field hs (self_mem_preorder _)
  have earlier : before ⊆ s.fields := by
    rw [hs]
    exact List.subset_append_left _ _
  obtain ⟨hc, ⟨y, hmakes, hsettled⟩, -, hfits, content, hcontent, hresolves⟩ := run
  have ids : idsOf ((before ++ [f]).map (·.domain)) = idsOf (before.map (·.domain)) ++ f.domain.ids := by
    rw [List.map_append, idsOf_append, List.map_singleton, idsOf_cons, idsOf_nil, List.append_nil]
  have hg : Grows f.domain.ids a y := by
    rw [ids_eq]
    exact (hc.grows.mono (List.subset_cons_self _ _)).trans
      (hmakes.grows.mono (List.cons_subset.mpr ⟨List.mem_cons_self, List.nil_subset _⟩))
  have orderly : Orderly s.allVariables bound (fun r bits => r.Sound s.allVariables y bits) y := by
    refine hmakes.orderly unique hf (hc.orderly.mono fun r hr hm bits hcell _ =>
        ha.sound_below h ho hs hc hg hr hm hcell) hc.stuck
      fun r bits he hcomputes hy => ?_
    refine ha.sound_own h ho hs he hg (hcomputes.congr (ha.evaluate_below h ho hs hc.grows (he ▸ hf)).symm) ?_
    rw [hy, cell?_setCell, if_pos rfl]
  have pending : ∀ r ∈ y.pending, r.id ∈ idsOf ((before ++ [f]).map (·.domain)) := by
    intro r hr
    rw [ids]
    rcases hmakes.pending r hr with hr | hr
    · rcases hc.pending r hr with hr | hr
      · exact List.mem_append_left _ (ha.pending r hr)
      · exact List.mem_append_right _ (List.mem_map_of_mem (f := Variable.id) hr)
    · refine List.mem_append_right _ ?_
      rw [← hr]
      exact (Variable.relation r).id_mem_ids
  have contentBefore {g : Field} (hgm : g ∈ before) : y.content? g.id = a.content? g.id :=
    hg.content?_eq fun hi => (ids_apart h ho hs hi).1 g hgm g.domain.id_mem_ids
  have contents := hsettled.1.content?_eq unique orderly
  have recorded : y.content? f.id = some content := (contents f.id).symm.trans hcontent.content
  have slots {other : Content} {q : VarId} (hother : y.content? f.id = some other) (hq : .slot q ∈ other.atoms) :
      q ∈ f.domain.ids := by
    cases recorded.symm.trans hother
    exact hfits.slot_mem (hresolves.slot_mem hq)
  have own (r : Relation) (hr : .relation r ∈ s.allVariables) (hl : r.rule.readsLengthsOnly = false) : r.IsFixed ∨
      ∀ t ∈ r.targets, ∀ content, y.content? t = some content → .slot r.id ∉ content.atoms := by
    by_cases hcopy : r.rule = .copy
    · exact .inr fun t ht content hcontent => ha.copy_slot h ho hs hg slots hr hcopy ht hcontent
    · exact .inl (isFixed_of_readsBits h ho hr hl hcopy)
  obtain ⟨orderlyEnd, soundEnd⟩ := hsettled.1.sound unique orderly own
  have grows : Grows (idsOf (before.map (·.domain)) ++ f.domain.ids) a b := by
    refine (hg.mono (List.subset_append_right _ _)).trans (hsettled.1.grows.mono fun i hi => ?_)
    obtain ⟨r, hr, rfl⟩ := List.mem_map.mp hi
    rw [← ids]
    exact pending r hr
  refine ⟨?_, orderlyEnd, hsettled.2, fun r hr => pending r (hsettled.1.pending_sublist.subset hr), ?_⟩
  · rw [ids]
    exact (ha.grows.mono (List.subset_append_left _ _)).trans grows
  · intro g hgm
    rcases List.mem_append.mp hgm with hgm | hgm
    · obtain ⟨own, e, hfollows⟩ := ha.recorded g hgm
      refine ⟨own, e, ?_, hfollows.own, hfollows.fits.grows grows,
        hfollows.resolves.mono fun id bits hv r hr hid hm => ?_⟩
      · rw [contents, contentBefore hgm]
        exact hfollows.recorded
      · obtain ⟨hsound, ht⟩ := hv r hr hid hm
        have hrm : .relation r ∈ s.allVariables := mem_allVariables.mpr ⟨g, earlier hgm, hr⟩
        have hrg : r.id ∈ g.domain.ids := List.mem_map_of_mem (f := Variable.id) hr
        have hne : r.id ≠ f.id := fun he => (ids_apart h ho hs f.domain.id_mem_ids).1 g hgm (Eq.subst he hrg)
        exact ⟨soundEnd r hrm bits (ha.sound_next h ho hs hg hrm hne hsound), ht⟩
    · obtain rfl := List.mem_singleton.mp hgm
      refine ⟨content, d, hcontent.content, fun r he => ?_, hfits,
        hresolves.mono fun id bits hv r hr hid hm => ?_⟩
      · have cell := hcontent.cell (by rw [he]; rfl)
        have shown := hcontent.content
        rw [he] at cell shown
        exact Option.some.inj (shown.symm.trans (content?_of_cell? cell))
      · obtain ⟨hne, hcomputes⟩ := hv r hr hid hm
        subst hid
        have hrm := mem_field hs hr
        exact ⟨soundEnd r hrm bits (ha.computes_next h ho hs hg hrm hne hcomputes).sound,
          ha.notMem_targets h ho hs hcomputes hne⟩

omit hs

/-- Between two fields, from one to the next, up to the end of the message. -/
theorem generateFields_yields {ρ : Type} [RandomSource ρ] (limits : GenerationLimits) {before after : List Field}
    (hs : s.fields = before ++ after) (ha : Filled s memory bound limits.maxRepeat before a) :
    Yields (ρ := ρ) bound (Symbol.generateFields limits after a)
      (Filled s memory bound limits.maxRepeat s.fields) := by
  induction after generalizing before a with
  | nil =>
    rw [List.append_nil] at hs
    exact Yields.pure (hs ▸ ha)
  | cons f after ih =>
    have mem : f.domain.preorder ⊆ s.allVariables := fun v hv => mem_field hs hv
    rw [Symbol.generateFields]
    refine (generate_runs (wellPlaced h ho) f.domain mem (ha.keeps h ho hs) (ha.filling h ho hs)).bind fun x hx => ?_
    cases x with
    | none => exact Yields.throw _
    | some b =>
      obtain ⟨c, d, run⟩ := hx b rfl
      exact ih (by rw [hs, List.append_assoc]; rfl) (ha.next h ho hs run)

/-- When a message is complete, no relation waits and all values are right. -/
theorem generateAssignment_yields {ρ : Type} [RandomSource ρ] (limits : GenerationLimits) (memory : Memory) :
    Yields (ρ := ρ) bound (s.generateAssignment limits memory) fun a =>
      a.pending = [] ∧ Filled s memory bound limits.maxRepeat s.fields a := by
  have fields : Yields (ρ := ρ) bound (Symbol.generateFields limits s.fields (s.start memory))
      (Filled s memory bound limits.maxRepeat s.fields) :=
    generateFields_yields h ho limits (List.nil_append s.fields).symm
      (filled_start s memory bound limits.maxRepeat)
  exact yields_iff_returns.mpr (Symbol.generateAssignment_returns id fields)

end Fields

end WireGrammar
