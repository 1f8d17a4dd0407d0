import WireGrammar.Proofs.Generation.Plain
import WireGrammar.Proofs.Repetition.SizedInterpretation

/-!
# Generating instances with a size

A repetition of a leaf with its size is generated as a derivation, with a leaf in the place of the size, in which each
size is what is computed for it (`generate_sized`). A size of which nothing is known waits with the length announced
for it, until the leaf behind it is generated and settles it (`leaf_yields`).
-/

namespace WireGrammar.SizedRepetition

open Assignment Variable Generation
open Reading hiding instances

variable {ρ : Type} [RandomSource ρ] {limits : GenerationLimits} {t : SizedRepetition} {a : Assignment}

/-! ## The size -/

/-- A size that can be computed gets what is computed for it. -/
theorem size_yields (hb : t.IsBuilt) {n : Nat} (hn : a.targetLength? t.leafId = some n) (hq : a.Quiet [t.sizeId]) :
    Yields (ρ := ρ) none (generate limits (.relation t.size) a) (IfSome fun b =>
      ∃ bits, t.encoded? n = some bits ∧ Produces limits.maxRepeat t.sizeLeaf a b (.leaf bits)) := by
  rw [generate]
  refine (generateRelation_yields hq.distinct t.size).mono fun x hx b hy => ?_
  obtain ⟨made, hm, hs⟩ := hx b hy
  cases hm with
  | node hv => cases hv
  | mutated hm => cases hm
  | wait _ hw =>
    rw [evaluate_eq_waiting_iff hb, hn] at hw
    cases hw
  | @ready _ _ bits _ hc =>
    obtain ⟨m, hm, he⟩ := (computes_iff hb).mp hc
    obtain rfl : n = m := Option.some.inj (hn.symm.trans hm)
    rw [hq.eq_of_settled ((Grows.refl _ a).setCell List.mem_cons_self _) rfl hs]
    refine ⟨bits, he, realizes_size (hq.isPending List.mem_cons_self), bits, rfl, fun _ => ⟨fun _ => ?_, fun h => ?_⟩⟩
    · exact accepts_of_encoded? he
    · cases h

theorem awaiting_quiet (hb : t.IsBuilt) (hn : a.targetLength? t.leafId = none) (he : a.entry? t.leafId = none)
    {ids : List VarId} (hid : t.leafId ∉ ids) (out : t.sizeId ∉ ids) (hq : a.Quiet (t.sizeId :: ids)) (cell : Cell) :
    (t.awaiting a cell).Quiet ids := by
  have hp := hq.isPending List.mem_cons_self
  refine ⟨awaiting_idle hb hn he hp hid hq.idle cell, ?_, fun r hr => ?_⟩
  · exact Distinct.awaitRelation (a := a.setCell t.sizeId cell) hq.distinct t.size
  · rw [awaiting_pending hp] at hr
    rcases List.mem_append.mp hr with hr | hr
    · exact fun hm => hq.apart r hr (List.mem_cons_of_mem _ hm)
    · rw [List.mem_singleton.mp hr]
      exact out

/-- A size waits with the length announced for it when nothing is known of the leaf. -/
theorem size_waits (hb : t.IsBuilt) (hn : a.targetLength? t.leafId = none) (he : a.entry? t.leafId = none)
    (hq : a.Quiet [t.sizeId]) :
    Yields (ρ := ρ) none (generate limits (.relation t.size) a)
      (IfSome fun b => ∃ cell, b = t.awaiting a cell) := by
  rw [generate]
  refine (generateRelation_yields hq.distinct t.size).mono fun x hx b hy => ?_
  obtain ⟨made, hm, hs⟩ := hx b hy
  cases hm with
  | node hv => cases hv
  | mutated hm => cases hm
  | ready _ hc =>
    obtain ⟨n, hm, -⟩ := (computes_iff hb).mp hc
    rw [hn] at hm
    cases hm
  | wait =>
    have quiet := awaiting_quiet hb hn he List.not_mem_nil List.not_mem_nil hq (.awaited (announcedLength? t.size))
    exact ⟨_, quiet.eq_of_settled (.refl _ _) rfl hs⟩

/-! ## The leaf behind a size that waits -/

/-- A leaf was generated behind a size that waited, and the size got what is computed for it. -/
structure Measured (t : SizedRepetition) (pending : List Relation) (z w : Assignment) (bits value : BitString) :
    Prop where
  grows : Grows [t.leafId, t.sizeId] z w
  pending : w.pending = pending
  leaf : w.Spells t.leafId value
  size : w.cell? t.sizeId = some (.known bits)
  made : MadeLeaf none w t.leafId t.leafType t.leafScope value
  encoded : t.encoded? value.length = some bits

theorem leaf_yields (hb : t.IsBuilt) {z : Assignment} {pending : List Relation} (hp : z.pending = pending ++ [t.size])
    (hd : z.Distinct) (hw : ∀ c, Grows [t.leafId, t.sizeId] z c → ∀ q ∈ pending, q.agrees? c = none) :
    Yields (ρ := ρ) none (generate limits t.leaf z)
      (IfSome fun w => ∃ bits value, t.Measured pending z w bits value) := by
  rw [leaf, generate]
  refine (generateData_yields hd t.leafId t.leafName t.leafType t.leafScope).mono fun x hx w hy => ?_
  obtain ⟨made, hm, hs, settled⟩ := hx w hy
  cases hm with
  | node hv => cases hv
  | @data _ _ _ _ _ c value hv =>
    have recorded : Grows [t.leafId] z (c.record t.leafId (.ofBits value)) := hv.grows.record List.mem_cons_self _
    have spelled : (c.record t.leafId (.ofBits value)).Spells t.leafId value :=
      .content (entry?_record_self _ _) (Content.atoms_ofBits value)
    have waits : (c.record t.leafId (.ofBits value)).pending = pending ++ [t.size] := hv.kept.2.trans hp
    have both : [t.leafId] ⊆ [t.leafId, t.sizeId] := List.cons_subset_cons _ (List.nil_subset _)
    have size : t.size ∈ pending ++ [t.size] := List.mem_append_right _ List.mem_cons_self
    cases hs with
    | refl =>
      have stays := settled t.size (waits ▸ size)
      rw [evaluate_eq_waiting_iff hb, spelled.targetLength?] at stays
      cases stays
    | @fill _ _ r bits hr hc next =>
      rw [waits] at hr
      rcases List.mem_append.mp hr with hr | hr
      · exact absurd (agrees?_eq_none_iff.mp (hw _ (recorded.mono both) r hr)) hc.not_waiting
      · obtain rfl : r = t.size := List.mem_singleton.mp hr
        obtain ⟨n, hn, he⟩ := (computes_iff hb).mp hc
        obtain rfl : value.length = n := Option.some.inj (spelled.targetLength?.symm.trans hn)
        -- the size waits no more, and the others cannot be computed
        have filled : Grows [t.leafId, t.sizeId] z ((c.record t.leafId (.ofBits value)).fillIn t.sizeId bits) :=
          ((recorded.mono both).setCell (List.mem_cons_of_mem _ List.mem_cons_self) _).of_pending _
        have others : ((c.record t.leafId (.ofBits value)).fillIn t.sizeId bits).pending = pending := by
          have hd : (z.pending.map (·.id)).Nodup := hd
          rw [hp, List.map_append, List.nodup_append] at hd
          change (c.record t.leafId (.ofBits value)).pending.filter (·.id != t.sizeId) = pending
          rw [waits, List.filter_append, List.filter_eq_self.mpr fun q hq => ?_]
          · simp [SizedRepetition.size]
          · exact bne_iff_ne.mpr (hd.2.2 q.id (List.mem_map_of_mem hq) t.sizeId List.mem_cons_self)
        have stuck : ((c.record t.leafId (.ofBits value)).fillIn t.sizeId bits).Stuck := fun q hq =>
          agrees?_eq_none_iff.mp (hw _ filled q (others ▸ hq))
        rw [next.eq_of_stuck stuck]
        refine ⟨bits, value, filled, others, .content ?_ (Content.atoms_ofBits value), ?_, ?_, he⟩
        · refine (entry?_setCell _ t.sizeId _ t.leafId).trans ?_
          rw [if_neg hb.leaf_ne_size]
          exact entry?_record_self _ _
        · exact (cell?_setCell t.sizeId _ t.sizeId).trans (if_pos rfl)
        · exact hv.made.grows ((((Grows.refl [t.leafId, t.sizeId] c).record List.mem_cons_self _).setCell
            (List.mem_cons_of_mem _ List.mem_cons_self) _).of_pending _)

/-- A leaf that settled a size completes what was generated from the size on. -/
theorem Measured.produces (hb : t.IsBuilt) (hp : a.isPending t.sizeId = false) {cell : Cell} {z w : Assignment}
    {parts : List Derivation} {bits value : BitString} {maxRepeat : Nat} (h : t.Measured a.pending z w bits value)
    (hz : ProducesAll maxRepeat t.between (t.awaiting a cell) z parts) :
    ProducesAll maxRepeat ([t.sizeLeaf] ++ (t.between ++ [t.leaf])) a w ([.leaf bits] ++ (parts ++ [.leaf value])) := by
  refine ⟨realizes_waited hb hp [] hz.realizes h.grows h.pending h.size h.leaf, FitsAll.append ?_ (FitsAll.append ?_ ?_)⟩
  · exact ⟨_, [], rfl, ⟨bits, rfl, fun _ => ⟨fun _ => accepts_of_encoded? h.encoded, nofun⟩⟩, rfl⟩
  · exact fitsAll_mono (fun _ _ _ hd => hd.grows h.grows) hz.fits
  · exact ⟨_, [], rfl, ⟨value, rfl, h.made⟩, rfl⟩

/-! ## One instance -/

section Instance

/-- The variables beside the leaf and its size have no relations. -/
theorem bare_of_mem (hb : t.IsBuilt) (free : ∀ r, .relation r ∉ preorderAll t.others) {v : Variable}
    (hv : v ∈ t.others) : Bare v := by
  have below : v.preorder ⊆ preorderAll t.others := preorder_subset_of_mem hv
  have nodup := hb.nodup_ids
  simp only [List.nodup_cons] at nodup
  exact ⟨fun r hr => free r (below hr), nodup.2.2.2.2.sublist (ids_sublist_idsOf hv),
    fun h => (hb.counted (mem_preorder.mpr (.inr (.inr (.inr (.inr (below h))))))).1⟩

theorem bare_leaf : Bare t.leaf := by
  refine ⟨fun r hr => ?_, ?_, fun h => ?_⟩
  · cases List.mem_singleton.mp hr
  · rw [leaf, ids_data]
    exact List.nodup_singleton _
  · cases List.mem_singleton.mp h

/-- The leaf of an instance is derived as one. -/
theorem leaf_of_fitsAll {leaf : LeafRule} {counts : RepeatCount → Nat → Prop} {xs ys : List Variable}
    {parts : List Derivation} (h : FitsAll leaf counts (xs ++ t.leaf :: ys) parts) :
    ∃ bits, parts[xs.length]? = some (.leaf bits) := by
  induction xs generalizing parts with
  | nil =>
    obtain ⟨d, rest, rfl, ⟨bits, rfl, -⟩, -⟩ := h
    exact ⟨bits, rfl⟩
  | cons x xs ih =>
    obtain ⟨d, rest, rfl, -, h⟩ := h
    exact ih h

/-- A size that can be computed behind plain variables is the one that is computed. -/
theorem computed_yields (hb : t.IsBuilt) {xs ys : List Variable} (hx : ∀ c ∈ xs, Bare c) (hy : ∀ c ∈ ys, Bare c)
    (hs : (xs ++ ([t.sizeLeaf] ++ ys)).Pairwise fun c d => c.id ∉ d.ids)
    (hq : a.Quiet (idsOf (xs ++ ([t.sizeLeaf] ++ ys)))) (length? : List Derivation → Option Nat)
    (known : ∀ b ds, ProducesAll limits.maxRepeat xs a b ds →
      ∃ n, length? ds = some n ∧ b.targetLength? t.leafId = some n) :
    Yields (ρ := ρ) none (generateAll limits (xs ++ ([.relation t.size] ++ ys)) a) (IfSome fun b =>
      ∃ ds es, ProducesAll limits.maxRepeat (xs ++ ([t.sizeLeaf] ++ ys)) a b (ds ++ es) ∧
        ds.length = xs.length ∧ t.starts (length? ds) es = true) := by
  obtain ⟨hsx, hs', apart⟩ := List.pairwise_append.mp hs
  obtain ⟨-, hsy, apartSize⟩ := List.pairwise_append.mp hs'
  rw [idsOf_append] at hq
  refine generateAll_append_yields (plainAll_yields hx hsx (hq.mono (List.subset_append_left _ _))) fun b hb' => ?_
  obtain ⟨ds, hds⟩ := hb'
  obtain ⟨n, hn, length⟩ := known b ds hds
  have quiet := (hq.grows (hds.realizes.grows.mono (List.subset_append_left _ _)) hds.realizes.pending).mono
    (List.subset_append_right _ _)
  rw [idsOf_append, idsOf_cons, ids_sizeLeaf, idsOf_nil, List.append_nil] at quiet
  refine generateAll_append_yields (generateAll_single (size_yields hb length
    (quiet.mono (List.subset_append_left _ _)))) fun c hc => ?_
  obtain ⟨bits, he, hsize⟩ := hc
  have grown : Grows ([t.sizeId] ++ idsOf ys) b c :=
    (ids_sizeLeaf (t := t) ▸ hsize.realizes.grows).mono (List.subset_append_left _ _)
  have quiet := (quiet.grows grown hsize.realizes.pending).mono (List.subset_append_right _ _)
  refine (plainAll_yields hy hsy quiet).mono fun x hx e he' => ?_
  obtain ⟨es, hes⟩ := hx e he'
  have behind := (ProducesAll.single hsize).append hes fun v hv hm => by
    obtain ⟨d, hd, hid⟩ := mem_idsOf.mp hm
    exact apartSize v hv d hd hid
  refine ⟨ds, [.leaf bits] ++ es, hds.append behind fun v hv hm => ?_, ?_, ?_⟩
  · obtain ⟨d, hd, hid⟩ := mem_idsOf.mp hm
    exact apart v hv d hd hid
  · exact hds.realizes.bits.length_eq.symm
  · rw [hn]
    exact beq_iff_eq.mpr he

/-- A size that waits is that of the leaf behind it. -/
theorem waiting_yields (hb : t.IsBuilt) (free : ∀ r, .relation r ∉ preorderAll t.others)
    (hs : ([t.sizeLeaf] ++ (t.between ++ ([t.leaf] ++ t.behind))).Pairwise fun c d => c.id ∉ d.ids)
    (hn : a.targetLength? t.leafId = none) (he : a.entry? t.leafId = none)
    (hq : a.Quiet (idsOf ([t.sizeLeaf] ++ (t.between ++ ([t.leaf] ++ t.behind))))) :
    Yields (ρ := ρ) none (generateAll limits ([.relation t.size] ++ (t.between ++ ([t.leaf] ++ t.behind))) a)
      (IfSome fun b => ∃ es, ProducesAll limits.maxRepeat ([t.sizeLeaf] ++ (t.between ++ ([t.leaf] ++ t.behind))) a b es ∧
        t.startsWithSizeOf (1 + t.between.length) es = true) := by
  have hsb : t.between.Pairwise fun c d => c.id ∉ d.ids :=
    (List.pairwise_append.mp (List.pairwise_append.mp hs).2.1).1
  have toLeaf : [t.sizeLeaf] ++ (t.between ++ ([t.leaf] ++ t.behind)) =
      ([t.sizeLeaf] ++ (t.between ++ [t.leaf])) ++ t.behind := by
    simp only [List.append_assoc]
  obtain ⟨-, hsr, apart⟩ := List.pairwise_append.mp (toLeaf ▸ hs)
  rw [ids_from_size] at hq
  have hp : a.isPending t.sizeId = false := hq.isPending List.mem_cons_self
  have between : ∀ v ∈ t.between, v ∈ t.others := fun v hv =>
    List.mem_append_left _ (List.mem_append_right _ hv)
  refine generateAll_append_yields (generateAll_single (size_waits hb hn he
    (hq.mono (List.subset_append_left _ _)))) fun w hw => ?_
  obtain ⟨cell, rfl⟩ := hw
  have quiet := awaiting_quiet hb hn he (hb.notMem_between List.mem_cons_self)
    (hb.notMem_between (List.mem_cons_of_mem _ List.mem_cons_self))
    (hq.mono (List.cons_subset_cons t.sizeId (List.subset_append_left _ _))) cell
  refine generateAll_append_yields (plainAll_yields (fun v hv => bare_of_mem hb free (between v hv)) hsb quiet)
    fun z hz => ?_
  obtain ⟨parts, hz⟩ := hz
  have reached : Grows ([t.sizeId] ++ idsOf t.between) a z :=
    ((awaiting_grows cell).mono (List.subset_append_left _ _)).trans
      (hz.realizes.grows.mono (List.subset_append_right _ _))
  have pending : z.pending = a.pending ++ [t.size] := hz.realizes.pending.trans (awaiting_pending hp cell)
  have waits (c : Assignment) (hc : Grows [t.leafId, t.sizeId] z c) (q : Relation) (hqp : q ∈ a.pending) :
      q.agrees? c = none := by
    refine hq.idle c ((reached.mono fun i hi => ?_).trans (hc.mono fun i hi => ?_)) q hqp
    · exact (List.mem_append.mp hi).elim (List.mem_append_left _) fun hi =>
        List.mem_append_right _ (List.mem_append_left _ hi)
    · rcases List.mem_cons.mp hi with rfl | hi
      · exact List.mem_append_right _ (List.mem_append_right _ List.mem_cons_self)
      · exact List.mem_append_left _ hi
  have distinct : z.Distinct := (quiet.grows hz.realizes.grows hz.realizes.pending).distinct
  refine generateAll_append_yields (generateAll_single (leaf_yields hb pending distinct waits)) fun w hw => ?_
  obtain ⟨bits, value, hw⟩ := hw
  have whole := hw.produces hb hp hz
  rw [← ids_from_size, toLeaf, idsOf_append] at hq
  have quiet := (hq.grows (whole.realizes.grows.mono (List.subset_append_left _ _))
    whole.realizes.pending).mono (List.subset_append_right _ _)
  refine (plainAll_yields (fun v hv => bare_of_mem hb free (List.mem_append_right _ hv)) hsr quiet).mono
    fun x hx e hy => ?_
  obtain ⟨es, hes⟩ := hx e hy
  refine ⟨[.leaf bits] ++ (parts ++ ([.leaf value] ++ es)), ?_, ?_⟩
  · have all := whole.append hes fun v hv hm => by
      obtain ⟨d, hd, hid⟩ := mem_idsOf.mp hm
      exact apart v hv d hd hid
    simp only [List.append_assoc] at all
    exact all
  · have length : parts.length = t.between.length := hz.realizes.bits.length_eq.symm
    rw [← length]
    refine (startsWithSizeOf_cons bits parts ([.leaf value] ++ es)).trans ?_
    exact beq_iff_eq.mpr hw.encoded

/-- In an instance the size is what is computed for it. -/
theorem children_yields (hb : t.IsBuilt) (free : ∀ r, .relation r ∉ preorderAll t.others) {last? : Option Nat}
    (hs : (t.childrenWith t.sizeLeaf).Pairwise fun c d => c.id ∉ d.ids) (known : t.Knows last? a)
    (hq : a.Quiet (idsOf (t.childrenWith t.sizeLeaf))) :
    Yields (ρ := ρ) none (generateAll limits (t.childrenWith (.relation t.size)) a) (IfSome fun b =>
      ∃ parts, ProducesAll limits.maxRepeat (t.childrenWith t.sizeLeaf) a b parts ∧
        t.agrees last? (.sequence parts) = true) := by
  have before : ∀ v ∈ t.before, Bare v := fun v hv =>
    bare_of_mem hb free (List.mem_append_left _ (List.mem_append_left _ hv))
  have between : ∀ v ∈ t.between, Bare v := fun v hv =>
    bare_of_mem hb free (List.mem_append_left _ (List.mem_append_right _ hv))
  have behind : ∀ v ∈ t.behind, Bare v := fun v hv => bare_of_mem hb free (List.mem_append_right _ hv)
  cases hf : t.leafFirst with
  | true =>
    rw [childrenWith_of_leafFirst hf] at hs hq ⊢
    rw [childrenWith_of_leafFirst hf]
    have front : ∀ v ∈ t.before ++ t.leaf :: t.between, Bare v := fun v hv => by
      rcases List.mem_append.mp hv with hv | hv
      · exact before v hv
      · rcases List.mem_cons.mp hv with rfl | hv
        · exact bare_leaf
        · exact between v hv
    refine (computed_yields hb front behind hs hq
      (fun ds => ((Derivation.sequence ds).leafAt? t.before.length).map BitString.length) fun b ds hds => ?_).mono
      fun x hx b hb' => ?_
    · obtain ⟨value, hvalue⟩ := leaf_of_fitsAll hds.fits
      refine ⟨value.length, ?_, (spells_leaf hds.realizes hvalue).targetLength?⟩
      rw [leafAt?_eq_some_iff.mpr hvalue]
      rfl
    · obtain ⟨ds, es, hp, hds, hk⟩ := hx b hb'
      exact ⟨ds ++ es, hp, (agrees_of_leafFirst hf last? hds es).trans hk⟩
  | false =>
    rw [childrenWith_of_sizeFirst hf] at hs hq ⊢
    rw [childrenWith_of_sizeFirst hf]
    cases hl : last? with
    | some n =>
      subst hl
      have rest : ∀ v ∈ t.between ++ ([t.leaf] ++ t.behind), Bare v := fun v hv => by
        rcases List.mem_append.mp hv with hv | hv
        · exact between v hv
        · rcases List.mem_cons.mp hv with rfl | hv
          · exact bare_leaf
          · exact behind v hv
      refine (computed_yields hb before rest hs hq (fun _ => some n) fun b ds hds => ⟨n, rfl, ?_⟩).mono
        fun x hx b hb' => ?_
      · exact (known.grows hds.realizes.grows hb.leaf_notMem_before hds.realizes.pending).length
      · obtain ⟨ds, es, hp, hds, hk⟩ := hx b hb'
        exact ⟨ds ++ es, hp, (agrees_of_known hf hds es n).trans hk⟩
    | none =>
      subst hl
      obtain ⟨hsb, hs', apartBefore⟩ := List.pairwise_append.mp hs
      rw [idsOf_append] at hq
      refine generateAll_append_yields (plainAll_yields before hsb (hq.mono (List.subset_append_left _ _)))
        fun b hds => ?_
      obtain ⟨ds, hds⟩ := hds
      have next := known.grows hds.realizes.grows hb.leaf_notMem_before hds.realizes.pending
      have quiet := (hq.grows (hds.realizes.grows.mono (List.subset_append_left _ _)) hds.realizes.pending).mono
        (List.subset_append_right _ _)
      refine (waiting_yields hb free hs' next.length next.unread quiet).mono fun x hx e he => ?_
      obtain ⟨es, hes, hk⟩ := hx e he
      refine ⟨ds ++ es, hds.append hes fun v hv hm => ?_, ?_⟩
      · obtain ⟨d, hd, hid⟩ := mem_idsOf.mp hm
        exact apartBefore v hv d hd hid
      · exact (agrees_of_unknown hf hds.realizes.bits.length_eq.symm es).trans hk

/-- An instance leaves behind the length of its leaf. -/
theorem sequence_yields (hb : t.IsBuilt) (free : ∀ r, .relation r ∉ preorderAll t.others) {last? : Option Nat}
    (known : t.Knows last? a) (hq : a.Quiet (t.sequenceWith t.sizeLeaf).ids) :
    Yields (ρ := ρ) none (generate limits (t.sequenceWith (.relation t.size)) a) (IfSome fun b =>
      ∃ d, Produces limits.maxRepeat (t.sequenceWith t.sizeLeaf) a b d ∧ t.agrees last? d = true ∧
        t.Knows (t.length? d) b) := by
  have hw := hb.isPlain free
  have inside : t.sequenceWith t.sizeLeaf ∈ t.plain.preorder := List.mem_cons_of_mem _ (self_mem_preorder _)
  have below : idsOf (t.childrenWith t.sizeLeaf) ⊆ (t.sequenceWith t.sizeLeaf).ids := by
    rw [sequenceWith, ids_sequence]
    exact List.subset_cons_self _ _
  rw [sequenceWith, generate]
  refine (children_yields hb free (hw.separate inside) known (hq.mono below)).bind fun x hx => ?_
  cases x with
  | none => exact Yields.pure .none
  | some b =>
    obtain ⟨parts, hp, hk⟩ := hx b rfl
    have grown := hp.realizes.grows.mono below
    have quiet := hq.grows grown hp.realizes.pending
    refine (compose_yields quiet.distinct t.sequenceId (t.childrenWith (.relation t.size))).bind
      fun c hc => Yields.pure (.some ?_)
    have same : (t.childrenWith (.relation t.size)).map Variable.id = (t.childrenWith t.sizeLeaf).map Variable.id := by
      unfold childrenWith
      split <;> simp only [List.map_append, List.map_cons] <;> rfl
    obtain ⟨contents, hm, hatoms⟩ := hp.realizes.composed same
    rw [filterMap_of_mapM hm] at hc
    have fits : Fits (MadeLeaf none b) (CountsTo none limits.maxRepeat) (t.sequenceWith t.sizeLeaf) (.sequence parts) :=
      ⟨parts, rfl, hp.fits⟩
    obtain ⟨bits, hbits⟩ := fits.exists_ofBits fun r hr => hw.relationFree r (List.mem_cons_of_mem _ hr)
    have recorded : c = b.record t.sequenceId _ :=
      quiet.eq_of_settled ((Grows.refl _ b).record (id_mem_ids (t.sequenceWith t.sizeLeaf)) _) rfl hc
    obtain ⟨-, realizes⟩ := record_realizes (v := t.sequenceWith t.sizeLeaf) (p := ⟨.sequence parts, b.learned, []⟩)
      grown hp.realizes.pending rfl hq.idle (hatoms.trans hbits) hbits
    have step := (Grows.refl [t.sequenceId] b).record List.mem_cons_self
      (contents.foldl (fun content c => content.append (b.freeze c)) .empty)
    obtain ⟨xs, ys, hxs, split⟩ := exists_split (t := t) t.sizeLeaf
    obtain ⟨value, hvalue⟩ := leaf_of_fitsAll (split ▸ hp.fits)
    have spells := (spells_leaf (split ▸ hp.realizes) hvalue).grows step
      (fun hm => hb.sequence_ne.1 (List.mem_singleton.mp hm)) (List.Subset.refl _)
    have length : t.length? (.sequence parts) = some value.length := by
      rw [length?, ← hxs, leafAt?_eq_some_iff.mpr hvalue]
      rfl
    rw [recorded]
    refine ⟨.sequence parts, ⟨realizes, fits.grows step⟩, hk,
      ⟨spells.targetLength?.trans length.symm, .inr ⟨value, spells⟩, ?_⟩⟩
    exact (congrArg (·.any (·.id == t.sizeId)) realizes.pending).trans known.settled

/-- Instances one after the other, each with the size that is computed for it. -/
theorem instances_yields (hb : t.IsBuilt) (free : ∀ r, .relation r ∉ preorderAll t.others) {last? : Option Nat}
    (known : t.Knows last? a) (hq : a.Quiet (t.sequenceWith t.sizeLeaf).ids) (delimiter : Option BitString) (k : Nat)
    (isFirst : Bool) (before : Content) :
    Yields (ρ := ρ) none (instances (generate limits (t.sequenceWith (.relation t.size)))
      (t.sequenceWith (.relation t.size)) delimiter k isFirst a before) (IfSome fun x => ∃ parts, parts.length = k ∧
        RealizesTimes (t.sequenceWith t.sizeLeaf) delimiter isFirst a before x ⟨parts, x.1.learned, []⟩ ∧
        (∀ part ∈ parts, Fits (MadeLeaf none x.1) (CountsTo none limits.maxRepeat) (t.sequenceWith t.sizeLeaf) part) ∧
        t.follows last? parts = true) := by
  induction k generalizing a last? isFirst before with
  | zero =>
    rw [instances]
    refine Yields.pure (.some ⟨[], rfl, ⟨.refl _ a, rfl, rfl, ?_⟩, by simp, rfl⟩)
    rw [Derivation.atomsAll, Derivation.joined, List.append_nil]
  | succ k ih =>
    rw [instances]
    refine (sequence_yields hb free known hq).bind fun x hx => ?_
    cases x with
    | none => exact Yields.pure .none
    | some b =>
      obtain ⟨d, hd, hk, next⟩ := hx b rfl
      obtain ⟨bits, hbits, hspells⟩ := hd.realizes.bits
      obtain ⟨content, hc, hatoms⟩ := hspells.content?
      have hc : b.content? (t.sequenceWith (.relation t.size)).id = some content := hc
      dsimp only
      rw [hc]
      refine (ih next (hq.grows hd.realizes.grows hd.realizes.pending) false _).mono fun y hy x hx => ?_
      obtain ⟨parts, hlength, rest, hfits, hfollows⟩ := hy x hx
      refine ⟨d :: parts, by rw [List.length_cons, hlength], ?_, ?_, ?_⟩
      · refine ⟨hd.realizes.grows.trans rest.grows, rest.pending.trans hd.realizes.pending, rfl, ?_⟩
        rw [rest.content, Content.atoms_append, atoms_delimited, atoms_freeze, hatoms, ← hbits]
        simp only [Derivation.atomsAll, Derivation.joined, List.append_assoc]
      · exact List.forall_mem_cons.mpr ⟨hd.fits.grows rest.grows, hfits⟩
      · rw [follows, hk, hfollows, Bool.and_self]

end Instance

/-! ## The repetition -/

/-- What is recorded for the repetition: instances with the sizes that are computed for them. -/
structure RecordsSized (t : SizedRepetition) (maxRepeat : Nat) (last? : Option Nat) (b : Assignment)
    (parts : List Derivation) : Prop where
  content : ∃ content, b.content? t.id = some content ∧ content.atoms = (Derivation.repetition t.delimiter parts).atoms
  fits : Fits (MadeLeaf none b) (CountsTo none maxRepeat) t.plain (.repetition t.delimiter parts)
  follows : t.follows last? parts = true

/--
Without mutators the repetition is generated with the sizes that are computed, where relations that wait can be
computed behind it at the earliest.
-/
theorem generate_sized (hb : t.IsBuilt) (free : ∀ r, .relation r ∉ preorderAll t.others) {last? : Option Nat}
    (known : t.Knows last? a) (hq : a.Quiet (t.sequenceWith t.sizeLeaf).ids) (apart : ∀ r ∈ a.pending, r.id ≠ t.id) :
    Yields (ρ := ρ) none (generate limits t.repetition a)
      (IfSome fun b => ∃ parts, t.RecordsSized limits.maxRepeat last? b parts) := by
  rw [repetition, repetitionWith, generate]
  have counted := (hb.counted (self_mem_preorder t.repetition)).1
  refine (pickCount_yields t.id t.count counted).bind fun k hk => ?_
  refine (instances_yields hb free known hq t.delimiter k true .empty).bind fun x hx => ?_
  cases x with
  | none => exact Yields.pure .none
  | some x =>
    obtain ⟨c, content⟩ := x
    obtain ⟨parts, hlength, times, hfits, hfollows⟩ := hx _ rfl
    have distinct : (c.record t.id content).Distinct := (hq.grows times.grows times.pending).distinct
    refine (settled_yields _ distinct).bind fun b hs => Yields.pure (.some ⟨parts, ⟨content, ?_, ?_⟩, ?_, hfollows⟩)
    · rw [hs.1.grows.content?_eq fun hm => ?_]
      · exact content?_of_record (entry?_record_self _ _)
      · obtain ⟨r, hr, hid⟩ := List.mem_map.mp hm
        exact apart r (times.pending ▸ hr) hid
    · rw [times.content, Content.atoms_empty, List.nil_append, Derivation.atoms]
    · refine ⟨parts, rfl, hlength ▸ hk, fun part hpart => ?_⟩
      exact ((hfits part hpart).grows ((Grows.refl [t.id] c).record List.mem_cons_self content)).grows hs.1.grows

/--
In a repetition of a leaf with its size, all sizes are what is computed for them: in whatever is generated without
mutators, and in what is read, which are all derivations of this kind, in order. What is computed is the size of the
leaf in the same instance where the leaf stands first. A size that stands first is computed from the length that is
known before its instance, so instances with the sizes of their own leaves are neither made nor read unless all these
sizes are the same.
-/
theorem sized_instances (hb : t.IsBuilt) (free : ∀ r, .relation r ∉ preorderAll t.others) {last? : Option Nat}
    (known : t.Knows last? a) :
    (a.Quiet (t.sequenceWith t.sizeLeaf).ids → (∀ r ∈ a.pending, r.id ≠ t.id) →
      ∀ {ρ : Type} [RandomSource ρ] (limits : GenerationLimits) (supply next : Supply ρ) (b : Assignment),
        supply.mutators? = none → (generate limits t.repetition a).run.run supply = (.ok (some b), next) →
        ∃ parts, t.RecordsSized limits.maxRepeat last? b parts) ∧
    (a.Idle t.plain.ids → t.plain.Remembers a.known? → ∀ data offset, offset ≤ data.length →
      List.Forall₂ (Records t.plain data offset)
        ((Reading.of data RepeatCount.limit).interpret t.repetition a offset).toList
        ((derivations a.committed t.plain a.learned (data.toList.drop offset)).filter
          (t.follows last? ·.result.parts))) ∧
    (t.leafFirst = true → ∀ parts, t.follows last? parts = parts.all t.owns) ∧
    (t.leafFirst = false → ∀ parts, (∀ d ∈ parts, t.owns d = true) → (t.follows last? parts = true ↔
      (∀ n ∈ last?, ∀ d ∈ parts, t.encoded? n = t.bits? d) ∧ ∀ d ∈ parts, ∀ e ∈ parts, t.bits? d = t.bits? e)) := by
  refine ⟨fun hq apart ρ _ limits supply next b hm hg => ?_, fun hi hk data offset ho => ?_,
    fun hf parts => follows_of_leafFirst hf last? parts, fun hf parts own => follows_iff_of_sizeFirst hf last? own⟩
  · have unbound : supply.bindings = none := by
      rw [Supply.bindings, hm]
      rfl
    exact (generate_sized hb free known hq apart supply unbound _ next hg).2 b rfl
  · have all := interpret_sized (.of data RepeatCount.limit) hb free (Nat.le_refl _) known hi hk ho
    refine (forall₂_and_mem all).imp fun b p h => ?_
    obtain ⟨hr, hp⟩ := h
    exact hr.records (derivations_sound (hb.isPlain free) t.plain (List.Subset.refl _) hk (List.mem_filter.mp hp).1).front
      ho

/-- Three times up to six bytes behind their number. -/
def counted : SizedRepetition where
  id := .ofRoot 3
  name := "counted"
  count := ⟨3, 4⟩
  delimiter := none
  sequenceId := .ofRoot 2
  sequenceName := "instance"
  leafId := .ofRoot 0
  leafName := "bytes"
  leafType := .raw (.within ⟨0, some 6, by decide⟩)
  leafScope := .ephemeral
  sizeId := .ofRoot 1
  sizeName := "size"
  scale := ⟨.ofRatio false 1 8, 0⟩
  format := ⟨.one, .big, false⟩
  leafFirst := false
  before := []
  between := []
  behind := []

theorem counted_isBuilt : counted.IsBuilt where
  nodup := by decide
  counted := by
    intro id name child count delimiter h
    rcases mem_preorder.mp h with h | h | h | h | h
    · cases h
      decide
    · cases h
    · cases h
    · cases List.mem_singleton.mp h
    · cases h

theorem counted_knows : counted.Knows none .empty :=
  ⟨rfl, .inl rfl, rfl⟩

/--
The sizes generated are 3, 3 and 4 for leaves of 3, 4 and no bytes, and three instances with the right sizes 1, 2 and 3
are not read, though they are a derivation.
-/
theorem sized_instances_counted :
    (∃ b next parts, (generate ⟨512, 5⟩ counted.repetition .empty).run.run (⟨.ofSeed 1, none⟩ : Supply Pcg64) =
        (.ok (some b), next) ∧ b.bits? counted.id = some (.ofBytes [3, 160, 181, 13, 3, 240, 32, 124, 236, 4]) ∧
      counted.RecordsSized 5 none b parts) ∧
    ((Reading.of (.ofBytes [1, 0xaa, 2, 0xbb, 0xbb, 3, 0xcc, 0xcc, 0xcc]) RepeatCount.limit).interpret
      counted.repetition .empty 0).toList = [] ∧
    ∃ p ∈ derivations .empty counted.plain [] (BitString.ofBytes [1, 0xaa, 2, 0xbb, 0xbb, 3, 0xcc, 0xcc, 0xcc]).toList,
      p.rest = [] ∧ p.result.parts.all counted.owns = true := by
  obtain ⟨generated, read, -⟩ := sized_instances counted_isBuilt (fun _ => List.not_mem_nil) counted_knows
  refine ⟨?_, ?_, ?_⟩
  · have run : ((generate ⟨512, 5⟩ counted.repetition .empty).run.run
        (⟨.ofSeed 1, none⟩ : Supply Pcg64)).1.toOption.join.map (·.bits? counted.id) =
          some (some (.ofBytes [3, 160, 181, 13, 3, 240, 32, 124, 236, 4])) := by
      decide +kernel
    obtain ⟨b, hb, hbits⟩ := Option.map_eq_some_iff.mp run
    generalize hg : (generate ⟨512, 5⟩ counted.repetition .empty).run.run (⟨.ofSeed 1, none⟩ : Supply Pcg64) = g at hb
    obtain ⟨result, next⟩ := g
    cases result with
    | error e => cases hb
    | ok x =>
      obtain rfl : x = some b := hb
      obtain ⟨parts, records⟩ := generated
        ⟨idle_of_pending_nil rfl _, List.nodup_nil, fun _ hr => absurd hr List.not_mem_nil⟩
        (fun _ hr => absurd hr List.not_mem_nil) _ _ next b rfl hg
      exact ⟨b, next, parts, rfl, hbits, records⟩
  · have all := read (idle_of_pending_nil rfl _) (remembers_empty _)
      (.ofBytes [1, 0xaa, 2, 0xbb, 0xbb, 3, 0xcc, 0xcc, 0xcc]) 0 (Nat.zero_le _)
    have none : (derivations .empty counted.plain [] ((BitString.ofBytes
        [1, 0xaa, 2, 0xbb, 0xbb, 3, 0xcc, 0xcc, 0xcc]).toList.drop 0)).filter
          (counted.follows none ·.result.parts) = [] := by
      decide +kernel
    exact List.forall₂_nil_right_iff.mp (none ▸ all)
  · have found : (derivations .empty counted.plain [] (BitString.ofBytes
        [1, 0xaa, 2, 0xbb, 0xbb, 3, 0xcc, 0xcc, 0xcc]).toList).any
          (fun p => p.rest.isEmpty && p.result.parts.all counted.owns) = true := by
      decide +kernel
    obtain ⟨p, hp, h⟩ := List.any_eq_true.mp found
    obtain ⟨hr, ho⟩ := Bool.and_eq_true_iff.mp h
    exact ⟨p, hp, List.isEmpty_iff.mp hr, ho⟩

end WireGrammar.SizedRepetition
