import WireGrammar.Proofs.Interpretation.Enumeration
import WireGrammar.Proofs.Repetition.SizedInstances

/-!
# Reading instances with a size

The interpretations of a repetition of a leaf with its size are the derivations, with a leaf in the place of the size,
in which each size is what is computed for it (`interpret_sized`). A size that stands behind the leaf, or before it
when an earlier value of the leaf is known, is computed and compared at once (`computed_forall₂`). Only a size that stands
first in the first instance waits, until the leaf behind it is read (`waiting_forall₂`).
-/

namespace WireGrammar.SizedRepetition

open Assignment Variable Reading

variable {t : SizedRepetition} {reading : Reading} {a b : Assignment} {offset : Nat}

/-- Between two instances: the length that is known for the leaf, and that its size does not wait. -/
structure Knows (t : SizedRepetition) (last? : Option Nat) (a : Assignment) : Prop where
  length : a.targetLength? t.leafId = last?
  recorded : a.entry? t.leafId = none ∨ ∃ bits, a.Spells t.leafId bits
  settled : a.isPending t.sizeId = false

theorem Knows.grows {last? : Option Nat} (h : t.Knows last? a) {ids : List VarId} (hg : Grows ids a b)
    (hid : t.leafId ∉ ids) (hp : b.pending = a.pending) : t.Knows last? b := by
  have settled : b.isPending t.sizeId = false := by rw [isPending, hp, ← isPending, h.settled]
  rcases h.recorded with he | ⟨bits, hs⟩
  · exact ⟨(hg.targetLength?_eq hid he).trans h.length, .inl ((hg.entry?_eq hid).trans he), settled⟩
  · have hs' := hs.grows hg hid (hp ▸ List.Subset.refl _)
    exact ⟨(hs'.targetLength?.trans hs.targetLength?.symm).trans h.length, .inr ⟨bits, hs'⟩, settled⟩

/-- A leaf of which no length is known has no record. -/
theorem Knows.unread (h : t.Knows none a) : a.entry? t.leafId = none := by
  refine h.recorded.resolve_right fun ⟨bits, hs⟩ => ?_
  have length := hs.targetLength?
  rw [h.length] at length
  cases length

/-- Whether derivations start with a leaf that holds the size of a leaf of this length. -/
def starts (t : SizedRepetition) (length? : Option Nat) (parts : List Derivation) : Bool :=
  ((Derivation.sequence parts).leafAt? 0).any fun bits => length?.bind t.encoded? == some bits

theorem starts_leaf (length? : Option Nat) (bits : BitString) (parts : List Derivation) :
    t.starts length? (.leaf bits :: parts) = (length?.bind t.encoded? == some bits) := rfl

theorem mem_sizeLeaf {committed : Store} {learned : Values} {rest : List Bool} {p : Parse Derivation} :
    p ∈ derivations committed t.sizeLeaf learned rest ↔
      ∃ bits, p.result = .leaf bits ∧ p.learned = learned ∧ rest = bits.toList ++ p.rest ∧
        (DataType.integer (.full t.format)).accepts bits = true := by
  rw [sizeLeaf, derivations, mem_leafDerivations_fresh]

theorem front_sizeLeaf {committed : Store} {learned : Values} {rest : List Bool} {p : Parse Derivation}
    (h : p ∈ derivations committed t.sizeLeaf learned rest) : Front p.result.atoms rest p.rest 0 := by
  obtain ⟨bits, hr, -, hrest, -⟩ := mem_sizeLeaf.mp h
  exact ⟨bits, by rw [hr, Derivation.atoms], hrest, Nat.zero_le _⟩

/-- A size that is known is recorded as the leaf in its place would be. -/
theorem realizes_size {expected : BitString} {left : List Bool} (hp : a.isPending t.sizeId = false) :
    Realizes t.sizeLeaf a (a.setCell t.sizeId (.known expected)) ⟨.leaf expected, a.learned, left⟩ := by
  refine ⟨?_, rfl, rfl, expected, by rw [Derivation.atoms], .value ?_ hp⟩
  · rw [ids_sizeLeaf]
    exact (Grows.refl _ a).setCell List.mem_cons_self _
  · exact (cell?_setCell t.sizeId _ t.sizeId).trans (if_pos rfl)

/-- A size that is computed at once stands in the data as it is computed. -/
theorem ready_forall₂ (hb : t.IsBuilt) {n : Nat} (hn : a.targetLength? t.leafId = some n) (hi : a.Idle [t.sizeId])
    (hp : a.isPending t.sizeId = false) (ho : offset ≤ reading.data.length) :
    List.Forall₂ (ReadsAll reading [t.sizeLeaf] a) (reading.interpretAll [.relation t.size] a offset).toList
      ((derivationsAll a.committed [t.sizeLeaf] a.learned (reading.data.toList.drop offset)).filter
        (t.starts (some n) ·.result)) := by
  refine single_forall₂ (k := fun d => t.starts (some n) [d]) (R := Realizes t.sizeLeaf a) ?_
    (fun b p hm hr => hr.reads (front_sizeLeaf hm) ho) fun _ => rfl
  have kept {p : Parse Derivation}
      (h : p ∈ derivations a.committed t.sizeLeaf a.learned (reading.data.toList.drop offset)) :
      t.starts (some n) [p.result] = true ↔ ∃ bits, t.encoded? n = some bits ∧ p.result = .leaf bits := by
    obtain ⟨bits, hr, -⟩ := mem_sizeLeaf.mp h
    rw [hr, starts_leaf, beq_iff_eq, Option.bind_some]
    constructor
    · intro he
      exact ⟨bits, he, rfl⟩
    · rintro ⟨other, he, ho⟩
      rw [he, Derivation.leaf.inj ho]
  rw [interpret]
  cases he : t.encoded? n with
  | none =>
    obtain ⟨e, hev⟩ : ∃ e, t.size.evaluate a = .error e := by
      rw [evaluate_of_some hb hn, Relation.writeInt]
      split
      next bits hw =>
        rw [encoded?_eq_some_iff.mpr hw] at he
        cases he
      next e _ => exact ⟨_, rfl⟩
    rw [toList_interpretRelation_error hev, List.filter_eq_nil_iff.mpr fun p hm hk => ?_]
    · exact .nil
    · obtain ⟨bits, hbits, -⟩ := (kept hm).mp hk
      rw [he] at hbits
      cases hbits
  | some expected =>
    rw [toList_interpretRelation_ready ((evaluate_eq_ready_iff hb).mpr ⟨n, hn, he⟩)]
    have kept {p : Parse Derivation}
        (h : p ∈ derivations a.committed t.sizeLeaf a.learned (reading.data.toList.drop offset)) :
        t.starts (some n) [p.result] = true ↔ p.result = .leaf expected := by
      rw [kept h, he]
      simp
    cases hm : behind? expected (reading.data.toList.drop offset) with
    | none =>
      rw [if_neg, List.filter_eq_nil_iff.mpr fun p hp hk => ?_]
      · exact .nil
      · obtain ⟨bits, hr, -, hrest, -⟩ := mem_sizeLeaf.mp hp
        obtain rfl := Derivation.leaf.inj (hr.symm.trans ((kept hp).mp hk))
        rw [behind?_eq_some_iff.mpr hrest] at hm
        cases hm
      · rw [matchesAt_iff_behind? ho, hm]
        exact Bool.false_ne_true
    | some left =>
      have found : (⟨.leaf expected, a.learned, left⟩ : Parse Derivation) ∈
          derivations a.committed t.sizeLeaf a.learned (reading.data.toList.drop offset) :=
        mem_sizeLeaf.mpr ⟨expected, rfl, rfl, behind?_eq_some_iff.mp hm, accepts_of_encoded? he⟩
      rw [if_pos ((matchesAt_iff_behind? ho).mpr (by rw [hm]; rfl)),
        (derivations_distinct t.sizeLeaf a.learned _).filter_eq found fun q hq => kept hq]
      have hr : Realizes t.sizeLeaf a (a.setCell t.sizeId (.known expected)) ⟨.leaf expected, a.learned, left⟩ :=
        realizes_size hp
      rw [show t.size.id = t.sizeId from rfl, hi.verified? (ids_sizeLeaf (t := t) ▸ hr.grows) hr.pending]
      exact .cons hr .nil

/-! ## A size that waits -/

/-- The assignment in which a size waits with a cell. -/
def awaiting (t : SizedRepetition) (a : Assignment) (cell : Cell) : Assignment :=
  (a.setCell t.sizeId cell).awaitRelation t.size

/-- A size that was read before anything is known of the leaf. -/
structure Waits (t : SizedRepetition) (reading : Reading) (a : Assignment) (bits : BitString) (x : Assignment × Nat)
    (p : Parse (List Derivation)) : Prop where
  result : p.result = [.leaf bits]
  state : x.1 = t.awaiting a (.known bits)
  learned : p.learned = a.learned
  within : x.2 ≤ reading.data.length
  rest : reading.data.toList.drop x.2 = p.rest

theorem awaiting_grows (cell : Cell) : Grows [t.sizeId] a (t.awaiting a cell) :=
  ((Grows.refl _ a).setCell List.mem_cons_self _).awaitRelation _

theorem awaiting_pending (hp : a.isPending t.sizeId = false) (cell : Cell) :
    (t.awaiting a cell).pending = a.pending ++ [t.size] := by
  have hp : (a.setCell t.sizeId cell).isPending t.size.id = false := hp
  rw [awaiting, awaitRelation, hp]
  rfl

theorem awaiting_learned (cell : Cell) : (t.awaiting a cell).learned = a.learned := by
  unfold awaiting awaitRelation
  split <;> rfl

theorem awaiting_cell? (cell : Cell) : (t.awaiting a cell).cell? t.sizeId = some cell := by
  rw [awaiting, cell?_awaitRelation, cell?_setCell, if_pos rfl]

/-- A size waits on as long as nothing is recorded for the leaf. -/
theorem awaiting_idle (hb : t.IsBuilt) (hn : a.targetLength? t.leafId = none) (he : a.entry? t.leafId = none)
    (hp : a.isPending t.sizeId = false) {ids : List VarId} (hid : t.leafId ∉ ids) (hi : a.Idle (t.sizeId :: ids))
    (cell : Cell) : (t.awaiting a cell).Idle ids := by
  intro c hc r hr
  have hg : Grows (t.sizeId :: ids) a c :=
    ((awaiting_grows cell).mono (List.cons_subset_cons _ (List.nil_subset _))).trans
      (hc.mono (List.subset_cons_self _ _))
  rw [awaiting_pending hp] at hr
  rcases List.mem_append.mp hr with hr | hr
  · exact hi c hg r hr
  · rw [List.mem_singleton.mp hr]
    refine agrees?_of_none hb ((hg.targetLength?_eq ?_ he).trans hn)
    exact List.not_mem_cons_of_ne_of_not_mem hb.leaf_ne_size hid

theorem waits_forall₂ (hb : t.IsBuilt) (hn : a.targetLength? t.leafId = none) (he : a.entry? t.leafId = none)
    (hi : a.Idle [t.sizeId]) (hp : a.isPending t.sizeId = false) (ho : offset ≤ reading.data.length) :
    List.Forall₂ (fun x p => ∃ bits, t.Waits reading a bits x p)
      (reading.interpretAll [.relation t.size] a offset).toList
      ((derivationsAll a.committed [t.sizeLeaf] a.learned (reading.data.toList.drop offset)).filter
        fun _ => true) := by
  refine single_forall₂ (k := fun _ => true) (r := fun _ => true)
    (R := fun b p => ∃ bits, p.result = .leaf bits ∧ p.learned = a.learned ∧ b = t.awaiting a (.known bits)) ?_
    (fun b p hm hr => ?_) fun _ => rfl
  · rw [interpret, toList_interpretRelation_waiting (evaluate_of_none hb hn), sizeLeaf, derivations]
    refine @fresh_forall₂ reading offset (.integer (.full t.format)) _ (fun bits => (t.awaiting a (.known bits)).verified?)
      (fun _ => a.learned) (fun _ => true) fun bits left _ _ => ?_
    rw [(awaiting_idle hb hn he hp List.not_mem_nil hi _).verified? (.refl _ _) rfl]
    exact .some ⟨bits, rfl, rfl, rfl⟩
  · obtain ⟨bits, hr, hl, rfl⟩ := hr
    have spelled : ∃ bits', p.result.atoms = Atom.ofBits bits' ∧
        (a.setCell t.sizeId (.known bits)).Spells (Variable.relation t.size).id bits' := by
      refine ⟨bits, by rw [hr, Derivation.atoms], .value ?_ hp⟩
      exact (cell?_setCell t.sizeId _ t.sizeId).trans (if_pos rfl)
    have same : (t.awaiting a (.known bits)).consumed (.relation t.size) =
        (a.setCell t.sizeId (.known bits)).consumed (.relation t.size) := by
      unfold awaiting awaitRelation
      split <;> rfl
    obtain ⟨hrest, hle, -⟩ := next_of_spells reading spelled (front_sizeLeaf hm) ho
    refine ⟨bits, by rw [← hr]; rfl, rfl, hl, ?_, ?_⟩
    · rw [same]
      exact hle
    · rw [same]
      exact hrest

/-- A leaf was read behind a size that waited, and the size was that of the leaf. -/
structure Compared (t : SizedRepetition) (pending : List Relation) (z w : Assignment) (p : Parse Derivation) : Prop where
  grows : Grows [t.leafId] z w
  pending : w.pending = pending
  learned : w.learned = p.learned
  bits : ∃ bits, p.result = .leaf bits ∧ w.Spells t.leafId bits

/-- Whether derivations start with that of a leaf whose size has these bits. -/
def measures (t : SizedRepetition) (bits : BitString) (parts : List Derivation) : Bool :=
  ((Derivation.sequence parts).leafAt? 0).any fun value => t.encoded? value.length == some bits

/-- When the leaf is read, a size that waits is compared with it, and the others go on to wait. -/
theorem compared_forall₂ (hb : t.IsBuilt) {z : Assignment} {pending : List Relation} {bits : BitString}
    (hp : z.pending = pending ++ [t.size]) (hw : ∀ c, Grows [t.leafId] z c → ∀ q ∈ pending, q.agrees? c = none)
    (hid : ∀ q ∈ pending, q.id ≠ t.sizeId) (hc : z.cell? t.sizeId = some (.known bits))
    (ho : offset ≤ reading.data.length) :
    List.Forall₂ (t.Compared pending z) (reading.interpret t.leaf z offset).toList
      ((derivations z.committed t.leaf z.learned (reading.data.toList.drop offset)).filter
        (t.measures bits [·.result])) := by
  rw [leaf, interpret, derivations]
  refine interpretData_kept (k := fun d => t.measures bits [d]) ho fun {b value p} hg hbp hl hv => ?_
  have recorded := hg.record List.mem_cons_self (Content.ofBits value)
  have length : (b.record t.leafId (.ofBits value)).targetLength? t.leafId = some value.length :=
    (Spells.content (entry?_record_self _ _) (Content.atoms_ofBits value)).targetLength?
  have cell : (b.record t.leafId (.ofBits value)).cell? t.sizeId = some (.known bits) := by
    rw [recorded.cell?_eq fun hm => hb.leaf_ne_size (List.mem_singleton.mp hm).symm, hc]
  have waits : (b.record t.leafId (.ofBits value)).pending = pending ++ [t.size] := hbp.trans hp
  have kept : t.measures bits [p.result] = true ↔ t.encoded? value.length = some bits := by
    rw [hv]
    exact beq_iff_eq
  rw [verified?_of_last waits (fun q hq => hw _ recorded q hq) hid (agrees?_of_some hb length cell),
    Option.guard_eq_ite]
  by_cases he : t.encoded? value.length = some bits
  · rw [decide_eq_true he, if_pos rfl, if_pos (kept.mpr he)]
    exact .some ⟨recorded.of_pending _, rfl, hl, value, hv, .content (entry?_record_self _ _) (Content.atoms_ofBits value)⟩
  · rw [decide_eq_false he, if_neg Bool.false_ne_true, if_neg (he ∘ kept.mp)]
    exact .none

theorem leafAt?_append (ds es : List Derivation) (i : Nat) :
    (Derivation.sequence (ds ++ es)).leafAt? (ds.length + i) = (Derivation.sequence es).leafAt? i := by
  unfold Derivation.leafAt? Derivation.parts
  rw [List.getElem?_append_right (Nat.le_add_right _ _), Nat.add_sub_cancel_left]

theorem leafAt?_append_left {ds : List Derivation} (es : List Derivation) {i : Nat} (h : i < ds.length) :
    (Derivation.sequence (ds ++ es)).leafAt? i = (Derivation.sequence ds).leafAt? i := by
  unfold Derivation.leafAt? Derivation.parts
  rw [List.getElem?_append_left h]

/-- Whether derivations start with the size of the leaf at an index. -/
def startsWithSizeOf (t : SizedRepetition) (index : Nat) (parts : List Derivation) : Bool :=
  t.starts (((Derivation.sequence parts).leafAt? index).map BitString.length) parts

theorem startsWithSizeOf_cons (bits : BitString) (bs es : List Derivation) :
    t.startsWithSizeOf (1 + bs.length) (.leaf bits :: (bs ++ es)) = t.measures bits es := by
  have at_leaf : (Derivation.sequence (.leaf bits :: (bs ++ es))).leafAt? (1 + bs.length) =
      (Derivation.sequence es).leafAt? 0 := by
    rw [← leafAt?_append ([.leaf bits] ++ bs) es 0]
    simp [Nat.add_comm]
  rw [startsWithSizeOf, starts_leaf, at_leaf, measures]
  cases (Derivation.sequence es).leafAt? 0 <;> rfl

/-- Where the leaf stands first, the size behind it is compared with its length. -/
theorem agrees_of_leafFirst (hf : t.leafFirst = true) (last? : Option Nat) {ds : List Derivation}
    (hds : ds.length = (t.before ++ t.leaf :: t.between).length) (es : List Derivation) :
    t.agrees last? (.sequence (ds ++ es)) =
      t.starts (((Derivation.sequence ds).leafAt? t.before.length).map BitString.length) es := by
  have inside : t.before.length < ds.length := by
    rw [hds, List.length_append, List.length_cons]
    omega
  have index : t.before.length + 1 + t.between.length = ds.length + 0 := by
    rw [hds, List.length_append, List.length_cons]
    omega
  rw [agrees, if_pos hf, sizes, length?, bits?, leafIndex, sizeIndex, if_pos hf, if_pos hf, index, leafAt?_append,
    leafAt?_append_left es inside]
  rfl

section SizeFirst

variable (hf : t.leafFirst = false) {ds : List Derivation} (hds : ds.length = t.before.length) (es : List Derivation)

include hf hds

theorem bits?_of_sizeFirst : t.bits? (.sequence (ds ++ es)) = (Derivation.sequence es).leafAt? 0 := by
  rw [bits?, sizeIndex, if_neg (by rw [hf]; exact Bool.false_ne_true), ← hds, ← leafAt?_append ds es 0, Nat.add_zero]

theorem agrees_of_known (n : Nat) : t.agrees (some n) (.sequence (ds ++ es)) = t.starts (some n) es := by
  rw [agrees, if_neg (by rw [hf]; exact Bool.false_ne_true), Option.some_or, sizes, bits?_of_sizeFirst hf hds es]
  rfl

theorem agrees_of_unknown :
    t.agrees none (.sequence (ds ++ es)) = t.startsWithSizeOf (1 + t.between.length) es := by
  have notFirst : ¬ t.leafFirst = true := by rw [hf]; exact Bool.false_ne_true
  have leaf_at : t.length? (.sequence (ds ++ es)) =
      ((Derivation.sequence es).leafAt? (1 + t.between.length)).map BitString.length := by
    rw [length?, leafIndex, if_neg notFirst, ← hds, Nat.add_assoc, leafAt?_append]
  rw [agrees, if_neg notFirst, Option.none_or, sizes, bits?_of_sizeFirst hf hds es, leaf_at]
  rfl

end SizeFirst

theorem IsBuilt.between_apart (hb : t.IsBuilt) : ∀ v ∈ t.between, v.id ∉ [t.leafId, t.sizeId] :=
  fun v hv hm => hb.notMem_between hm (mem_idsOf.mpr ⟨v, hv, v.id_mem_ids⟩)

/-- What is between leaves the cell of a size that waits as it is. -/
theorem cell?_between (hb : t.IsBuilt) {cell : Cell} {z : Assignment} {p : Parse (List Derivation)}
    (hz : RealizesAll t.between (t.awaiting a cell) z p) : z.cell? t.sizeId = some cell := by
  rw [hz.grows.cell?_eq (hb.notMem_between (List.mem_cons_of_mem _ List.mem_cons_self)), awaiting_cell?]

/-- A leaf behind a size that waited completes what is recorded from the size on. -/
theorem realizes_waited (hb : t.IsBuilt) (hp : a.isPending t.sizeId = false) {cell : Cell} {z w : Assignment}
    {p : Parse (List Derivation)} {bits value : BitString} (rest : List Bool)
    (hz : RealizesAll t.between (t.awaiting a cell) z p) (hg : Grows [t.leafId, t.sizeId] z w)
    (pending : w.pending = a.pending) (size : w.cell? t.sizeId = some (.known bits)) (leaf : w.Spells t.leafId value) :
    RealizesAll ([t.sizeLeaf] ++ (t.between ++ [t.leaf])) a w
      ⟨[.leaf bits] ++ (p.result ++ [.leaf value]), w.learned, rest⟩ := by
  have kept := spelled_grows hz.bits hg hb.between_apart (by
    rw [pending, hz.pending, awaiting_pending hp]
    exact List.subset_append_left _ _)
  refine ⟨?_, pending, rfl, .cons ⟨bits, rfl, .value size ?_⟩ (List.rel_append kept (.cons ⟨value, rfl, leaf⟩ .nil))⟩
  · rw [idsOf_append, idsOf_append, idsOf_cons, idsOf_cons, idsOf_nil, ids_sizeLeaf, SizedRepetition.leaf, ids_data]
    have first : [t.sizeId] ⊆ [t.sizeId] ++ [] ++ (idsOf t.between ++ ([t.leafId] ++ [])) :=
      List.subset_append_left _ _
    refine ((awaiting_grows cell).mono first).trans ((hz.grows.mono fun i hi => ?_).trans (hg.mono fun i hi => ?_))
    · exact List.mem_append_right _ (List.mem_append_left _ hi)
    · rcases List.mem_cons.mp hi with rfl | hi
      · exact List.mem_append_right _ (List.mem_append_right _ List.mem_cons_self)
      · exact first hi
  · rw [isPending, pending]
    exact hp

/-- A leaf that was compared with the size that waited completes what was read from the size on. -/
theorem Compared.realizes (hb : t.IsBuilt) (hp : a.isPending t.sizeId = false) {bits : BitString} {z w : Assignment}
    {p : Parse (List Derivation)} {q : Parse Derivation} (h : t.Compared a.pending z w q)
    (hz : RealizesAll t.between (t.awaiting a (.known bits)) z p) :
    RealizesAll ([t.sizeLeaf] ++ (t.between ++ [t.leaf])) a w
      (q.map fun d => [.leaf bits] ++ (p.result ++ [d])) := by
  obtain ⟨value, hv, hs⟩ := h.bits
  have cell : w.cell? t.sizeId = some (.known bits) := by
    rw [h.grows.cell?_eq fun hm => hb.leaf_ne_size (List.mem_singleton.mp hm).symm, cell?_between hb hz]
  have whole := realizes_waited hb hp q.rest hz (h.grows.mono (List.subset_append_left [t.leafId] [t.sizeId]))
    h.pending cell hs
  rw [h.learned, ← hv] at whole
  exact whole

/-- Behind a leaf that was compared: what is remembered there, and the text that is left. -/
structure ComparedAt (t : SizedRepetition) (reading : Reading) (w : Variable) (a z : Assignment) (y : Assignment × Nat)
    (q : Parse Derivation) : Prop where
  compared : t.Compared a.pending z y.1 q
  remembers : w.Remembers (a.committed.knownWith q.learned)
  within : y.2 ≤ reading.data.length
  rest : reading.data.toList.drop y.2 = q.rest

section Waiting

variable {w : Variable} {bits : BitString} {x y : Assignment × Nat} {p : Parse (List Derivation)} {q : Parse Derivation}
  (hw : w.IsPlain) (hb : t.IsBuilt) (hp : a.isPending t.sizeId = false)
  (hi : a.Idle (idsOf ([t.sizeLeaf] ++ (t.between ++ ([t.leaf] ++ t.behind)))))

theorem ids_from_size : idsOf ([t.sizeLeaf] ++ (t.between ++ ([t.leaf] ++ t.behind))) =
    [t.sizeId] ++ (idsOf t.between ++ ([t.leafId] ++ idsOf t.behind)) := by
  rw [idsOf_append, idsOf_append, idsOf_append, idsOf_cons, idsOf_cons, idsOf_nil, ids_sizeLeaf, leaf, ids_data,
    List.append_nil, List.append_nil]

include hw hb hp hi

/-- The leaf behind a size that waited is compared with it. -/
theorem compared_between_forall₂ (hz : ReadsAll reading t.between (t.awaiting a (.known bits)) x p)
    (hvl : t.leaf.preorder ⊆ w.preorder) (hk : w.Remembers (a.committed.knownWith p.learned)) :
    List.Forall₂ (fun y e => ∃ q : Parse Derivation, e = q.map ([·]) ∧ t.ComparedAt reading w a x.1 y q)
      (reading.interpretAll [t.leaf] x.1 x.2).toList
      ((derivationsAll a.committed [t.leaf] p.learned p.rest).filter (t.measures bits ·.result)) := by
  rw [ids_from_size] at hi
  have pending : x.1.pending = a.pending ++ [t.size] := hz.realizes.pending.trans (awaiting_pending hp _)
  have reached : Grows ([t.sizeId] ++ idsOf t.between) a x.1 :=
    ((awaiting_grows _).mono (List.subset_append_left _ _)).trans
      (hz.realizes.grows.mono (List.subset_append_right _ _))
  have waits (c : Assignment) (hc : Grows [t.leafId] x.1 c) (r : Relation) (hr : r ∈ a.pending) :
      r.agrees? c = none := by
    refine hi c ((reached.mono fun i hi => ?_).trans (hc.mono fun i hi => ?_)) r hr
    · exact (List.mem_append.mp hi).elim (List.mem_append_left _) fun hi =>
        List.mem_append_right _ (List.mem_append_left _ hi)
    · exact List.mem_append_right _ (List.mem_append_right _ (List.mem_append_left _ hi))
  have apart (r : Relation) (hr : r ∈ a.pending) : r.id ≠ t.sizeId := by
    rw [isPending, List.any_eq_false] at hp
    exact fun he => hp r hr (beq_iff_eq.mpr he)
  have compared := compared_forall₂ hb pending waits apart (cell?_between hb hz.realizes) hz.within
  rw [hz.rest, hz.realizes.learned, reached.committed] at compared
  refine single_forall₂ (r := t.measures bits) compared (fun b q hq hc => ?_) fun d => rfl
  obtain ⟨value, hvalue, hspells⟩ := hc.bits
  obtain ⟨front, remembers⟩ := derivations_sound hw t.leaf hvl hk hq
  have spelled : ∃ bits, q.result.atoms = Atom.ofBits bits ∧ b.Spells t.leaf.id bits :=
    ⟨value, by rw [hvalue, Derivation.atoms], hspells⟩
  obtain ⟨hrest, hle, -⟩ := next_of_spells reading spelled (hz.rest.symm ▸ front) hz.within
  exact ⟨q, rfl, hc, remembers, hle, hrest⟩

/-- What stands behind the leaf is read from there on, and completes what was read from the size on. -/
theorem ComparedAt.behind_forall₂ (hc : t.ComparedAt reading w a x.1 y q)
    (hz : ReadsAll reading t.between (t.awaiting a (.known bits)) x p) (hr : RepeatCount.limit ≤ reading.maxRepeat)
    (hvr : ∀ c ∈ t.behind, c.preorder ⊆ w.preorder)
    (hs : ([t.sizeLeaf] ++ (t.between ++ ([t.leaf] ++ t.behind))).Pairwise fun c d => c.id ∉ d.ids) :
    List.Forall₂ (fun u e => ReadsAll reading ([t.sizeLeaf] ++ (t.between ++ ([t.leaf] ++ t.behind))) a u
        (e.map ([.leaf bits] ++ (p.result ++ [q.result]) ++ ·)))
      (reading.interpretAll t.behind y.1 y.2).toList (derivationsAll a.committed t.behind q.learned q.rest) := by
  have same : [t.sizeLeaf] ++ (t.between ++ ([t.leaf] ++ t.behind)) =
      ([t.sizeLeaf] ++ (t.between ++ [t.leaf])) ++ t.behind := by
    simp only [List.append_assoc]
  rw [same] at hs hi ⊢
  obtain ⟨-, hsr, apart⟩ := List.pairwise_append.mp hs
  have whole := hc.compared.realizes hb hp hz.realizes
  rw [idsOf_append] at hi
  have idle : y.1.Idle (idsOf t.behind) :=
    (hi.grows (whole.grows.mono (List.subset_append_left _ _)) whole.pending).mono (List.subset_append_right _ _)
  have known : w.Remembers y.1.known? := by
    have remembers := hc.remembers
    rwa [← whole.grows.committed, ← hc.compared.learned] at remembers
  have behind := plain_forall₂ reading hw hr hvr hsr idle known hc.within
  rw [hc.rest, hc.compared.learned, whole.grows.committed] at behind
  refine behind.imp fun u e he => ⟨whole.append he.realizes fun c hm hid => ?_, he.within, he.rest⟩
  obtain ⟨d, hd, hid⟩ := mem_idsOf.mp hid
  exact apart c hm d hd hid

/--
A size that waits is kept when it is that of the leaf behind it, which is compared as soon as it is read.
-/
theorem waiting_forall₂ (hr : RepeatCount.limit ≤ reading.maxRepeat)
    (hv : ∀ c ∈ [t.sizeLeaf] ++ (t.between ++ ([t.leaf] ++ t.behind)), c.preorder ⊆ w.preorder)
    (hs : ([t.sizeLeaf] ++ (t.between ++ ([t.leaf] ++ t.behind))).Pairwise fun c d => c.id ∉ d.ids)
    (hn : a.targetLength? t.leafId = none) (he : a.entry? t.leafId = none) (hk : w.Remembers a.known?)
    (ho : offset ≤ reading.data.length) :
    List.Forall₂ (ReadsAll reading ([t.sizeLeaf] ++ (t.between ++ ([t.leaf] ++ t.behind))) a)
      (reading.interpretAll ([.relation t.size] ++ (t.between ++ ([t.leaf] ++ t.behind))) a offset).toList
      ((derivationsAll a.committed ([t.sizeLeaf] ++ (t.between ++ ([t.leaf] ++ t.behind))) a.learned
        (reading.data.toList.drop offset)).filter (t.startsWithSizeOf (1 + t.between.length) ·.result)) := by
  obtain ⟨-, hvBetween, hvl, hvr⟩ : t.sizeLeaf.preorder ⊆ w.preorder ∧ (∀ c ∈ t.between, c.preorder ⊆ w.preorder) ∧
      t.leaf.preorder ⊆ w.preorder ∧ ∀ c ∈ t.behind, c.preorder ⊆ w.preorder := by
    simpa only [List.forall_mem_append, List.forall_mem_singleton] using hv
  have hsb : t.between.Pairwise fun c d => c.id ∉ d.ids :=
    (List.pairwise_append.mp (List.pairwise_append.mp hs).2.1).1
  have leading : a.Idle (t.sizeId :: idsOf t.between) :=
    hi.mono (ids_from_size (t := t) ▸ List.cons_subset_cons t.sizeId (List.subset_append_left _ _))
  refine append_forall₂ (p := fun _ => true) (q := fun ds es =>
      t.startsWithSizeOf (1 + t.between.length) (ds ++ es))
    (S := fun _ u y e => ReadsAll reading _ a y (e.map (u.result ++ ·)))
    (waits_forall₂ hb hn he (leading.mono (List.cons_subset_cons _ (List.nil_subset _))) hp ho)
    (fun x u hu hx => ?_) (fun _ h => h) fun ds es _ => by rw [Bool.true_and]
  obtain ⟨bits, hres, hstate, hlearned, hwithin, hrest⟩ := hx
  obtain ⟨x, start⟩ := x
  obtain rfl : x = t.awaiting a (.known bits) := hstate
  have grown : Grows [t.sizeId] a (t.awaiting a (.known bits)) := awaiting_grows _
  have learned : (t.awaiting a (.known bits)).learned = a.learned := awaiting_learned _
  have idle := awaiting_idle hb hn he hp (hb.notMem_between List.mem_cons_self) leading (.known bits)
  have known : w.Remembers (t.awaiting a (.known bits)).known? := by
    have same : (t.awaiting a (.known bits)).known? = a.known? := by
      funext id
      rw [known?, known?, learned, grown.committed]
    rwa [same]
  have between := plain_forall₂ reading hw hr hvBetween hsb idle known hwithin
  rw [learned, grown.committed, hrest, ← hlearned, ← List.filter_true (derivationsAll _ _ _ _)] at between
  refine append_forall₂ (p := fun _ => true) (q := fun _ es => t.measures bits es)
    (r := fun es => t.startsWithSizeOf (1 + t.between.length) (u.result ++ es))
    (T := fun y e => ReadsAll reading _ a y (e.map (u.result ++ ·)))
    (S := fun _ v y e => ReadsAll reading _ a y ((e.map (v.result ++ ·)).map (u.result ++ ·))) between
    (fun z v hv hz => ?_) (fun _ h => h) fun ds es hds => ?_
  · have sound := derivationsAll_sound (w := w) (fun c hc _ _ hk _ => derivations_sound hw c (hvBetween c hc) hk)
      (hlearned ▸ hk) hv
    refine append_forall₂ (q := fun _ _ => true)
      (T := fun y e => ReadsAll reading _ a y ((e.map (v.result ++ ·)).map (u.result ++ ·)))
      (S := fun _ q y e => ReadsAll reading _ a y (((e.map (q.result ++ ·)).map (v.result ++ ·)).map (u.result ++ ·)))
      (compared_between_forall₂ hw hb hp hi hz hvl sound.remembers) (fun y q hq hy => ?_) (fun _ h => h)
      fun ds es hds => ?_
    · obtain ⟨q, rfl, hc⟩ := hy
      have behind := hc.behind_forall₂ hw hb hp hi hz hr hvr hs
      rw [← List.filter_true (derivationsAll _ _ _ _)] at behind
      refine behind.imp fun x e he => ?_
      have result : (((e.map ((q.map ([·])).result ++ ·)).map (v.result ++ ·)).map (u.result ++ ·)) =
          e.map ([.leaf bits] ++ (v.result ++ [q.result]) ++ ·) := by
        simp [Parse.map, hres]
      exact result ▸ he
    · rw [Bool.and_true]
      cases ds with
      | nil => cases hds
      | cons d ds => rfl
  · rw [hres, Bool.true_and, ← hds]
    exact startsWithSizeOf_cons bits ds es

end Waiting

/-! ## One instance -/

theorem exists_of_mem_leaf {committed : Store} {learned : Values} {rest : List Bool} {p : Parse Derivation}
    (h : p ∈ derivations committed t.leaf learned rest) : ∃ bits, p.result = .leaf bits := by
  rw [leaf, derivations] at h
  unfold leafDerivations at h
  split at h
  next value _ =>
    obtain ⟨left, -, rfl⟩ := List.mem_map.mp h
    exact ⟨value, rfl⟩
  next =>
    split at h
    next => cases h
    next =>
      obtain ⟨n, -, h⟩ := List.mem_filterMap.mp h
      obtain ⟨-, h⟩ := Option.ite_none_right_eq_some.mp h
      cases h
      exact ⟨_, rfl⟩

/-- The leaf of an instance is derived as one. -/
theorem exists_leafAt? {committed : Store} {learned : Values} {rest : List Bool} {xs ys : List Variable}
    {p : Parse (List Derivation)} (h : p ∈ derivationsAll committed (xs ++ t.leaf :: ys) learned rest) :
    ∃ bits, p.result[xs.length]? = some (.leaf bits) := by
  rw [derivationsAll_append] at h
  obtain ⟨u, hu, h⟩ := List.mem_flatMap.mp h
  obtain ⟨v, hv, rfl⟩ := List.mem_map.mp h
  rw [derivationsAll] at hv
  obtain ⟨d, hd, hv⟩ := List.mem_flatMap.mp hv
  obtain ⟨e, -, rfl⟩ := List.mem_map.mp hv
  obtain ⟨bits, hb⟩ := exists_of_mem_leaf hd
  refine ⟨bits, ?_⟩
  rw [← length_of_mem_derivationsAll hu, ← hb]
  simp [Parse.map]

theorem leafAt?_eq_some_iff {index : Nat} {d : Derivation} {bits : BitString} :
    d.leafAt? index = some bits ↔ d.parts[index]? = some (.leaf bits) := by
  unfold Derivation.leafAt?
  split
  next value h => simp [h]
  next h => simpa using fun he => h bits he

/-- What stands before and behind the leaf. -/
theorem exists_split (size : Variable) : ∃ xs ys, xs.length = t.leafIndex ∧ t.childrenWith size = xs ++ t.leaf :: ys := by
  unfold childrenWith leafIndex
  split
  · exact ⟨_, _, rfl, rfl⟩
  · refine ⟨t.before ++ size :: t.between, t.behind, ?_, by simp⟩
    rw [List.length_append, List.length_cons]
    omega

theorem forall₂_at {α β : Type} {R : α → β → Prop} {xs ys : List α} {x : α} {zs : List β}
    (h : List.Forall₂ R (xs ++ x :: ys) zs) {z : β} (hz : zs[xs.length]? = some z) : R x z := by
  induction xs generalizing zs with
  | nil =>
    cases h with
    | cons hr _ =>
      cases hz
      exact hr
  | cons w xs ih =>
    cases h with
    | cons _ h => exact ih h hz

/-- Where the leaf was read, its length is known. -/
theorem spells_leaf {xs ys : List Variable} {b : Assignment} {p : Parse (List Derivation)} {value : BitString}
    (h : RealizesAll (xs ++ t.leaf :: ys) a b p) (hv : p.result[xs.length]? = some (.leaf value)) :
    b.Spells t.leafId value := by
  obtain ⟨bits, hb, hs⟩ := forall₂_at h.bits hv
  rw [Derivation.atoms] at hb
  exact Atom.ofBits_injective hb ▸ hs

section Instance

variable {w : Variable} (hw : w.IsPlain) (hr : RepeatCount.limit ≤ reading.maxRepeat) (hb : t.IsBuilt)

include hw hr hb

/-- A size that can be computed behind plain variables is kept when it has the computed value. -/
theorem computed_forall₂ {xs ys : List Variable} (hv : ∀ c ∈ xs ++ ([t.sizeLeaf] ++ ys), c.preorder ⊆ w.preorder)
    (hs : (xs ++ ([t.sizeLeaf] ++ ys)).Pairwise fun c d => c.id ∉ d.ids)
    (hp : a.isPending t.sizeId = false) (hi : a.Idle (idsOf (xs ++ ([t.sizeLeaf] ++ ys))))
    (hk : w.Remembers a.known?) (ho : offset ≤ reading.data.length) (length? : List Derivation → Option Nat)
    (known : ∀ x p, p ∈ derivationsAll a.committed xs a.learned (reading.data.toList.drop offset) →
      ReadsAll reading xs a x p → ∃ n, length? p.result = some n ∧ x.1.targetLength? t.leafId = some n)
    {k : List Derivation → Bool}
    (kept : ∀ ds es, ds.length = xs.length → k (ds ++ es) = t.starts (length? ds) es) :
    List.Forall₂ (ReadsAll reading (xs ++ ([t.sizeLeaf] ++ ys)) a)
      (reading.interpretAll (xs ++ ([.relation t.size] ++ ys)) a offset).toList
      ((derivationsAll a.committed (xs ++ ([t.sizeLeaf] ++ ys)) a.learned (reading.data.toList.drop offset)).filter
        (k ·.result)) := by
  have hvx : ∀ c ∈ xs, c.preorder ⊆ w.preorder := fun c hc => hv c (List.mem_append_left _ hc)
  have hvs : t.sizeLeaf.preorder ⊆ w.preorder := hv _ (List.mem_append_right _ List.mem_cons_self)
  have hvy : ∀ c ∈ ys, c.preorder ⊆ w.preorder := fun c hc =>
    hv c (List.mem_append_right _ (List.mem_cons_of_mem _ hc))
  obtain ⟨hsx, hs', apart⟩ := List.pairwise_append.mp hs
  obtain ⟨-, hsy, apartSize⟩ := List.pairwise_append.mp hs'
  have size : idsOf [t.sizeLeaf] = [t.sizeId] := by rw [idsOf_cons, ids_sizeLeaf, idsOf_nil]; rfl
  rw [idsOf_append, idsOf_append, size] at hi
  have front := plain_forall₂ reading hw hr hvx hsx (hi.mono (List.subset_append_left _ _)) hk ho
  rw [← List.filter_true (derivationsAll _ _ _ _)] at front
  refine append_forall₂ (p := fun _ => true) (q := fun ds es => t.starts (length? ds) es)
    (S := fun _ u y e => ReadsAll reading _ a y (e.map (u.result ++ ·))) front (fun x u hu hx => ?_) (fun _ h => h)
    fun ds es hds => by rw [Bool.true_and, kept ds es hds]
  have sound := derivationsAll_sound (w := w) (fun c hc _ _ hk _ => derivations_sound hw c (hvx c hc) hk) hk hu
  have settled : x.1.isPending t.sizeId = false := by rw [isPending, hx.realizes.pending, ← isPending, hp]
  have idle := (hi.grows (hx.realizes.grows.mono (List.subset_append_left _ _)) hx.realizes.pending).mono
    (List.subset_append_right _ _)
  obtain ⟨n, hn, length⟩ := known x u hu hx
  have ready := ready_forall₂ hb length (idle.mono (List.subset_append_left _ _)) settled hx.within
  rw [hx.rest, hx.realizes.learned, hx.realizes.grows.committed] at ready
  rw [← hn] at ready
  refine append_forall₂ (p := t.starts (length? u.result)) (q := fun _ _ => true)
    (T := fun y e => ReadsAll reading _ a y (e.map (u.result ++ ·)))
    (S := fun _ q y e => ReadsAll reading _ a y ((e.map (q.result ++ ·)).map (u.result ++ ·))) ready
    (fun y q hq hy => ?_) (fun _ h => h) fun ds es hds => ?_
  · have inside : ∀ c ∈ [t.sizeLeaf], c.preorder ⊆ w.preorder := fun c hc => List.mem_singleton.mp hc ▸ hvs
    have remembers := (derivationsAll_sound (w := w) (fun c hc _ _ hk _ => derivations_sound hw c (inside c hc) hk)
      sound.remembers hq).remembers
    have whole := hx.realizes.append hy.realizes fun c hc hm => by
      obtain ⟨d, hd, hid⟩ := mem_idsOf.mp hm
      exact apart c hc d (List.mem_append_left _ hd) hid
    have known : w.Remembers y.1.known? := by
      rwa [← whole.grows.committed, ← hy.realizes.learned] at remembers
    have idle : y.1.Idle (idsOf ys) := by
      refine (hi.grows (whole.grows.mono ?_) whole.pending).mono fun i hi =>
        List.mem_append_right _ (List.mem_append_right _ hi)
      rw [idsOf_append, size, ← List.append_assoc]
      exact List.subset_append_left _ _
    have rest := plain_forall₂ reading hw hr hvy hsy idle known hy.within
    rw [hy.rest, hy.realizes.learned, whole.grows.committed, ← List.filter_true (derivationsAll _ _ _ _)] at rest
    refine rest.imp fun z e he => ⟨?_, he.within, he.rest⟩
    have all := whole.append he.realizes fun c hc hm => by
      obtain ⟨d, hd, hid⟩ := mem_idsOf.mp hm
      rcases List.mem_append.mp hc with hc | hc
      · exact apart c hc d (List.mem_append_right _ hd) hid
      · exact apartSize c hc d hd hid
    have result : (e.map (q.result ++ ·)).map (u.result ++ ·) = e.map ((q.map (u.result ++ ·)).result ++ ·) := by
      simp [Parse.map]
    rw [← List.append_assoc]
    exact result ▸ all
  · rw [Bool.and_true]
    cases ds with
    | nil => cases hds
    | cons d ds => rfl

/-- An instance is kept when its size is what is computed for it. -/
theorem children_forall₂ {last? : Option Nat} (hv : ∀ c ∈ t.childrenWith t.sizeLeaf, c.preorder ⊆ w.preorder)
    (hs : (t.childrenWith t.sizeLeaf).Pairwise fun c d => c.id ∉ d.ids) (known : t.Knows last? a)
    (hi : a.Idle (idsOf (t.childrenWith t.sizeLeaf))) (hk : w.Remembers a.known?)
    (ho : offset ≤ reading.data.length) :
    List.Forall₂ (ReadsAll reading (t.childrenWith t.sizeLeaf) a)
      (reading.interpretAll (t.childrenWith (.relation t.size)) a offset).toList
      ((derivationsAll a.committed (t.childrenWith t.sizeLeaf) a.learned (reading.data.toList.drop offset)).filter
        fun p => t.agrees last? (.sequence p.result)) := by
  have settled := known.settled
  cases hf : t.leafFirst with
  | true =>
    rw [childrenWith_of_leafFirst hf] at hv hs hi ⊢
    rw [childrenWith_of_leafFirst hf]
    refine computed_forall₂ hw hr hb hv hs settled hi hk ho
      (fun ds => ((Derivation.sequence ds).leafAt? t.before.length).map BitString.length)
      (k := fun parts => t.agrees last? (.sequence parts)) (fun x p hp hx => ?_) fun ds es hds => ?_
    · obtain ⟨value, hvalue⟩ := exists_leafAt? hp
      refine ⟨value.length, ?_, (spells_leaf hx.realizes hvalue).targetLength?⟩
      rw [Derivation.leafAt?, Derivation.parts, hvalue]
      rfl
    · exact agrees_of_leafFirst hf last? hds es
  | false =>
    rw [childrenWith_of_sizeFirst hf] at hv hs hi ⊢
    rw [childrenWith_of_sizeFirst hf]
    cases hl : last? with
    | some n =>
      subst hl
      refine computed_forall₂ hw hr hb hv hs settled hi hk ho (fun _ => some n)
        (k := fun parts => t.agrees (some n) (.sequence parts)) (fun x p hp hx => ⟨n, rfl, ?_⟩) fun ds es hds => ?_
      · exact (known.grows hx.realizes.grows hb.leaf_notMem_before hx.realizes.pending).length
      · exact agrees_of_known hf hds es n
    | none =>
      subst hl
      have hvb : ∀ c ∈ t.before, c.preorder ⊆ w.preorder := fun c hc => hv c (List.mem_append_left _ hc)
      obtain ⟨hsb, hs', apartBefore⟩ := List.pairwise_append.mp hs
      rw [idsOf_append] at hi
      have front := plain_forall₂ reading hw hr hvb hsb (hi.mono (List.subset_append_left _ _)) hk ho
      rw [← List.filter_true (derivationsAll _ _ _ _)] at front
      refine append_forall₂ (p := fun _ => true) (q := fun _ es => t.startsWithSizeOf (1 + t.between.length) es)
        (r := fun parts => t.agrees none (.sequence parts))
        (S := fun _ u y e => ReadsAll reading _ a y (e.map (u.result ++ ·))) front (fun x u hu hx => ?_)
        (fun _ h => h) fun ds es hds => ?_
      · have sound := derivationsAll_sound (w := w) (fun c hc _ _ hk _ => derivations_sound hw c (hvb c hc) hk) hk hu
        have next := known.grows hx.realizes.grows hb.leaf_notMem_before hx.realizes.pending
        have idle := (hi.grows (hx.realizes.grows.mono (List.subset_append_left _ _)) hx.realizes.pending).mono
          (List.subset_append_right _ _)
        have remembers : w.Remembers x.1.known? := by
          have remembers := sound.remembers
          rwa [← hx.realizes.grows.committed, ← hx.realizes.learned] at remembers
        have rest := waiting_forall₂ hw hb next.settled idle hr (fun c hc => hv c (List.mem_append_right _ hc)) hs'
          next.length next.unread remembers hx.within
        rw [hx.rest, hx.realizes.learned, hx.realizes.grows.committed] at rest
        refine rest.imp fun y e he => ⟨hx.realizes.append he.realizes fun c hc hm => ?_, he.within, he.rest⟩
        obtain ⟨d, hd, hid⟩ := mem_idsOf.mp hm
        exact apartBefore c hc d hd hid
      · rw [Bool.true_and]
        exact agrees_of_unknown hf hds es

/-- An instance in which the size is what is computed for it leaves behind the length of its leaf. -/
theorem sequence_corresponds (hv : t.plain.preorder ⊆ w.preorder) :
    CorrespondsIn reading w (t.sequenceWith (.relation t.size)) (t.sequenceWith t.sizeLeaf) t.Knows t.agrees
      fun _ d => t.length? d := by
  intro a last? offset known hi hk ho
  have hvs : (t.sequenceWith t.sizeLeaf).preorder ⊆ w.preorder := fun v hm => hv (List.mem_cons_of_mem _ hm)
  have hvc : ∀ c ∈ t.childrenWith t.sizeLeaf, c.preorder ⊆ w.preorder := fun c hc v hm =>
    hvs (List.mem_cons_of_mem _ (preorder_subset_of_mem hc hm))
  have hs : (t.childrenWith t.sizeLeaf).Pairwise fun c d => c.id ∉ d.ids := hw.separate (hvs (self_mem_preorder _))
  have below : idsOf (t.childrenWith t.sizeLeaf) ⊆ (t.sequenceWith t.sizeLeaf).ids := by
    rw [sequenceWith, ids_sequence]
    exact List.subset_cons_self _ _
  have same : (t.childrenWith (.relation t.size)).map Variable.id = (t.childrenWith t.sizeLeaf).map Variable.id := by
    unfold childrenWith
    split <;> simp only [List.map_append, List.map_cons] <;> rfl
  have all := children_forall₂ hw hr hb hvc hs known (hi.mono below) hk ho
  obtain ⟨xs, ys, hxs, split⟩ := exists_split (t := t) t.sizeLeaf
  have instances := sequence_forall₂ (S := fun b p => ∀ value, p.result.leafAt? t.leafIndex = some value →
      b.Spells t.leafId value) hw same hvs hi hk (fun p hp => (List.mem_filter.mp hp).1) all
      fun x p content hx value hvalue => ?_
  · have derived : (derivations a.committed (t.sequenceWith t.sizeLeaf) a.learned (reading.data.toList.drop offset)).filter
        (t.agrees last? ·.result) =
        ((derivationsAll a.committed (t.childrenWith t.sizeLeaf) a.learned (reading.data.toList.drop offset)).filter
          fun p => t.agrees last? (.sequence p.result)).map (·.map .sequence) := by
      rw [sequenceWith, derivations, List.filter_map]
      rfl
    rw [derived]
    refine (forall₂_and_mem instances).imp fun b p h => ?_
    obtain ⟨⟨hr, spells⟩, hm⟩ := h
    refine ⟨hr, ?_⟩
    obtain ⟨q, hq, rfl⟩ := List.mem_map.mp hm
    obtain ⟨value, hvalue⟩ := exists_leafAt? (split ▸ (List.mem_filter.mp hq).1)
    have at_leaf : (q.map Derivation.sequence).result.leafAt? t.leafIndex = some value :=
      leafAt?_eq_some_iff.mpr (hxs ▸ hvalue)
    have hs := spells value at_leaf
    have length : t.length? (q.map Derivation.sequence).result = some value.length := by
      rw [length?, at_leaf]
      rfl
    refine ⟨hs.targetLength?.trans length.symm, .inr ⟨value, hs⟩, ?_⟩
    rw [isPending, hr.pending]
    exact known.settled
  · have spells := spells_leaf (split ▸ hx.realizes) (hxs ▸ leafAt?_eq_some_iff.mp hvalue)
    refine spells.grows ((Grows.refl [t.sequenceId] _).record List.mem_cons_self content) (fun hm => ?_)
      (List.Subset.refl _)
    exact hb.sequence_ne.1 (List.mem_singleton.mp hm)

end Instance

/-! ## The repetition -/

theorem follows_eq_keepsAll (last? : Option Nat) (parts : List Derivation) :
    t.follows last? parts = keepsAll t.agrees (fun _ d => t.length? d) last? parts := by
  induction parts generalizing last? with
  | nil => rfl
  | cons d rest ih => rw [follows, keepsAll, ih]

/--
The interpretations of the repetition are the derivations with a leaf in the place of the size in which each size is
what is computed for it, in order.
-/
theorem interpret_sized (reading : Reading) (hb : t.IsBuilt) (free : ∀ r, .relation r ∉ preorderAll t.others)
    (hr : RepeatCount.limit ≤ reading.maxRepeat) {last? : Option Nat} (known : t.Knows last? a)
    (hi : a.Idle t.plain.ids) (hk : t.plain.Remembers a.known?) (ho : offset ≤ reading.data.length) :
    List.Forall₂ (Realizes t.plain a) (reading.interpret t.repetition a offset).toList
      ((derivations a.committed t.plain a.learned (reading.data.toList.drop offset)).filter
        (t.follows last? ·.result.parts)) := by
  have hw := hb.isPlain free
  have bounds : (t.sequenceWith (.relation t.size)).bounds = (t.sequenceWith t.sizeLeaf).bounds := by
    unfold sequenceWith childrenWith
    rw [Variable.bounds, Variable.bounds]
    split <;> simp only [boundsAll_eq, List.map_append, List.map_cons] <;> rfl
  have same : (t.sequenceWith (.relation t.size)).id = (t.sequenceWith t.sizeLeaf).id := rfl
  have all := repetition_forall₂ hw hr same bounds (List.Subset.refl _)
    (sequence_corresponds hw hr hb (List.Subset.refl _)) last? known hi hk ho
  simp only [follows_eq_keepsAll]
  exact all

end WireGrammar.SizedRepetition
