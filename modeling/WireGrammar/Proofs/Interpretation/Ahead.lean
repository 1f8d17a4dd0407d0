import WireGrammar.Proofs.Interpretation.Carried
import WireGrammar.Proofs.Interpretation.Ranges
import WireGrammar.Proofs.Relation.Missing

/-!
# Relations before what they cover

A relation can be read before the fields that it covers or behind them. Behind them it is computed, and its bits must
stand there (`Relation.Covers.behind_iff`). Before them it waits: any bits that stand there are taken if their length is
one of the candidates and they are plausible. Nothing is compared until the last field is recorded
(`Relation.Covers.idle_awaits`), and then they must be those that the relation computes
(`Relation.Covers.verified?_recorded`), so a relation is read there exactly with bits for which all of this is true
(`Relation.Covers.before_iff`).
-/

namespace WireGrammar

open Assignment Variable

/-! ## A relation that waits -/

namespace Assignment

/-- The assignment in which a relation waits with bits that have been read for it. -/
def awaitWith (a : Assignment) (r : Relation) (bits : BitString) : Assignment :=
  (a.setCell r.id (.known bits)).awaitRelation r

variable (a : Assignment) (r : Relation) (bits : BitString)

theorem grows_awaitWith : Grows [r.id] a (a.awaitWith r bits) :=
  ((Grows.refl _ a).setCell (List.mem_singleton_self _) _).awaitRelation r

theorem cell?_awaitWith : (a.awaitWith r bits).cell? r.id = some (.known bits) := by
  rw [awaitWith, cell?_awaitRelation, cell?_setCell, if_pos rfl]

theorem known?_awaitWith : (a.awaitWith r bits).known? = a.known? := by
  unfold awaitWith awaitRelation
  split <;> rfl

theorem pending_awaitWith (h : ∀ q ∈ a.pending, q.id ≠ r.id) : (a.awaitWith r bits).pending = a.pending ++ [r] := by
  have new : (a.setCell r.id (.known bits)).isPending r.id = false := by
    rw [isPending, List.any_eq_false]
    exact fun q hq => by simpa using h q hq
  rw [awaitWith, awaitRelation, new, if_neg Bool.false_ne_true]
  rfl

end Assignment

/-- The bits recorded for a variable are those that relations read. -/
theorem Assignment.Written.targetBits? {a : Assignment} {id : VarId} {bits : BitString} (h : a.Written id bits)
    (exclude : VarId) : a.targetBits? id exclude = some bits := by
  obtain ⟨content, he, hc⟩ := h
  rw [Assignment.targetBits?, he]
  dsimp only
  rw [flatten_eq_some_iff, hc, Atom.fill_ofBits]
  exact ⟨fun q hq => absurd hq Atom.slot_notMem_ofBits, rfl⟩

theorem Assignment.consumed_of_bits? {a : Assignment} {v : Variable} {bits : BitString} (h : a.bits? v.id = some bits) :
    a.consumed v = bits.length := by
  rw [Assignment.consumed, length?_of_bits? h, Option.getD_some]

/-- A relation covers fields: its targets are among them, and the last of them is one. -/
structure Relation.Covers (r : Relation) (init : List Variable) (last : Variable) : Prop where
  targets : ∀ t ∈ r.targets, ∃ v ∈ init ++ [last], v.id = t
  lastTarget : last.id ∈ r.targets
  single : r.rule = .copy → r.targets = [last.id]

/--
There is a place for a relation and the fields that it covers: the relation lies outside of the fields, the last field
is found nowhere before and has not been read, and no relation that waits already can be compared while they are read.
-/
structure Assignment.PlaceFor (id : VarId) (init : List Variable) (last : Variable) (a : Assignment) : Prop where
  outside : id ∉ idsOf (init ++ [last])
  new : last.id ∉ idsOf init
  own : last.id ∉ idsOf last.children
  misses : a.misses last.id = true
  idle : a.Idle (id :: idsOf (init ++ [last]))
  apart : ∀ q ∈ a.pending, q.id ≠ id

/-- Two assignments know the same bits of fields. -/
def Assignment.SameBits (fields : List Variable) (a b : Assignment) : Prop :=
  ∀ v ∈ fields, ∃ bits, a.Written v.id bits ∧ b.Written v.id bits

variable {r : Relation} {fields init : List Variable} {last : Variable} {a b x : Assignment}
  {reading reading' : Reading} {base offset start : Nat} {bits : BitString} {p p' : Assignment × Nat}

theorem Assignment.SameBits.right (h : SameBits fields a b) : SameBits fields b b :=
  fun v hv => (h v hv).imp fun _ hb => ⟨hb.2, hb.2⟩

theorem Assignment.Alike.sameBits {unit : Nat} {vars known : List Variable} (h : Alike unit vars known a b)
    (hs : fields ⊆ known) : SameBits fields a b :=
  fun v hv => (h.holds v (hs hv)).imp fun _ hb => ⟨hb.1, hb.2.1⟩

/-- What is recorded for others does not change the bits of fields. -/
theorem Assignment.sameBits_iff_of_grows {ids : List VarId} (grows : Grows ids x b) (apart : ∀ v ∈ fields, v.id ∉ ids) :
    SameBits fields a b ↔ SameBits fields a x := by
  refine forall₂_congr fun v hv => ?_
  simp only [Written, grows.entry?_eq (apart v hv)]

/-- Any bits will do for a relation of which the length alone is determined. -/
theorem Relation.isPlausible_of_length {n : Nat} (h : r.evaluate a = .ok (.length n)) (bits : BitString) :
    r.isPlausible bits = true := by
  obtain ⟨⟨modulo, once, scale, hr⟩, hc⟩ := isOpenPadding_of_length h
  rw [isPlausible, hr]
  dsimp only
  rw [hc, Option.all_none]

/-- A relation that need not wait is read with bits that it computes. -/
theorem Reading.exists_computes_of_mem (h : r.evaluate a ≠ .ok .waiting)
    (hb : b ∈ (reading.interpret (.relation r) a offset).toList) :
    ∃ bits, r.Computes a bits ∧ (a.setCell r.id (.known bits)).verified? = some b := by
  rw [interpret, mem_interpretRelation] at hb
  obtain ⟨bits, he, -, hb⟩ | ⟨n, he, fits, -, hb⟩ | ⟨he, -⟩ := hb
  · exact ⟨bits, .inl he, hb⟩
  · exact ⟨_, .inr ⟨n, he, length_bitsAt fits⟩, hb⟩
  · exact absurd he h

/-- A relation is read wherever bits stand that it computes. -/
theorem Reading.mem_interpret_of_computes (h : r.Computes a bits) (hm : bits.matchesAt reading.data offset = true)
    (hb : (a.setCell r.id (.known bits)).verified? = some b) :
    b ∈ (reading.interpret (.relation r) a offset).toList := by
  rw [interpret, mem_interpretRelation]
  rcases h with he | ⟨n, he, rfl⟩
  · exact .inl ⟨bits, he, hm, hb⟩
  · obtain ⟨fits, equal⟩ := bitsAt_of_matchesAt hm
    refine .inr (.inl ⟨_, he, fits, Relation.isPlausible_of_length he _, ?_⟩)
    rwa [equal]

namespace Relation.Covers

section Values

variable (h : r.Covers init last) (outside : r.id ∉ idsOf (init ++ [last]))

theorem ne_id {v : Variable} (outside : r.id ∉ idsOf fields) (hv : v ∈ fields) : v.id ≠ r.id :=
  fun he => outside (mem_idsOf.mpr ⟨v, hv, he ▸ v.id_mem_ids⟩)

include h outside

/-- The value of a relation depends on the bits of the fields that it covers. -/
theorem computes_iff (same : SameBits (init ++ [last]) a b) : r.Computes b bits ↔ r.Computes a bits := by
  have value : r.evaluate b = r.evaluate a := by
    refine Relation.evaluate_congr (fun t ht _ => ?_) (fun t ht _ => ?_) fun hs => ?_
    · obtain ⟨v, hv, rfl⟩ := h.targets t ht
      obtain ⟨bits, hb, hb'⟩ := same v hv
      rw [hb.targetBits?, hb'.targetBits?]
    · obtain ⟨v, hv, rfl⟩ := h.targets t ht
      obtain ⟨bits, hb, hb'⟩ := same v hv
      rw [hb.spells.targetLength?, hb'.spells.targetLength?]
    · obtain ⟨v, hv, he⟩ := h.targets _ hs.1
      exact absurd he (ne_id outside hv)
  rw [Computes, Computes, value]

/-- A relation does not wait when all fields that it covers have bits. -/
theorem not_waiting (written : SameBits (init ++ [last]) a a) : r.evaluate a ≠ .ok .waiting := by
  have known {t : VarId} (ht : t ∈ r.targets) : ∃ bits, a.Written t bits := by
    obtain ⟨v, hv, rfl⟩ := h.targets t ht
    exact (written v hv).imp fun _ hb => hb.1
  refine Relation.evaluate_ne_waiting (fun ht => ?_) (fun t ht => ?_) fun t ht => ?_
  · obtain ⟨v, hv, he⟩ := h.targets _ ht
    exact ne_id outside hv he
  · obtain ⟨bits, hb⟩ := known ht
    rw [hb.targetBits?]
    rfl
  · obtain ⟨bits, hb⟩ := known ht
    rw [hb.spells.targetLength?]
    rfl

end Values

/-! ## From the relation to the last of its fields -/

section Waiting

variable (h : r.Covers init last) (place : a.PlaceFor r.id init last)

include h place

theorem waits (same : b.misses last.id = a.misses last.id) : r.evaluate b = .ok .waiting :=
  Relation.evaluate_of_misses (same.trans place.misses) h.lastTarget
    (ne_id place.outside (List.mem_append_right _ (List.mem_singleton_self _))) h.single

/-- Nothing can be compared after the relation has been read, until the last field is recorded. -/
theorem idle_awaits (bits : BitString) : (a.awaitWith r bits).Idle (idsOf init ++ idsOf last.children) := by
  have first := grows_awaitWith a r bits
  have inside : idsOf init ++ idsOf last.children ⊆ idsOf (init ++ [last]) := by
    rw [idsOf_append, idsOf_cons, idsOf_nil, List.append_nil, ids_eq]
    exact List.append_subset.mpr ⟨List.subset_append_left _ _,
      List.subset_append_of_subset_right _ (List.subset_cons_self _ _)⟩
  have ne : last.id ∉ [r.id] := by
    simpa using ne_id place.outside (List.mem_append_right init (List.mem_singleton_self last))
  intro b hb q hq
  rw [pending_awaitWith a r bits place.apart] at hq
  rcases List.mem_append.mp hq with hq | hq
  · refine place.idle b ((first.mono ?_).trans (hb.mono ?_)) q hq
    · exact List.cons_subset_cons _ (List.nil_subset _)
    · exact List.subset_cons_of_subset _ inside
  · rw [List.mem_singleton.mp hq, agrees?_eq_none_iff]
    refine h.waits place ?_
    rw [hb.misses_eq (by simpa using ⟨place.new, place.own⟩), first.misses_eq ne]

/-- A relation that is read before its fields holds any plausible bits of one of the candidate lengths. -/
theorem mem_interpret : b ∈ (reading.interpret (.relation r) a start).toList ↔
    ∃ n ∈ r.candidateLengths (reading.remaining start), r.isPlausible (reading.bitsAt start n) = true ∧
      b = a.awaitWith r (reading.bitsAt start n) := by
  have settled (bits : BitString) :
      ((a.setCell r.id (.known bits)).awaitRelation r).verified? = some b ↔ b = a.awaitWith r bits := by
    change (a.awaitWith r bits).verified? = some b ↔ _
    rw [(h.idle_awaits place bits).verified? (.refl _ _) rfl, Option.some.injEq, eq_comm]
  rw [Reading.interpret, Reading.mem_interpretRelation, h.waits place rfl]
  simp only [settled, Except.ok.injEq, reduceCtorEq, false_and, exists_false, false_or, true_and]

/-- What a relation is read with before its fields is listed and plausible, and waits while the fields are read. -/
theorem listed_of_before (hp : p ∈ (reading.interpretAll (.relation r :: (init ++ [last])) a start).toList)
    (hbits : p.1.bits? r.id = some bits) :
    bits.length ∈ r.candidateLengths (reading.remaining start) ∧ r.isPlausible bits = true ∧
      p ∈ (reading.interpretAll (init ++ [last]) (a.awaitWith r bits) (start + bits.length)).toList := by
  obtain ⟨c, hc, hp⟩ := Reading.mem_interpretAll_cons.mp hp
  obtain ⟨n, listed, accepted, rfl⟩ := (h.mem_interpret place).mp hc
  have grows : Grows (idsOf (init ++ [last])) (a.awaitWith r (reading.bitsAt start n)) p.1 :=
    Reading.interpretAll_grows (fun v hv _ _ _ hb => (Reading.interpret_grows v hb).mono (ids_subset_of_mem hv)) hp
  have value := (grows.cell?_eq place.outside).trans (cell?_awaitWith ..)
  cases (bits?_of_cell? value).symm.trans hbits
  rw [consumed_of_bits? (bits?_of_cell? (cell?_awaitWith ..))] at hp
  rw [Reading.length_bitsAt (Relation.le_of_candidate listed)] at hp ⊢
  exact ⟨listed, accepted, hp⟩

/-- Recording the last field lets the relation pass exactly if its bits are those that it computes. -/
theorem verified?_recorded (grows : Grows (idsOf (init ++ [last])) (a.awaitWith r bits) x)
    (pending : x.pending = a.pending ++ [r]) (written : SameBits (init ++ [last]) x x) :
    x.verified? = some b ↔ r.Computes x bits ∧ b = { x with pending := a.pending } := by
  have waiting : ∀ q ∈ a.pending, q.agrees? x = none :=
    place.idle x (((grows_awaitWith a r bits).mono (List.cons_subset_cons _ (List.nil_subset _))).trans
      (grows.mono (List.subset_cons_self _ _)))
  have value : x.cell? r.id = some (.known bits) := by
    rw [grows.cell?_eq place.outside, cell?_awaitWith]
  have compared : r.agrees? x ≠ none := fun hn => h.not_waiting place.outside written (agrees?_eq_none_iff.mp hn)
  obtain ⟨agrees, ha⟩ := Option.ne_none_iff_exists'.mp compared
  rw [verified?_of_last pending waiting place.apart ha]
  cases agrees with
  | false =>
    refine iff_of_false nofun fun hc => ?_
    cases ha.symm.trans (hc.1.agrees value)
  | true =>
    rw [if_pos rfl, Option.some.injEq, eq_comm]
    exact ⟨fun hb => ⟨Relation.computes_of_agrees ha value, hb⟩, And.right⟩

end Waiting

/-! ## The two places -/

section Places

theorem mem_interpretAll_concat : p ∈ (reading.interpretAll (fields ++ [last]) a offset).toList ↔
    ∃ q ∈ (reading.interpretAll fields a offset).toList, ∃ x ∈ reading.recordsWith Assignment.verified? last q.1 q.2,
      x.verified? = some p.1 ∧ p.2 = q.2 + p.1.consumed last := by
  rw [Reading.toList_interpretAll_append, List.mem_flatMap]
  refine exists_congr fun q => and_congr_right fun _ => ?_
  rw [Reading.mem_interpretAll_cons]
  simp only [Reading.toList_interpretAll_nil, List.mem_singleton, Reading.mem_interpret]
  constructor
  · rintro ⟨b, ⟨x, hx, hb⟩, rfl⟩
    exact ⟨x, hx, hb, rfl⟩
  · rintro ⟨x, hx, hb, hend⟩
    exact ⟨p.1, ⟨x, hx, hb⟩, Prod.ext rfl hend⟩

theorem apart (place : a.PlaceFor r.id init last) : ∀ v ∈ init ++ [last], v.id ∉ [r.id] :=
  fun v hv => by simpa using ne_id place.outside hv

/-- Bits of a relation that is read behind its fields are computed from these. -/
theorem computes_of_behind (h : r.Covers init last) (place : a.PlaceFor r.id init last)
    (hp : p ∈ (reading.interpretAll (init ++ [last] ++ [.relation r]) a start).toList)
    (hbits : p.1.bits? r.id = some bits) (same : SameBits (init ++ [last]) b p.1) : r.Computes b bits := by
  rw [Reading.toList_interpretAll_append, List.mem_flatMap] at hp
  obtain ⟨q, -, hp⟩ := hp
  obtain ⟨c, hc, hp⟩ := Reading.mem_interpretAll_cons.mp hp
  rw [Reading.toList_interpretAll_nil, List.mem_singleton] at hp
  subst hp
  have grows : Grows [r.id] q.1 c := by simpa using Reading.interpret_grows (.relation r) hc
  have same' := (sameBits_iff_of_grows grows (apart place)).mp same
  obtain ⟨own, computed, hc⟩ := Reading.exists_computes_of_mem (h.not_waiting place.outside same'.right) hc
  have value : c.cell? r.id = some (.known own) := by
    rw [(verified?_eq_some_iff.mp hc).2]
    exact (cell?_setCell ..).trans (if_pos rfl)
  cases (bits?_of_cell? value).symm.trans hbits
  exact (h.computes_iff place.outside same').mp computed

variable (h : r.Covers init last) (place : a.PlaceFor r.id init last)
  (free : ∀ q, .relation q ∉ preorderAll (init ++ [last]))

include h place free

/-- What is recorded from the relation up to the last of its fields. -/
theorem recorded (hq : p ∈ (reading.interpretAll init (a.awaitWith r bits) start).toList) :
    p.1.Idle (idsOf last.children) ∧
      ∀ x ∈ reading.recordsWith Assignment.verified? last p.1 p.2,
        Grows (idsOf (init ++ [last])) (a.awaitWith r bits) x ∧ x.pending = a.pending ++ [r] := by
  have idle := h.idle_awaits place bits
  have initFree : ∀ q, .relation q ∉ preorderAll init := fun q hq =>
    free q (preorderAll_mono (List.subset_append_left _ _) hq)
  have lastFree : ∀ q, .relation q ∉ last.preorder := fun q hq =>
    free q (preorder_subset_of_mem (List.mem_append_right _ (List.mem_singleton_self _)) hq)
  obtain ⟨grows, pending⟩ := (idle.mono (List.subset_append_left _ _)).interpretAll initFree hq
  have below := (idle.grows (grows.mono (List.subset_append_left _ _)) pending).mono (List.subset_append_right _ _)
  refine ⟨below, fun x hx => ?_⟩
  obtain ⟨grows', pending'⟩ := Reading.records_idle below lastFree hx
  rw [pending', pending, pending_awaitWith a r bits place.apart, idsOf_append, idsOf_cons, idsOf_nil, List.append_nil]
  exact ⟨(grows.mono (List.subset_append_left _ _)).trans (grows'.mono (List.subset_append_right _ _)), rfl⟩

/-- Bits of a relation that is read before its fields are computed from these. -/
theorem computes_of_read (hp : p ∈ (reading.interpretAll (init ++ [last]) (a.awaitWith r bits) start).toList)
    (same : SameBits (init ++ [last]) b p.1) : r.Computes b bits := by
  obtain ⟨q, hq, x, hx, hv, -⟩ := mem_interpretAll_concat.mp hp
  obtain ⟨grows, pending⟩ := (h.recorded place free hq).2 x hx
  have same' : SameBits (init ++ [last]) b x := by
    rw [(verified?_eq_some_iff.mp hv).2] at same
    exact same
  have computed := ((h.verified?_recorded place grows pending same'.right).mp hv).1
  exact (h.computes_iff place.outside same').mp computed

section Carried

variable (same : SameBounds (preorderAll (init ++ [last]))) (remembers : ∀ v ∈ init ++ [last], v.Remembers a.known?)
  (hp : p ∈ (reading.interpretAll (init ++ [last]) a offset).toList) (stands : reading.Stands reading' base)

include same remembers

omit h place in
theorem alike_start (hk : b.known? = a.known?) : Alike 1 (preorderAll (init ++ [last])) [] a b := by
  refine .of_remembers (countsIn_one free same) (fun hl value hk => ?_) hk
  rw [preorderAll_eq] at hl
  obtain ⟨v, hv, hl⟩ := List.mem_flatMap.mp hl
  exact remembers v hv hl value hk

include hp stands

/-- The fields are recorded with the same bits while the relation waits. -/
theorem exists_recorded (bits : BitString) :
    ∃ q ∈ (reading'.interpretAll init (a.awaitWith r bits) (base + offset)).toList,
      ∃ x ∈ reading'.recordsWith Assignment.verified? last q.1 q.2,
        SameBits (init ++ [last]) p.1 x ∧ q.2 + x.consumed last = base + p.2 := by
  obtain ⟨q, hq, x, hx, hv, hend⟩ := mem_interpretAll_concat.mp hp
  have counts := countsIn_one free same
  have carried (v : Variable) (hv : v ∈ init ++ [last]) :
      reading.Carries reading' base 1 (preorderAll (init ++ [last])) v :=
    Reading.records_carried stands counts v (preorder_subset_of_mem hv)
  have first : preorderAll init ⊆ preorderAll (init ++ [last]) := preorderAll_mono (List.subset_append_left _ _)
  have idle := (h.idle_awaits place bits).mono (List.subset_append_left _ _)
  obtain ⟨q', hq', hstart, alike⟩ := Reading.interpretAll_carried counts first
    (fun c hc => carried c (List.mem_append_left _ hc)) (List.nil_subset _)
    (alike_start free same remembers (known?_awaitWith a r bits)) idle hq
  have below := (h.recorded place free hq').1
  have known : init ++ [] ⊆ preorderAll (init ++ [last]) := by
    rw [List.append_nil]
    exact fun c hc => preorder_subset_of_mem (List.mem_append_left _ hc) c.self_mem_preorder
  obtain ⟨x', hx', alike⟩ := carried last (List.mem_append_right _ (List.mem_singleton_self _)) known alike below hx
  have equal : SameBits (init ++ [last]) p.1 x' := by
    rw [(verified?_eq_some_iff.mp hv).2]
    exact alike.sameBits (by simp)
  obtain ⟨own, hown, hown'⟩ := equal last (List.mem_append_right _ (List.mem_singleton_self _))
  rw [← hstart] at hx'
  refine ⟨q', hq', x', hx', equal, ?_⟩
  rw [hstart, hown'.consumed, hend, hown.consumed, Nat.add_assoc]

/-- Fields can be read behind a relation if its bits are listed, plausible, and those that it computes. -/
theorem reads_before (before : bits.matchesAt reading'.data start = true) (next : start + bits.length = base + offset)
    (listed : bits.length ∈ r.candidateLengths (reading'.remaining start)) (accepted : r.isPlausible bits = true)
    (computed : r.Computes p.1 bits) :
    ∃ p' ∈ (reading'.interpretAll (.relation r :: (init ++ [last])) a start).toList,
      p'.1.bits? r.id = some bits ∧ SameBits (init ++ [last]) p.1 p'.1 ∧ p'.2 = base + p.2 := by
  obtain ⟨-, stood⟩ := Reading.bitsAt_of_matchesAt before
  obtain ⟨q, hq, x, hx, equal, hend⟩ := h.exists_recorded place free same remembers hp stands bits
  obtain ⟨grows, pending⟩ := (h.recorded place free hq).2 x hx
  have settled : x.verified? = some { x with pending := a.pending } :=
    (h.verified?_recorded place grows pending equal.right).mpr ⟨(h.computes_iff place.outside equal).mpr computed, rfl⟩
  have value : x.cell? r.id = some (.known bits) := (grows.cell?_eq place.outside).trans (cell?_awaitWith ..)
  refine ⟨({ x with pending := a.pending }, base + p.2), ?_, bits?_of_cell? value, equal, rfl⟩
  refine Reading.mem_interpretAll_cons.mpr ⟨a.awaitWith r bits, ?_, ?_⟩
  · exact (h.mem_interpret place).mpr ⟨bits.length, listed, by rwa [stood], by rw [stood]⟩
  · rw [consumed_of_bits? (bits?_of_cell? (cell?_awaitWith ..)), next]
    exact mem_interpretAll_concat.mpr ⟨q, hq, x, hx, settled, hend.symm⟩

/-- Before its fields a relation is read exactly with bits that are listed, plausible, and those that it computes. -/
theorem before_iff (before : bits.matchesAt reading'.data start = true) (next : start + bits.length = base + offset) :
    (∃ p' ∈ (reading'.interpretAll (.relation r :: (init ++ [last])) a start).toList,
      p'.1.bits? r.id = some bits ∧ SameBits (init ++ [last]) p.1 p'.1 ∧ p'.2 = base + p.2) ↔
      bits.length ∈ r.candidateLengths (reading'.remaining start) ∧ r.isPlausible bits = true ∧
        r.Computes p.1 bits := by
  constructor
  · rintro ⟨p', hp', hbits, equal, -⟩
    obtain ⟨listed, accepted, read⟩ := h.listed_of_before place hp' hbits
    exact ⟨listed, accepted, h.computes_of_read place free read equal⟩
  · rintro ⟨listed, accepted, computed⟩
    exact h.reads_before place free same remembers hp stands before next listed accepted computed

/-- Fields can be read before a relation wherever bits stand behind them that it computes. -/
theorem reads_behind (behind : bits.matchesAt reading'.data (base + p.2) = true) (computed : r.Computes p.1 bits) :
    ∃ p' ∈ (reading'.interpretAll (init ++ [last] ++ [.relation r]) a (base + offset)).toList,
      p'.1.bits? r.id = some bits ∧ SameBits (init ++ [last]) p.1 p'.1 ∧ p'.2 = base + p.2 + bits.length := by
  have idle : a.Idle (idsOf (init ++ [last])) := place.idle.mono (List.subset_cons_self _ _)
  obtain ⟨q, hq, hend, alike⟩ := Reading.interpretAll_carried (countsIn_one free same) (List.Subset.refl _)
    (fun v hv => Reading.records_carried stands (countsIn_one free same) v (preorder_subset_of_mem hv))
    (List.nil_subset _) (alike_start free same remembers rfl) idle hp
  obtain ⟨grows, pending⟩ := idle.interpretAll free hq
  have equal := alike.sameBits (List.subset_append_left _ _)
  have own : Grows [r.id] q.1 (q.1.setCell r.id (.known bits)) :=
    (Grows.refl _ _).setCell (List.mem_singleton_self _) _
  have settled : (q.1.setCell r.id (.known bits)).verified? = some (q.1.setCell r.id (.known bits)) :=
    place.idle.verified? ((grows.mono (List.subset_cons_self _ _)).trans
      (own.mono (List.cons_subset_cons _ (List.nil_subset _)))) pending
  have value : (q.1.setCell r.id (.known bits)).bits? r.id = some bits :=
    bits?_of_cell? ((cell?_setCell ..).trans (if_pos rfl))
  refine ⟨(_, base + p.2 + bits.length), ?_, value, (sameBits_iff_of_grows own (apart place)).mpr equal, rfl⟩
  rw [Reading.toList_interpretAll_append, List.mem_flatMap]
  refine ⟨q, hq, Reading.mem_interpretAll_cons.mpr ⟨q.1.setCell r.id (.known bits), ?_, ?_⟩⟩
  · refine Reading.mem_interpret_of_computes ((h.computes_iff place.outside equal).mpr computed) ?_ settled
    rwa [hend]
  · rw [Reading.toList_interpretAll_nil, hend, consumed_of_bits? value]
    exact List.mem_singleton_self _

/-- Behind its fields a relation is read exactly with the bits that it computes. -/
theorem behind_iff (behind : bits.matchesAt reading'.data (base + p.2) = true) :
    (∃ p' ∈ (reading'.interpretAll (init ++ [last] ++ [.relation r]) a (base + offset)).toList,
      p'.1.bits? r.id = some bits ∧ SameBits (init ++ [last]) p.1 p'.1 ∧ p'.2 = base + p.2 + bits.length) ↔
      r.Computes p.1 bits := by
  constructor
  · rintro ⟨p', hp', hbits, equal, -⟩
    exact h.computes_of_behind place hp' hbits equal
  · exact h.reads_behind place free same remembers hp stands behind

end Carried

end Places

end Relation.Covers

end WireGrammar
