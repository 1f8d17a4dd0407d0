import WireGrammar.Generation
import WireGrammar.Proofs.Relation.Lengths

/-!
# What filling in a value changes

A relation that can be computed has the bits, or the lengths, of all its targets, so to give a value to another relation
that waits changes nothing for it, except where a length was announced for that relation and is not kept
(`Relation.Computes.fillIn`).

* `Relation.Kept`: the announced lengths that a relation reads are those of the values filled in.
* `Relation.Sound`: bits that the relation computes, as far as announced lengths are kept.
-/

namespace WireGrammar

open Assignment Generation

/-! ## What stays known -/

section Known

variable {a b : Assignment} {c : Content}

/-- Bits that are known stay so, if those of the slots do. -/
theorem Assignment.flatten_mono {exclude : Option VarId}
    (h : ∀ id, .slot id ∈ c.atoms → (a.slotBits? exclude id).isSome → b.slotBits? exclude id = a.slotBits? exclude id)
    (hs : (a.flatten c exclude).isSome) : b.flatten c exclude = a.flatten c exclude := by
  obtain ⟨bits, hb⟩ := Option.isSome_iff_exists.mp hs
  obtain ⟨known, rfl⟩ := flatten_eq_some_iff.mp hb
  rw [hb, flatten_eq_some_iff]
  refine ⟨fun id hid => by rw [h id hid (known id hid)]; exact known id hid, ?_⟩
  exact Atom.fill_congr fun id hid => by rw [h id hid (known id hid)]

/-- A length that is known stays so, if those of the slots do. -/
theorem Assignment.measure_mono
    (h : ∀ id, .slot id ∈ c.atoms → (a.slotLength? id).isSome → b.slotLength? id = a.slotLength? id)
    (hs : (a.measure c).isSome) : b.measure c = a.measure c := by
  obtain ⟨n, hn⟩ := Option.isSome_iff_exists.mp hs
  obtain ⟨known, rfl⟩ := measure_eq_some_iff.mp hn
  rw [hn, measure_eq_some_iff]
  refine ⟨fun id hid => by rw [h id hid (known id hid)]; exact known id hid, ?_⟩
  exact Atom.size_congr fun id hid => by rw [h id hid (known id hid)]

end Known

/-! ## Filling in a value -/

section FillIn

variable {a : Assignment} {id : VarId} {bits : BitString} {announced? : Option Nat} {t exclude : VarId}

theorem Assignment.entry?_fillIn (a : Assignment) (id : VarId) (bits : BitString) (other : VarId) :
    entry? (a.fillIn id bits) other = if other = id then some (.cell (.known bits)) else a.entry? other :=
  entry?_setCell a id _ other

theorem Assignment.cell?_fillIn (a : Assignment) (id : VarId) (bits : BitString) (other : VarId) :
    (a.fillIn id bits).cell? other = if other = id then some (.known bits) else a.cell? other :=
  cell?_setCell id _ other

/-- A relation that gets its value reads as its own slot as before. -/
theorem Assignment.content?_fillIn (hc : a.cell? id = some (.awaited announced?)) (other : VarId) :
    (a.fillIn id bits).content? other = a.content? other := by
  rw [content?, entry?_fillIn]
  by_cases h : other = id
  · rw [if_pos h, h, content?, cell?_eq_some_iff.mp hc]
    rfl
  · rw [if_neg h, content?]

theorem Assignment.targetBits?_fillIn (hc : a.cell? id = some (.awaited announced?))
    (hk : ∀ content, a.content? t = some content → .slot id ∈ content.atoms → id = exclude →
      ∀ n, announced? = some n → bits.length = n)
    (hs : (a.targetBits? t exclude).isSome) : (a.fillIn id bits).targetBits? t exclude = a.targetBits? t exclude := by
  unfold targetBits? at hs ⊢
  rw [entry?_fillIn]
  by_cases h : t = id
  · rw [h, cell?_eq_some_iff.mp hc] at hs
    cases hs
  · rw [if_neg h]
    cases he : a.entry? t with
    | none => rfl
    | some entry =>
      rw [he] at hs
      cases entry with
      | cell cell => rfl
      | content content =>
        refine flatten_mono (fun q hq hsome => ?_) hs
        rw [slotBits?, chunkBits?] at hsome ⊢
        rw [slotBits?, chunkBits?, cell?_fillIn]
        by_cases hid : q = id
        · subst hid
          rw [if_pos rfl, hc]
          rw [hc] at hsome
          simp only [Option.bind_eq_bind, Option.bind_some, Option.some.injEq] at hsome ⊢
          by_cases hx : q = exclude
          · rw [if_pos hx] at hsome ⊢
            rw [if_pos hx]
            cases ha : announced? with
            | none => rw [Cell.length?, ha] at hsome; cases hsome
            | some n =>
              have kept := hk content (content?_of_record he) hq hx n ha
              rw [Cell.length?, Cell.length?, kept]
          · rw [if_neg hx] at hsome
            cases hsome
        · rw [if_neg hid]

theorem Assignment.targetLength?_fillIn (hc : a.cell? id = some (.awaited announced?))
    (hk : ∀ content, a.content? t = some content → .slot id ∈ content.atoms →
      ∀ n, announced? = some n → bits.length = n)
    (hs : (a.targetLength? t).isSome) : (a.fillIn id bits).targetLength? t = a.targetLength? t := by
  unfold targetLength? length? at hs ⊢
  rw [entry?_fillIn]
  by_cases h : t = id
  · subst h
    rw [cell?_eq_some_iff.mp hc] at hs ⊢
    obtain ⟨n, hn⟩ := Option.isSome_iff_exists.mp hs
    have own : a.content? t = some (.slot t) := content?_of_cell? (by rw [hc]; rfl)
    have announced : announced? = some n := hn
    have kept := hk _ own (by rw [Content.atoms_slot]; exact List.mem_singleton_self _) n announced
    rw [if_pos rfl]
    change some bits.length = announced?
    rw [kept, announced]
  · rw [if_neg h]
    cases he : a.entry? t with
    | none => rfl
    | some entry =>
      rw [he] at hs
      cases entry with
      | cell cell => rfl
      | content content =>
        refine measure_mono (fun q hq hsome => ?_) hs
        rw [slotLength?] at hsome ⊢
        rw [slotLength?, cell?_fillIn]
        by_cases hid : q = id
        · subst hid
          rw [hc] at hsome ⊢
          obtain ⟨n, hn⟩ := Option.isSome_iff_exists.mp hsome
          have announced : announced? = some n := hn
          have kept := hk content (content?_of_record he) hq n announced
          rw [if_pos rfl]
          change some bits.length = announced?
          rw [kept, announced]
        · rw [if_neg hid]

end FillIn

/-! ## Relations that can be computed -/

namespace Relation

variable {all : List Variable} {a b : Assignment} {r q : Relation} {bits value : BitString}

theorem mapM_mono {α β : Type} {f g : α → Option β} {xs : List α} (hs : (xs.mapM f).isSome)
    (h : ∀ x ∈ xs, (f x).isSome → g x = f x) : xs.mapM g = xs.mapM f :=
  mapM_congr_mem fun x hx => h x hx (isSome_mapM.mp hs x hx)

/-- A relation that can be computed is computed alike as long as what is known stays known. -/
theorem evaluate_mono (hw : r.evaluate a ≠ .ok .waiting)
    (hb : r.rule.readsLengthsOnly = false → ∀ t ∈ r.targets, t ≠ r.id → (a.targetBits? t r.id).isSome →
      b.targetBits? t r.id = a.targetBits? t r.id)
    (hl : r.rule.readsLengthsOnly = true → ∀ t ∈ r.targets, t ≠ r.id → (a.targetLength? t).isSome →
      b.targetLength? t = a.targetLength? t)
    (ho : r.ReadsItself → (r.ownLength? a).isSome → r.ownLength? b = r.ownLength? a) : r.evaluate b = r.evaluate a := by
  have bits (hr : r.rule.readsLengthsOnly = false)
      (ho : r.id ∈ r.targets → (r.ownLength? a).isSome → r.ownLength? b = r.ownLength? a)
      (hs : (r.targetsBits? a).isSome) : r.targetsBits? b = r.targetsBits? a := by
    unfold targetsBits? at hs ⊢
    rw [Option.map_eq_map, Option.isSome_map] at hs
    rw [mapM_mono hs fun t ht hsome => ?_]
    by_cases h : t = r.id
    · rw [if_pos h] at hsome ⊢
      rw [if_pos h, ho (h ▸ ht) (by rwa [Option.map_eq_map, Option.isSome_map] at hsome)]
    · rw [if_neg h] at hsome ⊢
      rw [if_neg h, hb hr t ht h hsome]
  have lengths {x y : Option Nat} (hr : r.rule.readsLengthsOnly = true) (ho : r.id ∈ r.targets → x.isSome → y = x)
      (hs : (r.targetsLength? a x).isSome) : r.targetsLength? b y = r.targetsLength? a x := by
    unfold targetsLength? at hs ⊢
    rw [Option.map_eq_map, Option.isSome_map] at hs
    rw [mapM_mono hs fun t ht hsome => ?_]
    by_cases h : t = r.id
    · rw [if_pos h] at hsome ⊢
      rw [if_pos h, ho (h ▸ ht) hsome]
    · rw [if_neg h] at hsome ⊢
      rw [if_neg h, hl hr t ht h hsome]
  have known {α : Type} {o : Option α} (hn : o = none → r.evaluate a = .ok .waiting) : o.isSome := by
    by_contra h
    exact hw (hn (Option.not_isSome_iff_eq_none.mp h))
  unfold ReadsItself at ho
  unfold evaluate at known ⊢
  cases hr : r.rule with
  | size scale =>
    rw [hr] at known
    dsimp only
    rw [lengths (by rw [hr]; rfl) (fun hm => ho ⟨hm, by rw [hr]; trivial⟩) (known fun hn => by rw [hn])]
  | copy =>
    rw [hr] at known
    dsimp only at known ⊢
    split
    next t ht =>
      rw [ht] at known
      by_cases h : t = r.id
      · rw [if_pos h, if_pos h]
      · dsimp only at known
        rw [if_neg h] at known
        rw [if_neg h, if_neg h, hb (by rw [hr]; rfl) t (by rw [ht]; exact List.mem_singleton_self t) h
          (known fun hn => by rw [hn]; rfl)]
    next => rfl
  | internetChecksum =>
    rw [hr] at known
    dsimp only
    rw [bits (by rw [hr]; rfl) (fun hm => ho ⟨hm, by rw [hr]; trivial⟩) (known fun hn => by rw [hn])]
  | crc32 =>
    rw [hr] at known
    dsimp only
    rw [bits (by rw [hr]; rfl) (fun hm => ho ⟨hm, by rw [hr]; trivial⟩) (known fun hn => by rw [hn])]
  | keyedDigest algorithm key =>
    rw [hr] at known
    dsimp only
    rw [bits (by rw [hr]; rfl) (fun hm => ho ⟨hm, by rw [hr]; trivial⟩) (known fun hn => by rw [hn])]
  | padding modulo once scale =>
    rw [hr] at known
    dsimp only
    rw [lengths (by rw [hr]; rfl) (fun _ _ => rfl) (known fun hn => by rw [hn])]

/-- A relation that is computed has read the bits, or the length, of each of its targets. -/
theorem Computes.reads (h : r.Computes a bits) {t : VarId} (ht : t ∈ r.targets) (hne : t ≠ r.id) :
    (if r.rule.readsLengthsOnly then (a.targetLength? t).isSome else (a.targetBits? t r.id).isSome) = true := by
  have known {α : Type} {o : Option α} (hn : o = none → r.evaluate a = .ok .waiting) : o.isSome := by
    by_contra hs
    exact h.not_waiting (hn (Option.not_isSome_iff_eq_none.mp hs))
  have lengths {x : Option Nat} (hs : (r.targetsLength? a x).isSome) : (a.targetLength? t).isSome := by
    unfold targetsLength? at hs
    rw [Option.map_eq_map, Option.isSome_map] at hs
    have own := isSome_mapM.mp hs t ht
    rwa [if_neg hne] at own
  have bits (hs : (r.targetsBits? a).isSome) : (a.targetBits? t r.id).isSome := by
    unfold targetsBits? at hs
    rw [Option.map_eq_map, Option.isSome_map] at hs
    have own := isSome_mapM.mp hs t ht
    rwa [if_neg hne] at own
  cases hr : r.rule with
  | size scale => exact lengths (x := r.ownLength? a) (known fun hn => by simp only [evaluate, hr, hn])
  | copy =>
    unfold Computes evaluate at h
    rw [hr] at h
    dsimp only at h
    split at h
    next target htargets =>
      rw [htargets, List.mem_singleton] at ht
      subst ht
      exact known fun hn => by simp only [evaluate, hr, htargets, if_neg hne, hn, Option.elim_none]
    next => rcases h with h | ⟨n, h, -⟩ <;> cases h
  | internetChecksum => exact bits (known fun hn => by simp only [evaluate, hr, hn])
  | crc32 => exact bits (known fun hn => by simp only [evaluate, hr, hn])
  | keyedDigest algorithm key => exact bits (known fun hn => by simp only [evaluate, hr, hn])
  | padding modulo once scale => exact lengths (x := some 0) (known fun hn => by simp only [evaluate, hr, hn])

/-- A target in scope that has been read is recorded. -/
theorem Computes.recorded (h : r.Computes a bits) {t : VarId} (ht : t ∈ r.targets) (hne : t ≠ r.id)
    (hs : a.scope.contains t = true) : (a.entry? t).isSome := by
  have reads := h.reads ht hne
  by_contra hn
  rw [Option.not_isSome_iff_eq_none] at hn
  unfold targetLength? targetBits? at reads
  rw [hn, hs] at reads
  split at reads <;> cases reads

/--
To fill in the value of a relation that waits does not change what another one computes, if the announced length is
kept where it is read: by a relation that reads lengths, and by the relation itself.
-/
theorem Computes.fillIn (h : r.Computes a bits) (hc : a.cell? q.id = some (.awaited (announcedLength? q)))
    (same : q.id = r.id → q = r)
    (hk : ∀ t ∈ r.targets, ∀ content, a.content? t = some content → .slot q.id ∈ content.atoms →
      r.rule.readsLengthsOnly = true ∨ q.id = r.id → ∀ n, announcedLength? q = some n → value.length = n) :
    r.Computes (a.fillIn q.id value) bits := by
  refine h.congr (evaluate_mono h.not_waiting (fun _ t ht _ hs => ?_) (fun hr t ht _ hs => ?_) fun hm hs => ?_)
  · exact targetBits?_fillIn hc (fun content hcontent hslot he => hk t ht content hcontent hslot (Or.inr he)) hs
  · exact targetLength?_fillIn hc (fun content hcontent hslot => hk t ht content hcontent hslot (Or.inl hr)) hs
  · by_cases he : q.id = r.id
    · obtain rfl := same he
      have own : a.content? q.id = some (.slot q.id) := content?_of_cell? (by rw [hc]; rfl)
      -- a relation that reads its own length is no padding, so its type announces that length
      have announced : announcedLength? q = q.type.fixedLength? := by
        have reads := hm.2
        unfold announcedLength?
        split
        next hr => rw [hr] at reads; cases reads
        next => rfl
      unfold ownLength? at hs ⊢
      rw [cell?_fillIn, if_pos rfl, hc]
      rw [hc] at hs
      obtain ⟨n, hn⟩ : ∃ n, announcedLength? q = some n := by
        rw [announced]
        rw [announced] at hs
        exact Option.isSome_iff_exists.mp (by simpa [Cell.length?] using hs)
      have kept := hk q.id hm.1 _ own (by rw [Content.atoms_slot]; exact List.mem_singleton_self _) (Or.inr rfl) n hn
      rw [hn, Option.bind_some, Option.bind_some, Cell.length?, Cell.length?, kept]
    · rw [ownLength?, cell?_fillIn, if_neg (Ne.symm he), ownLength?]

/-! ## Values that stay right -/

/-- The lengths announced for relations in the targets are those of the values that they have got. -/
def Kept (all : List Variable) (r : Relation) (a : Assignment) : Prop :=
  ∀ t ∈ r.targets, ∀ content, a.content? t = some content → ∀ q, .relation q ∈ all → .slot q.id ∈ content.atoms →
    ¬ q.IsFixed → ∀ bits, a.cell? q.id = some (.known bits) → ∀ n, announcedLength? q = some n → bits.length = n

/--
Bits that a relation computes, as far as the announced lengths that it reads are kept; where its values have one
length, they have it in any case.
-/
structure Sound (all : List Variable) (r : Relation) (a : Assignment) (bits : BitString) : Prop where
  length : r.IsFixed → r.type.fixedLength? = some bits.length
  computes : (r.rule.readsLengthsOnly = true → r.Kept all a) → r.Computes a bits

theorem Computes.sound (h : r.Computes a bits) : r.Sound all a bits :=
  ⟨fun hf => hf.length_eq h, fun _ => h⟩

/-- What is right goes on being right when the value of a relation that waits is filled in. -/
theorem Sound.fillIn (h : r.Sound all a bits) (hq : .relation q ∈ all)
    (hc : a.cell? q.id = some (.awaited (announcedLength? q))) (hv : q.Computes a value) (same : q.id = r.id → q = r)
    -- a copy shows nothing of itself, and other relations that read bits have values of one length
    (own : r.rule.readsLengthsOnly = false → r.IsFixed ∨
      ∀ t ∈ r.targets, ∀ content, a.content? t = some content → .slot r.id ∉ content.atoms) :
    r.Sound all (a.fillIn q.id value) bits := by
  refine ⟨h.length, fun kept => ?_⟩
  have keptBefore (hr : r.rule.readsLengthsOnly = true) : r.Kept all a := by
    intro t ht content hcontent p hp hslot hf known hknown
    refine kept hr t ht content ((content?_fillIn hc t).trans hcontent) p hp hslot hf known ?_
    rw [cell?_fillIn, if_neg fun he => ?_]
    · exact hknown
    · rw [he, hc] at hknown
      cases hknown
  refine (h.computes keptBefore).fillIn hc same fun t ht content hcontent hslot hr n hn => ?_
  have fixed (hf : q.IsFixed) : value.length = n := by
    have announced : announcedLength? q = q.type.fixedLength? := by
      unfold announcedLength?
      split
      next hr => rw [IsFixed, hr] at hf; cases hf
      next => rfl
    exact Option.some.inj ((hf.length_eq hv).symm.trans (announced.symm.trans hn))
  cases hl : r.rule.readsLengthsOnly with
  | true =>
    by_cases hf : q.IsFixed
    · exact fixed hf
    · refine kept hl t ht content ((content?_fillIn hc t).trans hcontent) q hq hslot hf value ?_ n hn
      rw [cell?_fillIn, if_pos rfl]
  | false =>
    obtain rfl := same (hr.resolve_left (by rw [hl]; exact Bool.false_ne_true))
    rcases own hl with hf | ho
    · exact fixed hf
    · exact absurd hslot (ho t ht content hcontent)

end Relation

end WireGrammar
