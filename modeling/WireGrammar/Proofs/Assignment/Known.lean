import WireGrammar.Proofs.Assignment.Content
import WireGrammar.Proofs.Assignment.Growth

/-!
# What is known

Records whose bits are all known (`Assignment.Spells`), and relations that go on to wait whatever is recorded for some
variables (`Assignment.Idle`): there a comparison changes nothing.
-/

namespace WireGrammar.Assignment

/-! ## Bits that are known for good -/

section Spells

variable {a b : Assignment} {id : VarId} {bits : BitString}

theorem bits?_of_cell? (h : a.cell? id = some (.known bits)) : a.bits? id = some bits := by
  rw [Assignment.bits?, cell?_eq_some_iff.mp h]
  rfl

/-- All bits of a variable are known, and it is no relation that waits. -/
inductive Spells (a : Assignment) (id : VarId) (bits : BitString) : Prop where
  | content {c : Content} (h : a.entry? id = some (.content c)) (hc : c.atoms = Atom.ofBits bits)
  | value (h : a.cell? id = some (.known bits)) (hp : a.isPending id = false)

namespace Spells

theorem bits? (h : a.Spells id bits) : a.bits? id = some bits := by
  cases h with
  | content h hc => exact bits?_of_ofBits h hc
  | value h hp => exact bits?_of_cell? h

theorem length? (h : a.Spells id bits) : a.length? id = some bits.length :=
  length?_of_bits? h.bits?

/-- What is put into the content of a node for the variable. -/
theorem content? (h : a.Spells id bits) :
    ∃ c, a.content? id = some c ∧ c.atoms.flatMap a.settleAtom = Atom.ofBits bits := by
  cases h with
  | content h hc => exact ⟨_, content?_of_record h, by rw [hc, settleAtom_ofBits]⟩
  | value h hp =>
    refine ⟨.slot id, content?_of_cell? (by rw [h]; rfl), ?_⟩
    rw [Content.atoms_slot, List.flatMap_singleton, settleAtom_of_known hp h]

theorem targetLength? (h : a.Spells id bits) : a.targetLength? id = some bits.length := by
  have recorded : ∃ entry, a.entry? id = some entry := by
    cases h with
    | content h hc => exact ⟨_, h⟩
    | value h hp => exact ⟨_, cell?_eq_some_iff.mp h⟩
  obtain ⟨entry, he⟩ := recorded
  rw [Assignment.targetLength?, he]
  exact h.length?

/-- Bits known stay as long as nothing is recorded for the variable. -/
theorem grows {ids : List VarId} (h : a.Spells id bits) (hg : Grows ids a b) (hid : id ∉ ids)
    (hp : b.pending ⊆ a.pending) : b.Spells id bits := by
  cases h with
  | content h hc => exact .content ((hg.entry?_eq hid).trans h) hc
  | value h hw =>
    refine .value ((hg.cell?_eq hid).trans h) ?_
    rw [isPending, List.any_eq_false] at hw ⊢
    exact fun r hr => hw r (hp hr)

end Spells

/-- What is known of a variable without a record stays as long as nothing is recorded for it. -/
theorem Grows.targetLength?_eq {ids : List VarId} (hg : Grows ids a b) (hid : id ∉ ids) (h : a.entry? id = none) :
    b.targetLength? id = a.targetLength? id := by
  rw [targetLength?, hg.entry?_eq hid, h, targetLength?, h, hg.scope, hg.known?_eq hid]

end Spells

/-! ## Comparisons that change nothing -/

section Idle

variable {a b : Assignment} {ids ids' : List VarId}

/-- Whatever is added for the given variables, the relations that wait go on to wait. -/
def Idle (a : Assignment) (ids : List VarId) : Prop :=
  ∀ b, Grows ids a b → ∀ r ∈ a.pending, r.agrees? b = none

theorem idle_of_pending_nil (h : a.pending = []) (ids : List VarId) : a.Idle ids := by
  intro b _ r hr
  rw [h] at hr
  cases hr

/-- Relations that all wait keep a comparison from changing anything. -/
theorem verified?_of_waiting (h : ∀ r ∈ a.pending, r.agrees? a = none) : a.verified? = some a := by
  rw [verified?_eq_some_iff]
  refine ⟨fun r hr => by simp [h r hr], ?_⟩
  have kept : a.pending.filter (fun r => !a.anyAgrees a.pending r.id) = a.pending := by
    refine List.filter_eq_self.mpr fun r _ => ?_
    rw [Bool.not_eq_true', anyAgrees, List.any_eq_false]
    intro q hq
    simp [h q hq]
  rw [kept]

/-- A comparison in which only the last relation has something to be compared with. -/
theorem verified?_of_last {ps : List Relation} {r : Relation} (hp : a.pending = ps ++ [r])
    (hw : ∀ q ∈ ps, q.agrees? a = none) (hid : ∀ q ∈ ps, q.id ≠ r.id) {agrees : Bool}
    (hr : r.agrees? a = some agrees) :
    a.verified? = if agrees then some { a with pending := ps } else none := by
  cases agrees with
  | false =>
    rw [if_neg Bool.false_ne_true, Option.eq_none_iff_forall_ne_some]
    intro b hb
    refine (verified?_eq_some_iff.mp hb).1 r ?_ hr
    rw [hp]
    exact List.mem_append_right _ List.mem_cons_self
  | true =>
    rw [if_pos rfl, verified?_eq_some_iff]
    have others : ∀ q ∈ ps, a.anyAgrees a.pending q.id = false := by
      intro q hq
      rw [anyAgrees, hp, List.any_append, List.any_cons, List.any_nil, Bool.or_false, beq_false_of_ne (hid q hq).symm,
        Bool.false_and, Bool.or_false, List.any_eq_false]
      intro p hp
      simp [hw p hp]
    have own : a.anyAgrees a.pending r.id = true := by
      rw [anyAgrees, hp, List.any_append, List.any_cons, hr]
      simp
    refine ⟨fun q hq => ?_, ?_⟩
    · rw [hp] at hq
      rcases List.mem_append.mp hq with hq | hq
      · simp [hw q hq]
      · rw [List.mem_singleton.mp hq, hr]
        simp
    · have kept : a.pending.filter (fun q => !a.anyAgrees a.pending q.id) = ps := by
        conv_lhs => rw [hp]
        rw [List.filter_append, List.filter_cons, ← hp, own]
        simp only [Bool.not_true, Bool.false_eq_true, if_false, List.filter_nil, List.append_nil]
        exact List.filter_eq_self.mpr fun q hq => by rw [others q hq]; rfl
      rw [kept]

theorem Idle.verified? (h : a.Idle ids) (hg : Grows ids a b) (hp : b.pending = a.pending) :
    b.verified? = some b :=
  verified?_of_waiting fun r hr => h b hg r (hp ▸ hr)

theorem Idle.mono (h : a.Idle ids) (hs : ids' ⊆ ids) : a.Idle ids' :=
  fun b hb => h b (hb.mono hs)

theorem Idle.grows (h : a.Idle ids) (hb : Grows ids a b) (hp : b.pending = a.pending) : b.Idle ids := by
  intro c hc r hr
  exact h c (hb.trans hc) r (hp ▸ hr)

end Idle

end WireGrammar.Assignment
