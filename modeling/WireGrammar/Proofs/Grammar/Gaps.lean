import WireGrammar.Proofs.Grammar.Words

/-!
# Gaps and laid out words

Skipping blanks leaves the text behind the longest gap (`Gap.skipBlanks_append`, `parted`), so that a text lays out a
word where the word begins behind the blanks (`Laid.next`, `Laid.of_skipBlanks`).
-/

namespace WireGrammar.Grammar

open Lexeme

variable {cs rest : List Char}

/-! ## Gaps -/

/-- The characters that neither belong to a gap nor begin a comment. -/
def isSolid (c : Char) : Bool :=
  !isBlank c && c != '/'

theorem isSolid_of {p : Char → Bool} (hp : [' ', '\t', '\r', '\n', '/'].any p = false) {c : Char} (hc : p c) :
    isSolid c := by
  cases hs : isSolid c with
  | true => rfl
  | false =>
    have mem : c ∈ [' ', '\t', '\r', '\n', '/'] := by
      simpa [isSolid, isBlank, imp_iff_not_or, or_assoc] using hs
    exact absurd hc (List.any_eq_false.mp hp c mem)

theorem isSolid_of_isNameChar {c : Char} (h : isNameChar c) : isSolid c :=
  isSolid_of (p := isNameChar) (by decide) h

theorem isSolid_of_startsNumber {c : Char} (h : startsNumber c) : isSolid c :=
  isSolid_of (p := startsNumber) (by decide) h

theorem IsName.solid {w : List Char} (hw : IsName w) : Begins isSolid w :=
  hw.begins.mono fun _ hc => isSolid_of_isNameChar (isNameChar_of_startsName hc)

theorem IsInteger.solid {w : List Char} (hw : IsInteger w) : Begins isSolid w :=
  hw.begins.mono fun _ => isSolid_of_startsNumber

theorem IsQuoted.solid {w : List Char} (hw : IsQuoted w) : Begins isSolid w :=
  hw.begins.mono fun _ => isSolid_of (p := (· == '"')) (by decide)

theorem Expr.Spelled.solid {e : Expr} {w : String} (h : Expr.Spelled e w) : Begins isSolid w.toList := by
  rcases h.begins with hb | hn
  · exact hb.mono fun _ => isSolid_of (p := fun c => startsNumber c || c == '"') (by decide)
  · exact hn.solid

theorem skipBlanks_of_begins (h : Begins isSolid cs) : skipBlanks cs = cs := by
  obtain ⟨c, hc, hs⟩ := h
  cases cs with
  | nil => cases hc
  | cons d rest =>
    cases hc
    have solid : isBlank c = false ∧ c ≠ '/' := by simpa [isSolid] using hs
    rw [Lexeme.skipBlanks, if_neg (by simp [solid.1])]
    exact fun _ hc _ => solid.2 hc

theorem skipComment_append {line : List Char} (h : '\n' ∉ line) (cs : List Char) :
    skipComment (line ++ '\n' :: cs) = skipBlanks cs := by
  induction line with
  | nil => rfl
  | cons c line ih =>
    obtain ⟨hc, hl⟩ := not_or.mp fun hm => h (List.mem_cons.mpr hm)
    rw [List.cons_append, skipComment, if_neg (by simpa using Ne.symm hc), ih hl]

theorem skipComment_eq_nil {line : List Char} (h : '\n' ∉ line) : skipComment line = [] := by
  induction line with
  | nil => rfl
  | cons c line ih =>
    obtain ⟨hc, hl⟩ := not_or.mp fun hm => h (List.mem_cons.mpr hm)
    rw [skipComment, if_neg (by simpa using Ne.symm hc), ih hl]

theorem Gap.skipBlanks_append {gap : List Char} (h : Gap gap) (cs : List Char) :
    skipBlanks (gap ++ cs) = skipBlanks cs := by
  induction h with
  | nil => rfl
  | @blank c gap hb _ ih =>
    rw [List.cons_append, skipBlanks, if_pos hb, ih]
    rintro rest rfl
    exact absurd hb (by decide)
  | comment hl _ ih =>
    rw [List.cons_append, List.cons_append, List.append_assoc, List.cons_append, skipBlanks,
      skipComment_append hl, ih]

theorem Ending.skipBlanks {ending : List Char} (h : Ending ending) : skipBlanks ending = [] := by
  cases h with
  | gap hg => rw [← List.append_nil ending, hg.skipBlanks_append, Lexeme.skipBlanks]
  | comment hg hl => rw [hg.skipBlanks_append, Lexeme.skipBlanks, skipComment_eq_nil hl]

theorem Gap.append {gap gap' : List Char} (h : Gap gap) (h' : Gap gap') : Gap (gap ++ gap') := by
  induction h with
  | nil => exact h'
  | blank hb _ ih => exact .blank hb ih
  | comment hl _ ih =>
    rw [List.cons_append, List.cons_append, List.append_assoc, List.cons_append]
    exact .comment hl ih

theorem Gap.ending {gap ending : List Char} (h : Gap gap) (h' : Ending ending) : Ending (gap ++ ending) := by
  cases h' with
  | gap hg => exact .gap (h.append hg)
  | comment hg hl => exact List.append_assoc gap _ _ ▸ .comment (h.append hg) hl

/-- The text goes on behind a gap, or it ends. -/
def Parted (cs : List Char) : Prop :=
  (∃ gap, Gap gap ∧ cs = gap ++ skipBlanks cs) ∨ skipBlanks cs = [] ∧ Ending cs

theorem Gap.parted {gap : List Char} (hg : Gap gap) (h : Parted cs) : Parted (gap ++ cs) := by
  rw [Parted, hg.skipBlanks_append]
  rcases h with ⟨gap', hg', he⟩ | ⟨hn, he⟩
  · exact .inl ⟨gap ++ gap', hg.append hg', by rw [List.append_assoc, ← he]⟩
  · exact .inr ⟨hn, hg.ending he⟩

theorem parted (cs : List Char) : Parted cs := by
  -- inside a comment, what follows the end of the line is parted
  refine skipBlanks.induct Parted (fun cs => ∀ line more, '\n' ∉ line → cs = line ++ '\n' :: more → Parted more)
    ?_ ?comment ?blank ?word ?_ ?lineEnd ?line cs
  case comment =>
    intro rest ih
    by_cases hn : '\n' ∈ rest
    · obtain ⟨line, more, rfl, hl⟩ := List.eq_append_cons_of_mem hn
      have := (Gap.comment hl .nil).parted (ih line more hl rfl)
      rwa [List.cons_append, List.cons_append, List.append_assoc] at this
    · exact .inr ⟨by rw [skipBlanks, skipComment_eq_nil hn], .comment .nil hn⟩
  case blank => exact fun c rest _ hb ih => (Gap.blank hb .nil).parted ih
  case word => exact fun c rest hc hb => .inl ⟨[], .nil, by rw [skipBlanks, if_neg hb]; exacts [rfl, hc]⟩
  case lineEnd =>
    intro c rest hc ih line more hl he
    cases line with
    | nil => cases he; exact ih
    | cons d line => cases he; exact absurd (List.mem_cons.mpr (.inl (beq_iff_eq.mp hc).symm)) hl
  case line =>
    intro c rest hc ih line more hl he
    cases line with
    | nil => cases he; exact absurd rfl hc
    | cons d line => cases he; exact ih line more (fun hm => hl (List.mem_cons_of_mem _ hm)) rfl
  · exact .inr ⟨rfl, .gap .nil⟩
  · exact fun line more _ he => absurd he.symm (by simp)

theorem exists_gap (h : skipBlanks cs ≠ []) : ∃ gap, Gap gap ∧ cs = gap ++ skipBlanks cs :=
  (parted cs).resolve_right fun hn => h hn.1

theorem ending_of_skipBlanks (h : skipBlanks cs = []) : Ending cs := by
  rcases parted cs with ⟨gap, hg, he⟩ | ⟨-, he⟩
  · rw [h, List.append_nil] at he
    exact he ▸ .gap hg
  · exact he

/-- What stops behind the gap stops before it, as no gap begins with the characters of a word. -/
theorem Stops.of_skipBlanks {p : Char → Bool} (hp : ∀ c, p c → isSolid c) (h : Stops p (skipBlanks cs)) :
    Stops p cs := by
  intro c hc
  cases hpc : p c with
  | false => rfl
  | true =>
    cases cs with
    | nil => cases hc
    | cons d rest =>
      cases hc
      rw [skipBlanks_of_begins ⟨c, rfl, hp c hpc⟩] at h
      exact hpc ▸ stops_cons.mp h

/-! ## Laid out words -/

variable {word : String} {ws vs : List String}

theorem laid_nil : Laid [] cs rest ↔ cs = rest := by
  constructor
  · rintro ⟨⟩
    rfl
  · rintro rfl
    exact .nil

theorem laid_append : Laid (ws ++ vs) cs rest ↔ ∃ mid, Laid ws cs mid ∧ Laid vs mid rest := by
  constructor
  · intro h
    induction ws generalizing cs with
    | nil => exact ⟨cs, .nil, h⟩
    | cons w ws ih =>
      cases h with
      | cons hg h =>
        obtain ⟨mid, hm, hv⟩ := ih h
        exact ⟨mid, .cons hg hm, hv⟩
  · rintro ⟨mid, hw, hv⟩
    induction hw with
    | nil => exact hv
    | cons hg _ ih => exact .cons hg (ih hv)

/-- Solid words begin behind the blanks and comments. -/
theorem Laid.next (h : Laid (word :: ws) cs rest) (hw : Begins isSolid word.toList) :
    ∃ mid, skipBlanks cs = word.toList ++ mid ∧ Laid ws mid rest := by
  cases h with
  | @cons gap _ _ mid _ hg h =>
    exact ⟨mid, by rw [hg.skipBlanks_append, skipBlanks_of_begins (hw.append mid)], h⟩

/-- A mark also ends the name before it. -/
theorem Laid.mark {c : Char} (h : Laid (word :: ws) cs rest) (hw : word.toList.head? = some c) (hc : isSolid c)
    (hn : isNameChar c = false) :
    ∃ mid, skipBlanks cs = word.toList ++ mid ∧ Laid ws mid rest ∧ Stops isNameChar cs := by
  have begins : Begins isSolid word.toList := ⟨c, hw, hc⟩
  obtain ⟨mid, he, h⟩ := h.next begins
  have stops : Stops isNameChar word.toList := fun d hd => by
    cases hw.symm.trans hd
    exact hn
  exact ⟨mid, he, h, .of_skipBlanks (fun _ => isSolid_of_isNameChar) (he ▸ stops.append begins.ne_nil mid)⟩

theorem Laid.of_skipBlanks {mid : List Char} (hw : word.toList ≠ []) (he : skipBlanks cs = word.toList ++ mid)
    (h : Laid ws mid rest) : Laid (word :: ws) cs rest := by
  have hne : skipBlanks cs ≠ [] := he ▸ List.append_ne_nil_of_left_ne_nil hw mid
  obtain ⟨gap, hg, hcs⟩ := exists_gap hne
  rw [hcs, he]
  exact .cons hg h

theorem Laid.length_le (h : Laid ws cs rest) : rest.length ≤ cs.length := by
  induction h with
  | nil => exact Nat.le_refl _
  | cons _ _ ih => simp only [List.length_append]; omega

theorem skipBlanks_skipBlanks (cs : List Char) : skipBlanks (skipBlanks cs) = skipBlanks cs := by
  rcases parted cs with ⟨gap, hg, he⟩ | ⟨hn, -⟩
  · rw [← hg.skipBlanks_append, ← he]
  · rw [hn, skipBlanks]

theorem length_skipBlanks_le (cs : List Char) : (skipBlanks cs).length ≤ cs.length := by
  rcases parted cs with ⟨gap, -, he⟩ | ⟨hn, -⟩
  · calc (skipBlanks cs).length ≤ (gap ++ skipBlanks cs).length := by simp
      _ = cs.length := by rw [← he]
  · simp [hn]

theorem length_of_skipBlanks {w mid : List Char} (h : skipBlanks cs = w ++ mid) :
    w.length + mid.length ≤ cs.length := by
  rw [← List.length_append, ← h]
  exact length_skipBlanks_le cs

theorem Laid.length_lt (h : Laid (word :: ws) cs rest) (hw : Begins isSolid word.toList) :
    rest.length < (skipBlanks cs).length := by
  obtain ⟨mid, he, h⟩ := h.next hw
  have := h.length_le
  have := List.length_pos_of_ne_nil hw.ne_nil
  rw [he, List.length_append]
  omega

end WireGrammar.Grammar
