import WireGrammar.Proofs.Grammar.Words

/-!
# Escapes in quoted words

The inside of a quoted word is a sequence of pieces, in one way only: single characters, and pairs of a backslash and
any character (`Pieces`). Each piece has a value of its own. The escapes of a word are replaced one kind after the
other, which is a replacement in pieces (`replaceEscape_spelling`), but not always in the same ones: the second
backslash of a pair takes a letter behind the pair as if the two were a pair (`taken`). So a word stands for the values
of its pieces exactly if no letter of an escape follows a pair of backslashes (`escapes_decoded`).
-/

namespace WireGrammar.Grammar

open Lexeme

/-- A part of the inside of a quoted word. -/
inductive Piece where
  | plain (c : Char)
  /-- A backslash and the character behind it. -/
  | pair (c : Char)
  deriving DecidableEq

namespace Piece

def spelling : Piece → List Char
  | plain c => [c]
  | pair c => ['\\', c]

/-- No quote stands by itself, since it would end the word, and no backslash, since it would begin a pair. -/
def IsValid : Piece → Prop
  | plain c => c ≠ '"' ∧ c ≠ '\\'
  | pair _ => True

/-- What a character behind a backslash stands for, if the two are an escape. -/
def escape? : Char → Option Char
  | 'n' => some '\n'
  | 't' => some '\t'
  | '"' => some '"'
  | _ => none

/-- What a piece stands for: an escape for its character, anything else for itself. -/
def value : Piece → List Char
  | plain c => [c]
  | pair c => (escape? c).elim ['\\', c] ([·])

end Piece

open Piece (spelling value escape?)

/-- A quoted word whose inside is cut into pieces. -/
structure Pieces (word : List Char) (pieces : List Piece) : Prop where
  valid : ∀ p ∈ pieces, p.IsValid
  eq_spelling : word = '"' :: (pieces.flatMap spelling ++ ['"'])

variable {pieces : List Piece} {word : List Char}

/-! ## Words and their pieces -/

theorem IsQuotable.exists_pieces {inner : List Char} (h : IsQuotable inner) :
    ∃ pieces : List Piece, (∀ p ∈ pieces, p.IsValid) ∧ inner = pieces.flatMap spelling := by
  induction h with
  | nil => exact ⟨[], by simp, rfl⟩
  | @plain c inner hq hb _ ih =>
    obtain ⟨pieces, valid, rfl⟩ := ih
    exact ⟨.plain c :: pieces, List.forall_mem_cons.mpr ⟨⟨hq, hb⟩, valid⟩, rfl⟩
  | @escaped c inner _ ih =>
    obtain ⟨pieces, valid, rfl⟩ := ih
    exact ⟨.pair c :: pieces, List.forall_mem_cons.mpr ⟨trivial, valid⟩, rfl⟩

theorem spelling_injective {others : List Piece} (hp : ∀ p ∈ pieces, p.IsValid) (ho : ∀ p ∈ others, p.IsValid)
    (h : pieces.flatMap spelling = others.flatMap spelling) : pieces = others := by
  induction pieces generalizing others with
  | nil =>
    cases others with
    | nil => rfl
    | cons q others => cases q <;> cases h
  | cons p pieces ih =>
    obtain ⟨valid, tail⟩ := List.forall_mem_cons.mp hp
    cases others with
    | nil => cases p <;> cases h
    | cons q others =>
      obtain ⟨valid', tail'⟩ := List.forall_mem_cons.mp ho
      cases p with
      | plain c =>
        cases q with
        | plain d =>
          obtain ⟨rfl, same⟩ := List.cons.inj h
          rw [ih tail tail' same]
        | pair d => exact absurd (List.cons.inj h).1 valid.2
      | pair c =>
        cases q with
        | plain d => exact absurd (List.cons.inj h).1.symm valid'.2
        | pair d =>
          obtain ⟨rfl, same⟩ := List.cons.inj (List.cons.inj h).2
          rw [ih tail tail' same]

/-- A word is cut into pieces in one way only. -/
theorem Pieces.unique {others : List Piece} (h : Pieces word pieces) (h' : Pieces word others) : others = pieces := by
  refine spelling_injective h'.valid h.valid ?_
  have same := h'.eq_spelling.symm.trans h.eq_spelling
  exact List.append_cancel_right (List.cons.inj same).2

/-- A word that is read is cut into pieces. -/
theorem exists_pieces_of_quoted {cs rest : List Char} (h : quoted cs = some (word, rest)) :
    ∃ pieces, Pieces word pieces := by
  obtain ⟨hw, -⟩ := isQuoted_of_quoted h
  cases hw with
  | intro hi =>
    obtain ⟨pieces, valid, rfl⟩ := hi.exists_pieces
    exact ⟨pieces, valid, rfl⟩

/-! ## One kind of escape -/

/-- The pieces after one kind of escape has been replaced by its letter. A pair of backslashes and the escaped
character behind it leave a backslash and the letter. -/
def swapped (escaped letter : Char) : List Piece → List Piece
  | .pair '\\' :: .plain c :: rest =>
    if c = escaped then .pair letter :: swapped escaped letter rest
    else .pair '\\' :: .plain c :: swapped escaped letter rest
  | .pair c :: rest => (if c = escaped then .plain letter else .pair c) :: swapped escaped letter rest
  | .plain c :: rest => .plain c :: swapped escaped letter rest
  | [] => []

section Swapped

variable {escaped letter : Char}

theorem replaceEscape_of_ne {c : Char} (h : c ≠ '\\') (rest : List Char) :
    replaceEscape escaped letter (c :: rest) = c :: replaceEscape escaped letter rest := by
  rw [replaceEscape]
  exact fun _ _ hc _ => h hc

theorem replaceEscape_pair (c : Char) (rest : List Char) :
    replaceEscape escaped letter ('\\' :: c :: rest) =
      if c = escaped then letter :: replaceEscape escaped letter rest
      else '\\' :: replaceEscape escaped letter (c :: rest) := by
  rw [replaceEscape]

/-- A backslash stays before another pair, and at the end. -/
theorem replaceEscape_backslash (h : ∀ d back, pieces ≠ .plain d :: back) (he : escaped ≠ '\\') :
    replaceEscape escaped letter ('\\' :: pieces.flatMap spelling) =
      '\\' :: replaceEscape escaped letter (pieces.flatMap spelling) := by
  cases pieces with
  | nil => rfl
  | cons p back =>
    cases p with
    | plain d => exact absurd rfl (h d back)
    | pair d =>
      change replaceEscape escaped letter ('\\' :: '\\' :: d :: back.flatMap spelling) = _
      rw [replaceEscape_pair, if_neg he.symm]
      rfl

/-- A pair of backslashes stays, unless the escaped character follows it. -/
theorem swapped_backslashes (he : escaped ≠ '\\') (h : pieces.head? ≠ some (.plain escaped)) :
    swapped escaped letter (.pair '\\' :: pieces) = .pair '\\' :: swapped escaped letter pieces := by
  cases pieces with
  | nil =>
    rw [swapped, if_neg he.symm]
    exact fun _ _ h => nomatch h
  | cons p rest =>
    cases p with
    | plain c =>
      have hc : c ≠ escaped := fun hc => h (congrArg (some ∘ Piece.plain) hc)
      rw [swapped, if_neg hc, swapped]
    | pair c =>
      rw [swapped, if_neg he.symm]
      exact fun _ _ h => nomatch h

theorem swapped_pair {c : Char} (hc : c ≠ '\\') (rest : List Piece) :
    swapped escaped letter (.pair c :: rest) =
      (if c = escaped then .plain letter else .pair c) :: swapped escaped letter rest := by
  rw [swapped]
  exact fun _ _ _ h => hc h

/-- To replace a kind of escape in a word is to replace it in pieces. -/
theorem replaceEscape_spelling (he : escaped ≠ '\\') (hp : ∀ c, .plain c ∈ pieces → c ≠ '\\') :
    replaceEscape escaped letter (pieces.flatMap spelling) = (swapped escaped letter pieces).flatMap spelling := by
  fun_induction swapped escaped letter pieces with
  | case1 more ih =>
    have ih := ih fun c hc => hp c (List.mem_cons_of_mem _ (List.mem_cons_of_mem _ hc))
    change replaceEscape escaped letter ('\\' :: '\\' :: escaped :: more.flatMap spelling) = _
    rw [replaceEscape_pair, if_neg he.symm, replaceEscape_pair, if_pos rfl, ih]
    rfl
  | case2 c more hc ih =>
    have ih := ih fun c hc => hp c (List.mem_cons_of_mem _ (List.mem_cons_of_mem _ hc))
    have own : c ≠ '\\' := hp c (by simp)
    change replaceEscape escaped letter ('\\' :: '\\' :: c :: more.flatMap spelling) = _
    rw [replaceEscape_pair, if_neg he.symm, replaceEscape_pair, if_neg hc, replaceEscape_of_ne own, ih]
    rfl
  | case3 c more hn ih =>
    have ih := ih fun c hc => hp c (List.mem_cons_of_mem _ hc)
    change replaceEscape escaped letter ('\\' :: c :: more.flatMap spelling) = _
    rw [replaceEscape_pair]
    split
    next => rw [ih]; rfl
    next hc =>
      by_cases hb : c = '\\'
      · -- what follows the second backslash is another pair or nothing
        cases hb
        rw [replaceEscape_backslash (fun d back hd => hn d back hd rfl) he, ih]
        rfl
      · rw [replaceEscape_of_ne hb, ih]
        rfl
  | case4 c more ih =>
    have ih := ih fun c hc => hp c (List.mem_cons_of_mem _ hc)
    have own : c ≠ '\\' := hp c (by simp)
    change replaceEscape escaped letter (c :: more.flatMap spelling) = _
    rw [replaceEscape_of_ne own, ih]
    rfl
  | case5 => rfl

theorem plain_mem_of_swapped {c : Char} (h : .plain c ∈ swapped escaped letter pieces) :
    .plain c ∈ pieces ∨ c = letter := by
  fun_induction swapped escaped letter pieces with
  | case1 more ih =>
    have h : .plain c ∈ swapped escaped letter more := by simpa using h
    exact (ih h).imp_left fun hm => List.mem_cons_of_mem _ (List.mem_cons_of_mem _ hm)
  | case2 d more hd ih =>
    have h : c = d ∨ .plain c ∈ swapped escaped letter more := by simpa using h
    rcases h with rfl | h
    · exact Or.inl (by simp)
    · exact (ih h).imp_left fun hm => List.mem_cons_of_mem _ (List.mem_cons_of_mem _ hm)
  | case3 d more hn ih =>
    rcases List.mem_cons.mp h with h | h
    · split at h
      next => exact Or.inr (Piece.plain.inj h)
      next => cases h
    · exact (ih h).imp_left (List.mem_cons_of_mem _)
  | case4 d more ih =>
    rcases List.mem_cons.mp h with h | h
    · exact Or.inl (h ▸ List.mem_cons_self)
    · exact (ih h).imp_left (List.mem_cons_of_mem _)
  | case5 => cases h

/-- No other character than the letter comes to stand at the front. -/
theorem head?_swapped {c : Char} (h : (swapped escaped letter pieces).head? = some (.plain c)) :
    pieces.head? = some (.plain c) ∨ c = letter := by
  fun_cases swapped escaped letter pieces with
  | case1 more =>
    rw [swapped, if_pos rfl] at h
    cases h
  | case2 d more hd =>
    rw [swapped, if_neg hd] at h
    cases h
  | case3 d more hn =>
    simp only [swapped, List.head?_cons] at h
    split at h
    next => exact Or.inr (Piece.plain.inj (Option.some.inj h)).symm
    next => cases h
  | case4 d more => exact Or.inl h
  | case5 => cases h

end Swapped

/-! ## All kinds of escapes -/

/-- The pieces after all kinds of escapes have been replaced, one after the other. -/
def rewritten (pieces : List Piece) : List Piece :=
  swapped '"' '"' (swapped 't' '\t' (swapped 'n' '\n' pieces))

theorem toList_unquote (h : Pieces word pieces) : (unquote word).toList = (rewritten pieces).flatMap spelling := by
  have inner : word.tail.dropLast = pieces.flatMap spelling := by
    rw [h.eq_spelling, List.tail_cons, List.dropLast_concat]
  have own {c : Char} (hc : .plain c ∈ pieces) : c ≠ '\\' := (h.valid (.plain c) hc).2
  have own₁ {c : Char} (hc : .plain c ∈ swapped 'n' '\n' pieces) : c ≠ '\\' := by
    rcases plain_mem_of_swapped hc with hc | rfl
    · exact own hc
    · decide
  have own₂ {c : Char} (hc : .plain c ∈ swapped 't' '\t' (swapped 'n' '\n' pieces)) : c ≠ '\\' := by
    rcases plain_mem_of_swapped hc with hc | rfl
    · exact own₁ hc
    · decide
  rw [unquote, String.toList_ofList, inner, replaceEscape_spelling (by decide) fun _ => own,
    replaceEscape_spelling (by decide) fun _ => own₁, replaceEscape_spelling (by decide) fun _ => own₂]
  rfl

theorem rewritten_plain (c : Char) (rest : List Piece) : rewritten (.plain c :: rest) = .plain c :: rewritten rest :=
  rfl

/-- A pair that does not begin with another one's end stands for its value. -/
theorem rewritten_pair {c : Char} (hc : c ≠ '\\') (rest : List Piece) :
    (rewritten (.pair c :: rest)).flatMap spelling = (Piece.pair c).value ++ (rewritten rest).flatMap spelling := by
  rw [rewritten, swapped_pair hc]
  by_cases hn : c = 'n'
  · subst hn
    rfl
  rw [if_neg hn, swapped_pair hc]
  by_cases ht : c = 't'
  · subst ht
    rfl
  rw [if_neg ht, swapped_pair hc]
  by_cases hq : c = '"'
  · subst hq
    rfl
  have other : escape? c = none := by
    unfold escape?
    split
    next => exact absurd rfl hn
    next => exact absurd rfl ht
    next => exact absurd rfl hq
    next => rfl
  rw [if_neg hq, value, other]
  rfl

/-- A pair of backslashes stands for itself, unless the letter of an escape follows it. -/
theorem rewritten_backslashes (h : ∀ c, (escape? c).isSome → pieces.head? ≠ some (.plain c)) :
    rewritten (.pair '\\' :: pieces) = .pair '\\' :: rewritten pieces := by
  have first : (swapped 'n' '\n' pieces).head? ≠ some (.plain 't') := fun ht =>
    (head?_swapped ht).elim (h 't' rfl) (by decide)
  have second : (swapped 't' '\t' (swapped 'n' '\n' pieces)).head? ≠ some (.plain '"') := fun hq =>
    (head?_swapped hq).elim (fun hq => (head?_swapped hq).elim (h '"' rfl) (by decide)) (by decide)
  rw [rewritten, swapped_backslashes (by decide) (h 'n' rfl), swapped_backslashes (by decide) first,
    swapped_backslashes (by decide) second]
  rfl

/-- A pair of backslashes loses its second one to a letter of an escape behind it. -/
theorem rewritten_straddled {c : Char} (hc : (escape? c).isSome) (hq : c ≠ '"') (rest : List Piece) :
    (rewritten (.pair '\\' :: .plain c :: rest)).flatMap spelling =
      '\\' :: ((Piece.pair c).value ++ (rewritten rest).flatMap spelling) := by
  unfold escape? at hc
  split at hc
  next => rfl
  next => rfl
  next => exact absurd rfl hq
  next => cases hc

/-! ## What a quoted word stands for -/

/-- What is read off pieces: behind a pair of backslashes, the second one is paired with a single character. -/
def taken : List Piece → List Char
  | .pair '\\' :: .plain c :: rest => '\\' :: ((Piece.pair c).value ++ taken rest)
  | p :: rest => p.value ++ taken rest
  | [] => []

/-- What replacing one kind of escape after the other makes of pieces. -/
theorem spelling_rewritten (hp : ∀ p ∈ pieces, p.IsValid) : (rewritten pieces).flatMap spelling = taken pieces := by
  fun_induction taken pieces with
  | case1 c rest ih =>
    have ih := ih fun p hm => hp p (List.mem_cons_of_mem _ (List.mem_cons_of_mem _ hm))
    have valid : c ≠ '"' := (hp (.plain c) (by simp)).1
    by_cases hc : (escape? c).isSome
    · rw [rewritten_straddled hc valid, ih]
    · have front : ∀ d, (escape? d).isSome → (Piece.plain c :: rest).head? ≠ some (.plain d) := by
        rintro d hd he
        cases he
        exact hc hd
      rw [rewritten_backslashes front, rewritten_plain, List.flatMap_cons, List.flatMap_cons, ih, value,
        Option.not_isSome_iff_eq_none.mp hc]
      rfl
  | case2 p rest hn ih =>
    have ih := ih fun p hm => hp p (List.mem_cons_of_mem _ hm)
    cases p with
    | plain c => rw [rewritten_plain, List.flatMap_cons, ih]; rfl
    | pair c =>
      by_cases hb : c = '\\'
      · subst hb
        have front : ∀ d, (escape? d).isSome → rest.head? ≠ some (.plain d) := by
          intro d _ he
          obtain ⟨back, rfl⟩ := List.head?_eq_some_iff.mp he
          exact hn d back rfl rfl
        rw [rewritten_backslashes front, List.flatMap_cons, ih]
        rfl
      · rw [rewritten_pair hb, ih]
  | case3 => rfl

/-- A letter of an escape stands by itself right behind a pair of backslashes. -/
def Straddles (pieces : List Piece) : Prop :=
  ∃ c, (escape? c).isSome ∧ [.pair '\\', .plain c] <:+: pieces

theorem straddles_cons {p : Piece} {rest : List Piece} :
    Straddles (p :: rest) ↔
      (∃ c back, (escape? c).isSome ∧ p = .pair '\\' ∧ rest = .plain c :: back) ∨ Straddles rest := by
  constructor
  · rintro ⟨c, hc, hi⟩
    rcases List.infix_cons_iff.mp hi with ⟨back, he⟩ | hi
    · obtain ⟨hp, hr⟩ := List.cons.inj he
      exact Or.inl ⟨c, back, hc, hp.symm, hr.symm⟩
    · exact Or.inr ⟨c, hc, hi⟩
  · rintro (⟨c, back, hc, rfl, rfl⟩ | ⟨c, hc, hi⟩)
    · exact ⟨c, hc, [], back, rfl⟩
    · exact ⟨c, hc, List.infix_cons hi⟩

theorem straddles_plain {c : Char} {rest : List Piece} : Straddles (.plain c :: rest) ↔ Straddles rest := by
  rw [straddles_cons]
  exact or_iff_right fun ⟨_, _, _, h, _⟩ => nomatch h

theorem length_taken_le (pieces : List Piece) : (taken pieces).length ≤ (pieces.flatMap value).length := by
  fun_induction taken pieces with
  | case1 c rest ih =>
    have pair : (Piece.pair c).value.length ≤ 2 := by
      rw [value]
      cases escape? c <;> simp
    simp only [List.flatMap_cons, List.length_append, List.length_cons]
    change _ ≤ 2 + (1 + (rest.flatMap value).length)
    omega
  | case2 p rest hn ih =>
    simp only [List.flatMap_cons, List.length_append]
    omega
  | case3 => exact Nat.le_refl 0

/-- The values of the pieces are read off if no pair of backslashes is torn apart, and only then. -/
theorem taken_eq_iff (pieces : List Piece) : taken pieces = pieces.flatMap value ↔ ¬ Straddles pieces := by
  fun_induction taken pieces with
  | case1 c rest ih =>
    rw [straddles_cons, straddles_plain]
    cases hc : escape? c with
    | none =>
      have apart : ¬ ∃ d back, (escape? d).isSome ∧ Piece.pair '\\' = .pair '\\' ∧
          Piece.plain c :: rest = .plain d :: back := by
        rintro ⟨d, back, hd, -, he⟩
        cases he
        rw [hc] at hd
        cases hd
      have own : (Piece.pair c).value = ['\\', c] := by rw [value, hc]; rfl
      rw [or_iff_right apart, ← ih, own]
      simp [List.flatMap_cons, value, Piece.escape?]
    | some letter =>
      -- one character is missing, and none comes back later
      have shorter := length_taken_le rest
      have own : (Piece.pair c).value = [letter] := by rw [value, hc]; rfl
      refine iff_of_false (fun he => ?_) (not_not_intro (Or.inl ⟨c, rest, by rw [hc]; rfl, rfl, rfl⟩))
      have lengths := congrArg List.length he
      rw [own] at lengths
      simp only [List.flatMap_cons, List.length_append, List.length_cons, List.length_nil] at lengths
      change _ = 2 + (1 + (rest.flatMap value).length) at lengths
      omega
  | case2 p rest hn ih =>
    have apart : ¬ ∃ c back, (escape? c).isSome ∧ p = .pair '\\' ∧ rest = .plain c :: back :=
      fun ⟨c, back, _, hp, hr⟩ => hn c back hp hr
    rw [straddles_cons, or_iff_right apart, ← ih, List.flatMap_cons, List.append_cancel_left_eq]
  | case3 => exact iff_of_true rfl fun ⟨_, _, hi⟩ => nomatch List.infix_nil.mp hi

/--
A quoted word is cut into pieces in one way. It stands for the values of its pieces from left to right, unless the
letter of an escape follows a pair of backslashes: then the second backslash of the pair is taken for the escape's.
-/
theorem escapes_decoded {cs rest : List Char} (h : quoted cs = some (word, rest)) :
    ∃ pieces, Pieces word pieces ∧ (∀ others, Pieces word others → others = pieces) ∧
      (unquote word).toList = taken pieces ∧
      ((unquote word).toList = pieces.flatMap value ↔ ¬ Straddles pieces) := by
  obtain ⟨pieces, hp⟩ := exists_pieces_of_quoted h
  have read : (unquote word).toList = taken pieces := (toList_unquote hp).trans (spelling_rewritten hp.valid)
  exact ⟨pieces, hp, fun _ => hp.unique, read, read ▸ taken_eq_iff pieces⟩

/-- Two backslashes and an `n` are a pair and a letter, but are read as a backslash and a newline. -/
theorem escapes_decoded_tornPair :
    quoted "\"\\\\n\")".toList = some ("\"\\\\n\"".toList, [')']) ∧
      Pieces "\"\\\\n\"".toList [.pair '\\', .plain 'n'] ∧ Straddles [.pair '\\', .plain 'n'] ∧
      (unquote "\"\\\\n\"".toList).toList = ['\\', '\n'] ∧
      (unquote "\"\\\\n\"".toList).toList ≠ [Piece.pair '\\', .plain 'n'].flatMap value := by
  have found : quoted "\"\\\\n\")".toList = some ("\"\\\\n\"".toList, [')']) := rfl
  have cut : Pieces "\"\\\\n\"".toList [.pair '\\', .plain 'n'] :=
    ⟨List.forall_mem_cons.mpr ⟨trivial, List.forall_mem_singleton.mpr ⟨by decide, by decide⟩⟩, rfl⟩
  have torn : Straddles [.pair '\\', .plain 'n'] := ⟨'n', rfl, List.infix_rfl⟩
  obtain ⟨pieces, -, unique, read, values⟩ := escapes_decoded found
  obtain rfl := unique _ cut
  exact ⟨found, cut, torn, read, fun he => values.mp he torn⟩

end WireGrammar.Grammar
