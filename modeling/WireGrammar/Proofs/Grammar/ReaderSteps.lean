import WireGrammar.Grammar.Reader

/-!
# Steps of readers

What a reader makes of a text depends on the text alone, and not on the position in the whole or on the farthest
position so far. `Gives` says of a reader and a text that the reader has the result at every position, `Gave` that it
has the result at some position. For each way to combine readers, results at every position follow from such results of
the parts (`Gives.bind`, `Gives.orElse`), and a success at some position splits into successes of the parts
(`Gave.bind`, `Gave.orElse`).

* `Gives.many`, `Gave.many`: reading as often as possible is reading until the next time fails.
-/

namespace WireGrammar.Grammar.Reader

variable {α β : Type} {read : Reader α} {cs mid rest : List Char} {x : α} {y : β}

/-- The value that a reader finds at a position and the text behind it. -/
def outcome (read : Reader α) (position farthest : Nat) (cs : List Char) : Option (α × List Char) :=
  ((read ⟨position, cs⟩).run.run farthest).1.map fun found => (found.1, found.2.rest)

/-- The reader has the result at every position. -/
def Gives (read : Reader α) (cs : List Char) (result : Option (α × List Char)) : Prop :=
  ∀ position farthest, read.outcome position farthest cs = result

/-- The reader has the result at some position. -/
def Gave (read : Reader α) (cs : List Char) (result : Option (α × List Char)) : Prop :=
  ∃ position farthest, read.outcome position farthest cs = result

theorem Gives.eq {result result' : Option (α × List Char)} (h : Gives read cs result) (h' : Gave read cs result') :
    result = result' := by
  obtain ⟨position, farthest, h'⟩ := h'
  rw [← h', h position farthest]

/-! ## Outcomes of combined readers -/

theorem outcome_eq_some_iff {position farthest : Nat} :
    read.outcome position farthest cs = some (x, rest) ↔
      ∃ position' farthest', (read ⟨position, cs⟩).run.run farthest = (some (x, ⟨position', rest⟩), farthest') := by
  constructor
  · intro h
    obtain ⟨⟨x', next⟩, hr, he⟩ := Option.map_eq_some_iff.mp h
    cases he
    exact ⟨next.position, _, Prod.ext hr rfl⟩
  · rintro ⟨position', farthest', h⟩
    rw [outcome, h]
    rfl

theorem outcome_eq_none_iff {position farthest : Nat} :
    read.outcome position farthest cs = none ↔
      ∃ farthest', (read ⟨position, cs⟩).run.run farthest = (none, farthest') := by
  constructor
  · exact fun h => ⟨_, Prod.ext (Option.map_eq_none_iff.mp h) rfl⟩
  · rintro ⟨farthest', h⟩
    rw [outcome, h]
    rfl

theorem outcome_bind (read : Reader α) (f : α → Reader β) (position farthest : Nat) (cs : List Char) :
    (read >>= f).outcome position farthest cs =
      match (read ⟨position, cs⟩).run.run farthest with
      | (some (x, next), farthest) => (f x).outcome next.position farthest next.rest
      | (none, _) => none := by
  simp only [outcome, bind, StateT.bind, OptionT.bind, OptionT.mk, StateT.run, OptionT.run]
  rcases read ⟨position, cs⟩ farthest with ⟨_ | ⟨x, next⟩, farthest⟩ <;> rfl

theorem outcome_orElse (read other : Reader α) (position farthest : Nat) (cs : List Char) :
    (read <|> other).outcome position farthest cs =
      match (read ⟨position, cs⟩).run.run farthest with
      | (some (x, next), _) => some (x, next.rest)
      | (none, farthest) => other.outcome position farthest cs := by
  simp only [outcome, HOrElse.hOrElse, OrElse.orElse, Alternative.orElse, StateT.orElse, StateT.run, OptionT.run]
  unfold OptionT.orElse
  simp only [OptionT.mk, bind, StateT.bind]
  rcases read ⟨position, cs⟩ farthest with ⟨_ | ⟨x, next⟩, farthest⟩ <;> rfl

theorem outcome_part (read : Reader α) (position farthest : Nat) (cs : List Char) :
    (part read).outcome position farthest cs = read.outcome position farthest cs := by
  simp only [outcome, part, OptionT.mk, bind, StateT.bind, StateT.run, OptionT.run]
  rcases read ⟨position, cs⟩ farthest with ⟨_ | ⟨x, next⟩, farthest⟩ <;> rfl

theorem outcome_map (f : α → β) (read : Reader α) (position farthest : Nat) (cs : List Char) :
    (f <$> read).outcome position farthest cs =
      (read.outcome position farthest cs).map fun found => (f found.1, found.2) := by
  simp only [outcome, Functor.map, StateT.map, OptionT.bind, OptionT.mk, bind, StateT.bind, StateT.run, OptionT.run]
  rcases read ⟨position, cs⟩ farthest with ⟨_ | ⟨x, next⟩, farthest⟩ <;> rfl

theorem outcome_word (words : Lexeme.Class) (position farthest : Nat) (cs : List Char) :
    (word words).outcome position farthest cs = words cs := by
  simp only [outcome, word]
  rcases words cs with _ | ⟨w, rest⟩ <;> rfl

theorem outcome_exactly (text : String) (position farthest : Nat) (cs : List Char) :
    (exactly text).outcome position farthest cs =
      if text.toList.isPrefixOf cs then some ((), cs.drop text.length) else none := by
  simp only [outcome, exactly]
  split <;> rfl

/-! ## Sequences and choices -/

variable {f : α → Reader β} {other : Reader α} {result : Option (β × List Char)}

theorem Gives.pure (x : α) (cs : List Char) : Gives (pure x) cs (some (x, cs)) :=
  fun _ _ => rfl

theorem Gave.pure {x' : α} (h : Gave (pure x) cs (some (x', rest))) : x' = x ∧ rest = cs := by
  obtain ⟨position, farthest, h⟩ := h
  cases h
  exact ⟨rfl, rfl⟩

theorem Gives.bind (h : Gives read cs (some (x, mid))) (hf : Gives (f x) mid result) :
    Gives (read >>= f) cs result := by
  intro position farthest
  obtain ⟨position', farthest', hr⟩ := outcome_eq_some_iff.mp (h position farthest)
  rw [outcome_bind, hr]
  exact hf position' farthest'

theorem Gives.bind_none (h : Gives read cs none) : Gives (read >>= f) cs none := by
  intro position farthest
  obtain ⟨farthest', hr⟩ := outcome_eq_none_iff.mp (h position farthest)
  rw [outcome_bind, hr]

theorem Gave.bind (h : Gave (read >>= f) cs (some (y, rest))) :
    ∃ x mid, Gave read cs (some (x, mid)) ∧ Gave (f x) mid (some (y, rest)) := by
  obtain ⟨position, farthest, h⟩ := h
  rw [outcome_bind] at h
  cases hr : (read ⟨position, cs⟩).run.run farthest with
  | mk found farthest' =>
    rw [hr] at h
    cases found with
    | none => cases h
    | some found =>
      obtain ⟨x, next⟩ := found
      exact ⟨x, next.rest, ⟨position, farthest, by rw [outcome, hr]; rfl⟩, next.position, farthest', h⟩

theorem Gives.seqRight {next : Reader β} (h : Gives read cs (some (x, mid))) (hn : Gives next mid result) :
    Gives (read *> next) cs result :=
  Gives.bind h hn

theorem Gives.seqRight_none (h : Gives read cs none) (next : Reader β) : Gives (read *> next) cs none :=
  Gives.bind_none h

theorem Gave.seqRight {next : Reader β} (h : Gave (read *> next) cs (some (y, rest))) :
    ∃ x mid, Gave read cs (some (x, mid)) ∧ Gave next mid (some (y, rest)) :=
  Gave.bind h

theorem Gives.map (h : Gives read cs (some (x, rest))) (f : α → β) : Gives (f <$> read) cs (some (f x, rest)) := by
  intro position farthest
  rw [outcome_map, h position farthest, Option.map_some]

theorem Gives.map_none (h : Gives read cs none) (f : α → β) : Gives (f <$> read) cs none := by
  intro position farthest
  rw [outcome_map, h position farthest, Option.map_none]

theorem Gives.discard (h : Gives read cs (some (x, rest))) : Gives (discard read) cs (some ((), rest)) :=
  h.map (Function.const α ())

theorem Gave.map {f : α → β} (h : Gave (f <$> read) cs (some (y, rest))) :
    ∃ x, Gave read cs (some (x, rest)) ∧ y = f x := by
  obtain ⟨position, farthest, h⟩ := h
  rw [outcome_map] at h
  obtain ⟨⟨x, _⟩, hr, he⟩ := Option.map_eq_some_iff.mp h
  cases he
  exact ⟨x, ⟨position, farthest, hr⟩, rfl⟩

theorem Gave.discard {u : Unit} (h : Gave (discard read) cs (some (u, rest))) : ∃ x, Gave read cs (some (x, rest)) := by
  obtain ⟨x, hr, -⟩ := Gave.map (f := Function.const α ()) h
  exact ⟨x, hr⟩

theorem Gives.orElse {result : Option (α × List Char)} (h : Gives read cs none) (h' : Gives other cs result) :
    Gives (read <|> other) cs result := by
  intro position farthest
  obtain ⟨farthest', hr⟩ := outcome_eq_none_iff.mp (h position farthest)
  rw [outcome_orElse, hr]
  exact h' position farthest'

theorem Gives.orElse_left (h : Gives read cs (some (x, rest))) (other : Reader α) :
    Gives (read <|> other) cs (some (x, rest)) := by
  intro position farthest
  obtain ⟨position', farthest', hr⟩ := outcome_eq_some_iff.mp (h position farthest)
  rw [outcome_orElse, hr]

theorem Gave.orElse (h : Gave (read <|> other) cs (some (x, rest))) :
    Gave read cs (some (x, rest)) ∨ Gave read cs none ∧ Gave other cs (some (x, rest)) := by
  obtain ⟨position, farthest, h⟩ := h
  rw [outcome_orElse] at h
  cases hr : (read ⟨position, cs⟩).run.run farthest with
  | mk found farthest' =>
    rw [hr] at h
    cases found with
    | none => exact .inr ⟨⟨position, farthest, by rw [outcome, hr]; rfl⟩, position, farthest', h⟩
    | some found => exact .inl ⟨position, farthest, by rw [outcome, hr]; exact h⟩

theorem gives_part {result : Option (α × List Char)} : Gives (part read) cs result ↔ Gives read cs result := by
  simp only [Gives, outcome_part]

theorem gave_part {result : Option (α × List Char)} : Gave (part read) cs result ↔ Gave read cs result := by
  simp only [Gave, outcome_part]

/-! ## Words and gaps -/

variable {words : Lexeme.Class} {text : String} {u : Unit}

theorem gives_word (words : Lexeme.Class) (cs : List Char) : Gives (word words) cs (words cs) :=
  fun position farthest => outcome_word words position farthest cs

theorem Gave.word {found : Option (List Char × List Char)} (h : Gave (word words) cs found) : words cs = found :=
  (gives_word words cs).eq h

theorem gives_wordPart {w : List Char} (f : List Char → α) (h : words cs = some (w, rest)) :
    Gives (part (f <$> word words)) cs (some (f w, rest)) :=
  gives_part.mpr (Gives.map (h ▸ gives_word words cs) f)

theorem gives_wordPart_none (f : List Char → α) (h : words cs = none) : Gives (part (f <$> word words)) cs none :=
  gives_part.mpr (Gives.map_none (h ▸ gives_word words cs) f)

theorem Gave.wordPart {f : List Char → α} (h : Gave (part (f <$> Reader.word words)) cs (some (x, rest))) :
    ∃ w : String, words cs = some (w.toList, rest) ∧ x = f w.toList := by
  obtain ⟨w, hw, rfl⟩ := (gave_part.mp h).map
  exact ⟨String.ofList w, by rw [String.toList_ofList, hw.word], by rw [String.toList_ofList]⟩

theorem gives_exactly (text : String) (mid : List Char) :
    Gives (exactly text) (text.toList ++ mid) (some ((), mid)) := by
  intro position farthest
  rw [outcome_exactly, if_pos (List.isPrefixOf_iff_prefix.mpr (List.prefix_append _ mid)), ← String.length_toList,
    List.drop_left]

theorem gives_exactly_none (h : ¬ text.toList <+: cs) : Gives (exactly text) cs none := by
  intro position farthest
  rw [outcome_exactly, if_neg (mt List.isPrefixOf_iff_prefix.mp h)]

theorem Gave.exactly (h : Gave (exactly text) cs (some (u, rest))) : cs = text.toList ++ rest := by
  by_cases hp : text.toList <+: cs
  · obtain ⟨mid, rfl⟩ := hp
    cases (gives_exactly text mid).eq h
    rfl
  · cases (gives_exactly_none hp).eq h

theorem gives_blanks (cs : List Char) : Gives blanks cs (some ((), Lexeme.skipBlanks cs)) :=
  fun _ _ => rfl

theorem Gave.blanks (h : Gave blanks cs (some (u, rest))) : rest = Lexeme.skipBlanks cs := by
  cases (gives_blanks cs).eq h
  rfl

theorem gives_mark (h : Lexeme.skipBlanks cs = text.toList ++ mid) :
    Gives (mark text) cs (some ((), Lexeme.skipBlanks mid)) :=
  (gives_blanks cs).bind ((h ▸ gives_exactly text mid).bind (gives_blanks mid))

theorem Gave.mark (h : Gave (mark text) cs (some (u, rest))) :
    ∃ mid, Lexeme.skipBlanks cs = text.toList ++ mid ∧ rest = Lexeme.skipBlanks mid := by
  obtain ⟨_, _, hb, h⟩ := h.bind
  cases hb.blanks
  obtain ⟨_, mid, he, h⟩ := Gave.bind h
  exact ⟨mid, he.exactly, h.blanks⟩

/-! ## Options and repetitions -/

theorem Gives.optional (h : Gives read cs (some (x, rest))) :
    Gives (optional? read) cs (some (some x, rest)) :=
  (h.map some).orElse_left _

theorem Gives.optional_none (h : Gives read cs none) : Gives (optional? read) cs (some (none, cs)) :=
  (h.map_none some).orElse (.pure none cs)

theorem Gave.optional {x? : Option α} (h : Gave (optional? read) cs (some (x?, rest))) :
    (∃ x, x? = some x ∧ Gave read cs (some (x, rest))) ∨ x? = none ∧ rest = cs := by
  rcases h.orElse with h | ⟨-, h⟩
  · obtain ⟨x, hr, rfl⟩ := h.map
    exact .inl ⟨x, rfl, hr⟩
  · exact .inr h.pure

/-- Reading again and again behind gaps, each time with some of the text used up, until the reader fails. -/
inductive Repeats (read : Reader α) : List Char → List α → List Char → Prop
  | stop {cs : List Char} : Gives read (Lexeme.skipBlanks cs) none → Repeats read cs [] cs
  | more {cs mid rest : List Char} {x : α} {xs : List α} : Gives read (Lexeme.skipBlanks cs) (some (x, mid)) →
      mid.length < cs.length → Repeats read mid xs rest → Repeats read cs (x :: xs) rest

variable {xs : List α}

theorem Repeats.gives_upTo (h : Repeats read cs xs rest) {n : Nat} (hn : cs.length < n) :
    Gives (upTo read n) cs (some (xs, rest)) := by
  induction h generalizing n with
  | @stop cs hr =>
    cases n with
    | zero => omega
    | succ n => exact Gives.orElse ((gives_blanks cs).seqRight hr).bind_none (.pure [] cs)
  | @more cs _ rest x xs hr hl _ ih =>
    cases n with
    | zero => omega
    | succ n =>
      have next := ih (n := n) (by omega)
      refine Gives.orElse_left (((gives_blanks cs).seqRight hr).bind (next.bind ?_)) _
      exact .pure (x :: xs) rest

theorem Repeats.gives_many (h : Repeats read cs xs rest) : Gives (many read) cs (some (xs, rest)) :=
  fun position farthest => h.gives_upTo (Nat.lt_succ_self cs.length) position farthest

/-- Reading again and again behind gaps. -/
inductive Repeated (read : Reader α) : List Char → List α → List Char → Prop
  | stop {cs : List Char} : Repeated read cs [] cs
  | more {cs mid rest : List Char} {x : α} {xs : List α} : Gave read (Lexeme.skipBlanks cs) (some (x, mid)) →
      Repeated read mid xs rest → Repeated read cs (x :: xs) rest

theorem Gave.upTo {n : Nat} (h : Gave (upTo read n) cs (some (xs, rest))) : Repeated read cs xs rest := by
  induction n generalizing cs xs with
  | zero =>
    obtain ⟨rfl, rfl⟩ := Gave.pure h
    exact .stop
  | succ n ih =>
    rcases Gave.orElse h with h | ⟨-, h⟩
    · obtain ⟨x, mid, hr, h⟩ := h.bind
      obtain ⟨xs', mid', hm, h⟩ := h.bind
      obtain ⟨rfl, rfl⟩ := h.pure
      obtain ⟨_, _, hb, hr⟩ := hr.seqRight
      cases hb.blanks
      exact .more hr (ih hm)
    · obtain ⟨rfl, rfl⟩ := h.pure
      exact .stop

theorem Gave.many (h : Gave (many read) cs (some (xs, rest))) : Repeated read cs xs rest := by
  obtain ⟨position, farthest, h⟩ := h
  exact Gave.upTo ⟨position, farthest, h⟩

end WireGrammar.Grammar.Reader
