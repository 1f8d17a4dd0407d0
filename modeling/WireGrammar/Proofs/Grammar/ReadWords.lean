import WireGrammar.Proofs.Grammar.Gaps
import WireGrammar.Proofs.Grammar.ReaderSteps

/-!
# Words are read

A reader of a class of words finds the word that a text begins with, whatever the text goes on with behind it. Since
alternatives are tried in order, each word must also be refused by the alternatives before its own: by the character
that it begins with (`gives_literal_of_stops`), or because an expression ends where a comma or the mark that closes it
follows (`Closed`).

* `gives_range`, `gives_literal`, `gives_field_reference`, `gives_fieldOf_reference`: what is found.
* `gives_range_literal`, `gives_literal_none`: a literal is no range, and a name that is no boolean no literal.
-/

namespace WireGrammar.Grammar.Reader

open Lexeme (skipBlanks isNameChar intOf)
open Text (isDigit)

variable {α : Type} {cs mid rest : List Char}

/-! ## Words -/

theorem gives_exactly_stops {text : String} {d : Char} (hd : text.toList.head? = some d) (h : Stops (· == d) cs) :
    Gives (exactly text) cs none := by
  refine gives_exactly_none fun hp => ?_
  obtain ⟨more, rfl⟩ := hp
  cases he : text.toList with
  | nil => rw [he] at hd; cases hd
  | cons c t =>
    rw [he] at hd h
    cases hd
    exact absurd (stops_cons.mp h) (by simp)

theorem gives_identifier {name : String} (hn : IsName name.toList) (hs : Stops isNameChar mid) :
    Gives identifier (name.toList ++ mid) (some (name, mid)) := by
  have := gives_wordPart String.ofList (identifier_append hn hs)
  rwa [String.ofList_toList] at this

theorem gives_identifier_none (hs : Stops startsName cs) : Gives identifier cs none :=
  gives_wordPart_none String.ofList (identifier_eq_none hs)

theorem gives_integer {w : String} (hw : IsInteger w.toList) (hs : Stops isDigit mid) :
    Gives integer (w.toList ++ mid) (some (intOf w.toList, mid)) :=
  gives_wordPart intOf (integer_append hw hs)

theorem gives_integer_none (hs : Stops startsNumber cs) : Gives integer cs none :=
  gives_wordPart_none intOf (integer_eq_none hs)

theorem gives_quoted {w : String} (hw : IsQuoted w.toList) :
    Gives quoted (w.toList ++ mid) (some (Lexeme.unquote w.toList, mid)) :=
  gives_wordPart Lexeme.unquote (quoted_append hw)

/-! ## Where an expression ends -/

/-- The comma and the marks that may follow an expression. -/
def isCloser (c : Char) : Bool :=
  c == ',' || c == ')' || c == ']' || c == ';'

/-- The characters of names and numbers, and the point. -/
def isWordChar (c : Char) : Bool :=
  isNameChar c || c == '.'

theorem stops_of_closer {p : Char → Bool} (hp : [',', ')', ']', ';'].any p = false) (h : Begins isCloser cs) :
    Stops p cs :=
  h.stops fun c hc => Bool.eq_false_iff.mpr (List.any_eq_false.mp hp c (by simpa [isCloser, or_assoc] using hc))

/-- Behind a gap the text goes on with a mark that may follow an expression. -/
def Closed (cs : List Char) : Prop :=
  Begins isCloser (skipBlanks cs)

theorem isSolid_of_isWordChar {c : Char} (h : isWordChar c) : isSolid c :=
  isSolid_of (p := isWordChar) (by decide) h

theorem Closed.stops (h : Closed cs) : Stops isWordChar cs :=
  .of_skipBlanks (fun _ => isSolid_of_isWordChar) (stops_of_closer (by decide) h)

/-! ## Ranges -/

theorem head?_rangeSign (inclusive : Bool) : (rangeSign inclusive).toList.head? = some '.' := by
  cases inclusive <;> rfl

theorem gives_rangeSign (inclusive : Bool) (h : Stops (· == '=') mid) :
    Gives (part ((fun _ => true) <$> exactly "..=") <|> part ((fun _ => false) <$> exactly ".."))
      ((rangeSign inclusive).toList ++ mid) (some (inclusive, mid)) := by
  cases inclusive with
  | true => exact .orElse_left (gives_part.mpr (.map (gives_exactly "..=" mid) _)) _
  | false =>
    refine .orElse (gives_part.mpr (.map_none (gives_exactly_none ?_) _))
      (gives_part.mpr (.map (gives_exactly ".." mid) _))
    rintro ⟨more, he⟩
    cases (he : ['.', '.', '='] ++ more = ['.', '.'] ++ mid)
    exact absurd (stops_cons.mp h) (by decide)

theorem gives_range {first last : String} {inclusive : Bool} (hf : IsInteger first.toList)
    (hl : IsInteger last.toList) (h : Laid [first, rangeSign inclusive, last] cs rest) (hc : Closed rest) :
    Gives range (skipBlanks cs)
      (some (do return .range (← intOf first.toList) (← intOf last.toList) inclusive, rest)) := by
  have equals : Stops (· == '=') last.toList := hl.begins.stops_eq (by decide)
  obtain ⟨cs₁, he, h⟩ := h.next hf.solid
  obtain ⟨cs₂, he₁, h, hs⟩ := h.mark (head?_rangeSign inclusive) (by decide) (by decide)
  obtain ⟨cs₃, he₂, h⟩ := h.next hl.solid
  cases laid_nil.mp h
  have sign : Stops (· == '=') cs₂ :=
    .of_skipBlanks (fun _ => isSolid_of (p := (· == '=')) (by decide)) (he₂ ▸ equals.append hl.begins.ne_nil _)
  rw [he]
  refine gives_part.mpr ((gives_integer hf (hs.mono fun _ => isNameChar_of_isDigit)).bind ?_)
  refine (gives_blanks cs₁).bind ?_
  rw [he₁]
  refine (gives_rangeSign inclusive sign).bind ((gives_blanks cs₂).bind ?_)
  rw [he₂]
  refine (gives_integer hl (hc.stops.mono fun c hd => ?_)).bind (.pure _ _)
  simp [isWordChar, isNameChar_of_isDigit hd]

/-- The first integer is no range if two points do not follow. -/
theorem gives_range_none {w : List Char} (hw : Lexeme.integer cs = some (w, mid))
    (h : ¬ "..".toList <+: skipBlanks mid) : Gives range cs none := by
  refine gives_part.mpr ((gives_wordPart intOf hw).bind ((gives_blanks mid).bind (Gives.bind_none ?_)))
  refine .orElse (gives_part.mpr (.map_none (gives_exactly_none fun hp => h ?_) _))
    (gives_part.mpr (.map_none (gives_exactly_none h) _))
  exact (List.prefix_append "..".toList ['=']).trans hp

theorem gives_range_of_stops (h : Stops startsNumber cs) : Gives range cs none :=
  gives_part.mpr (gives_integer_none h).bind_none

/-! ## Literals and references -/

/-- What begins with no number is a literal if it is a quoted text or a boolean. -/
theorem gives_literal_of_stops {result : Option (Checked Expr × List Char)} (h : Stops startsNumber cs)
    (hr : Gives ((fun text => pure (.text text)) <$> quoted <|> (fun value => pure (.bool value)) <$> boolean) cs
      result) :
    Gives literal cs result :=
  gives_part.mpr (.orElse (gives_wordPart_none _ (based_of_stops h)) (.orElse (gives_wordPart_none _ (based_of_stops h))
    (.orElse (gives_wordPart_none _ (float_eq_none h)) (.orElse (.map_none (gives_integer_none h) _) hr))))

section Names

variable {w : List Char} (hw : IsName w)

include hw

theorem startsNumber_stops (cs : List Char) : Stops startsNumber (w ++ cs) :=
  (hw.begins.append cs).stops fun _ => startsNumber_of_startsName

theorem quoted_of_name (cs : List Char) : Lexeme.quoted (w ++ cs) = none :=
  quoted_eq_none ((hw.begins.append cs).stops_eq rfl)

theorem gives_literal_bool (hb : Lexeme.boolean (w ++ mid) = some (w, mid)) :
    Gives literal (w ++ mid) (some (pure (.bool (w == ['t', 'r', 'u', 'e'])), mid)) :=
  gives_literal_of_stops (startsNumber_stops hw mid)
    (.orElse (.map_none (gives_wordPart_none _ (quoted_of_name hw mid)) _)
      (.map (gives_wordPart (· == ['t', 'r', 'u', 'e']) hb) _))

theorem gives_literal_none (ht : w ≠ "true".toList) (hf : w ≠ "false".toList) (hs : Stops isNameChar mid) :
    Gives literal (w ++ mid) none :=
  gives_literal_of_stops (startsNumber_stops hw mid)
    (.orElse (.map_none (gives_wordPart_none _ (quoted_of_name hw mid)) _)
      (.map_none (gives_wordPart_none _ (boolean_eq_none hw ht hf hs)) _))

end Names

theorem gives_literal {e : Expr} {w : String} (h : Expr.Spelled e w) (hs : Stops isWordChar mid) :
    Gives literal (w.toList ++ mid) (some (pure e, mid)) := by
  have names : Stops isNameChar mid := hs.mono fun c hc => by simp [isWordChar, hc]
  have digits : Stops isDigit mid := names.mono fun _ => isNameChar_of_isDigit
  have letters : Stops Lexeme.isLetter mid := names.mono fun c hc => by simp [isNameChar, hc]
  cases h with
  | bytes hw hv =>
    refine gives_part.mpr (.orElse_left ?_ _)
    have := gives_wordPart (fun w => Expr.bytes <$> Lexeme.bytesOf w)
      (based_append hw (names.mono fun _ => isNameChar_of_isHexDigit))
    rwa [hv] at this
  | bits hw =>
    refine gives_part.mpr (.orElse (gives_wordPart_none _ (hex_of_binary hw)) (.orElse_left ?_ _))
    refine gives_wordPart _ (based_append hw (names.mono fun c hc => ?_))
    rcases Bool.or_eq_true_iff.mp hc with hc | hc <;> cases beq_iff_eq.mp hc <;> rfl
  | float hw =>
    refine gives_part.mpr (.orElse (gives_wordPart_none _ (based_of_letter rfl rfl fun _ _ => hw.second))
      (.orElse (gives_wordPart_none _ (based_of_letter rfl rfl fun _ _ => hw.second)) (.orElse_left ?_ _)))
    exact gives_wordPart _ (float_append hw digits)
  | int hw hv =>
    have point : Stops (· == '.') mid := hs.mono fun c hc => by simp_all [isWordChar]
    refine gives_part.mpr (.orElse (gives_wordPart_none _ (based_of_letter rfl rfl fun _ _ => hw.second letters))
      (.orElse (gives_wordPart_none _ (based_of_letter rfl rfl fun _ _ => hw.second letters))
        (.orElse (gives_wordPart_none _ (float_integer hw digits point)) (.orElse_left ?_ _))))
    have := (gives_integer hw digits).map (Expr.int <$> ·)
    rwa [hv] at this
  | text hw =>
    have numbers : Stops startsNumber (w.toList ++ mid) :=
      (hw.begins.append mid).stops fun c hc => by cases beq_iff_eq.mp hc; rfl
    exact gives_literal_of_stops numbers (.orElse_left (.map (gives_quoted hw) _) _)
  | true => exact gives_literal_bool isName_true (boolean_true names)
  | false => exact gives_literal_bool isName_false (boolean_false names)

theorem gives_field_reference {field : String} (hn : IsName field.toList) (hs : Stops isWordChar mid) :
    Gives reference (field.toList ++ mid) (some (pure (.ref none field), mid)) := by
  have point : Stops (· == '.') mid := hs.mono fun c hc => by simp_all [isWordChar]
  refine gives_part.mpr ((gives_identifier hn (hs.mono fun c hc => by simp [isWordChar, hc])).bind ?_)
  exact (Gives.optional_none ((gives_exactly_stops rfl point).seqRight_none _)).bind (.pure _ _)

theorem gives_fieldOf_reference {symbol field : String} (hs : IsName symbol.toList) (hf : IsName field.toList)
    (hm : Stops isWordChar mid) :
    Gives reference (symbol.toList ++ '.' :: (field.toList ++ mid)) (some (pure (.ref (some symbol) field), mid)) := by
  refine gives_part.mpr ((gives_identifier hs (stops_cons.mpr rfl)).bind ?_)
  refine (Gives.optional ((gives_exactly "." _).seqRight (gives_identifier hf ?_))).bind (.pure _ _)
  exact hm.mono fun c hc => by simp [isWordChar, hc]

theorem gives_scope {s : Scope} (h : Laid ["@", s.name] cs rest) : Gives scope (skipBlanks cs) (some (s, rest)) := by
  obtain ⟨cs₁, he, h⟩ := h.next ⟨'@', rfl, rfl⟩
  obtain ⟨cs₂, he₁, h⟩ := h.next (by cases s <;> exact ⟨_, rfl, rfl⟩)
  cases laid_nil.mp h
  rw [he]
  refine gives_part.mpr ((gives_exactly "@" cs₁).bind ((gives_blanks cs₁).bind (gives_part.mpr ?_)))
  rw [he₁]
  have other {text : String} {other : Scope} {d : Char} (hd : text.toList.head? = some d)
      (hs : Stops (· == d) (s.name.toList ++ rest)) :
      Gives ((fun _ => other) <$> exactly text) (s.name.toList ++ rest) none :=
    .map_none (gives_exactly_stops hd hs) _
  cases s with
  | constant => exact .orElse_left (.map (gives_exactly "constant" rest) _) _
  | ephemeral =>
    exact .orElse (other rfl (stops_cons.mpr rfl)) (.orElse_left (.map (gives_exactly "ephemeral" rest) _) _)
  | volatile =>
    exact .orElse (other rfl (stops_cons.mpr rfl)) (.orElse (other rfl (stops_cons.mpr rfl))
      (.orElse_left (.map (gives_exactly "volatile" rest) _) _))
  | persistent =>
    exact .orElse (other rfl (stops_cons.mpr rfl)) (.orElse (other rfl (stops_cons.mpr rfl))
      (.orElse (other rfl (stops_cons.mpr rfl)) (.map (gives_exactly "persistent" rest) _)))

/-! ## Literals are no ranges -/

/-- An integer that something else than a gap or two points follow. -/
theorem gives_range_other {w : List Char} (hw : IsInteger w) (hs : Begins isSolid cs) (hd : Stops isDigit cs)
    (hp : ¬ "..".toList <+: cs) : Gives range (w ++ cs) none := by
  refine gives_range_none (integer_append hw hd) ?_
  rwa [skipBlanks_of_begins hs]

theorem gives_range_letter {x : Char} (hx : x ∈ ['x', 'X', 'b', 'B']) (cs : List Char) :
    Gives range ('0' :: x :: cs) none := by
  have letter : ['x', 'X', 'b', 'B'].all fun x => isSolid x && !isDigit x && x != '.' := by decide
  obtain ⟨⟨hs, hd⟩, hp⟩ : (isSolid x ∧ isDigit x = false) ∧ x ≠ '.' := by
    simpa using List.all_eq_true.mp letter x hx
  have zero : IsInteger ['0'] := .plain ⟨List.cons_ne_nil _ _, List.forall_mem_singleton.mpr rfl⟩
  have other : ¬ "..".toList <+: x :: cs := by
    rintro ⟨more, he⟩
    exact hp (List.cons.inj he).1.symm
  have := gives_range_other zero ⟨x, rfl, hs⟩ (stops_cons.mpr hd) other
  rwa [List.singleton_append] at this

theorem gives_range_decimal {w : List Char} (hw : IsDecimal w) (cs : List Char) : Gives range (w ++ cs) none := by
  cases hw with
  | @intro whole fraction hi hf =>
    rw [List.append_assoc]
    refine gives_range_other hi ⟨'.', rfl, rfl⟩ (stops_cons.mpr rfl) ?_
    obtain ⟨c, hc, hd⟩ := hf.begins.append cs
    rintro ⟨more, he⟩
    have rest : ['.'] ++ more = fraction ++ cs := (List.cons.inj he).2
    rw [← rest] at hc
    cases hc
    cases hd

/-- A literal is no range: two points do not follow the digits that it begins with. -/
theorem gives_range_literal {e : Expr} {w : String} (h : Expr.Spelled e w) (hc : Closed mid) :
    Gives range (w.toList ++ mid) none := by
  have name {w : List Char} (hw : IsName w) : Gives range (w ++ mid) none :=
    gives_range_of_stops (startsNumber_stops hw mid)
  cases h with
  | int hw =>
    refine gives_range_none (integer_append hw (hc.stops.mono fun c hd => ?_)) ?_
    · simp [isWordChar, isNameChar_of_isDigit hd]
    · rintro ⟨more, he⟩
      have := stops_of_closer (p := (· == '.')) (by decide) hc
      rw [← he] at this
      exact absurd (stops_cons.mp this) (by decide)
  | float hw => exact gives_range_decimal hw mid
  | bytes hw =>
    obtain ⟨x, more, hx, he⟩ := hw.exists_cons
    rw [he]
    exact gives_range_letter (by rcases hx with rfl | rfl <;> decide) _
  | bits hw =>
    obtain ⟨x, more, hx, he⟩ := hw.exists_cons
    rw [he]
    exact gives_range_letter (by rcases hx with rfl | rfl <;> decide) _
  | text hw =>
    exact gives_range_of_stops ((hw.begins.append mid).stops fun c hc => by cases beq_iff_eq.mp hc; rfl)
  | true => exact name isName_true
  | false => exact name isName_false

end WireGrammar.Grammar.Reader
