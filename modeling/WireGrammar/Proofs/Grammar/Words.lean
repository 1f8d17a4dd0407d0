import WireGrammar.Proofs.Grammar.Rendering

/-!
# Words at the front of a text

The lexemes take exactly the words of their classes: a word at the front of a text is taken whole if the text behind
it does not go on with the word (`identifier_append`, `integer_append` and so on, with `Stops` for what follows), and
what is taken is a word of the class with the rest behind it (`isName_of_identifier` and so on). No class takes the
word of another in its place: the first character tells most of them apart (`Begins`), and what follows the first
digits the others (`float_integer`, `IsInteger.second`).
-/

namespace WireGrammar.Grammar

open Lexeme
open Text (isDigit hexDigit?)

variable {cs rest w : List Char}

/-- The text does not begin with a character of the class. -/
def Stops (isMember : Char → Bool) (cs : List Char) : Prop :=
  ∀ c ∈ cs.head?, isMember c = false

/-- The text begins with a character of the class. -/
def Begins (isMember : Char → Bool) (cs : List Char) : Prop :=
  ∃ c ∈ cs.head?, isMember c

section Stops

variable {p q : Char → Bool}

theorem Begins.append (h : Begins p w) (cs : List Char) : Begins p (w ++ cs) := by
  obtain ⟨c, hc, hp⟩ := h
  cases w with
  | nil => cases hc
  | cons d w => exact ⟨c, hc, hp⟩

theorem Begins.ne_nil (h : Begins p cs) : cs ≠ [] := by
  rintro rfl
  obtain ⟨c, hc, -⟩ := h
  cases hc

theorem Begins.mono (h : Begins p cs) (hpq : ∀ c, p c → q c) : Begins q cs := by
  obtain ⟨c, hc, hp⟩ := h
  exact ⟨c, hc, hpq c hp⟩

theorem Begins.stops (h : Begins p cs) (hpq : ∀ c, p c → q c = false) : Stops q cs := by
  obtain ⟨c, hc, hp⟩ := h
  intro d hd
  cases (Option.mem_def.mp hc).symm.trans hd
  exact hpq c hp

/-- A text does not begin with a character outside the class. -/
theorem Begins.stops_eq (h : Begins p cs) {d : Char} (hd : p d = false) : Stops (· == d) cs := by
  refine h.stops fun c hc => ?_
  rw [beq_eq_false_iff_ne]
  rintro rfl
  rw [hd] at hc
  cases hc

theorem stops_nil : Stops p [] :=
  fun _ hc => nomatch hc

theorem stops_cons {c : Char} : Stops p (c :: cs) ↔ p c = false :=
  ⟨fun h => h c rfl, fun h _ hd => Option.some.inj hd ▸ h⟩

theorem Stops.append (h : Stops p w) (hne : w ≠ []) (cs : List Char) : Stops p (w ++ cs) := by
  cases w with
  | nil => exact absurd rfl hne
  | cons c w => exact h

theorem Stops.mono (h : Stops q cs) (hpq : ∀ c, p c → q c) : Stops p cs := by
  intro c hc
  cases hp : p c with
  | false => rfl
  | true => rw [← h c hc, hpq c hp]

theorem isNameChar_of_isDigit {c : Char} (h : isDigit c) : isNameChar c := by
  simp [isNameChar, h]

theorem isNameChar_of_isHexDigit {c : Char} (h : isHexDigit c) : isNameChar c := by
  have le_iff (a b : Char) : a ≤ b ↔ a.toNat ≤ b.toNat := Iff.rfl
  simp only [isHexDigit, hexDigit?, isNameChar, isLetter, isDigit, le_iff, Char.reduceToNat, Bool.or_eq_true,
    Bool.and_eq_true, decide_eq_true_iff] at h ⊢
  split at h
  · omega
  · split at h
    · omega
    · split at h
      · omega
      · cases h

theorem isLetter_of_isDigit {c : Char} (h : isDigit c) : isLetter c = false := by
  have le_iff (a b : Char) : a ≤ b ↔ a.toNat ≤ b.toNat := Iff.rfl
  simp only [isDigit, isLetter, le_iff, Char.reduceToNat, Bool.and_eq_true, decide_eq_true_iff, Bool.or_eq_false_iff,
    Bool.and_eq_false_iff, decide_eq_false_iff_not] at h ⊢
  omega

/-! ## Runs of a class -/

theorem takeWhile_of_stops (h : Stops p cs) : cs.takeWhile p = [] := by
  cases cs with
  | nil => rfl
  | cons c cs => rw [List.takeWhile_cons_of_neg (by simp [h c rfl])]

theorem dropWhile_of_stops (h : Stops p cs) : cs.dropWhile p = cs := by
  cases cs with
  | nil => rfl
  | cons c cs => rw [List.dropWhile_cons_of_neg (by simp [h c rfl])]

theorem stops_dropWhile (p : Char → Bool) (cs : List Char) : Stops p (cs.dropWhile p) := by
  intro c hc
  have := List.head?_dropWhile_not p cs
  rwa [hc] at this

theorem takeWhile_append_stops (hw : ∀ c ∈ w, p c) (hs : Stops p cs) : (w ++ cs).takeWhile p = w := by
  rw [List.takeWhile_append_of_pos hw, takeWhile_of_stops hs, List.append_nil]

theorem dropWhile_append_stops (hw : ∀ c ∈ w, p c) (hs : Stops p cs) : (w ++ cs).dropWhile p = cs := by
  rw [List.dropWhile_append_of_pos hw, dropWhile_of_stops hs]

theorem some1_append (hw : Run p w) (hs : Stops p cs) : some1 p (w ++ cs) = some (w, cs) := by
  obtain ⟨hne, hw⟩ := hw
  rw [some1, takeWhile_append_stops hw hs, dropWhile_append_stops hw hs]
  cases w with
  | nil => exact absurd rfl hne
  | cons c w => rfl

theorem some1_eq_none (hs : Stops p cs) : some1 p cs = none := by
  rw [some1, takeWhile_of_stops hs]

theorem run_of_some1 (h : some1 p cs = some (w, rest)) : Run p w ∧ cs = w ++ rest := by
  rw [some1] at h
  split at h
  · cases h
  · next taken hne =>
    cases h
    exact ⟨⟨hne, fun c hc => List.all_eq_true.mp List.all_takeWhile c hc⟩, List.takeWhile_append_dropWhile.symm⟩

end Stops

/-! ## The classes of words -/

/-- The characters that a number may begin with. -/
def startsNumber (c : Char) : Bool :=
  isDigit c || c == '-'

/-- The characters that a name may begin with. -/
def startsName (c : Char) : Bool :=
  isLetter c || c == '_'

theorem startsName_of_startsNumber {c : Char} (h : startsNumber c) : startsName c = false := by
  rcases Bool.or_eq_true_iff.mp h with hd | hm
  · have : c ≠ '_' := by
      rintro rfl
      cases hd
    rw [startsName, isLetter_of_isDigit hd, Bool.false_or, beq_eq_false_iff_ne]
    exact this
  · cases beq_iff_eq.mp hm
    rfl

theorem startsNumber_of_startsName {c : Char} (h : startsName c) : startsNumber c = false := by
  cases hn : startsNumber c with
  | false => rfl
  | true => rw [startsName_of_startsNumber hn] at h; cases h

theorem isNameChar_of_startsName {c : Char} (h : startsName c) : isNameChar c := by
  rcases Bool.or_eq_true_iff.mp h with h | h <;> simp [isNameChar, h]

theorem IsName.begins (hw : IsName w) : Begins startsName w := by
  cases hw with
  | intro hc _ => exact ⟨_, rfl, hc⟩

theorem Run.begins {p : Char → Bool} (hw : Run p w) : Begins p w := by
  obtain ⟨hne, hall⟩ := hw
  cases w with
  | nil => exact absurd rfl hne
  | cons c w => exact ⟨c, rfl, hall c List.mem_cons_self⟩

theorem IsInteger.begins (hw : IsInteger w) : Begins startsNumber w := by
  cases hw with
  | plain hd => exact hd.begins.mono fun c hc => by simp [startsNumber, hc]
  | minus => exact ⟨'-', rfl, rfl⟩

theorem IsDecimal.begins (hw : IsDecimal w) : Begins startsNumber w := by
  cases hw with
  | intro hi _ => exact hi.begins.append _

theorem IsBased.begins {small big : Char} {isMember : Char → Bool} (hw : IsBased small big isMember w) :
    Begins startsNumber w := by
  cases hw with
  | intro => exact ⟨'0', rfl, rfl⟩

theorem IsBased.exists_cons {small big : Char} {isMember : Char → Bool} (hw : IsBased small big isMember w) :
    ∃ x more, (x = small ∨ x = big) ∧ w = '0' :: x :: more := by
  cases hw with
  | intro hx _ => exact ⟨_, _, hx, rfl⟩

theorem IsQuoted.begins (hw : IsQuoted w) : Begins (· == '"') w := by
  cases hw with
  | intro => exact ⟨'"', rfl, rfl⟩

theorem identifier_append (hw : IsName w) (hs : Stops isNameChar cs) : identifier (w ++ cs) = some (w, cs) := by
  cases hw with
  | intro hc hall =>
    rw [List.cons_append, identifier, if_pos hc, takeWhile_append_stops hall hs, dropWhile_append_stops hall hs]

theorem identifier_eq_none (hs : Stops startsName cs) : identifier cs = none := by
  cases cs with
  | nil => rfl
  | cons c cs => rw [identifier, if_neg (by simpa [startsName] using stops_cons.mp hs)]

theorem isName_of_identifier (h : identifier cs = some (w, rest)) :
    IsName w ∧ Stops isNameChar rest ∧ cs = w ++ rest := by
  cases cs with
  | nil => cases h
  | cons c cs =>
    rw [identifier] at h
    split at h
    · next hc =>
      cases h
      exact ⟨.intro hc fun d hd => List.all_eq_true.mp List.all_takeWhile d hd, stops_dropWhile _ _,
        by rw [List.cons_append, List.takeWhile_append_dropWhile]⟩
    · cases h

theorem integer_append (hw : IsInteger w) (hs : Stops isDigit cs) : integer (w ++ cs) = some (w, cs) := by
  cases hw with
  | minus hw => rw [List.cons_append, integer, some1_append hw hs]; rfl
  | plain hw =>
    rw [integer, some1_append hw hs]
    rintro rest hr
    obtain ⟨hne, hall⟩ := hw
    cases w with
    | nil => exact hne rfl
    | cons c w => cases hr; exact absurd (hall _ List.mem_cons_self) (by decide)

theorem integer_eq_none (hs : Stops startsNumber cs) : integer cs = none := by
  rw [integer]
  · exact some1_eq_none (hs.mono fun c hc => by simp [startsNumber, hc])
  · rintro rest rfl
    exact absurd (stops_cons.mp hs) (by decide)

theorem isInteger_of_integer (h : integer cs = some (w, rest)) : IsInteger w ∧ cs = w ++ rest := by
  rw [integer.eq_def] at h
  split at h
  · next more =>
    obtain ⟨⟨digits, rest'⟩, hd, he⟩ := Option.map_eq_some_iff.mp h
    cases he
    obtain ⟨hr, rfl⟩ := run_of_some1 hd
    exact ⟨.minus hr, rfl⟩
  · obtain ⟨hr, he⟩ := run_of_some1 h
    exact ⟨.plain hr, he⟩

theorem float_append (hw : IsDecimal w) (hs : Stops isDigit cs) : float (w ++ cs) = some (w, cs) := by
  cases hw with
  | intro hi hf =>
    rw [List.append_assoc, List.cons_append, float, integer_append hi (stops_cons.mpr (by decide))]
    simp only [some1_append hf hs, Option.map_some]

theorem float_eq_none (hs : Stops startsNumber cs) : float cs = none := by
  rw [float, integer_eq_none hs]

/-- An integer that no point follows does not begin a decimal number. -/
theorem float_integer (hw : IsInteger w) (hs : Stops isDigit cs) (hp : Stops (· == '.') cs) :
    float (w ++ cs) = none := by
  rw [float, integer_append hw hs]
  cases cs with
  | nil => rfl
  | cons c cs =>
    split
    · next he => cases he; exact absurd (stops_cons.mp hp) (by decide)
    · rfl

theorem isDecimal_of_float (h : float cs = some (w, rest)) : IsDecimal w ∧ cs = w ++ rest := by
  rw [float] at h
  split at h
  · next whole more hi =>
    obtain ⟨⟨digits, rest'⟩, hd, he⟩ := Option.map_eq_some_iff.mp h
    cases he
    obtain ⟨hr, rfl⟩ := run_of_some1 hd
    obtain ⟨hw, rfl⟩ := isInteger_of_integer hi
    exact ⟨.intro hw hr, by rw [List.append_assoc, List.cons_append]⟩
  · cases h

/-- A zero, a letter in either case and digits of a class: both `hex` and `binary`. -/
def based (small big : Char) (isMember : Char → Bool) : Lexeme.Class
  | '0' :: x :: rest =>
    if x == small || x == big then (some1 isMember rest).map fun (digits, rest) => ('0' :: x :: digits, rest) else none
  | _ => none

theorem hex_eq_based : hex = based 'x' 'X' isHexDigit := rfl

section Based

variable {small big : Char} {isMember : Char → Bool}

theorem based_append (hw : IsBased small big isMember w) (hs : Stops isMember cs) :
    based small big isMember (w ++ cs) = some (w, cs) := by
  cases hw with
  | intro hx hd =>
    rw [List.cons_append, List.cons_append, based, if_pos (by simpa using hx), some1_append hd hs]
    rfl

theorem isBased_of_based (h : based small big isMember cs = some (w, rest)) :
    IsBased small big isMember w ∧ cs = w ++ rest := by
  rw [based.eq_def] at h
  split at h
  · split at h
    · next hx =>
      obtain ⟨⟨digits, rest'⟩, hd, he⟩ := Option.map_eq_some_iff.mp h
      cases he
      obtain ⟨hr, rfl⟩ := run_of_some1 hd
      exact ⟨.intro (by simpa using hx) hr, rfl⟩
    · cases h
  · cases h

theorem based_eq_none (h : ∀ x more, cs = '0' :: x :: more → x ≠ small ∧ x ≠ big) :
    based small big isMember cs = none := by
  cases hb : based small big isMember cs with
  | none => rfl
  | some taken =>
    obtain ⟨w, rest⟩ := taken
    obtain ⟨⟨hx, -⟩, rfl⟩ := isBased_of_based hb
    obtain ⟨h₁, h₂⟩ := h _ _ rfl
    exact absurd hx (not_or.mpr ⟨h₁, h₂⟩)

theorem based_of_stops (h : Stops startsNumber cs) : based small big isMember cs = none :=
  based_eq_none fun x more he => absurd (stops_cons.mp (he ▸ h)) (by decide)

/-- No digits of another base behind a zero that no letter follows. -/
theorem based_of_letter (hs : isLetter small) (hb : isLetter big)
    (h : ∀ x more, cs = '0' :: x :: more → isLetter x = false) : based small big isMember cs = none := by
  have ne {c : Char} (hc : isLetter c) (x : Char) (more : List Char) (he : cs = '0' :: x :: more) : x ≠ c := by
    rintro rfl
    rw [h x more he] at hc
    cases hc
  exact based_eq_none fun x more he => ⟨ne hs x more he, ne hb x more he⟩

end Based

theorem hex_of_binary (hw : IsBinary w) : hex (w ++ cs) = none := by
  rw [hex_eq_based]
  cases hw with
  | intro hb _ =>
    refine based_eq_none fun x more he => ?_
    cases he
    rcases hb with rfl | rfl <;> decide

/-- The letter behind a zero belongs to another class. -/
theorem IsInteger.second {x : Char} {more : List Char} (hw : IsInteger w) (hs : Stops isLetter cs)
    (he : w ++ cs = '0' :: x :: more) : isLetter x = false := by
  cases hw with
  | minus hw => cases he
  | plain hw =>
    obtain ⟨hne, hall⟩ := hw
    match w, hne with
    | [c], _ =>
      obtain ⟨-, rfl⟩ := List.cons.inj he
      exact stops_cons.mp hs
    | c :: d :: w, _ =>
      obtain ⟨-, he⟩ := List.cons.inj he
      obtain ⟨rfl, -⟩ := List.cons.inj he
      exact isLetter_of_isDigit (hall _ (by simp))

/-- No letter follows the zero that a decimal number begins with. -/
theorem IsDecimal.second {x : Char} {more : List Char} (hw : IsDecimal w) (he : w ++ cs = '0' :: x :: more) :
    isLetter x = false := by
  cases hw with
  | intro hi _ =>
    rw [List.append_assoc] at he
    exact hi.second (stops_cons.mpr rfl) he

theorem quotedTail_append {inner : List Char} (h : IsQuotable inner) :
    quotedTail (inner ++ '"' :: cs) = some (inner ++ ['"'], cs) := by
  induction h with
  | nil => rfl
  | @plain c inner hq hb _ ih =>
    rw [List.cons_append, quotedTail, ih]
    · rfl
    · exact hq
    · exact fun _ _ h _ => hb h
  | escaped _ ih => rw [List.cons_append, List.cons_append, quotedTail, ih]; rfl

theorem quoted_append (hw : IsQuoted w) : quoted (w ++ cs) = some (w, cs) := by
  cases hw with
  | intro hi => rw [List.cons_append, List.append_assoc, List.singleton_append, quoted, quotedTail_append hi]; rfl

theorem quoted_eq_none (hs : Stops (· == '"') cs) : quoted cs = none := by
  rw [quoted]
  rintro rest rfl
  exact absurd (stops_cons.mp hs) (by decide)

theorem isName_true : IsName "true".toList :=
  .intro rfl (List.all_eq_true.mp rfl)

theorem isName_false : IsName "false".toList :=
  .intro rfl (List.all_eq_true.mp rfl)

theorem Expr.Spelled.begins {e : Expr} {w : String} (h : Expr.Spelled e w) :
    Begins (fun c => startsNumber c || c == '"') w.toList ∨ IsName w.toList := by
  have number {w : List Char} (h : Begins startsNumber w) : Begins (fun c => startsNumber c || c == '"') w :=
    h.mono fun c hc => by simp [hc]
  cases h with
  | int hw => exact .inl (number hw.begins)
  | float hw => exact .inl (number hw.begins)
  | bytes hw => exact .inl (number hw.begins)
  | bits hw => exact .inl (number hw.begins)
  | text hw => exact .inl (hw.begins.mono fun c hc => by simp [beq_iff_eq.mp hc])
  | true => exact .inr isName_true
  | false => exact .inr isName_false

theorem isQuotable_of_quotedTail (h : quotedTail cs = some (w, rest)) :
    ∃ inner, IsQuotable inner ∧ w = inner ++ ['"'] ∧ cs = w ++ rest := by
  fun_induction quotedTail cs generalizing w with
  | case1 => cases h
  | case2 => cases h; exact ⟨[], .nil, rfl, rfl⟩
  | case3 c more ih =>
    obtain ⟨⟨word, rest'⟩, hd, he⟩ := Option.map_eq_some_iff.mp h
    cases he
    obtain ⟨inner, hi, rfl, rfl⟩ := ih hd
    exact ⟨_, .escaped hi, rfl, rfl⟩
  | case4 c more hq hb ih =>
    obtain ⟨⟨word, rest'⟩, hd, he⟩ := Option.map_eq_some_iff.mp h
    cases he
    obtain ⟨inner, hi, rfl, rfl⟩ := ih hd
    refine ⟨_, .plain hq (fun hc => ?_) hi, rfl, rfl⟩
    cases inner with
    | nil => exact hb _ _ hc rfl
    | cons d inner => exact hb _ _ hc rfl

theorem isQuoted_of_quoted (h : quoted cs = some (w, rest)) : IsQuoted w ∧ cs = w ++ rest := by
  rw [quoted.eq_def] at h
  split at h
  · obtain ⟨⟨word, rest'⟩, hd, he⟩ := Option.map_eq_some_iff.mp h
    cases he
    obtain ⟨inner, hi, rfl, rfl⟩ := isQuotable_of_quotedTail hd
    exact ⟨.intro hi, rfl⟩
  · cases h

theorem wholeWord_append (hs : Stops isNameChar cs) : wholeWord w (w ++ cs) = some (w, cs) := by
  have ends : cs.head?.any isNameChar = false := by
    cases cs with
    | nil => rfl
    | cons c cs => exact stops_cons.mp hs
  rw [wholeWord, if_pos (List.isPrefixOf_iff_prefix.mpr (List.prefix_append w cs)), List.drop_left]
  simp only [ends]
  rfl

theorem wholeWord_eq_some {word : List Char} (h : wholeWord word cs = some (w, rest)) :
    w = word ∧ Stops isNameChar rest ∧ cs = word ++ rest := by
  rw [wholeWord] at h
  split at h
  · next hp =>
    obtain ⟨more, rfl⟩ := List.isPrefixOf_iff_prefix.mp hp
    rw [List.drop_left] at h
    dsimp only at h
    split at h
    · cases h
    · next he =>
      cases h
      exact ⟨rfl, fun c hc => by simpa [Option.mem_def.mp hc] using he, rfl⟩
  · cases h

theorem isBoolean_of_boolean (h : boolean cs = some (w, rest)) :
    (w = "true".toList ∨ w = "false".toList) ∧ Stops isNameChar rest ∧ cs = w ++ rest := by
  rcases Option.or_eq_some_iff.mp h with h | ⟨-, h⟩
  · obtain ⟨rfl, hs, rfl⟩ := wholeWord_eq_some h
    exact ⟨.inl rfl, hs, rfl⟩
  · obtain ⟨rfl, hs, rfl⟩ := wholeWord_eq_some h
    exact ⟨.inr rfl, hs, rfl⟩

theorem boolean_true (hs : Stops isNameChar cs) : boolean ("true".toList ++ cs) = some ("true".toList, cs) :=
  congrArg (Option.or · _) (wholeWord_append hs)

theorem boolean_false (hs : Stops isNameChar cs) : boolean ("false".toList ++ cs) = some ("false".toList, cs) := by
  have other : wholeWord ['t', 'r', 'u', 'e'] ("false".toList ++ cs) = none := rfl
  rw [boolean, other]
  exact wholeWord_append hs

theorem boolean_of_stops (h : Stops startsName cs) : boolean cs = none := by
  cases hb : boolean cs with
  | none => rfl
  | some taken =>
    obtain ⟨v, rest⟩ := taken
    obtain ⟨rfl | rfl, -, rfl⟩ := isBoolean_of_boolean hb <;> exact absurd (stops_cons.mp h) (by decide)

theorem boolean_eq_none (hw : IsName w) (ht : w ≠ "true".toList) (hf : w ≠ "false".toList)
    (hs : Stops isNameChar cs) : boolean (w ++ cs) = none := by
  have isName : ∀ v, v = "true".toList ∨ v = "false".toList → IsName v := by
    rintro _ (rfl | rfl)
    exacts [isName_true, isName_false]
  cases hb : boolean (w ++ cs) with
  | none => rfl
  | some taken =>
    obtain ⟨v, rest⟩ := taken
    obtain ⟨hv, hr, he⟩ := isBoolean_of_boolean hb
    have same : some (w, cs) = some (v, rest) := by
      rw [← identifier_append hw hs, he, identifier_append (isName v hv) hr]
    cases same
    exact absurd hv (not_or.mpr ⟨ht, hf⟩)

end WireGrammar.Grammar
