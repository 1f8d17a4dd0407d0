import WireGrammar.Proofs.Grammar.ReadWords

/-!
# Renderings are read

Whatever words a tree is written as and however a text lays them out, the readers find the tree. The induction is on
how the tree is written; expressions may be nested as deep as the text is long, so the bound on the depth never stops a
reader (`Accepts`).

* `gives_commaSeparated`: items with commas between them are read one by one, with or without a comma at the end.
* `accepts_expression`, `gives_grammar`: every expression and every list of declarations.
* `declarations_of_renders`: a text that renders declarations has them as its tree.
-/

namespace WireGrammar.Grammar.Reader

open Lexeme (skipBlanks isNameChar intOf)

variable {α : Type} {cs mid rest : List Char}

/-! ## Items with commas between them -/

/-- The same follows behind the gap that both texts begin with, and the first has no more of the gap left. -/
def Near (mid rest : List Char) : Prop :=
  skipBlanks mid = skipBlanks rest ∧ mid.length ≤ rest.length

theorem Near.refl (cs : List Char) : Near cs cs :=
  ⟨rfl, Nat.le_refl _⟩

theorem Near.skipBlanks (cs : List Char) : Near (skipBlanks cs) cs :=
  ⟨skipBlanks_skipBlanks cs, length_skipBlanks_le cs⟩

/-- Wherever a text that is shorter than `bound` lays out the words and an expression may end behind them, the reader
has the value. A scope that is looked for behind the words may use up the gap there. -/
def Accepts (bound : Nat) (read : Reader α) (x : α) (words : List String) : Prop :=
  ∀ cs rest, cs.length < bound → Laid words cs rest → Closed rest →
    ∃ mid, Gives read (skipBlanks cs) (some (x, mid)) ∧ Near mid rest

/-- Behind a gap the text goes on with a mark that closes a group of items. -/
def Ends (cs : List Char) : Prop :=
  Begins (fun c => c == ')' || c == ']') (skipBlanks cs)

theorem Ends.closed (h : Ends cs) : Closed cs :=
  h.mono fun c hc => by rcases Bool.or_eq_true_iff.mp hc with hc | hc <;> cases beq_iff_eq.mp hc <;> rfl

theorem Ends.comma (h : Ends cs) : Stops (· == ',') (skipBlanks cs) :=
  Begins.stops_eq h rfl

section Items

variable {bound : Nat} {item : Reader α} {items : List (α × List String)} {comma : Bool}

/-- What the words of items without the first begin with also ends the first. -/
theorem closed_of_items (h : Laid (items.flatMap (fun it => "," :: it.2) ++ trailing comma) cs rest)
    (he : Ends rest) : Closed cs := by
  have closed {ws : List String} (h : Laid ("," :: ws) cs rest) : Closed cs := by
    obtain ⟨mid, hm, -⟩ := h.next ⟨',', rfl, rfl⟩
    rw [Closed, hm]
    exact ⟨',', rfl, rfl⟩
  cases items with
  | nil =>
    cases comma with
    | true => exact closed h
    | false => exact laid_nil.mp h ▸ he.closed
  | cons it items => exact closed h

theorem repeats_items (hi : ∀ it ∈ items, Accepts bound item it.1 it.2)
    (hn : ∀ cs, Begins isCloser cs → Gives item cs none) (hb : cs.length ≤ bound) (hm : Near mid cs)
    (h : Laid (items.flatMap (fun it => "," :: it.2) ++ trailing comma) cs rest) (he : Ends rest) :
    ∃ mid' cs', Repeats (exactly "," *> blanks *> item) mid (items.map Prod.fst) mid' ∧ Near mid' cs' ∧
      Laid (trailing comma) cs' rest := by
  induction items generalizing cs mid with
  | nil =>
    refine ⟨mid, cs, .stop ?_, hm, h⟩
    rw [hm.1]
    cases comma with
    | true =>
      obtain ⟨cs₁, hcs, h⟩ := h.next ⟨',', rfl, rfl⟩
      cases laid_nil.mp h
      rw [hcs]
      exact ((gives_exactly "," rest).seqRight (gives_blanks rest)).seqRight (hn _ he.closed)
    | false =>
      cases laid_nil.mp h
      exact ((gives_exactly_stops rfl he.comma).seqRight_none _).seqRight_none _
  | cons it items ih =>
    rw [List.flatMap_cons, List.cons_append, List.cons_append, List.append_assoc] at h
    obtain ⟨cs₁, hcs, h⟩ := h.next ⟨',', rfl, rfl⟩
    obtain ⟨cs₂, hw, h⟩ := laid_append.mp h
    have shorter : 1 + cs₁.length ≤ mid.length := length_of_skipBlanks (hm.1.trans hcs)
    have ⟨_, le⟩ := hm
    obtain ⟨mid₁, hg, hm₁⟩ := hi it List.mem_cons_self cs₁ cs₂ (by omega) hw (closed_of_items h he)
    obtain ⟨mid', cs', hr, ht⟩ := ih (fun it' hm => hi it' (List.mem_cons_of_mem it hm))
      (by have := hw.length_le; omega) hm₁ h
    refine ⟨mid', cs', .more ?_ (by have := hw.length_le; have := hm₁.2; omega) hr, ht⟩
    rw [hm.1, hcs]
    exact ((gives_exactly "," cs₁).seqRight (gives_blanks cs₁)).seqRight hg

theorem gives_trailing (hm : Near mid cs) (h : Laid (trailing comma) cs rest) (he : Ends rest) :
    ∃ mid', Gives (discard (optional? (blanks *> exactly ","))) mid (some ((), mid')) ∧ Near mid' rest := by
  cases comma with
  | true =>
    obtain ⟨cs₁, hcs, h⟩ := h.next ⟨',', rfl, rfl⟩
    cases laid_nil.mp h
    have found : Gives (exactly ",") (skipBlanks mid) (some ((), rest)) := hm.1 ▸ hcs ▸ gives_exactly "," rest
    exact ⟨rest, .discard (.optional ((gives_blanks mid).seqRight found)), .refl rest⟩
  | false =>
    cases laid_nil.mp h
    have other : Gives (exactly ",") (skipBlanks mid) none := hm.1 ▸ gives_exactly_stops rfl he.comma
    exact ⟨mid, .discard (.optional_none ((gives_blanks mid).seqRight other)), hm⟩

theorem gives_commaSeparated (hi : ∀ it ∈ items, Accepts bound item it.1 it.2)
    (hn : ∀ cs, Begins isCloser cs → Gives item cs none) (hb : cs.length < bound)
    (h : Laid (listed (items.map Prod.snd) ++ trailing comma) cs rest) (he : Ends rest) :
    ∃ mid, Gives (commaSeparated item) (skipBlanks cs) (some (items.map Prod.fst, mid)) ∧ Near mid rest := by
  cases items with
  | nil =>
    have closed : Closed cs := @closed_of_items α cs rest [] comma h he
    obtain ⟨mid, hg, hm⟩ := gives_trailing (.skipBlanks cs) h he
    refine ⟨mid, ?_, hm⟩
    exact Gives.bind (.orElse (hn _ closed).bind_none (.pure [] _)) (hg.bind (.pure _ _))
  | cons it items =>
    rw [List.map_cons, listed, List.flatMap_map, List.append_assoc] at h
    obtain ⟨cs₁, hw, h⟩ := laid_append.mp h
    obtain ⟨mid₁, first, hm₁⟩ := hi it List.mem_cons_self cs cs₁ hb hw (closed_of_items h he)
    obtain ⟨mid₂, cs₂, hr, hm₂, ht⟩ := repeats_items (fun it' hm => hi it' (List.mem_cons_of_mem it hm)) hn
      (Nat.le_trans hw.length_le (Nat.le_of_lt hb)) hm₁ h he
    obtain ⟨mid, hg, hm⟩ := gives_trailing hm₂ ht he
    refine ⟨mid, Gives.bind (.orElse_left (first.bind (hr.gives_many.bind ?_)) _) (hg.bind (.pure _ _)), hm⟩
    exact .pure _ mid₂

/-- Items up to the mark that closes the group. -/
theorem gives_group {β : Type} {close : String} {c : Char} {k : List α → Reader β} {result : Option (β × List Char)}
    (hi : ∀ it ∈ items, Accepts bound item it.1 it.2) (hn : ∀ cs, Begins isCloser cs → Gives item cs none)
    (hb : cs.length < bound) (hd : close.toList.head? = some c) (hc : c = ')' ∨ c = ']')
    (h : Laid (listed (items.map Prod.snd) ++ trailing comma ++ [close]) cs rest)
    (hk : Gives (k (items.map Prod.fst)) rest result) :
    Gives (do let xs ← commaSeparated item; blanks; exactly close; k xs) (skipBlanks cs) result := by
  obtain ⟨cs₁, h, hl⟩ := laid_append.mp h
  obtain ⟨cs₂, he, hl⟩ := hl.next ⟨c, hd, by rcases hc with rfl | rfl <;> rfl⟩
  cases laid_nil.mp hl
  have ends : Ends cs₁ := by
    rw [Ends, he]
    exact Begins.append ⟨c, hd, by rcases hc with rfl | rfl <;> rfl⟩ rest
  obtain ⟨mid, hg, hm⟩ := gives_commaSeparated hi hn hb h ends
  refine hg.bind ((gives_blanks mid).bind ?_)
  rw [hm.1, he]
  exact (gives_exactly close rest).bind hk

end Items

/-! ## Arguments, calls and lists -/

theorem gives_mark_stops {text : String} {d : Char} (hd : text.toList.head? = some d)
    (h : Stops (· == d) (skipBlanks cs)) : Gives (mark text) cs none :=
  (gives_blanks cs).bind (gives_exactly_stops hd h).bind_none

/-- An expression does not begin with a name; or an equals sign does not follow the name, nor does an opening
parenthesis unless the expression is a call. -/
theorem written_start {e : Expr} {words : List String} (h : Expr.Written e words) (hl : Laid words cs rest)
    (hc : Closed rest) :
    Stops startsName (skipBlanks cs) ∨
      ∃ (name : String) (mid : List Char), IsName name.toList ∧ Stops isNameChar mid ∧
        skipBlanks cs = name.toList ++ mid ∧ Stops (· == '=') (skipBlanks mid) ∧
        ((∀ call, e ≠ .call call) → Stops (· == '(') (skipBlanks mid)) := by
  have single {name : String} (hn : IsName name.toList) (hl : Laid [name] cs rest) :
      skipBlanks cs = name.toList ++ rest := by
    obtain ⟨mid, he, h⟩ := hl.next hn.solid
    cases laid_nil.mp h
    exact he
  have closed : Stops isNameChar rest := hc.stops.mono fun c hc => by simp [isWordChar, hc]
  cases h with
  | literal h =>
    rcases h.begins with hb | hn
    · obtain ⟨mid, he, -⟩ := hl.next h.solid
      refine .inl (he ▸ (hb.append mid).stops fun c hc => ?_)
      rcases Bool.or_eq_true_iff.mp hc with hc | hc
      · exact startsName_of_startsNumber hc
      · cases beq_iff_eq.mp hc
        rfl
    · exact .inr ⟨_, rest, hn, closed, single hn hl, hc.stops_eq rfl, fun _ => hc.stops_eq rfl⟩
  | range _ hf =>
    obtain ⟨mid, he, -⟩ := hl.next hf.solid
    exact .inl (he ▸ (hf.begins.append mid).stops fun _ => startsName_of_startsNumber)
  | field hn => exact .inr ⟨_, rest, hn, closed, single hn hl, hc.stops_eq rfl, fun _ => hc.stops_eq rfl⟩
  | @fieldOf symbol field hs =>
    have word : (symbol ++ "." ++ field).toList = symbol.toList ++ '.' :: field.toList := by simp
    obtain ⟨mid, he, -⟩ := hl.next (word ▸ hs.solid.append _)
    rw [word, List.append_assoc, List.cons_append] at he
    have point : skipBlanks ('.' :: (field.toList ++ mid)) = '.' :: (field.toList ++ mid) :=
      skipBlanks_of_begins ⟨'.', rfl, rfl⟩
    exact .inr ⟨symbol, _, hs, stops_cons.mpr rfl, he, point ▸ stops_cons.mpr rfl, fun _ => point ▸ stops_cons.mpr rfl⟩
  | list =>
    obtain ⟨mid, he, -⟩ := hl.next ⟨'[', rfl, rfl⟩
    exact .inl (he ▸ stops_cons.mpr rfl)
  | call _ _ hn =>
    obtain ⟨mid, he, hl⟩ := hl.next hn.solid
    obtain ⟨more, hm, -, hs⟩ := hl.mark (c := '(') rfl rfl rfl
    exact .inr ⟨_, mid, hn, hs, he, hm ▸ stops_cons.mpr rfl, fun h => absurd rfl (h _)⟩

theorem gives_name_stops {β : Type} {text : String} {d : Char} {name : String} (k : String → Reader β)
    (hn : IsName name.toList) (hs : Stops isNameChar mid) (hd : text.toList.head? = some d)
    (hm : Stops (· == d) (skipBlanks mid)) :
    Gives (do let name ← identifier; mark text; k name) (name.toList ++ mid) none :=
  (gives_identifier hn hs).bind (gives_mark_stops hd hm).bind_none

section Nested

variable {expr : Reader (Checked Expr)} {e : Expr} {words : List String}

theorem gives_namedArgument_none (h : Expr.Written e words) (hl : Laid words cs rest) (hc : Closed rest) :
    Gives (namedArgument expr) (skipBlanks cs) none := by
  rcases written_start h hl hc with hs | ⟨name, mid, hn, hs, he, hm, -⟩
  · exact gives_part.mpr (gives_identifier_none hs).bind_none
  · rw [he]
    exact gives_part.mpr (gives_name_stops _ hn hs rfl hm)

theorem gives_domain_none (h : Expr.Written e words) (hl : Laid words cs rest) (hc : Closed rest)
    (hne : ∀ call, e ≠ .call call) : Gives (domain expr) (skipBlanks cs) none := by
  refine gives_part.mpr (Gives.bind_none (gives_part.mpr ?_))
  rcases written_start h hl hc with hs | ⟨name, mid, hn, hs, he, -, hm⟩
  · exact (gives_identifier_none hs).bind_none
  · rw [he]
    exact gives_name_stops _ hn hs rfl (hm hne)

theorem mapM_id_pure {β : Type} (xs : List β) : (xs.map (pure : β → Checked β)).mapM id = pure xs := by
  rw [List.mapM_map]
  exact List.mapM_pure.trans (by rw [List.map_id'])

variable {bound : Nat} {parts : List Part} {comma : Bool} {function : String}

theorem accepts_argument {part : Part} (hn : ∀ name ∈ part.name?, IsName name.toList)
    (hw : Expr.Written part.value part.words) (ha : Accepts bound expr (pure part.value) part.words) :
    Accepts bound (argument expr) (pure part.argument) part.allWords := by
  obtain ⟨name?, value, words⟩ := part
  intro cs rest hb h hc
  cases name? with
  | none =>
    obtain ⟨mid, hg, hm⟩ := ha cs rest hb h hc
    exact ⟨mid, gives_part.mpr (.orElse (gives_namedArgument_none hw h hc) (hg.map (Sum.inl <$> ·))), hm⟩
  | some name =>
    have hn : IsName name.toList := hn name rfl
    obtain ⟨cs₁, he, h⟩ := h.next hn.solid
    obtain ⟨cs₂, he₁, h, hs⟩ := h.mark (c := '=') rfl rfl rfl
    have shorter := length_of_skipBlanks he
    have shorter₁ := length_of_skipBlanks he₁
    obtain ⟨mid, hg, hm⟩ := ha cs₂ rest (by omega) h hc
    refine ⟨mid, gives_part.mpr (.orElse_left ?_ _), hm⟩
    rw [he]
    refine gives_part.mpr ((gives_identifier hn hs).bind ((gives_mark he₁).bind ?_))
    exact hg.bind (.pure _ mid)

theorem gives_call (hf : IsName function.toList) (hn : ∀ part ∈ parts, ∀ name ∈ part.name?, IsName name.toList)
    (hw : ∀ part ∈ parts, Expr.Written part.value part.words)
    (ha : ∀ part ∈ parts, Accepts bound expr (pure part.value) part.words)
    (hr : ∀ cs, Begins isCloser cs → Gives expr cs none) (hb : cs.length ≤ bound)
    (h : Laid (function :: "(" :: (listed (parts.map Part.allWords) ++ trailing comma ++ [")"])) cs rest) :
    Gives (call expr) (skipBlanks cs)
      (some (pure {
        function
        args := (parts.map Part.argument).filterMap Sum.getLeft?
        named := (parts.map Part.argument).filterMap Sum.getRight?
        scope? := none }, rest)) := by
  obtain ⟨cs₁, he, h⟩ := h.next hf.solid
  obtain ⟨cs₂, he₁, h, hs⟩ := h.mark (c := '(') rfl rfl rfl
  have shorter := length_of_skipBlanks he
  have shorter₁ : 1 + cs₂.length ≤ cs₁.length := length_of_skipBlanks he₁
  let items := parts.map fun part => ((pure part.argument : Checked Argument), part.allWords)
  have accepted : ∀ it ∈ items, Accepts bound (argument expr) it.1 it.2 :=
    List.forall_mem_map.mpr fun part hp => accepts_argument (hn part hp) (hw part hp) (ha part hp)
  have refused : ∀ cs, Begins isCloser cs → Gives (argument expr) cs none := fun cs hc =>
    gives_part.mpr (.orElse (gives_part.mpr (gives_identifier_none (stops_of_closer (by decide) hc)).bind_none)
      ((hr cs hc).map_none _))
  have values : (items.map Prod.fst).mapM id = pure (parts.map Part.argument) := by
    rw [← mapM_id_pure, List.map_map, List.map_map]
    rfl
  have laid : Laid (listed (items.map Prod.snd) ++ trailing comma ++ [")"]) cs₂ rest := by
    rw [List.map_map]
    exact h
  rw [he]
  refine gives_part.mpr ((gives_identifier hf hs).bind ((gives_mark he₁).bind ?_))
  refine gives_group accepted refused (by omega) (c := ')') rfl (.inl rfl) laid ?_
  rw [values]
  exact .pure _ rest

theorem accepts_domain (scope? : Option Scope) (hf : IsName function.toList)
    (hn : ∀ part ∈ parts, ∀ name ∈ part.name?, IsName name.toList)
    (hw : ∀ part ∈ parts, Expr.Written part.value part.words)
    (ha : ∀ part ∈ parts, Accepts bound expr (pure part.value) part.words)
    (hr : ∀ cs, Begins isCloser cs → Gives expr cs none) :
    Accepts (bound + 1) (domain expr)
      (pure {
        function
        args := (parts.map Part.argument).filterMap Sum.getLeft?
        named := (parts.map Part.argument).filterMap Sum.getRight?
        scope? })
      (function :: "(" :: (listed (parts.map Part.allWords) ++ trailing comma ++ ")" :: scopeWords scope?)) := by
  intro cs rest hb h hc
  have split : function :: "(" :: (listed (parts.map Part.allWords) ++ trailing comma ++ ")" :: scopeWords scope?) =
      (function :: "(" :: (listed (parts.map Part.allWords) ++ trailing comma ++ [")"])) ++ scopeWords scope? := by
    simp
  rw [split] at h
  obtain ⟨cs₁, h, hs⟩ := laid_append.mp h
  have called := gives_call hf hn hw ha hr (Nat.le_of_lt_succ hb) h
  cases scope? with
  | none =>
    cases laid_nil.mp hs
    refine ⟨skipBlanks rest, gives_part.mpr (called.bind ((gives_blanks rest).bind ?_)), .skipBlanks rest⟩
    exact (Gives.optional_none (gives_part.mpr (gives_exactly_stops rfl (hc.stops_eq rfl)).bind_none)).bind (.pure _ _)
  | some scope =>
    refine ⟨rest, gives_part.mpr (called.bind ((gives_blanks cs₁).bind ?_)), .refl rest⟩
    exact (gives_scope hs).optional.bind (.pure _ _)

theorem accepts_listOf {items : List (Expr × List String)}
    (ha : ∀ it ∈ items, Accepts bound expr (pure it.1) it.2)
    (hr : ∀ cs, Begins isCloser cs → Gives expr cs none) :
    Accepts (bound + 1) (listOf expr) (pure (.list (items.map Prod.fst)))
      ("[" :: (listed (items.map Prod.snd) ++ trailing comma ++ ["]"])) := by
  intro cs rest hb h _
  obtain ⟨cs₁, he, h⟩ := h.next ⟨'[', rfl, rfl⟩
  have shorter : 1 + cs₁.length ≤ cs.length := length_of_skipBlanks he
  let found := items.map fun it => ((pure it.1 : Checked Expr), it.2)
  have values : (found.map Prod.fst).mapM id = pure (items.map Prod.fst) := by
    rw [← mapM_id_pure, List.map_map, List.map_map]
    rfl
  have accepted : ∀ it ∈ found, Accepts bound expr it.1 it.2 := List.forall_mem_map.mpr ha
  have laid : Laid (listed (found.map Prod.snd) ++ trailing comma ++ ["]"]) cs₁ rest := by
    rw [List.map_map]
    exact h
  refine ⟨rest, ?_, .refl rest⟩
  rw [he]
  refine gives_part.mpr ((gives_exactly "[" cs₁).bind ((gives_blanks cs₁).bind ?_))
  refine gives_group accepted hr (by omega) (c := ']') rfl (.inr rfl) laid ?_
  rw [values]
  exact .pure _ rest

end Nested

/-! ## Expressions -/

theorem gives_listOf_none {expr : Reader (Checked Expr)} (h : Stops (· == '[') cs) : Gives (listOf expr) cs none :=
  gives_part.mpr (gives_exactly_stops rfl h).bind_none

theorem gives_expression_none (depth : Nat) (h : Begins isCloser cs) : Gives (expression depth) cs none := by
  cases depth with
  | zero => exact fun _ _ => rfl
  | succ depth =>
    have names : Stops startsName cs := stops_of_closer (by decide) h
    have numbers : Stops startsNumber cs := stops_of_closer (by decide) h
    have quote : Stops (· == '"') cs := stops_of_closer (by decide) h
    have named := gives_identifier_none names
    have domain : Gives (domain (expression depth)) cs none :=
      gives_part.mpr (gives_part.mpr named.bind_none).bind_none
    have literal : Gives literal cs none :=
      gives_literal_of_stops numbers (.orElse (.map_none (gives_wordPart_none _ (quoted_eq_none quote)) _)
        (.map_none (gives_wordPart_none _ (boolean_of_stops names)) _))
    exact gives_part.mpr (.orElse (domain.map_none _) (.orElse (gives_range_of_stops numbers)
      (.orElse (gives_listOf_none (stops_of_closer (by decide) h)) (.orElse literal
        (gives_part.mpr named.bind_none)))))

theorem gives_expression_other {e : Expr} {words : List String} {depth : Nat}
    {result : Option (Checked Expr × List Char)} (h : Expr.Written e words) (hne : ∀ call, e ≠ .call call)
    (hl : Laid words cs rest) (hc : Closed rest)
    (hr : Gives (range <|> listOf (expression depth) <|> literal <|> reference) (skipBlanks cs) result) :
    Gives (expression (depth + 1)) (skipBlanks cs) result :=
  gives_part.mpr (.orElse ((gives_domain_none h hl hc hne).map_none _) hr)

variable {depth : Nat}

theorem accepts_literal {e : Expr} {w : String} (h : Expr.Spelled e w) :
    Accepts (depth + 1) (expression (depth + 1)) (pure e) [w] := by
  intro cs rest _ hl hc
  obtain ⟨mid, he, hm⟩ := hl.next h.solid
  cases laid_nil.mp hm
  have bracket : Stops (· == '[') (w.toList ++ rest) := by
    rcases h.begins with hb | hn
    · exact (hb.append rest).stops_eq rfl
    · exact (hn.begins.append rest).stops_eq rfl
  refine ⟨rest, gives_expression_other (.literal h) (by cases h <;> simp) hl hc ?_, .refl rest⟩
  rw [he]
  exact .orElse (gives_range_literal h hc) (.orElse (gives_listOf_none bracket)
    (.orElse_left (gives_literal h hc.stops) _))

theorem accepts_range {first last : String} {start stop : Int} (inclusive : Bool) (hf : IsInteger first.toList)
    (hv : intOf first.toList = .ok start) (hl : IsInteger last.toList) (hv' : intOf last.toList = .ok stop) :
    Accepts (depth + 1) (expression (depth + 1)) (pure (.range start stop inclusive))
      [first, rangeSign inclusive, last] := by
  intro cs rest _ h hc
  have := gives_range hf hl h hc
  rw [hv, hv'] at this
  exact ⟨rest, gives_expression_other (.range inclusive hf hv hl hv') (by simp) h hc (.orElse_left this _), .refl rest⟩

/-- What begins with a name and is no call is a reference, unless the name is a boolean. -/
theorem gives_name_reference {e : Expr} {words : List String} {name : String} (h : Expr.Written e words)
    (hne : ∀ call, e ≠ .call call) (hl : Laid words cs rest) (hc : Closed rest) (hn : IsName name.toList)
    (ht : name ≠ "true") (hf : name ≠ "false") (he : skipBlanks cs = name.toList ++ mid) (hs : Stops isNameChar mid)
    (hr : Gives reference (name.toList ++ mid) (some (pure e, rest))) :
    Gives (expression (depth + 1)) (skipBlanks cs) (some (pure e, rest)) := by
  have ne {v : String} (h : name ≠ v) : name.toList ≠ v.toList := fun he => h (String.toList_inj.mp he)
  refine gives_expression_other h hne hl hc ?_
  rw [he]
  exact .orElse (gives_range_of_stops (startsNumber_stops hn mid))
    (.orElse (gives_listOf_none ((hn.begins.append mid).stops_eq rfl))
      (.orElse (gives_literal_none hn (ne ht) (ne hf) hs) hr))

theorem accepts_field {field : String} (hn : IsName field.toList) (ht : field ≠ "true") (hf : field ≠ "false") :
    Accepts (depth + 1) (expression (depth + 1)) (pure (.ref none field)) [field] := by
  intro cs rest _ hl hc
  obtain ⟨mid, he, hm⟩ := hl.next hn.solid
  cases laid_nil.mp hm
  exact ⟨rest, gives_name_reference (.field hn ht hf) (by simp) hl hc hn ht hf he
    (hc.stops.mono fun c hc => by simp [isWordChar, hc]) (gives_field_reference hn hc.stops), .refl rest⟩

theorem accepts_fieldOf {symbol field : String} (hs : IsName symbol.toList) (ht : symbol ≠ "true")
    (hf : symbol ≠ "false") (hn : IsName field.toList) :
    Accepts (depth + 1) (expression (depth + 1)) (pure (.ref (some symbol) field)) [symbol ++ "." ++ field] := by
  intro cs rest _ hl hc
  have word : (symbol ++ "." ++ field).toList = symbol.toList ++ '.' :: field.toList := by simp
  obtain ⟨mid, he, hm⟩ := hl.next (word ▸ hs.solid.append _)
  cases laid_nil.mp hm
  rw [word, List.append_assoc, List.cons_append] at he
  exact ⟨rest, gives_name_reference (.fieldOf hs ht hf hn) (by simp) hl hc hs ht hf he (stops_cons.mpr rfl)
    (gives_fieldOf_reference hs hn hc.stops), .refl rest⟩

theorem accepts_of_succ {e : Checked Expr} {words : List String}
    (h : ∀ depth, Accepts (depth + 1) (expression (depth + 1)) e words) (depth : Nat) :
    Accepts depth (expression depth) e words := by
  cases depth with
  | zero => exact fun _ _ hb => absurd hb (Nat.not_lt_zero _)
  | succ depth => exact h depth

/-- Every expression is read, if expressions may be nested as deep as the text is long. -/
theorem accepts_expression {e : Expr} {words : List String} (h : Expr.Written e words) (depth : Nat) :
    Accepts depth (expression depth) (pure e) words := by
  induction h generalizing depth with
  | literal h => exact accepts_of_succ (fun _ => accepts_literal h) depth
  | range inclusive hf hv hl hv' => exact accepts_of_succ (fun _ => accepts_range inclusive hf hv hl hv') depth
  | field hn ht hf => exact accepts_of_succ (fun _ => accepts_field hn ht hf) depth
  | fieldOf hs ht hf hn => exact accepts_of_succ (fun _ => accepts_fieldOf hs ht hf hn) depth
  | list comma hi ih =>
    refine accepts_of_succ (fun depth cs rest hb h hc => ?_) depth
    obtain ⟨mid, hg, hm⟩ := accepts_listOf (fun it hm => ih it hm depth) (fun _ => gives_expression_none depth)
      cs rest hb h hc
    obtain ⟨more, he, -⟩ := h.next ⟨'[', rfl, rfl⟩
    have numbers : Stops startsNumber (skipBlanks cs) := he ▸ stops_cons.mpr rfl
    exact ⟨mid, gives_expression_other (.list comma hi) (by simp) h hc
      (.orElse (gives_range_of_stops numbers) (.orElse_left hg _)), hm⟩
  | call comma scope? hf hn hw ih =>
    refine accepts_of_succ (fun depth cs rest hb h hc => ?_) depth
    obtain ⟨mid, hg, hm⟩ := accepts_domain scope? hf hn hw (fun part hp => ih part hp depth)
      (fun _ => gives_expression_none depth) cs rest hb h hc
    exact ⟨mid, gives_part.mpr (.orElse_left (hg.map (Expr.call <$> ·)) _), hm⟩

/-! ## Declarations -/

theorem accepts_call {call : Call} {words : List String} (h : Expr.Written (.call call) words) (depth : Nat) :
    Accepts (depth + 1) (domain (expression depth)) (pure call) words := by
  cases h with
  | literal h => cases h
  | call comma scope? hf hn hw =>
    exact accepts_domain scope? hf hn hw (fun part hp => accepts_expression (hw part hp) depth)
      fun _ => gives_expression_none depth

theorem gives_field {f : FieldDecl} {words : List String} (h : FieldDecl.Written f words) (hb : cs.length ≤ depth)
    (hl : Laid words cs rest) : Gives (field depth) (skipBlanks cs) (some (pure f, rest)) := by
  cases h with
  | intro hn hd =>
    obtain ⟨cs₁, he, hl⟩ := hl.next hn.solid
    obtain ⟨cs₂, he₁, hl, hs⟩ := hl.mark (c := ':') rfl rfl rfl
    obtain ⟨cs₃, hl, hm⟩ := laid_append.mp hl
    obtain ⟨cs₄, he₃, hm⟩ := hm.next ⟨';', rfl, rfl⟩
    cases laid_nil.mp hm
    have closed : Closed cs₃ := by
      rw [Closed, he₃]
      exact ⟨';', rfl, rfl⟩
    have shorter := length_of_skipBlanks he
    have shorter₁ := length_of_skipBlanks he₁
    obtain ⟨mid, hg, hm⟩ := accepts_call hd depth cs₂ cs₃ (by omega) hl closed
    rw [he]
    refine gives_part.mpr ((gives_identifier hn hs).bind ((gives_mark he₁).bind (hg.bind ((gives_blanks mid).bind ?_))))
    rw [hm.1, he₃]
    exact (gives_exactly ";" rest).bind (.pure _ rest)

/-- Reading as often as possible what is written one behind the other. -/
theorem repeats_written {P : α → List String → Prop} {read : Reader (Checked α)} {bound : Nat} {xs : List α}
    {words : List (List String)}
    (each : ∀ {x ws cs rest}, P x ws → cs.length ≤ bound → Laid ws cs rest →
      Gives read (skipBlanks cs) (some (pure x, rest)) ∧ rest.length < (skipBlanks cs).length)
    (stop : Gives read (skipBlanks rest) none) (h : List.Forall₂ P xs words) (hb : cs.length ≤ bound)
    (hm : Near mid cs) (hl : Laid words.flatten cs rest) :
    ∃ mid', Repeats read mid (xs.map pure) mid' ∧ Near mid' rest := by
  induction h generalizing mid cs with
  | nil =>
    cases laid_nil.mp hl
    exact ⟨mid, .stop (hm.1 ▸ stop), hm⟩
  | cons hx _ ih =>
    obtain ⟨cs₁, hw, hl⟩ := laid_append.mp hl
    obtain ⟨hg, shorter⟩ := each hx hb hw
    rw [← hm.1] at hg shorter
    obtain ⟨mid', hr, hm'⟩ := ih (Nat.le_trans hw.length_le hb) (.refl cs₁) hl
    exact ⟨mid', .more hg (Nat.lt_of_lt_of_le shorter (length_skipBlanks_le mid)) hr, hm'⟩

theorem gives_symbol {s : SymbolDecl} {words : List String} (h : SymbolDecl.Written s words) (hb : cs.length ≤ depth)
    (hl : Laid words cs rest) : Gives (symbol depth) (skipBlanks cs) (some (pure s, rest)) := by
  cases h with
  | @intro w fields words hw hf =>
    obtain ⟨cs₁, he, hl⟩ := hl.next ⟨'s', rfl, rfl⟩
    obtain ⟨cs₂, he₁, hl⟩ := hl.next hw.solid
    obtain ⟨cs₃, he₂, hl⟩ := hl.next ⟨'\x7b', rfl, rfl⟩
    obtain ⟨cs₄, hl, hm⟩ := laid_append.mp hl
    obtain ⟨cs₅, he₄, hm⟩ := hm.next ⟨'\x7d', rfl, rfl⟩
    cases laid_nil.mp hm
    have shorter := length_of_skipBlanks he
    have shorter₁ := length_of_skipBlanks he₁
    have shorter₂ := length_of_skipBlanks he₂
    have stop : Gives (field depth) (skipBlanks cs₄) none :=
      gives_part.mpr (gives_identifier_none (he₄ ▸ stops_cons.mpr rfl)).bind_none
    have longer {f : FieldDecl} {words : List String} {cs rest : List Char} (h : FieldDecl.Written f words)
        (hl : Laid words cs rest) : rest.length < (skipBlanks cs).length := by
      cases h with
      | intro hn _ => exact hl.length_lt hn.solid
    obtain ⟨mid, hr, hm⟩ := repeats_written (fun hx hb hl => ⟨gives_field hx hb hl, longer hx hl⟩) stop hf
      (by omega) (.skipBlanks cs₃) hl
    rw [he]
    refine gives_part.mpr ((gives_exactly "symbol" cs₁).bind ((gives_blanks cs₁).bind ?_))
    rw [he₁]
    refine (gives_quoted hw).bind ((gives_mark he₂).bind (hr.gives_many.bind ((gives_blanks mid).bind ?_)))
    rw [hm.1, he₄]
    refine (gives_exactly "\x7d" rest).bind ?_
    rw [mapM_id_pure]
    exact .pure _ rest

theorem gives_grammar {decls : List SymbolDecl} {words : List (List String)}
    (h : List.Forall₂ SymbolDecl.Written decls words) (hb : cs.length ≤ depth) (hl : Laid words.flatten cs rest)
    (he : Ending rest) : Gives (grammar depth) cs (some (pure decls, [])) := by
  have longer {s : SymbolDecl} {words : List String} {cs rest : List Char} (h : SymbolDecl.Written s words)
      (hl : Laid words cs rest) : rest.length < (skipBlanks cs).length := by
    cases h with
    | intro => exact hl.length_lt ⟨'s', rfl, rfl⟩
  have stop : Gives (symbol depth) (skipBlanks rest) none := by
    rw [he.skipBlanks]
    exact gives_part.mpr (gives_exactly_stops rfl stops_nil).bind_none
  obtain ⟨mid, hr, hm⟩ := repeats_written (fun hx hb hl => ⟨gives_symbol hx hb hl, longer hx hl⟩) stop h hb
    (.skipBlanks cs) hl
  refine gives_part.mpr ((gives_blanks cs).bind (hr.gives_many.bind ((gives_blanks mid).bind ?_)))
  rw [hm.1, he.skipBlanks]
  have ends : Gives endOfText [] (some ((), [])) := gives_part.mpr fun _ _ => rfl
  refine ends.bind ?_
  rw [mapM_id_pure]
  exact .pure _ []

end WireGrammar.Grammar.Reader

namespace WireGrammar.Grammar

/-- A text that renders declarations has them as its tree. -/
theorem declarations_of_renders {decls : List SymbolDecl} {text : String} (h : Renders decls text) :
    declarations text = .ok decls := by
  obtain ⟨words, hw, ending, hl, he⟩ := h
  have := Reader.gives_grammar hw (Nat.le_succ text.toList.length) hl he 0 0
  obtain ⟨position, farthest, hr⟩ := Reader.outcome_eq_some_iff.mp this
  have run : ((Reader.grammar (text.toList.length + 1)).run ⟨0, text.toList⟩).run.run 0 =
    (some (pure decls, ⟨position, []⟩), farthest) := hr
  rw [declarations]
  simp only [run]
  rfl

end WireGrammar.Grammar
