import WireGrammar.Proofs.Grammar.Reads

/-!
# What is read is a rendering

Where a reader succeeds, the text lays out words behind its gap, and they are words of the tree that the reader finds
(`Finds`). A tree with a literal that has no value is not built; then the fault is that of one of the words (`Says`).

* `finds_expression`: by induction on how deep expressions may be nested.
* `renders_of_declarations`: a text from which declarations are built renders them.
-/

namespace WireGrammar.Grammar.Reader

open Lexeme (skipBlanks isNameChar intOf)

variable {α β : Type} {cs mid rest : List Char} {ws vs words : List String} {w : String}

/-! ## Spans -/

/-- The text lays out the words, and behind the gap that follows them the rest goes on like `rest`. -/
inductive Spans : List String → List Char → List Char → Prop
  | nil {cs rest : List Char} : skipBlanks cs = skipBlanks rest → Spans [] cs rest
  | cons {w : String} {ws : List String} {cs mid rest : List Char} : w.toList ≠ [] →
      skipBlanks cs = w.toList ++ mid → Spans ws mid rest → Spans (w :: ws) cs rest

theorem Spans.word (hw : w.toList ≠ []) (h : skipBlanks cs = w.toList ++ rest) : Spans [w] cs rest :=
  .cons hw h (.nil rfl)

theorem Spans.of_skipBlanks (he : skipBlanks cs = skipBlanks mid) (h : Spans ws mid rest) : Spans ws cs rest := by
  cases h with
  | nil h => exact .nil (he.trans h)
  | cons hw h hs => exact .cons hw (he.trans h) hs

theorem Spans.append (h : Spans ws cs mid) (h' : Spans vs mid rest) : Spans (ws ++ vs) cs rest := by
  induction h with
  | nil he => exact .of_skipBlanks he h'
  | cons hw he _ ih => exact .cons hw he (ih h')

theorem Spans.laid (h : Spans ws cs rest) : ∃ ending, Laid ws cs ending ∧ skipBlanks ending = skipBlanks rest := by
  induction h with
  | @nil cs rest he => exact ⟨cs, .nil, he⟩
  | cons hw he _ ih =>
    obtain ⟨ending, hl, hs⟩ := ih
    exact ⟨ending, .of_skipBlanks hw he hl, hs⟩

/-! ## Trees and their faults -/

theorem mends_refl (ws : List String) : List.Forall₂ Mends ws ws :=
  List.forall₂_same.mpr fun _ _ => .inl rfl

/-- A tree that is built satisfies the property of its words. One that is not would do so if the literals without a
value were mended, and its fault is that of such a literal. -/
inductive Says (P : α → List String → Prop) : Checked α → List String → Prop
  | ok {a : α} {words : List String} : P a words → Says P (.ok a) words
  | error {fault : GrammarError} {a : α} {w : String} {words mended : List String} : P a mended →
      List.Forall₂ Mends words mended → w ∈ words → Rejected w fault → Says P (.error fault) words

variable {P : α → List String → Prop} {Q : β → List String → Prop}

theorem Says.mended {x : Checked α} (h : Says P x ws) : ∃ a mended, P a mended ∧ List.Forall₂ Mends ws mended := by
  cases h with
  | ok ha => exact ⟨_, ws, ha, mends_refl ws⟩
  | error ha hm _ _ => exact ⟨_, _, ha, hm⟩

theorem Says.map {x : Checked α} {f : α → β} (h : Says P x ws) (hq : ∀ a ws, P a ws → Q (f a) ws) :
    Says Q (f <$> x) ws := by
  cases h with
  | ok ha => exact .ok (hq _ _ ha)
  | error ha hm hw hr => exact .error (hq _ _ ha) hm hw hr

/-- The words of a part, with other words before and behind them. -/
theorem Says.between {Q : α → List String → Prop} {x : Checked α} (before behind : List String) (h : Says P x ws)
    (hq : ∀ a ws, P a ws → Q a (before ++ ws ++ behind)) : Says Q x (before ++ ws ++ behind) := by
  cases h with
  | ok ha => exact .ok (hq _ _ ha)
  | error ha hm hw hr =>
    exact .error (hq _ _ ha) (List.rel_append (List.rel_append (mends_refl before) hm) (mends_refl behind))
      (by simp [hw]) hr

section Parts

variable {xs : List (Checked α)} {wss : List (List String)}

theorem mended_parts (h : List.Forall₂ (Says P) xs wss) :
    ∃ as wss', List.Forall₂ P as wss' ∧ List.Forall₂ (List.Forall₂ Mends) wss wss' := by
  induction h with
  | nil => exact ⟨[], [], .nil, .nil⟩
  | cons hx _ ih =>
    obtain ⟨a, ws', ha, hm⟩ := hx.mended
    obtain ⟨as, wss', has, hms⟩ := ih
    exact ⟨a :: as, ws' :: wss', .cons ha has, .cons hm hms⟩

/-- All parts are built, or the fault of one is that of all. -/
theorem mapM_parts (h : List.Forall₂ (Says P) xs wss) :
    (∃ as, xs.mapM id = .ok as ∧ List.Forall₂ P as wss) ∨
      ∃ fault as wss' w, xs.mapM id = .error fault ∧ List.Forall₂ P as wss' ∧
        List.Forall₂ (List.Forall₂ Mends) wss wss' ∧ w ∈ wss.flatten ∧ Rejected w fault := by
  induction h with
  | nil => exact .inl ⟨[], rfl, .nil⟩
  | @cons x ws xs wss hx hxs ih =>
    rw [List.mapM_cons]
    cases hx with
    | error ha hm hw hr =>
      obtain ⟨as, wss', hs, hms⟩ := mended_parts hxs
      exact .inr ⟨_, _ :: as, _ :: wss', _, rfl, .cons ha hs, .cons hm hms, List.mem_append_left _ hw, hr⟩
    | @ok a _ ha =>
      rcases ih with ⟨as, he, has⟩ | ⟨fault, as, wss', w, he, has, hm, hw, hr⟩
      · exact .inl ⟨a :: as, by rw [he]; rfl, .cons ha has⟩
      · exact .inr ⟨fault, a :: as, ws :: wss', w, by rw [he]; rfl, .cons ha has, .cons (mends_refl ws) hm,
          List.mem_append_right _ hw, hr⟩

/-- The words of parts, put together to those of the whole. -/
theorem Says.mapM {f : List α → β} (together : List (List String) → List String) (h : List.Forall₂ (Says P) xs wss)
    (hq : ∀ as wss, List.Forall₂ P as wss → Q (f as) (together wss)) (hs : wss.flatten ⊆ together wss)
    (hm : ∀ wss', List.Forall₂ (List.Forall₂ Mends) wss wss' → List.Forall₂ Mends (together wss) (together wss')) :
    Says Q (f <$> xs.mapM id) (together wss) := by
  rcases mapM_parts h with ⟨as, hx, ha⟩ | ⟨fault, as, wss', w, hx, ha, hmw, hw, hr⟩
  · rw [hx]
    exact .ok (hq as wss ha)
  · rw [hx]
    exact .error (hq as wss' ha) (hm wss' hmw) (hs hw) hr

end Parts

/-- Where the reader succeeds behind the gap of a text, the text lays out words of what it finds. -/
def Finds (read : Reader (Checked α)) (P : α → List String → Prop) : Prop :=
  ∀ cs x rest, Gave read (skipBlanks cs) (some (x, rest)) → ∃ words, Spans words cs rest ∧ Says P x words

/-! ## Words -/

theorem gave_identifier {name : String} (h : Gave identifier cs (some (name, rest))) :
    IsName name.toList ∧ Stops isNameChar rest ∧ cs = name.toList ++ rest := by
  obtain ⟨w, hw, rfl⟩ := h.wordPart
  rw [String.ofList_toList]
  exact isName_of_identifier hw

theorem gave_integer {x : Checked Int} (h : Gave integer cs (some (x, rest))) :
    ∃ w : String, IsInteger w.toList ∧ cs = w.toList ++ rest ∧ x = intOf w.toList := by
  obtain ⟨w, hw, rfl⟩ := h.wordPart
  obtain ⟨hi, he⟩ := isInteger_of_integer hw
  exact ⟨w, hi, he, rfl⟩

theorem gave_quoted {text : String} (h : Gave quoted cs (some (text, rest))) :
    ∃ w : String, IsQuoted w.toList ∧ cs = w.toList ++ rest ∧ text = Lexeme.unquote w.toList := by
  obtain ⟨w, hw, rfl⟩ := h.wordPart
  obtain ⟨hq, he⟩ := isQuoted_of_quoted hw
  exact ⟨w, hq, he, rfl⟩

theorem gave_scope {s : Scope} (h : Gave scope (skipBlanks cs) (some (s, rest))) : Spans ["@", s.name] cs rest := by
  obtain ⟨_, cs₁, ha, h⟩ := (gave_part.mp h).bind
  obtain ⟨_, _, hb, h⟩ := h.bind
  cases hb.blanks
  have named {text : String} {s' : Scope} (h : Gave ((fun _ => s') <$> exactly text) (skipBlanks cs₁) (some (s, rest)))
      (hn : s'.name = text) : skipBlanks cs₁ = s.name.toList ++ rest := by
    obtain ⟨_, he, rfl⟩ := h.map
    rw [hn]
    exact he.exactly
  have name : skipBlanks cs₁ = s.name.toList ++ rest := by
    rcases (gave_part.mp h).orElse with h | ⟨-, h⟩
    · exact named h rfl
    · rcases h.orElse with h | ⟨-, h⟩
      · exact named h rfl
      · rcases h.orElse with h | ⟨-, h⟩
        · exact named h rfl
        · exact named h rfl
  exact .cons (by simp) ha.exactly (.word (by cases s <;> simp [Scope.name]) name)

/-! ## Ranges, literals and references -/

theorem isInteger_zero : IsInteger "0".toList :=
  .plain ⟨List.cons_ne_nil _ _, List.forall_mem_singleton.mpr rfl⟩

theorem spelled_zero : Expr.Spelled (.int 0) "0" :=
  .int isInteger_zero rfl

/-- Rejected literals are mended by a zero. -/
theorem mends_zero {fault : GrammarError} (h : Rejected w fault) : Mends w "0" :=
  .inr ⟨⟨fault, h⟩, .int 0, spelled_zero⟩

def IntegerWritten (n : Int) (words : List String) : Prop :=
  ∃ w : String, words = [w] ∧ IsInteger w.toList ∧ intOf w.toList = .ok n

theorem says_integer (hw : IsInteger w.toList) : Says IntegerWritten (intOf w.toList) [w] := by
  cases hv : intOf w.toList with
  | ok n => exact .ok ⟨w, rfl, hw, hv⟩
  | error fault =>
    have hr := Rejected.integer hw hv
    exact .error ⟨"0", rfl, isInteger_zero, rfl⟩ (.cons (mends_zero hr) .nil)
      List.mem_cons_self hr

theorem says_range {start stop : Checked Int} {first last : String} (inclusive : Bool)
    (hf : Says IntegerWritten start [first]) (hl : Says IntegerWritten stop [last]) :
    Says Expr.Written (do return .range (← start) (← stop) inclusive) [first, rangeSign inclusive, last] := by
  have written {n n' : Int} {ws ws' : List String} (h : IntegerWritten n ws) (h' : IntegerWritten n' ws') :
      Expr.Written (.range n n' inclusive) (ws ++ [rangeSign inclusive] ++ ws') := by
    obtain ⟨w, rfl, hw, hv⟩ := h
    obtain ⟨w', rfl, hw', hv'⟩ := h'
    exact .range inclusive hw hv hw' hv'
  have mends {ws ws' : List String} (h : List.Forall₂ Mends [first] ws) (h' : List.Forall₂ Mends [last] ws') :
      List.Forall₂ Mends [first, rangeSign inclusive, last] (ws ++ [rangeSign inclusive] ++ ws') :=
    List.rel_append (List.rel_append h (mends_refl [rangeSign inclusive])) h'
  cases hf with
  | error ha hm hw hr =>
    obtain ⟨n, mended, hb, hm'⟩ := hl.mended
    exact .error (written ha hb) (mends hm hm') (List.mem_append_left _ hw) hr
  | ok ha =>
    cases hl with
    | ok hb => exact .ok (written ha hb)
    | error hb hm hw hr =>
      exact .error (written ha hb) (mends (mends_refl [first]) hm) (List.mem_append_right [first, _] hw) hr

theorem gave_rangeSign {inclusive : Bool}
    (h : Gave (part ((fun _ => true) <$> exactly "..=") <|> part ((fun _ => false) <$> exactly "..")) cs
      (some (inclusive, rest))) :
    cs = (rangeSign inclusive).toList ++ rest := by
  rcases h.orElse with h | ⟨-, h⟩
  · obtain ⟨_, hs, rfl⟩ := (gave_part.mp h).map
    exact hs.exactly
  · obtain ⟨_, hs, rfl⟩ := (gave_part.mp h).map
    exact hs.exactly

theorem finds_range : Finds range Expr.Written := by
  intro cs x rest h
  obtain ⟨start, cs₁, hf, h⟩ := (gave_part.mp h).bind
  obtain ⟨_, _, hb, h⟩ := h.bind
  cases hb.blanks
  obtain ⟨inclusive, cs₂, hs, h⟩ := Gave.bind h
  obtain ⟨_, _, hb, h⟩ := h.bind
  cases hb.blanks
  obtain ⟨stop, cs₃, hl, h⟩ := Gave.bind h
  obtain ⟨rfl, rfl⟩ := h.pure
  obtain ⟨first, hfw, he, rfl⟩ := gave_integer hf
  obtain ⟨last, hlw, he₂, rfl⟩ := gave_integer hl
  have sign : (rangeSign inclusive).toList ≠ [] := by
    cases inclusive <;> simp [rangeSign]
  refine ⟨[first, rangeSign inclusive, last],
    .cons hfw.solid.ne_nil he (.cons sign (gave_rangeSign hs) (.word hlw.solid.ne_nil he₂)), ?_⟩
  exact says_range inclusive (says_integer hfw) (says_integer hlw)

theorem finds_literal : Finds literal Expr.Written := by
  intro cs x rest h
  have spelled {w : String} {e : Expr} (he : skipBlanks cs = w.toList ++ rest) (h : Expr.Spelled e w) :
      ∃ words, Spans words cs rest ∧ Says Expr.Written (pure e) words :=
    ⟨[w], .word h.solid.ne_nil he, .ok (.literal h)⟩
  have rejected {w : String} {fault : GrammarError} (hw : w.toList ≠ []) (he : skipBlanks cs = w.toList ++ rest)
      (h : Rejected w fault) : ∃ words, Spans words cs rest ∧ Says Expr.Written (.error fault) words :=
    ⟨[w], .word hw he, .error (.literal spelled_zero) (.cons (mends_zero h) .nil) List.mem_cons_self h⟩
  rcases (gave_part.mp h).orElse with h | ⟨-, h⟩
  · obtain ⟨w, hw, rfl⟩ := h.wordPart
    obtain ⟨hw, he⟩ := isBased_of_based hw
    cases hv : Lexeme.bytesOf w.toList with
    | ok bytes => exact spelled he (.bytes hw hv)
    | error fault => exact rejected hw.begins.ne_nil he (.hex hw hv)
  rcases h.orElse with h | ⟨-, h⟩
  · obtain ⟨w, hw, rfl⟩ := h.wordPart
    obtain ⟨hw, he⟩ := isBased_of_based hw
    exact spelled he (.bits hw)
  rcases h.orElse with h | ⟨-, h⟩
  · obtain ⟨w, hw, rfl⟩ := h.wordPart
    obtain ⟨hw, he⟩ := isDecimal_of_float hw
    exact spelled he (.float hw)
  rcases h.orElse with h | ⟨-, h⟩
  · obtain ⟨y, hy, rfl⟩ := h.map
    obtain ⟨w, hw, he, rfl⟩ := gave_integer hy
    cases hv : intOf w.toList with
    | ok n => exact spelled he (.int hw hv)
    | error fault => exact rejected hw.begins.ne_nil he (.integer hw hv)
  rcases h.orElse with h | ⟨-, h⟩
  · obtain ⟨text, ht, rfl⟩ := h.map
    obtain ⟨w, hw, he, rfl⟩ := gave_quoted ht
    exact spelled he (.text hw)
  · obtain ⟨value, hv, rfl⟩ := h.map
    obtain ⟨w, hw, rfl⟩ := hv.wordPart
    obtain ⟨ht | hf, -, he⟩ := isBoolean_of_boolean hw
    · rw [ht] at he ⊢
      exact spelled he .true
    · rw [hf] at he ⊢
      exact spelled he .false

theorem finds_reference {x : Checked Expr} (h : Gave reference (skipBlanks cs) (some (x, rest)))
    (hl : Gave literal (skipBlanks cs) none) : ∃ words, Spans words cs rest ∧ Says Expr.Written x words := by
  obtain ⟨first, cs₁, hf, h⟩ := (gave_part.mp h).bind
  obtain ⟨hn, hs, he⟩ := gave_identifier hf
  rw [he] at hl
  have ht : first ≠ "true" := by
    rintro rfl
    cases (gives_literal_bool hn (boolean_true hs)).eq hl
  have hff : first ≠ "false" := by
    rintro rfl
    cases (gives_literal_bool hn (boolean_false hs)).eq hl
  obtain ⟨field?, cs₂, ho, hx⟩ := h.bind
  rcases ho.optional with ⟨field, rfl, hf⟩ | ⟨rfl, rfl⟩
  · obtain ⟨rfl, rfl⟩ := Gave.pure hx
    obtain ⟨_, cs₃, hp, hf⟩ := hf.seqRight
    obtain ⟨hfn, -, he₃⟩ := gave_identifier hf
    refine ⟨[first ++ "." ++ field], .word (by simp) ?_, .ok (.fieldOf hn ht hff hfn)⟩
    rw [he, hp.exactly, he₃]
    simp
  · obtain ⟨rfl, rfl⟩ := Gave.pure hx
    exact ⟨[first], .word hn.solid.ne_nil he, .ok (.field hn ht hff)⟩

/-! ## Items with commas between them -/

section Items

variable {item : Reader (Checked α)} {xs : List (Checked α)}

/-- Reading again and again finds words one behind the other. -/
theorem spans_repeated {read : Reader (Checked α)} (hf : Finds read P) (h : Repeated read cs xs rest) :
    ∃ wss, List.Forall₂ (Says P) xs wss ∧ Spans wss.flatten cs rest := by
  induction h with
  | stop => exact ⟨[], .nil, .nil rfl⟩
  | more hr _ ih =>
    obtain ⟨ws, hs, hx⟩ := hf _ _ _ hr
    obtain ⟨wss, hw, hss⟩ := ih
    exact ⟨ws :: wss, .cons hx hw, hs.append hss⟩

theorem spans_items (hf : Finds item P) (h : Repeated (exactly "," *> blanks *> item) cs xs rest) :
    ∃ wss, List.Forall₂ (Says P) xs wss ∧ Spans (wss.flatMap ("," :: ·)) cs rest := by
  induction h with
  | stop => exact ⟨[], .nil, .nil rfl⟩
  | more hr _ ih =>
    obtain ⟨_, _, hc, hr⟩ := Gave.seqRight hr
    obtain ⟨_, cs₁, he, hb⟩ := hc.seqRight
    cases hb.blanks
    obtain ⟨ws, hs, hx⟩ := hf _ _ _ hr
    obtain ⟨wss, hw, hss⟩ := ih
    exact ⟨ws :: wss, .cons hx hw, (Spans.cons (by simp) he.exactly hs).append hss⟩

theorem spans_trailing {u : Unit} (h : Gave (discard (optional? (blanks *> exactly ","))) cs (some (u, rest))) :
    ∃ comma, Spans (trailing comma) cs rest := by
  obtain ⟨_, ho⟩ := h.discard
  rcases ho.optional with ⟨_, -, hc⟩ | ⟨-, rfl⟩
  · obtain ⟨_, _, hb, hc⟩ := hc.seqRight
    cases hb.blanks
    exact ⟨true, .word (by simp) hc.exactly⟩
  · exact ⟨false, .nil rfl⟩

theorem spans_commaSeparated (hf : Finds item P) (h : Gave (commaSeparated item) (skipBlanks cs) (some (xs, rest))) :
    ∃ wss comma, List.Forall₂ (Says P) xs wss ∧ Spans (listed wss ++ trailing comma) cs rest := by
  obtain ⟨xs', mid, hi, h⟩ := Gave.bind h
  obtain ⟨_, _, ht, h⟩ := Gave.bind h
  obtain ⟨rfl, rfl⟩ := h.pure
  obtain ⟨comma, ht⟩ := spans_trailing ht
  rcases hi.orElse with hi | ⟨-, hi⟩
  · obtain ⟨first, cs₁, hx, hi⟩ := hi.bind
    obtain ⟨others, cs₂, hm, hi⟩ := Gave.bind hi
    obtain ⟨rfl, rfl⟩ := hi.pure
    obtain ⟨ws, hs, hx⟩ := hf _ _ _ hx
    obtain ⟨wss, hw, hss⟩ := spans_items hf hm.many
    exact ⟨ws :: wss, comma, .cons hx hw, (hs.append hss).append ht⟩
  · obtain ⟨rfl, rfl⟩ := hi.pure
    exact ⟨[], comma, .nil, .of_skipBlanks (skipBlanks_skipBlanks cs).symm ht⟩

/-- Items up to the mark that closes the group. -/
theorem spans_group {close : String} {k : List (Checked α) → Reader β} {y : β} (hf : Finds item P)
    (hc : close.toList ≠ [])
    (h : Gave (do let xs ← commaSeparated item; blanks; exactly close; k xs) (skipBlanks cs) (some (y, rest))) :
    ∃ xs wss comma mid, List.Forall₂ (Says P) xs wss ∧ Spans (listed wss ++ trailing comma ++ [close]) cs mid ∧
      Gave (k xs) mid (some (y, rest)) := by
  obtain ⟨xs, cs₁, hi, h⟩ := Gave.bind h
  obtain ⟨_, _, hb, h⟩ := Gave.bind h
  cases hb.blanks
  obtain ⟨_, mid, he, h⟩ := Gave.bind h
  obtain ⟨wss, comma, hw, hs⟩ := spans_commaSeparated hf hi
  exact ⟨xs, wss, comma, mid, hw, hs.append (.word hc he.exactly), h⟩

end Items

/-! ## Arguments, calls and lists -/

section Nested

variable {expr : Reader (Checked Expr)}

/-- The words of an argument, as they are said of a part. -/
def ArgumentWritten (argument : Argument) (words : List String) : Prop :=
  ∃ part : Part, part.argument = argument ∧ part.allWords = words ∧ (∀ name ∈ part.name?, IsName name.toList) ∧
    Expr.Written part.value part.words

theorem finds_argument (hf : Finds expr Expr.Written) : Finds (argument expr) ArgumentWritten := by
  intro cs x rest h
  rcases (gave_part.mp h).orElse with h | ⟨-, h⟩
  · obtain ⟨name, cs₁, hn, h⟩ := (gave_part.mp h).bind
    obtain ⟨_, _, hm, h⟩ := h.bind
    obtain ⟨cs₂, he₁, rfl⟩ := hm.mark
    obtain ⟨value, cs₃, hv, h⟩ := Gave.bind h
    obtain ⟨rfl, rfl⟩ := h.pure
    obtain ⟨hn, -, he⟩ := gave_identifier hn
    obtain ⟨words, hs, hv⟩ := hf _ _ _ hv
    refine ⟨name :: "=" :: words, .cons hn.solid.ne_nil he (.cons (by simp) he₁ hs), ?_⟩
    have named : Says (fun e ws => ArgumentWritten (.inr (name, e)) ws) value ([name, "="] ++ words ++ []) :=
      hv.between [name, "="] [] fun e ws he =>
        ⟨⟨some name, e, ws⟩, rfl, (List.append_nil _).symm, by rintro _ ⟨⟩; exact hn, he⟩
    rw [List.append_nil] at named
    exact named.map fun _ _ h => h
  · obtain ⟨value, hv, rfl⟩ := h.map
    obtain ⟨words, hs, hv⟩ := hf _ _ _ hv
    exact ⟨words, hs, hv.map fun e ws he => ⟨⟨none, e, ws⟩, rfl, rfl, nofun, he⟩⟩

theorem exists_parts {arguments : List Argument} {wss : List (List String)}
    (h : List.Forall₂ ArgumentWritten arguments wss) :
    ∃ parts : List Part, parts.map Part.argument = arguments ∧ parts.map Part.allWords = wss ∧
      (∀ part ∈ parts, ∀ name ∈ part.name?, IsName name.toList) ∧
      ∀ part ∈ parts, Expr.Written part.value part.words := by
  induction h with
  | nil => exact ⟨[], rfl, rfl, nofun, nofun⟩
  | cons ha _ ih =>
    obtain ⟨part, rfl, rfl, hn, hw⟩ := ha
    obtain ⟨parts, rfl, rfl, hns, hws⟩ := ih
    exact ⟨part :: parts, rfl, rfl, List.forall_mem_cons.mpr ⟨hn, hns⟩, List.forall_mem_cons.mpr ⟨hw, hws⟩⟩

theorem exists_items {xs : List α} {wss : List (List String)} (h : List.Forall₂ P xs wss) :
    ∃ items : List (α × List String), items.map Prod.fst = xs ∧ items.map Prod.snd = wss ∧ ∀ it ∈ items, P it.1 it.2 := by
  induction h with
  | nil => exact ⟨[], rfl, rfl, nofun⟩
  | cons he _ ih =>
    obtain ⟨items, rfl, rfl, hi⟩ := ih
    exact ⟨(_, _) :: items, rfl, rfl, List.forall_mem_cons.mpr ⟨he, hi⟩⟩

theorem flatten_subset_listed (wss : List (List String)) : wss.flatten ⊆ listed wss := by
  cases wss with
  | nil => exact List.nil_subset _
  | cons first others =>
    intro w hw
    rcases List.mem_append.mp hw with hw | hw
    · exact List.mem_append_left _ hw
    · obtain ⟨ws, hm, hw⟩ := List.mem_flatten.mp hw
      exact List.mem_append_right _ (List.mem_flatMap.mpr ⟨ws, hm, List.mem_cons_of_mem "," hw⟩)

theorem mends_listed {wss wss' : List (List String)} (h : List.Forall₂ (List.Forall₂ Mends) wss wss') :
    List.Forall₂ Mends (listed wss) (listed wss') := by
  cases h with
  | nil => exact .nil
  | cons hf ho =>
    refine List.rel_append hf ?_
    induction ho with
    | nil => exact .nil
    | cons hw _ ih => exact List.rel_append (.cons (.inl rfl) hw) ih

/-- Items between two marks, with words before them and behind. -/
theorem says_listed {xs : List (Checked α)} {wss : List (List String)} {f : List α → β} (before behind : List String)
    (h : List.Forall₂ (Says P) xs wss)
    (hq : ∀ as wss, List.Forall₂ P as wss → Q (f as) (before ++ listed wss ++ behind)) :
    Says Q (f <$> xs.mapM id) (before ++ listed wss ++ behind) :=
  .mapM (fun wss => before ++ listed wss ++ behind) h hq
    (fun w hw => by simp [flatten_subset_listed wss hw])
    fun _ hm => List.rel_append (List.rel_append (mends_refl before) (mends_listed hm)) (mends_refl behind)

theorem finds_domain (hf : Finds expr Expr.Written) :
    Finds (domain expr) fun call ws => Expr.Written (.call call) ws := by
  intro cs x rest h
  obtain ⟨found, cs₁, hc, h⟩ := (gave_part.mp h).bind
  obtain ⟨_, _, hb, h⟩ := h.bind
  cases hb.blanks
  obtain ⟨scope?, cs₂, hsc, h⟩ := Gave.bind h
  obtain ⟨rfl, rfl⟩ := h.pure
  obtain ⟨function, cs₃, hn, hc⟩ := (gave_part.mp hc).bind
  obtain ⟨_, _, hm, hc⟩ := hc.bind
  obtain ⟨cs₄, he₁, rfl⟩ := hm.mark
  obtain ⟨arguments, wss, comma, cs₅, hw, hs, hc⟩ := spans_group (finds_argument hf) (by simp) hc
  obtain ⟨rfl, rfl⟩ := hc.pure
  obtain ⟨hn, -, he⟩ := gave_identifier hn
  have scope : Spans (scopeWords scope?) cs₁ rest := by
    rcases hsc.optional with ⟨s, rfl, hs⟩ | ⟨rfl, rfl⟩
    · exact gave_scope hs
    · exact .nil (skipBlanks_skipBlanks cs₁).symm
  have inner : Spans (listed wss ++ trailing comma ++ ")" :: scopeWords scope?) cs₄ rest := by
    have := hs.append scope
    rwa [List.append_assoc _ [")"]] at this
  refine ⟨_, .cons hn.solid.ne_nil he (.cons (by simp) he₁ inner), ?_⟩
  have words (wss : List (List String)) :
      function :: "(" :: (listed wss ++ trailing comma ++ ")" :: scopeWords scope?) =
        [function, "("] ++ listed wss ++ (trailing comma ++ ")" :: scopeWords scope?) := by
    simp
  rw [words, bind_pure_comp, Functor.map_map]
  refine says_listed _ _ hw fun as wss ha => ?_
  obtain ⟨parts, rfl, rfl, hns, hws⟩ := exists_parts ha
  rw [← words]
  exact .call comma scope? hn hns hws

theorem finds_listOf (hf : Finds expr Expr.Written) : Finds (listOf expr) Expr.Written := by
  intro cs x rest h
  obtain ⟨_, cs₁, ho, h⟩ := (gave_part.mp h).bind
  obtain ⟨_, _, hb, h⟩ := h.bind
  cases hb.blanks
  obtain ⟨found, wss, comma, cs₂, hw, hs, h⟩ := spans_group hf (by simp) h
  obtain ⟨rfl, rfl⟩ := h.pure
  refine ⟨_, .cons (by simp) ho.exactly hs, ?_⟩
  have words (wss : List (List String)) :
      "[" :: (listed wss ++ trailing comma ++ ["]"]) = ["["] ++ listed wss ++ (trailing comma ++ ["]"]) := by
    simp
  rw [words]
  refine says_listed _ _ hw fun es wss he => ?_
  obtain ⟨items, rfl, rfl, hi⟩ := exists_items he
  rw [← words]
  exact .list comma hi

end Nested

/-! ## Expressions and declarations -/

theorem finds_expression (depth : Nat) : Finds (expression depth) Expr.Written := by
  induction depth with
  | zero =>
    rintro cs x rest ⟨_, _, h⟩
    cases h
  | succ depth ih =>
    intro cs x rest h
    rcases (gave_part.mp h).orElse with h | ⟨-, h⟩
    · obtain ⟨call, hc, rfl⟩ := h.map
      obtain ⟨words, hs, hw⟩ := finds_domain ih cs call rest hc
      exact ⟨words, hs, hw.map fun _ _ hw => hw⟩
    rcases h.orElse with h | ⟨-, h⟩
    · exact finds_range cs x rest h
    rcases h.orElse with h | ⟨-, h⟩
    · exact finds_listOf ih cs x rest h
    rcases h.orElse with h | ⟨hl, h⟩
    · exact finds_literal cs x rest h
    · exact finds_reference h hl

theorem finds_field (depth : Nat) : Finds (field depth) FieldDecl.Written := by
  intro cs x rest h
  obtain ⟨name, cs₁, hn, h⟩ := (gave_part.mp h).bind
  obtain ⟨_, _, hm, h⟩ := h.bind
  obtain ⟨cs₂, he₁, rfl⟩ := hm.mark
  obtain ⟨call, cs₃, hd, h⟩ := Gave.bind h
  obtain ⟨_, _, hb, h⟩ := h.bind
  cases hb.blanks
  obtain ⟨_, cs₄, hc, h⟩ := Gave.bind h
  obtain ⟨rfl, rfl⟩ := h.pure
  obtain ⟨hn, -, he⟩ := gave_identifier hn
  obtain ⟨words, hs, hw⟩ := finds_domain (finds_expression depth) cs₂ call cs₃ hd
  refine ⟨_, .cons hn.solid.ne_nil he (.cons (by simp) he₁ (hs.append (.word (by simp) hc.exactly))), ?_⟩
  have field : Says (fun call ws => FieldDecl.Written ⟨name, call⟩ ws) call ([name, ":"] ++ words ++ [";"]) :=
    hw.between [name, ":"] [";"] fun _ _ hw => .intro hn hw
  exact field.map fun _ _ h => h

theorem finds_symbol (depth : Nat) : Finds (symbol depth) SymbolDecl.Written := by
  intro cs x rest h
  obtain ⟨_, cs₁, hk, h⟩ := (gave_part.mp h).bind
  obtain ⟨_, _, hb, h⟩ := h.bind
  cases hb.blanks
  obtain ⟨name, cs₂, hn, h⟩ := Gave.bind h
  obtain ⟨_, _, hm, h⟩ := h.bind
  obtain ⟨cs₃, he₂, rfl⟩ := hm.mark
  obtain ⟨fields, cs₄, hf, h⟩ := Gave.bind h
  obtain ⟨_, _, hb, h⟩ := h.bind
  cases hb.blanks
  obtain ⟨_, cs₅, hc, h⟩ := Gave.bind h
  obtain ⟨rfl, rfl⟩ := h.pure
  obtain ⟨w, hq, he₁, rfl⟩ := gave_quoted hn
  obtain ⟨wss, hw, hs⟩ := spans_repeated (finds_field depth) hf.many
  have inner : Spans (wss.flatten ++ ["\x7d"]) cs₃ rest :=
    .append (.of_skipBlanks (skipBlanks_skipBlanks cs₃).symm hs) (.word (by simp) hc.exactly)
  refine ⟨_, .cons (by simp) hk.exactly (.cons hq.solid.ne_nil he₁ (.cons (by simp) he₂ inner)), ?_⟩
  refine .mapM (fun wss => "symbol" :: w :: "\x7b" :: (wss.flatten ++ ["\x7d"])) hw (fun _ _ hf => .intro hq hf)
    (fun w hw => by simp [List.mem_flatten.mp hw]) fun wss' hm => ?_
  exact List.rel_append (mends_refl ["symbol", w, "\x7b"]) (List.rel_append (List.rel_flatten hm) (mends_refl ["\x7d"]))

/-- The words of declarations. -/
def DeclarationsWritten (decls : List SymbolDecl) (words : List String) : Prop :=
  ∃ wss, List.Forall₂ SymbolDecl.Written decls wss ∧ words = wss.flatten

theorem finds_grammar (depth : Nat) {x : Checked (List SymbolDecl)} (h : Gave (grammar depth) cs (some (x, rest))) :
    ∃ words, Spans words cs [] ∧ Says DeclarationsWritten x words := by
  obtain ⟨_, _, hb, h⟩ := (gave_part.mp h).bind
  cases hb.blanks
  obtain ⟨symbols, cs₁, hm, h⟩ := Gave.bind h
  obtain ⟨_, _, hb, h⟩ := h.bind
  cases hb.blanks
  obtain ⟨_, cs₂, he, h⟩ := Gave.bind h
  obtain ⟨rfl, rfl⟩ := h.pure
  obtain ⟨wss, hw, hs⟩ := spans_repeated (finds_symbol depth) hm.many
  have ends : skipBlanks cs₁ = [] := by
    obtain ⟨position, farthest, he⟩ := gave_part.mp he
    cases hc : skipBlanks cs₁ with
    | nil => rfl
    | cons c more => rw [hc] at he; cases he
  have nothing : skipBlanks cs₁ = skipBlanks [] := ends
  have spans := Spans.of_skipBlanks (skipBlanks_skipBlanks cs).symm (hs.append (.nil nothing))
  rw [List.append_nil] at spans
  refine ⟨wss.flatten, spans, ?_⟩
  have built : Says DeclarationsWritten (id <$> symbols.mapM id) wss.flatten :=
    .mapM List.flatten hw (fun _ wss hd => ⟨wss, hd, rfl⟩) (List.Subset.refl _) fun _ hm => List.rel_flatten hm
  rwa [id_map] at built

end WireGrammar.Grammar.Reader

namespace WireGrammar.Grammar

open Reader

theorem laidOut_of_spans {words : List String} {text : String} (h : Spans words text.toList []) :
    LaidOut words text := by
  obtain ⟨ending, hl, he⟩ := h.laid
  exact ⟨ending, hl, ending_of_skipBlanks he⟩

/-- Either the whole text could be read, and then its tree is what was found, or there is a syntax error. -/
theorem declarations_cases (text : String) :
    (∃ words, LaidOut words text ∧ Says DeclarationsWritten (declarations text) words) ∨
      ∃ line column, declarations text = .error (.syntaxAt line column) := by
  rw [declarations]
  dsimp only
  split
  · next x next farthest hr =>
    have gave : Gave (grammar (text.toList.length + 1)) text.toList (some (x, next.rest)) :=
      ⟨0, 0, outcome_eq_some_iff.mpr ⟨next.position, farthest, hr⟩⟩
    obtain ⟨words, hs, hx⟩ := finds_grammar _ gave
    exact .inl ⟨words, laidOut_of_spans hs, hx⟩
  · exact .inr ⟨_, _, rfl⟩

/-- A text from which declarations are built renders them. -/
theorem renders_of_declarations {decls : List SymbolDecl} {text : String} (h : declarations text = .ok decls) :
    Renders decls text := by
  rcases declarations_cases text with ⟨words, hl, hs⟩ | ⟨line, column, he⟩
  · rw [h] at hs
    cases hs with
    | ok hd =>
      obtain ⟨wss, hw, rfl⟩ := hd
      exact ⟨wss, hw, hl⟩
  · rw [h] at he
    cases he

/-- A text without a syntax error from which no declarations are built would render some but for its literals. -/
theorem rendersBut_of_declarations {fault : GrammarError} {text : String} (h : declarations text = .error fault) :
    (∃ line column, fault = .syntaxAt line column) ∨ RendersBut fault text := by
  rcases declarations_cases text with ⟨words, hl, hs⟩ | ⟨line, column, he⟩
  · rw [h] at hs
    cases hs with
    | error hd hm hw hr =>
      obtain ⟨wss, hd, rfl⟩ := hd
      exact .inr ⟨_, words, wss, hd, hm, hl, _, hw, hr⟩
  · rw [h] at he
    cases he
    exact .inl ⟨line, column, rfl⟩

/-- The grammar text front end reads back every list of declarations from each of its renderings, and from no other
text; a text that it refuses goes wrong at a position, or would be a rendering but for literals without a value. -/
theorem declarations_read_back (text : String) :
    (∀ decls, declarations text = .ok decls ↔ Renders decls text) ∧
      ∀ fault, declarations text = .error fault →
        (∃ line column, fault = .syntaxAt line column) ∨ RendersBut fault text :=
  ⟨fun _ => ⟨renders_of_declarations, declarations_of_renders⟩, fun _ => rendersBut_of_declarations⟩

/-- Comments, in one of which the text ends, and commas behind the last items. -/
def commentedText : String :=
  "// leading\nsymbol \"C\" \x7b\n  // field\n  x: alt(a.b, size = [2, ],) @ constant; // trailing\n\x7d // unfinished"

/-- A hexadecimal literal with an odd number of digits. -/
def oddHexText : String :=
  "symbol \"C\" \x7b x: raw(0x123); \x7d"

/-- `commentedText` renders the declarations that are read from it, and `oddHexText` would but for its literal. -/
theorem declarations_read_back_commented :
    (∃ decls, declarations commentedText = .ok decls ∧ Renders decls commentedText) ∧
      RendersBut (.oddHex "0x123") oddHexText := by
  constructor
  · have ok : (declarations commentedText).toOption.isSome := by decide +kernel
    cases hd : declarations commentedText with
    | ok decls => exact ⟨decls, rfl, ((declarations_read_back commentedText).1 decls).mp hd⟩
    | error fault => rw [hd] at ok; cases ok
  · have odd : (match declarations oddHexText with
        | .error (.oddHex literal) => literal == "0x123"
        | _ => false) = true := by decide +kernel
    split at odd
    · next literal he =>
      rw [beq_iff_eq.mp odd] at he
      exact ((declarations_read_back oddHexText).2 _ he).resolve_left (by simp)
    · cases odd

end WireGrammar.Grammar
