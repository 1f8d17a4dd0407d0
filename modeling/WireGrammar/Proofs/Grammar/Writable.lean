import WireGrammar.Proofs.Bits.Sequence
import WireGrammar.Proofs.Grammar.Rereads

/-!
# Which trees have renderings

A tree can be written if its names are names, its integers fit 128 bits, its byte and bit strings are not empty, its
numbers and texts are those of words, and no reference begins with a boolean (`Expr.Writable`). These are all:

* `Expr.exists_written_iff`: an expression can be written as words exactly if it is writable.
* `exists_declarations_iff`: some text has the declarations as its tree exactly if they are writable.
-/

namespace WireGrammar.Grammar

open Lexeme
open Text (isDigit)

/-- The expressions that can be written. -/
inductive Expr.Writable : Expr → Prop
  | int {n} : Word.fitsSigned 128 n → Writable (.int n)
  | float {w} : IsDecimal w → Writable (.float (floatOf w))
  | bool (value : Bool) : Writable (.bool value)
  | bytes {bytes} : bytes ≠ [] → Writable (.bytes bytes)
  | bits {bits : BitString} : 0 < bits.length → Writable (.bits bits)
  | text {w} : IsQuoted w → Writable (.text (unquote w))
  | range {start stop} (inclusive : Bool) : Word.fitsSigned 128 start → Word.fitsSigned 128 stop →
      Writable (.range start stop inclusive)
  | field {field} : IsName field.toList → field ≠ "true" → field ≠ "false" → Writable (.ref none field)
  | fieldOf {symbol field} : IsName symbol.toList → symbol ≠ "true" → symbol ≠ "false" → IsName field.toList →
      Writable (.ref (some symbol) field)
  | list {items} : (∀ item ∈ items, Writable item) → Writable (.list items)
  | call {function args} {named : List (String × Expr)} (scope? : Option Scope) : IsName function.toList →
      (∀ arg ∈ args, Writable arg) → (∀ arg ∈ named, IsName arg.1.toList) → (∀ arg ∈ named, Writable arg.2) →
      Writable (.call { function, args, named, scope? })

/-- The fields that can be written. -/
structure FieldDecl.Writable (f : FieldDecl) : Prop where
  name : IsName f.name.toList
  domain : Expr.Writable (.call f.domain)

/-- The symbols that can be written. -/
structure SymbolDecl.Writable (s : SymbolDecl) : Prop where
  name : ∃ w, IsQuoted w ∧ unquote w = s.name
  fields : ∀ f ∈ s.fields, f.Writable

/-! ## Values of words -/

theorem fits_of_intOf {w : List Char} {n : Int} (h : intOf w = .ok n) : Word.fitsSigned 128 n := by
  rw [intOf] at h
  split at h
  · split at h
    · next hf => cases h; exact hf
    · cases h
  · cases h

theorem run_toDigits (n : Nat) : Run isDigit (Nat.toDigits 10 n) := by
  refine ⟨Nat.toDigits_ne_nil, fun c hc => ?_⟩
  have digit := Nat.isDigit_of_mem_toDigits (by decide) (by decide) hc
  rw [Char.isDigit, Bool.and_eq_true, decide_eq_true_iff, decide_eq_true_iff] at digit
  rw [isDigit, Bool.and_eq_true, decide_eq_true_iff, decide_eq_true_iff]
  exact digit

/-- The decimal digits of a number are read back as the number. -/
theorem natOfDigits?_toDigits (n : Nat) : Text.natOfDigits? (Nat.toDigits 10 n) = some n := by
  obtain ⟨hne, hall⟩ := run_toDigits n
  have nonempty : (Nat.toDigits 10 n).isEmpty = false := List.isEmpty_eq_false_iff.mpr hne
  rw [Text.natOfDigits?, nonempty, List.all_eq_true.mpr hall]
  exact congrArg some (Nat.ofDigitChars_toDigits (by decide) (by decide))

theorem intOf_of_digits {w : List Char} {n : Int} (hw : Text.intOfDigits? w = some n) (h : Word.fitsSigned 128 n) :
    intOf w = .ok n := by
  rw [intOf, hw]
  exact if_pos h

theorem exists_integer {n : Int} (h : Word.fitsSigned 128 n) : ∃ w, IsInteger w ∧ intOf w = .ok n := by
  cases n with
  | ofNat n =>
    refine ⟨Nat.toDigits 10 n, .plain (run_toDigits n), intOf_of_digits ?_ h⟩
    rw [Text.intOfDigits?, natOfDigits?_toDigits]
    · rfl
    · intro digits he
      have := (run_toDigits n).2 '-' (by rw [he]; exact List.mem_cons_self)
      cases this
  | negSucc n =>
    refine ⟨'-' :: Nat.toDigits 10 (n + 1), .minus (run_toDigits (n + 1)), intOf_of_digits ?_ h⟩
    rw [Text.intOfDigits?, natOfDigits?_toDigits]
    rfl

theorem run_hexEncode {bytes : List UInt8} (h : bytes ≠ []) : Run isHexDigit (Text.hexEncode bytes) := by
  have digit {n : Nat} (hn : n < 16) : isHexDigit (Text.hexDigit n) := by
    rw [isHexDigit, Text.hexDigit?_hexDigit n hn, Option.isSome_some]
  constructor
  · cases bytes with
    | nil => exact absurd rfl h
    | cons b bytes => exact List.cons_ne_nil _ _
  · clear h
    induction bytes with
    | nil => exact List.forall_mem_nil _
    | cons b bytes ih =>
      have := UInt8.toNat_lt b
      exact List.forall_mem_cons.mpr ⟨digit (by omega), List.forall_mem_cons.mpr ⟨digit (by omega), ih⟩⟩

theorem exists_hex {bytes : List UInt8} (h : bytes ≠ []) : ∃ w, IsHex w ∧ bytesOf w = .ok bytes := by
  refine ⟨'0' :: 'x' :: Text.hexEncode bytes, .intro (.inl rfl) (run_hexEncode h), ?_⟩
  rw [bytesOf, List.drop_succ_cons, List.drop_succ_cons, List.drop_zero, Text.hexDecode?_hexEncode]

theorem hexDecode?_ne_nil {digits : List Char} (h : digits ≠ []) : Text.hexDecode? digits ≠ some [] := by
  match digits, h with
  | [c], _ => exact nofun
  | hi :: lo :: digits, _ =>
    rw [Text.hexDecode?]
    simp [Option.bind_eq_some_iff]

theorem ne_nil_of_bytesOf {w : List Char} {bytes : List UInt8} (hw : IsHex w) (h : bytesOf w = .ok bytes) :
    bytes ≠ [] := by
  rintro rfl
  cases hw with
  | intro _ hd =>
    rw [bytesOf] at h
    split at h
    · next hb => cases h; exact hexDecode?_ne_nil hd.1 hb
    · cases h

theorem exists_binary {bits : BitString} (h : 0 < bits.length) : ∃ w, IsBinary w ∧ bitsOf w = bits := by
  let digit (bit : Bool) : Char := if bit then '1' else '0'
  have isDigit : ∀ bit, digit bit == '0' || digit bit == '1' := by decide
  have value : (· == '1') ∘ digit = id := funext (by decide)
  refine ⟨'0' :: 'b' :: bits.toList.map digit, .intro (.inl rfl) ⟨?_, ?_⟩, ?_⟩
  · rw [← bits.length_toList] at h
    exact mt List.map_eq_nil_iff.mp (List.ne_nil_of_length_pos h)
  · intro c hc
    obtain ⟨bit, -, rfl⟩ := List.mem_map.mp hc
    exact isDigit bit
  · rw [bitsOf, List.drop_succ_cons, List.drop_succ_cons, List.drop_zero, List.map_map, value, List.map_id,
      BitString.ofList_toList]

theorem length_bitsOf {w : List Char} (hw : IsBinary w) : 0 < (bitsOf w).length := by
  cases hw with
  | intro _ hd =>
    rw [bitsOf, BitString.length_ofList, List.length_map, List.drop_succ_cons, List.drop_succ_cons, List.drop_zero]
    exact List.length_pos_of_ne_nil hd.1

/-! ## Expressions -/

theorem Expr.Spelled.writable {e : Expr} {w : String} (h : Expr.Spelled e w) : e.Writable := by
  cases h with
  | int _ hv => exact .int (fits_of_intOf hv)
  | float hw => exact .float hw
  | bytes hw hv => exact .bytes (ne_nil_of_bytesOf hw hv)
  | bits hw => exact .bits (length_bitsOf hw)
  | text hw => exact .text hw
  | true => exact .bool .true
  | false => exact .bool .false

theorem mem_args {parts : List Part} {e : Expr} (h : e ∈ (parts.map Part.argument).filterMap Sum.getLeft?) :
    ∃ part ∈ parts, part.value = e := by
  obtain ⟨argument, ha, he⟩ := List.mem_filterMap.mp h
  obtain ⟨⟨name?, value, words⟩, hp, rfl⟩ := List.mem_map.mp ha
  refine ⟨_, hp, ?_⟩
  cases name? <;> cases he
  rfl

theorem mem_named {parts : List Part} {arg : String × Expr}
    (h : arg ∈ (parts.map Part.argument).filterMap Sum.getRight?) :
    ∃ part ∈ parts, part.name? = some arg.1 ∧ part.value = arg.2 := by
  obtain ⟨argument, ha, he⟩ := List.mem_filterMap.mp h
  obtain ⟨⟨name?, value, words⟩, hp, rfl⟩ := List.mem_map.mp ha
  refine ⟨_, hp, ?_⟩
  cases name? <;> cases he
  exact ⟨rfl, rfl⟩

theorem Expr.Written.writable {e : Expr} {words : List String} (h : Expr.Written e words) : e.Writable := by
  induction h with
  | literal h => exact h.writable
  | range inclusive _ hv _ hv' => exact .range inclusive (fits_of_intOf hv) (fits_of_intOf hv')
  | field hn ht hf => exact .field hn ht hf
  | fieldOf hs ht hf hn => exact .fieldOf hs ht hf hn
  | list _ _ ih => exact .list (List.forall_mem_map.mpr ih)
  | call _ scope? hf hn _ ih =>
    refine .call scope? hf (fun arg ha => ?_) (fun arg ha => ?_) fun arg ha => ?_
    · obtain ⟨part, hp, rfl⟩ := mem_args ha
      exact ih part hp
    · obtain ⟨part, hp, he, -⟩ := mem_named ha
      exact hn part hp arg.1 he
    · obtain ⟨part, hp, -, he⟩ := mem_named ha
      exact he ▸ ih part hp

theorem exists_string (w : List Char) : ∃ v : String, v.toList = w :=
  ⟨String.ofList w, String.toList_ofList⟩

theorem exists_words_iff {α : Type} {P : α → List String → Prop} {xs : List α} :
    (∃ wss, List.Forall₂ P xs wss) ↔ ∀ x ∈ xs, ∃ ws, P x ws := by
  constructor
  · rintro ⟨wss, h⟩
    induction h with
    | nil => exact nofun
    | cons hx _ ih => exact List.forall_mem_cons.mpr ⟨⟨_, hx⟩, ih⟩
  · intro h
    induction xs with
    | nil => exact ⟨[], .nil⟩
    | cons x xs ih =>
      obtain ⟨⟨ws, hx⟩, hxs⟩ := List.forall_mem_cons.mp h
      obtain ⟨wss, hw⟩ := ih hxs
      exact ⟨ws :: wss, .cons hx hw⟩

theorem exists_with_words {α : Type} {P : α → List String → Prop} {xs : List α} (h : ∀ x ∈ xs, ∃ ws, P x ws) :
    ∃ items : List (α × List String), items.map Prod.fst = xs ∧ ∀ it ∈ items, P it.1 it.2 := by
  obtain ⟨wss, hw⟩ := exists_words_iff.mpr h
  obtain ⟨items, hx, -, hi⟩ := Reader.exists_items hw
  exact ⟨items, hx, hi⟩

/-- Positional arguments with their words, and named ones with theirs behind them. -/
def partsOf (args : List (Expr × List String)) (named : List ((String × Expr) × List String)) : List Part :=
  args.map (fun arg => ⟨none, arg.1, arg.2⟩) ++ named.map fun arg => ⟨some arg.1.1, arg.1.2, arg.2⟩

section Parts

variable (args : List (Expr × List String)) (named : List ((String × Expr) × List String))

theorem arguments_partsOf : (partsOf args named).map Part.argument =
    args.map (fun arg => .inl arg.1) ++ named.map fun arg => .inr arg.1 := by
  rw [partsOf, List.map_append, List.map_map, List.map_map]
  rfl

theorem args_partsOf :
    ((partsOf args named).map Part.argument).filterMap Sum.getLeft? = args.map Prod.fst := by
  rw [arguments_partsOf, List.filterMap_append, List.filterMap_map, List.filterMap_map]
  simp [Function.comp_def]

theorem named_partsOf :
    ((partsOf args named).map Part.argument).filterMap Sum.getRight? = named.map Prod.fst := by
  rw [arguments_partsOf, List.filterMap_append, List.filterMap_map, List.filterMap_map]
  simp [Function.comp_def]

end Parts

theorem Expr.Writable.exists_written {e : Expr} (h : e.Writable) : ∃ words, Expr.Written e words := by
  induction h with
  | int hn =>
    obtain ⟨w, hw, hv⟩ := exists_integer hn
    obtain ⟨w, rfl⟩ := exists_string w
    exact ⟨[w], .literal (.int hw hv)⟩
  | @float w hw =>
    obtain ⟨w, rfl⟩ := exists_string w
    exact ⟨[w], .literal (.float hw)⟩
  | bool value =>
    cases value with
    | true => exact ⟨["true"], .literal .true⟩
    | false => exact ⟨["false"], .literal .false⟩
  | bytes hb =>
    obtain ⟨w, hw, hv⟩ := exists_hex hb
    obtain ⟨w, rfl⟩ := exists_string w
    exact ⟨[w], .literal (.bytes hw hv)⟩
  | bits hb =>
    obtain ⟨w, hw, rfl⟩ := exists_binary hb
    obtain ⟨w, rfl⟩ := exists_string w
    exact ⟨[w], .literal (.bits hw)⟩
  | @text w hw =>
    obtain ⟨w, rfl⟩ := exists_string w
    exact ⟨[w], .literal (.text hw)⟩
  | range inclusive hm hn =>
    obtain ⟨first, hf, hv⟩ := exists_integer hm
    obtain ⟨first, rfl⟩ := exists_string first
    obtain ⟨last, hl, hv'⟩ := exists_integer hn
    obtain ⟨last, rfl⟩ := exists_string last
    exact ⟨_, .range inclusive hf hv hl hv'⟩
  | field hn ht hf => exact ⟨_, .field hn ht hf⟩
  | fieldOf hs ht hf hn => exact ⟨_, .fieldOf hs ht hf hn⟩
  | list _ ih =>
    obtain ⟨items, rfl, hi⟩ := exists_with_words ih
    exact ⟨_, .list false hi⟩
  | call scope? hf _ hn _ ih ih' =>
    obtain ⟨args, rfl, ha⟩ := exists_with_words ih
    obtain ⟨named, rfl, hw⟩ := exists_with_words ih'
    have written : ∀ part ∈ partsOf args named, Expr.Written part.value part.words :=
      List.forall_mem_append.mpr ⟨List.forall_mem_map.mpr ha, List.forall_mem_map.mpr hw⟩
    have names : ∀ part ∈ partsOf args named, ∀ name ∈ part.name?, IsName name.toList :=
      List.forall_mem_append.mpr ⟨List.forall_mem_map.mpr fun _ _ => nofun,
        List.forall_mem_map.mpr fun arg ha name hm => by cases hm; exact hn arg.1 (List.mem_map_of_mem ha)⟩
    have call := Expr.Written.call false scope? hf names written
    rw [args_partsOf, named_partsOf] at call
    exact ⟨_, call⟩

/-- An expression can be written as words exactly if it is writable. -/
theorem Expr.exists_written_iff {e : Expr} : (∃ words, Expr.Written e words) ↔ e.Writable :=
  ⟨fun ⟨_, h⟩ => h.writable, Expr.Writable.exists_written⟩

/-! ## Declarations -/

theorem FieldDecl.exists_written_iff {f : FieldDecl} : (∃ words, FieldDecl.Written f words) ↔ f.Writable := by
  constructor
  · rintro ⟨_, ⟨hn, hd⟩⟩
    exact ⟨hn, hd.writable⟩
  · rintro ⟨hn, hd⟩
    obtain ⟨words, hw⟩ := hd.exists_written
    exact ⟨_, .intro hn hw⟩

theorem SymbolDecl.exists_written_iff {s : SymbolDecl} : (∃ words, SymbolDecl.Written s words) ↔ s.Writable := by
  constructor
  · rintro ⟨_, ⟨hq, hf⟩⟩
    exact ⟨⟨_, hq, rfl⟩, fun f hm => FieldDecl.exists_written_iff.mp (exists_words_iff.mp ⟨_, hf⟩ f hm)⟩
  · obtain ⟨name, fields⟩ := s
    rintro ⟨⟨w, hq, rfl⟩, hf⟩
    obtain ⟨w, rfl⟩ := exists_string w
    obtain ⟨words, hw⟩ := exists_words_iff.mpr fun f hm => FieldDecl.exists_written_iff.mpr (hf f hm)
    exact ⟨_, .intro hq hw⟩

/-- Words without gaps are a text that lays them out. -/
theorem laid_flatMap (words : List String) : Laid words (words.flatMap String.toList) [] := by
  induction words with
  | nil => exact .nil
  | cons w words ih => exact .cons .nil ih

/-- Some text has the declarations as its tree exactly if they are writable. -/
theorem exists_declarations_iff {decls : List SymbolDecl} :
    (∃ text, declarations text = .ok decls) ↔ ∀ s ∈ decls, s.Writable := by
  constructor
  · rintro ⟨text, h⟩ s hs
    obtain ⟨words, hw, -⟩ := renders_of_declarations h
    exact SymbolDecl.exists_written_iff.mp (exists_words_iff.mp ⟨words, hw⟩ s hs)
  · intro h
    obtain ⟨words, hw⟩ := exists_words_iff.mpr fun s hs => SymbolDecl.exists_written_iff.mpr (h s hs)
    refine ⟨String.ofList (words.flatten.flatMap String.toList), declarations_of_renders ⟨words, hw, [], ?_, .gap .nil⟩⟩
    rw [String.toList_ofList]
    exact laid_flatMap words.flatten

end WireGrammar.Grammar
