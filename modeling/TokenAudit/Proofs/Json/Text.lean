import Mathlib.Data.List.TakeDrop
import TokenAudit.Json.Reader
import TokenAudit.Proofs.Number.Decimal

/-!
# Written JSON

The compact text of a value without doubles and unusable parts that does not nest too deep is read as that value.
-/

namespace TokenAudit.Json

open List Number Assembly Nat

variable {c : Char} {cs rest more : List Char} {sig d : Nat} {i : Int} {ts : List Token} {t : Token} {text : String}
  {items : List Json} {ms : Members} {j : Json} {s : Assembly} {b : Bool} (acc : List Nat) {stack : List Open}

theorem hexUnit_control : ∀ n < 32, hexUnit '0' '0' (hexDigit (n / 16)) (hexDigit (n % 16)) = some n := by decide

theorem readString_plain (more : List Char) (noQuote : c ≠ '"') (noEscape : c ≠ '\\')
    (visible : ¬ c.toNat < 32) : readString acc (c :: more) = readString (c.toNat :: acc) more := by
  rw [readString]
  · rw [if_neg (by simp [visible, noEscape])]
  · exact noQuote
  · exact fun _ _ _ _ _ same => absurd same noEscape
  · exact fun _ _ same => absurd same noEscape

theorem readString_escapeChar (c : Char) (more : List Char) :
    readString acc ((escapeChar c).toList ++ more) = readString (c.toNat :: acc) more := by
  unfold escapeChar
  iterate 7
    split
    · simp_all [readString, simpleEscape?]
  rename_i noQuote noEscape _ _ _ _ _
  split
  · rename_i control
    have unit := hexUnit_control c.toNat (by simpa using control)
    simp [readString, unit]
  · rename_i visible
    have single : c.toString.toList = [c] := by simp
    rw [single]
    exact readString_plain acc more (by simpa using noQuote) (by simpa using noEscape) (by simpa using visible)

theorem readString_escaped (cs more : List Char) :
    readString acc ((cs.flatMap fun c => (escapeChar c).toList) ++ '"' :: more) =
      some ((cs.map Char.toNat).reverse ++ acc, more) := by
  induction cs generalizing acc with
  | nil => simp [readString]
  | cons c rest ih =>
    rw [flatMap_cons, append_assoc, readString_escapeChar, ih]
    simp

theorem not_surrogate (c : Char) : isLowSurrogate c.toNat = false ∧ isHighSurrogate c.toNat = false := by
  have valid : c.toNat < 0xD800 ∨ 0xDFFF < c.toNat := by
    rcases c.valid with low | high
    · exact .inl low
    · exact .inr high.1
  simp [isLowSurrogate, isHighSurrogate]
  omega

theorem joinUnits_toNat (acc cs : List Char) : joinUnits acc (cs.map Char.toNat) = some (cs.reverse ++ acc) := by
  induction cs generalizing acc with
  | nil => rfl
  | cons c rest ih =>
    obtain ⟨low, high⟩ := not_surrogate c
    rw [joinUnits.eq_def]
    simp [low, high, Char.ofNat_toNat, ih]

theorem escape_toList (s : String) :
    (escape s).toList = '"' :: ((s.toList.flatMap fun c => (escapeChar c).toList) ++ ['"']) := by
  simp [escape, flatMap_map]

theorem readToken_escape (s : String) (rest : List Char) :
    readToken ((escape s).toList ++ rest) = some (.text (some s), rest) := by
  have joined : joinUnits [] (s.toList.map Char.toNat).reverse = some s.toList := by
    rw [← map_reverse, joinUnits_toNat, reverse_reverse, append_nil]
  rw [escape_toList, cons_append, append_assoc, singleton_append, readToken, readString_escaped]
  simp [joined]

def Fits (i : Int) : Prop := -(signedLimit : Int) ≤ i ∧ i < wordLimit

def Ending (rest : List Char) : Prop := rest = [] ∨ ∃ c more, rest = c :: more ∧ c ∈ [',', ']', '\x7d']

theorem ending_cons (mark : c ∈ [',', ']', '\x7d']) (rest : List Char) : Ending (c :: rest) :=
  .inr ⟨c, rest, rfl, mark⟩

@[elab_as_elim]
theorem Ending.cases (ending : Ending rest) {P : List Char → Prop} (nil : P [])
    (mark : ∀ more, P (',' :: more) ∧ P (']' :: more) ∧ P ('\x7d' :: more)) : P rest := by
  rcases ending with rfl | ⟨c, more, rfl, among⟩
  · exact nil
  · obtain ⟨comma, bracket, brace⟩ := mark more
    simp only [mem_cons, not_mem_nil, or_false] at among
    rcases among with rfl | rfl | rfl <;> assumption

theorem isDigit_of_isDigit (digit : c.isDigit = true) : isDigit c = true := by
  rw [isDigit, decimalDigit?_of_isDigit digit]
  rfl

theorem le_ofDigitChars (cs : List Char) (n : Nat) : n ≤ ofDigitChars 10 cs n := by
  induction cs generalizing n with
  | nil => exact le_refl n
  | cons c rest ih =>
    refine le_trans ?_ (ih (10 * n + (c.toNat - '0'.toNat)))
    omega

theorem wholeDigits_eq (digits : ∀ c ∈ cs, c.isDigit = true) (fits : ofDigitChars 10 cs sig < wordLimit) :
    wholeDigits sig 0 cs = (ofDigitChars 10 cs sig, 0) := by
  induction cs generalizing sig with
  | nil => rfl
  | cons c rest ih =>
    have digit : digitOf c = c.toNat - '0'.toNat := by
      rw [digitOf, decimalDigit?_of_isDigit (digits c (mem_cons_self ..))]
      rfl
    have value : ofDigitChars 10 (c :: rest) sig = ofDigitChars 10 rest (sig * 10 + digitOf c) := by
      rw [digit, Nat.mul_comm]
      rfl
    rw [value] at fits ⊢
    have below : ¬ (0 < 0 ∨ wordLimit ≤ sig * 10 + digitOf c) := by
      have := le_ofDigitChars rest (sig * 10 + digitOf c)
      omega
    rw [wholeDigits, if_neg below]
    exact ih (fun d among => digits d (mem_cons_of_mem c among)) fits

theorem wholeDigits_toString {n : Nat} (fits : n < wordLimit) : wholeDigits 0 0 (toString n).toList = (n, 0) := by
  have value : ofDigitChars 10 (toString n).toList 0 = n := by
    rw [show (toString n).toList = toDigits 10 n by simp]
    exact ofDigitChars_toDigits (by decide) (by decide)
  rw [wholeDigits_eq (fun _ among => isDigit_of_mem_toString among) (by rw [value]; exact fits), value]

theorem span_digits (n : Nat) (ending : Ending rest) :
    ((toString n).toList ++ rest).span isDigit = ((toString n).toList, rest) := by
  have digits : ∀ c ∈ (toString n).toList, isDigit c = true :=
    fun c among => isDigit_of_isDigit (isDigit_of_mem_toString among)
  have stops : rest.takeWhile isDigit = [] ∧ rest.dropWhile isDigit = rest :=
    ending.cases ⟨rfl, rfl⟩ fun _ => ⟨⟨rfl, rfl⟩, ⟨rfl, rfl⟩, rfl, rfl⟩
  rw [span_eq_takeWhile_dropWhile, takeWhile_append_of_pos digits, dropWhile_append_of_pos digits,
    stops.1, stops.2, append_nil]

theorem readFraction_ending (ending : Ending rest) : readFraction rest = some (none, rest) :=
  ending.cases rfl fun _ => ⟨rfl, rfl, rfl⟩

theorem readExponent_ending (ending : Ending rest) : readExponent rest = some (none, rest) :=
  ending.cases rfl fun _ => ⟨rfl, rfl, rfl⟩

theorem readNumeral_digits (negative : Bool) (n : Nat) (ending : Ending rest) :
    readNumeral ((if negative then ['-'] else []) ++ ((toString n).toList ++ rest)) =
      some (⟨negative, (toString n).toList, none, none⟩, rest) := by
  have spans := span_digits n ending
  obtain ⟨c, more, written⟩ := toString_eq_cons n
  have wellFormed : (c != '0' || more.isEmpty) = true := by
    by_cases zero : c = '0'
    · subst zero
      simp [eq_nil_of_toString written]
    · simp [zero]
  have unsigned : c ≠ '-' := by
    rintro rfl
    have digit := isDigit_of_mem_toString (written ▸ mem_cons_self ..)
    cases digit
  rw [written, cons_append] at spans ⊢
  rw [span_eq_takeWhile_dropWhile] at spans
  obtain ⟨taken, left⟩ := Prod.mk.inj spans
  cases negative <;>
    simp [readNumeral, unsigned, taken, left, wellFormed, readFraction_ending ending, readExponent_ending ending]

theorem readToken_numeral {numeral : Numeral} (starts : c = '-' ∨ c.isDigit = true)
    (reads : readNumeral (c :: more) = some (numeral, rest)) :
    readToken (c :: more) = some (.scalar (numeral.toJson.getD .unusable), rest) := by
  have apart (d : Char) (unsigned : d ≠ '-') (letter : d.isDigit = false) : c ≠ d := by
    rintro rfl
    rcases starts with same | digit
    · exact unsigned same
    · rw [digit] at letter
      cases letter
  rw [readToken.eq_11, reads]
  · rfl
  all_goals exact fun _ same => apart _ (by decide) (by decide) (List.cons.inj same).1

theorem readToken_int (fits : Fits i) (ending : Ending rest) :
    readToken ((toString i).toList ++ rest) = some (.scalar (.int i), rest) := by
  obtain ⟨low, high⟩ := fits
  cases i with
  | ofNat n =>
    have fits : n < wordLimit := by simpa using high
    have numeral : readNumeral ((toString n).toList ++ rest) = _ := readNumeral_digits false n ending
    obtain ⟨c, more, written⟩ := toString_eq_cons n
    have digit : c.isDigit = true := isDigit_of_mem_toString (written ▸ mem_cons_self ..)
    show readToken ((toString n).toList ++ rest) = _
    have value : Numeral.toJson ⟨false, (toString n).toList, none, none⟩ = some (.int n) := by
      simp only [Numeral.toJson, wholeDigits_toString fits]
      rfl
    rw [written, cons_append] at numeral ⊢
    rw [readToken_numeral (.inr digit) numeral, ← written, value]
    rfl
  | negSucc n =>
    have bounded : n + 1 ≤ signedLimit := by omega
    have fits : n + 1 < wordLimit := lt_of_le_of_lt bounded (by decide)
    have numeral : readNumeral ('-' :: ((toString (n + 1)).toList ++ rest)) = _ :=
      readNumeral_digits true (n + 1) ending
    have value : Numeral.toJson ⟨true, (toString (n + 1)).toList, none, none⟩ = some (.int (.negSucc n)) := by
      simp only [Numeral.toJson, wholeDigits_toString fits]
      rw [if_pos (by simpa using bounded)]
      rfl
    rw [toString_negSucc, cons_append, readToken_numeral (.inl rfl) numeral, value]
    rfl

def Lexes (cs : List Char) (ts : List Token) (rest : List Char) : Prop :=
  ∀ fuel acc, cs.length ≤ fuel →
    ∃ left, rest.length ≤ left ∧ tokens fuel acc cs = tokens left (ts.reverse ++ acc) rest

theorem Lexes.trans {us : List Token} (first : Lexes cs ts more) (later : Lexes more us rest) :
    Lexes cs (ts ++ us) rest := by
  intro fuel acc enough
  obtain ⟨between, enough, here⟩ := first fuel acc enough
  obtain ⟨left, enough, there⟩ := later between (ts.reverse ++ acc) enough
  refine ⟨left, enough, here.trans ?_⟩
  rw [there, reverse_append, append_assoc]

theorem lexes_token (read : readToken (c :: cs) = some (t, rest)) (visible : isSpace c = false)
    (shorter : rest.length ≤ cs.length) : Lexes (c :: cs) [t] rest := by
  intro fuel acc enough
  cases fuel with
  | zero => cases enough
  | succ fuel =>
    refine ⟨fuel, le_trans shorter (le_of_succ_le_succ enough), ?_⟩
    rw [tokens, visible, read]
    rfl

theorem scan_of_lexes (lexes : Lexes text.toList ts []) : scan text = assemble ts := by
  obtain ⟨left, _, whole⟩ := lexes text.toList.length [] (le_refl _)
  have finished : tokens left (ts.reverse ++ []) [] = some ts.reverse := by
    rw [tokens, append_nil]
  rw [scan, whole, finished]
  simp

/-- Values of 64-bit integers, strings, truth values and null that nest at most so deep. -/
def Plain : Nat → Json → Prop
  | _, .null => True
  | _, .bool _ => True
  | _, .int i => Fits i
  | _, .str _ => True
  | d + 1, .arr items => ∀ j ∈ items, Plain d j
  | d + 1, .obj ms => ∀ m ∈ ms, Plain d m.2
  | _, _ => False

@[simp] theorem plain_null (d : Nat) : Plain d .null := by cases d <;> trivial

@[simp] theorem plain_bool (d : Nat) (b : Bool) : Plain d (.bool b) := by cases d <;> trivial

@[simp] theorem plain_str (d : Nat) (s : String) : Plain d (.str s) := by cases d <;> trivial

@[simp] theorem plain_int : Plain d (.int i) ↔ Fits i := by cases d <;> rfl

@[simp] theorem plain_arr : Plain (d + 1) (.arr items) ↔ ∀ j ∈ items, Plain d j := .rfl

@[simp] theorem plain_obj : Plain (d + 1) (.obj ms) ↔ ∀ m ∈ ms, Plain d m.2 := .rfl

/-- The text stands for the value wherever a value is expected that nests `d` deep. -/
def Writes (d : Nat) (cs : List Char) (j : Json) : Prop :=
  ∃ ts, (∀ rest, Ending rest → Lexes (cs ++ rest) ts rest) ∧
    ∀ (s : Assembly) (b : Bool), s.expect = .value b → d + s.stack.length ≤ maxDepth →
      ts.foldlM feed s = s.give j

theorem writes_token (visible : isSpace c = false)
    (reads : ∀ rest, Ending rest → readToken (c :: cs ++ rest) = some (t, rest))
    (feeds : ∀ (s : Assembly) (b : Bool), s.expect = .value b → s.feed t = s.give j) : Writes d (c :: cs) j := by
  refine ⟨[t], fun rest ending => ?_, fun s b expects _ => ?_⟩
  · exact lexes_token (reads rest ending) visible (by simp)
  · rw [foldlM_cons, feeds s b expects]
    simp

theorem feed_scalar (expects : s.expect = .value b) (j : Json) : s.feed (.scalar j) = s.give j := by
  obtain ⟨stack, expect, result⟩ := s
  cases expects
  cases b <;> rfl

theorem feed_text (expects : s.expect = .value b) (v : String) : s.feed (.text (some v)) = s.give (.str v) := by
  obtain ⟨stack, expect, result⟩ := s
  cases expects
  cases b <;> rfl

theorem writes_str (d : Nat) (v : String) : Writes d (escape v).toList (.str v) := by
  rw [escape_toList]
  refine writes_token (by decide) (fun rest _ => ?_) fun s b expects => feed_text expects v
  have reads := readToken_escape v rest
  rwa [escape_toList] at reads

theorem writes_int (d : Nat) (fits : Fits i) : Writes d (toString i).toList (.int i) := by
  obtain ⟨c, cs, written, visible⟩ : ∃ c cs, (toString i).toList = c :: cs ∧ isSpace c = false := by
    cases i with
    | ofNat n =>
      obtain ⟨c, cs, written⟩ := toString_eq_cons n
      refine ⟨c, cs, written, ?_⟩
      have digit : c.isDigit = true := isDigit_of_mem_toString (written ▸ mem_cons_self ..)
      have apart (d : Char) (letter : d.isDigit = false) : c ≠ d := by
        rintro rfl
        rw [digit] at letter
        cases letter
      simp [isSpace, apart ' ' rfl, apart '\n' rfl, apart '\t' rfl, apart '\r' rfl]
    | negSucc n => exact ⟨'-', _, toString_negSucc n, rfl⟩
  rw [written]
  refine writes_token visible (fun rest ending => ?_) fun s b expects => feed_scalar expects _
  rw [← written]
  exact readToken_int fits ending

theorem compactItems_eq (items : List Json) : compactItems items = items.map compact := by
  induction items with
  | nil => rfl
  | cons j rest ih => rw [compactItems, ih, map_cons]

theorem compactMembers_eq (ms : Members) : compactMembers ms = ms.map fun m => escape m.1 ++ ":" ++ compact m.2 := by
  induction ms with
  | nil => rfl
  | cons m rest ih =>
    rw [compactMembers, ih, map_cons]

def commas (parts : List String) : List Char := (",".intercalate parts).toList

theorem commas_cons (s next : String) (rest : List String) :
    commas (s :: next :: rest) = s.toList ++ ',' :: commas (next :: rest) := by
  simp [commas, String.toList_intercalate]

theorem lexes_comma (rest : List Char) : Lexes (',' :: rest) [.comma] rest :=
  lexes_token rfl rfl (le_refl _)

theorem sealed_eq (shallow : stack.length < maxDepth) (j : Json) : Json.sealed stack j = j := by
  have empty : stack.drop (maxDepth - 1) = [] := drop_eq_nil_of_le (by omega)
  rw [Json.sealed, empty]
  rfl

theorem give_congr {t : Assembly} (stack : s.stack = t.stack) (result : s.result = t.result) (j : Json) :
    s.give j = t.give j := by
  rw [give, give, stack, result]

/-- Arrays and objects alike: parts with commas between them stand inside brackets.  The assembly keeps the parts
that it has in reverse, waits for the next one, and makes the whole of them at the closing bracket. -/
structure Bracket (α : Type) where
  left : Char
  right : Char
  opening : Token
  closing : Token
  frame : List α → Open
  waits : Bool → Expect
  whole : List α → Json
  opens : ∀ rest, Lexes (left :: rest) [opening] rest
  closes : ∀ rest, Lexes (right :: rest) [closing] rest
  ends : right ∈ [',', ']', '\x7d']
  enters : ∀ stack b result,
    feed ⟨stack, .value b, result⟩ opening = some ⟨frame [] :: stack, waits true, result⟩
  next : ∀ stack parts result,
    feed ⟨frame parts :: stack, .separator, result⟩ .comma = some ⟨frame parts :: stack, waits false, result⟩
  leaves : ∀ stack parts result, feed ⟨frame parts :: stack, .separator, result⟩ closing =
    give ⟨stack, .separator, result⟩ (Json.sealed stack (whole parts.reverse))
  empty : ∀ stack result, feed ⟨frame [] :: stack, waits true, result⟩ closing =
    give ⟨stack, waits true, result⟩ (Json.sealed stack (whole []))

namespace Bracket

variable {α : Type} (K : Bracket α) {d : Nat} {parts : List α} (text : α → String)

/-- The text stands for the part `a` inside brackets that stand `d + 1` deep. -/
def Adds (d : Nat) (cs : List Char) (a : α) : Prop :=
  ∃ ts, (∀ rest, Ending rest → Lexes (cs ++ rest) ts rest) ∧
    ∀ stack b done result, d + 1 + stack.length ≤ maxDepth →
      ts.foldlM feed ⟨K.frame done :: stack, K.waits b, result⟩ =
        some ⟨K.frame (a :: done) :: stack, .separator, result⟩

theorem adds_all (nonempty : parts ≠ []) (each : ∀ a ∈ parts, K.Adds d (text a).toList a) :
    ∃ ts, (∀ rest, Ending rest → Lexes (commas (parts.map text) ++ rest) ts rest) ∧
      ∀ stack b done result, d + 1 + stack.length ≤ maxDepth →
        ts.foldlM feed ⟨K.frame done :: stack, K.waits b, result⟩ =
          some ⟨K.frame (parts.reverse ++ done) :: stack, .separator, result⟩ := by
  induction parts with
  | nil => exact absurd rfl nonempty
  | cons a parts ih =>
    obtain ⟨ts, lexes, feeds⟩ := each a (mem_cons_self ..)
    cases parts with
    | nil =>
      refine ⟨ts, fun rest ending => ?_, feeds⟩
      exact lexes rest ending
    | cons b parts =>
      obtain ⟨us, lexes', feeds'⟩ := ih (cons_ne_nil _ _) fun b among => each b (mem_cons_of_mem _ among)
      refine ⟨ts ++ [.comma] ++ us, fun rest ending => ?_, fun stack b done result shallow => ?_⟩
      · rw [map_cons, map_cons, commas_cons, append_assoc]
        exact ((lexes _ (ending_cons (by decide) _)).trans (lexes_comma _)).trans (lexes' rest ending)
      · rw [foldlM_append, foldlM_append, feeds stack b done result shallow]
        simp only [Option.bind_eq_bind, Option.bind_some, foldlM_cons, K.next, foldlM_nil, pure,
          feeds' stack _ _ _ shallow]
        simp

theorem writes (each : ∀ a ∈ parts, K.Adds d (text a).toList a) :
    Writes (d + 1) (K.left :: (commas (parts.map text) ++ [K.right])) (K.whole parts) := by
  by_cases empty : parts = []
  · subst empty
    refine ⟨[K.opening, K.closing], fun rest _ => (K.opens _).trans (K.closes rest), fun s b expects shallow => ?_⟩
    obtain ⟨stack, expect, result⟩ := s
    cases expects
    rw [foldlM_cons, K.enters]
    simp only [Option.bind_eq_bind, Option.bind_some, foldlM_cons, foldlM_nil, K.empty, bind_pure]
    rw [sealed_eq (by simp at shallow; omega)]
    exact give_congr rfl rfl _
  · obtain ⟨ts, lexes, feeds⟩ := K.adds_all text empty each
    refine ⟨[K.opening] ++ ts ++ [K.closing], fun rest _ => ?_, fun s b expects shallow => ?_⟩
    · rw [cons_append, append_assoc]
      exact ((K.opens _).trans (lexes _ (ending_cons K.ends rest))).trans (K.closes rest)
    · obtain ⟨stack, expect, result⟩ := s
      cases expects
      rw [foldlM_append, foldlM_append, foldlM_cons, K.enters]
      simp only [Option.bind_eq_bind, Option.bind_some, foldlM_nil, pure, feeds stack true [] result shallow,
        append_nil, foldlM_cons, K.leaves, reverse_reverse, Option.bind_fun_some]
      rw [sealed_eq (by simp at shallow; omega)]
      exact give_congr rfl rfl _

def array : Bracket Json where
  left := '['
  right := ']'
  opening := .openArray
  closing := .closeArray
  frame := .array
  waits := .value
  whole := .arr
  opens rest := lexes_token rfl rfl (le_refl _)
  closes rest := lexes_token rfl rfl (le_refl _)
  ends := by decide
  enters _ _ _ := rfl
  next _ _ _ := rfl
  leaves _ _ _ := rfl
  empty _ _ := rfl

end Bracket

def named (m : String × Json) : Option String × Json := (some m.1, m.2)

theorem nameAll_named (ms acc : Members) : nameAll acc (ms.map named) = some (ms.reverse ++ acc) := by
  induction ms generalizing acc with
  | nil => rfl
  | cons m rest ih =>
    rw [map_cons, named, nameAll, ih]
    simp

theorem objectOf_named (ms : Members) : objectOf (ms.map named) = .obj ms.reverse := by
  rw [objectOf, nameAll_named]
  simp

def Bracket.object : Bracket (String × Json) where
  left := '\x7b'
  right := '\x7d'
  opening := .openObject
  closing := .closeObject
  frame parts := .object (parts.map named)
  waits := .name
  whole := .obj
  opens rest := lexes_token rfl rfl (le_refl _)
  closes rest := lexes_token rfl rfl (le_refl _)
  ends := by decide
  enters _ _ _ := rfl
  next _ _ _ := rfl
  leaves stack parts result := by
    rw [← objectOf_named]
    rfl
  empty _ _ := rfl

theorem writes_arr (each : ∀ j ∈ items, Writes d (compact j).toList j) :
    Writes (d + 1) (compact (.arr items)).toList (.arr items) := by
  have text : (compact (.arr items)).toList = '[' :: (commas (items.map compact) ++ [']']) := by
    simp [compact, compactItems_eq, commas]
  rw [text]
  refine Bracket.array.writes compact fun j among => ?_
  obtain ⟨ts, lexes, feeds⟩ := each j among
  refine ⟨ts, lexes, fun stack b done result shallow => ?_⟩
  exact feeds ⟨.array done :: stack, .value b, result⟩ b rfl (by simp; omega)

theorem writes_obj (each : ∀ m ∈ ms, Writes d (compact m.2).toList m.2) :
    Writes (d + 1) (compact (.obj ms)).toList (.obj ms) := by
  let text (m : String × Json) : String := escape m.1 ++ ":" ++ compact m.2
  have written : (compact (.obj ms)).toList = '\x7b' :: (commas (ms.map text) ++ ['\x7d']) := by
    simp [compact, compactMembers_eq, commas, text]
  rw [written]
  refine Bracket.object.writes text fun m among => ?_
  obtain ⟨ts, lexes, feeds⟩ := each m among
  refine ⟨[.text (some m.1), .colon] ++ ts, fun rest ending => ?_, fun stack b done result shallow => ?_⟩
  · have name : Lexes ((text m).toList ++ rest) [.text (some m.1)] (':' :: ((compact m.2).toList ++ rest)) := by
      have split : (text m).toList ++ rest = (escape m.1).toList ++ ':' :: ((compact m.2).toList ++ rest) := by
        simp [text]
      have reads := readToken_escape m.1 (':' :: ((compact m.2).toList ++ rest))
      rw [split, escape_toList] at *
      exact lexes_token reads rfl (by simp; omega)
    exact (name.trans (lexes_token rfl rfl (le_refl _))).trans (lexes rest ending)
  · exact feeds ⟨.member (done.map named) (some m.1) :: stack, .value false, result⟩ false rfl (by simp; omega)

theorem writes_leaf (plain : Plain 0 j) : Writes d (compact j).toList j := by
  cases j with
  | null => exact writes_token (by decide) (fun _ _ => rfl) fun s b expects => feed_scalar expects _
  | bool b =>
    cases b with
    | true | false => exact writes_token (by decide) (fun _ _ => rfl) fun s b expects => feed_scalar expects _
  | int i => exact writes_int d plain
  | str v => exact writes_str d v
  | _ => exact absurd plain (by simp [Plain])

theorem writes_compact (plain : Plain d j) : Writes d (compact j).toList j := by
  induction d generalizing j with
  | zero => exact writes_leaf plain
  | succ d ih =>
    cases j with
    | arr items => exact writes_arr fun j among => ih (plain j among)
    | obj ms => exact writes_obj fun m among => ih (plain m among)
    | _ => exact writes_leaf plain

/-- The compact text of a plain value is read as the value. -/
theorem scan_compact (plain : Plain d j) (shallow : d ≤ maxDepth) : scan j.compact = some j := by
  obtain ⟨ts, lexes, feeds⟩ := writes_compact plain
  have whole := lexes [] (.inl rfl)
  rw [append_nil] at whole
  rw [scan_of_lexes whole, assemble, feeds _ false rfl (by simpa using shallow)]
  rfl

theorem Plain.usable (plain : Plain d j) : j.usable = true := by
  induction d generalizing j with
  | zero =>
    cases j with
    | arr | obj | real | unusable => cases plain
    | _ => rfl
  | succ d ih =>
    cases j with
    | arr items =>
      show usableItems items = true
      induction items with
      | nil => rfl
      | cons j rest more =>
        obtain ⟨first, later⟩ := forall_mem_cons.mp plain
        rw [usableItems, ih first, more later, Bool.and_self]
    | obj ms =>
      show usableMembers ms = true
      induction ms with
      | nil => rfl
      | cons m rest more =>
        obtain ⟨first, later⟩ := forall_mem_cons.mp plain
        rw [usableMembers, ih first, more later, Bool.and_self]
    | real | unusable => cases plain
    | _ => rfl

inductive Bounded : Json → Prop
  | null : Bounded .null
  | bool (b : Bool) : Bounded (.bool b)
  | int {i : Int} (fits : Fits i) : Bounded (.int i)
  | real (x : Number.Binary64) : Bounded (.real x)
  | str (v : String) : Bounded (.str v)
  | arr {items : List Json} (each : ∀ j ∈ items, Bounded j) : Bounded (.arr items)
  | obj {ms : Members} (each : ∀ m ∈ ms, Bounded m.2) : Bounded (.obj ms)
  | unusable : Bounded .unusable

theorem wholeDigits_lt (cs : List Char) (dropped : Nat) (fits : sig < wordLimit) :
    (wholeDigits sig dropped cs).1 < wordLimit := by
  induction cs generalizing sig dropped with
  | nil => exact fits
  | cons c rest ih =>
    rw [wholeDigits]
    split
    · exact ih _ fits
    · exact ih _ (by omega)

theorem bounded_numeral (n : Numeral) : Bounded (n.toJson.getD .unusable) := by
  have real (o : Option Number.Binary64) : Bounded ((o.map Json.real).getD .unusable) := by
    cases o with
    | none => exact .unusable
    | some x => exact .real x
  have fits := wholeDigits_lt n.whole 0 (show 0 < wordLimit by decide)
  unfold Numeral.toJson
  dsimp only
  split
  · split
    · rename_i _ _ small
      obtain ⟨_, signed⟩ := small
      refine .int ?_
      cases negative : n.negative with
      | false =>
        simp [Fits]
        omega
      | true =>
        simp [negative] at signed
        simp [Fits]
        omega
    · exact real _
  · exact real _

def Token.Bounded : Token → Prop
  | .scalar j => Json.Bounded j
  | _ => True

theorem bounded_readToken (reads : readToken cs = some (t, rest)) : t.Bounded := by
  have fixed {u : Token} {more : List Char} (same : some (u, more) = some (t, rest)) (plain : u.Bounded) :
      t.Bounded := by
    cases same
    exact plain
  unfold readToken at reads
  split at reads
  iterate 6
    · exact fixed reads trivial
  · obtain ⟨⟨units, more⟩, _, same⟩ := Option.map_eq_some_iff.mp reads
    cases same
    trivial
  · exact fixed reads (.bool true)
  · exact fixed reads (.bool false)
  · exact fixed reads .null
  · obtain ⟨⟨numeral, more⟩, _, same⟩ := Option.map_eq_some_iff.mp reads
    cases same
    exact bounded_numeral numeral

theorem bounded_tokens {fuel : Nat} {acc : List Token} (before : ∀ t ∈ acc, t.Bounded)
    (reads : tokens fuel acc cs = some ts) : ∀ t ∈ ts, t.Bounded := by
  induction fuel generalizing acc cs with
  | zero =>
    cases cs <;> cases reads
    exact before
  | succ fuel ih =>
    cases cs with
    | nil =>
      cases reads
      exact before
    | cons c rest =>
      rw [tokens] at reads
      split at reads
      · exact ih before reads
      · split at reads
        · rename_i t more token
          exact ih (forall_mem_cons.mpr ⟨bounded_readToken token, before⟩) reads
        · cases reads

def Open.Bounded : Open → Prop
  | .array items => ∀ j ∈ items, Json.Bounded j
  | .object ms => ∀ m ∈ ms, Json.Bounded m.2
  | .member ms _ => ∀ m ∈ ms, Json.Bounded m.2

def Assembly.Bounded (s : Assembly) : Prop := (∀ o ∈ s.stack, o.Bounded) ∧ Json.Bounded s.result

namespace Assembly

variable {s s' : Assembly}

theorem bounded_give (before : s.Bounded) (value : Json.Bounded j) (gives : s.give j = some s') : s'.Bounded := by
  obtain ⟨stack, expect, result⟩ := s
  obtain ⟨opened, kept⟩ := before
  unfold give at gives
  split at gives
  · cases gives
    exact ⟨nofun, value⟩
  · rename_i items rest shape
    cases shape
    cases gives
    obtain ⟨inner, outer⟩ := forall_mem_cons.mp opened
    exact ⟨forall_mem_cons.mpr ⟨forall_mem_cons.mpr ⟨value, inner⟩, outer⟩, kept⟩
  · rename_i ms name rest shape
    cases shape
    cases gives
    obtain ⟨inner, outer⟩ := forall_mem_cons.mp opened
    exact ⟨forall_mem_cons.mpr ⟨forall_mem_cons.mpr ⟨value, inner⟩, outer⟩, kept⟩
  · cases gives

theorem bounded_sealed (value : Json.Bounded j) : Json.Bounded (Json.sealed stack j) := by
  unfold Json.sealed
  split
  · exact value
  · exact .unusable

theorem bounded_nameAll {ms : List (Option String × Json)} {acc named : Members} (values : ∀ m ∈ ms, Json.Bounded m.2)
    (before : ∀ m ∈ acc, Json.Bounded m.2) (names : nameAll acc ms = some named) : ∀ m ∈ named, Json.Bounded m.2 := by
  induction ms generalizing acc with
  | nil =>
    cases names
    exact before
  | cons m rest ih =>
    obtain ⟨n, v⟩ := m
    obtain ⟨first, later⟩ := forall_mem_cons.mp values
    cases n with
    | none => cases names
    | some n => exact ih later (forall_mem_cons.mpr ⟨first, before⟩) names

theorem bounded_objectOf {ms : List (Option String × Json)} (values : ∀ m ∈ ms, Json.Bounded m.2) :
    Json.Bounded (objectOf ms) := by
  unfold objectOf
  cases names : nameAll [] ms with
  | none => exact .unusable
  | some named => exact .obj (bounded_nameAll values (fun _ absent => by cases absent) names)

theorem bounded_close (before : s.Bounded) (closes : s.close t = some s') : s'.Bounded := by
  obtain ⟨stack, expect, result⟩ := s
  obtain ⟨opened, kept⟩ := before
  unfold close at closes
  split at closes
  · rename_i items rest shape
    cases shape
    obtain ⟨inner, outer⟩ := forall_mem_cons.mp opened
    have items : Json.Bounded (.arr items.reverse) := .arr fun j among => inner j (mem_reverse.mp among)
    exact bounded_give (s := ⟨rest, expect, result⟩) ⟨outer, kept⟩ (bounded_sealed items) closes
  · rename_i ms rest shape
    cases shape
    obtain ⟨inner, outer⟩ := forall_mem_cons.mp opened
    exact bounded_give (s := ⟨rest, expect, result⟩) ⟨outer, kept⟩ (bounded_sealed (bounded_objectOf inner)) closes
  · cases closes

theorem bounded_feed (before : s.Bounded) (token : t.Bounded) (feeds : s.feed t = some s') : s'.Bounded := by
  have opened {o : Open} {expect : Expect} (new : o.Bounded) :
      Assembly.Bounded ⟨o :: s.stack, expect, s.result⟩ :=
    ⟨forall_mem_cons.mpr ⟨new, before.1⟩, before.2⟩
  unfold feed at feeds
  split at feeds
  · exact bounded_give before token feeds
  · refine bounded_give before ?_ feeds
    rename_i v _
    cases v with
    | none => exact .unusable
    | some v => exact .str v
  · cases feeds
    exact opened nofun
  · cases feeds
    exact opened nofun
  · exact bounded_close before feeds
  · split at feeds
    · rename_i ms rest shape
      cases feeds
      obtain ⟨inner, outer⟩ := forall_mem_cons.mp (shape ▸ before.1)
      exact ⟨forall_mem_cons.mpr ⟨inner, outer⟩, before.2⟩
    · cases feeds
  · exact bounded_close before feeds
  · cases feeds
    exact before
  · split at feeds
    · cases feeds
      exact before
    · cases feeds
      exact before
    · cases feeds
  · exact bounded_close before feeds
  · cases feeds

end Assembly

theorem Assembly.bounded_feeds {s' : Assembly} (before : s.Bounded) (each : ∀ t ∈ ts, t.Bounded)
    (feeds : ts.foldlM feed s = some s') : s'.Bounded := by
  induction ts generalizing s with
  | nil =>
    cases feeds
    exact before
  | cons t ts ih =>
    obtain ⟨s₁, first, later⟩ := Option.bind_eq_some_iff.mp feeds
    obtain ⟨here, others⟩ := forall_mem_cons.mp each
    exact ih (bounded_feed before here first) others later

theorem bounded_scan (scans : scan text = some j) : Bounded j := by
  obtain ⟨ts, lexed, assembled⟩ := Option.bind_eq_some_iff.mp scans
  have none : ∀ t ∈ ([] : List Token), t.Bounded := nofun
  have tokens : ∀ t ∈ ts, t.Bounded := bounded_tokens none lexed
  obtain ⟨s, feeds, ends⟩ := Option.bind_eq_some_iff.mp assembled
  have start : Assembly.Bounded ⟨[], .value false, .null⟩ := ⟨nofun, .null⟩
  have final : s.Bounded := bounded_feeds start (fun t among => tokens t (mem_reverse.mp among)) feeds
  split at ends
  · cases ends
    exact final.2
  · cases ends

end TokenAudit.Json
