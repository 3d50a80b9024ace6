import TokenAudit.Proofs.Number.Decimal
import TokenAudit.Proofs.Solver.Memory

/-!
# Models as they are printed

Blanks and line ends may stand between any two tokens of a printed model; the reader finds the same tokens again.
-/

namespace TokenAudit

open List Text Dialogue Sexp

variable {c : Char}

namespace Text

theorem dropBlanksRight_cons_blank (blank : isBlank c = true) (cs : List Char) :
    dropBlanksRight (c :: cs) = if dropBlanksRight cs = [] then [] else c :: dropBlanksRight cs := by
  rw [dropBlanksRight, reverse_cons, dropBlanks, dropWhile_append]
  by_cases gone : (cs.reverse.dropWhile isBlank) = []
  · simp [dropBlanksRight, dropBlanks, gone, blank]
  · simp [dropBlanksRight, dropBlanks, gone]

theorem dropBlanksRight_append (solid : isBlank c = false) (before cs : List Char) :
    dropBlanksRight (before ++ [c] ++ cs) = before ++ [c] ++ dropBlanksRight cs := by
  rw [dropBlanksRight, reverse_append, dropBlanks, dropWhile_append]
  by_cases gone : (cs.reverse.dropWhile isBlank) = []
  · simp [dropBlanksRight, dropBlanks, gone, solid]
  · simp [dropBlanksRight, dropBlanks, gone]

end Text

namespace Sexp

variable {t : Token} {ts us : List Token} {cs ds : List Char} {lines : List String}

def Token.text : Token → List Char
  | .opening => ['(']
  | .closing => [')']
  | .atom text => text.toList

def endsAtom (c : Char) : Bool := c == '(' || c == ')' || isBlank c

/-- An atom that is not empty and has no blanks, parentheses and bars. -/
def Token.Plain : Token → Prop
  | .atom text => text.toList ≠ [] ∧ ∀ c ∈ text.toList, endsAtom c = false ∧ c ≠ '|'
  | _ => False

def Token.Quoted : Token → Prop
  | .atom text => ∃ name, '|' ∉ name ∧ text.toList = '|' :: name ++ ['|']
  | _ => False

def Token.Sound (t : Token) : Prop := (t = .opening ∨ t = .closing) ∨ t.Plain ∨ t.Quoted

/-- The text shows the tokens in their order.  Blanks may stand anywhere between them, and something that ends it stands
behind a plain atom. -/
inductive Printed : List Token → List Char → Prop
  | nil : Printed [] []
  | blank {ts : List Token} {c : Char} {cs : List Char} (blank : isBlank c = true) (rest : Printed ts cs) :
      Printed ts (c :: cs)
  | token {t : Token} {ts : List Token} {cs : List Char} (sound : t.Sound)
      (apart : t.Plain → ∀ c ∈ cs.head?, endsAtom c = true) (rest : Printed ts cs) : Printed (t :: ts) (t.text ++ cs)

theorem tokensFrom_plain (solid : ∀ c ∈ cs, endsAtom c = false) (ends : ∀ c ∈ ds.head?, endsAtom c = true)
    (read : List Char) :
    tokensFrom (.plain read) (cs ++ ds) = .atom (.ofList (read.reverse ++ cs)) :: tokensFrom .between ds := by
  induction cs generalizing read with
  | nil =>
    cases ds with
    | nil => simp [tokensFrom, atomOf]
    | cons d ds =>
      have ends : (d == '(' || d == ')' || isBlank d) = true := ends d rfl
      simp only [nil_append, tokensFrom, if_pos ends, atomOf, append_nil]
  | cons c cs ih =>
    obtain ⟨here, later⟩ := forall_mem_cons.mp solid
    have here : (c == '(' || c == ')' || isBlank c) = false := here
    rw [cons_append, tokensFrom, here, ih later]
    simp

theorem tokensFrom_quoted {name : List Char} (unbarred : '|' ∉ name) (read : List Char) :
    tokensFrom (.quoted read) (name ++ '|' :: cs) =
      .atom (.ofList (read.reverse ++ name ++ ['|'])) :: tokensFrom .between cs := by
  induction name generalizing read with
  | nil => simp [tokensFrom, atomOf]
  | cons c name ih =>
    obtain ⟨here, later⟩ := not_or.mp (fun among => unbarred (mem_cons.mpr among))
    rw [cons_append, tokensFrom, if_neg (by simpa using Ne.symm here), ih later]
    simp

theorem tokensFrom_token (sound : t.Sound) (apart : t.Plain → ∀ c ∈ cs.head?, endsAtom c = true) :
    tokensFrom .between (t.text ++ cs) = t :: tokensFrom .between cs := by
  rcases sound with (rfl | rfl) | plain | quoted
  · rfl
  · rfl
  · have ends := apart plain
    cases t with
    | opening | closing => exact plain.elim
    | atom text =>
      obtain ⟨nonempty, solid⟩ := plain
      obtain ⟨c, more, written⟩ := exists_cons_of_ne_nil nonempty
      rw [written, forall_mem_cons] at solid
      obtain ⟨⟨here, unbarred⟩, later⟩ := solid
      simp only [endsAtom, Bool.or_eq_false_iff] at here
      have begins : begin c = ([], .plain [c]) := by simp [begin, here, unbarred]
      rw [Token.text, written, cons_append, tokensFrom, begins]
      show tokensFrom (.plain [c]) (more ++ cs) = _
      rw [tokensFrom_plain (fun d among => (later d among).1) ends]
      simp [← written]
  · cases t with
    | opening | closing => exact quoted.elim
    | atom text =>
      obtain ⟨name, unbarred, written⟩ := quoted
      have whole : Token.text (.atom text) ++ cs = '|' :: (name ++ '|' :: cs) := by simp [Token.text, written]
      rw [whole]
      show tokensFrom (.quoted ['|']) (name ++ '|' :: cs) = _
      rw [tokensFrom_quoted unbarred, ← String.ofList_toList (s := text), written]
      rfl

theorem Printed.reads (printed : Printed ts cs) : tokensFrom .between cs = ts := by
  induction printed with
  | nil => rfl
  | @blank ts c cs blank _ ih =>
    have others : c ≠ '(' ∧ c ≠ ')' ∧ c ≠ '|' := by
      refine ⟨?_, ?_, ?_⟩ <;> rintro rfl <;> cases blank
    simp [tokensFrom, begin, others, blank, ih]
  | token sound apart _ ih => rw [tokensFrom_token sound apart, ih]

theorem Token.Sound.ends (sound : t.Sound) : (∃ c more, t.text = c :: more ∧ isBlank c = false) ∧
    ∃ before c, t.text = before ++ [c] ∧ isBlank c = false := by
  rcases sound with (rfl | rfl) | plain | quoted
  · exact ⟨⟨'(', [], rfl, rfl⟩, [], '(', rfl, rfl⟩
  · exact ⟨⟨')', [], rfl, rfl⟩, [], ')', rfl, rfl⟩
  · cases t with
    | opening | closing => exact plain.elim
    | atom text =>
      obtain ⟨nonempty, solid⟩ := plain
      have solid (c : Char) (among : c ∈ text.toList) : isBlank c = false := by
        have unparted := (solid c among).1
        simp only [endsAtom, Bool.or_eq_false_iff] at unparted
        exact unparted.2
      obtain ⟨c, more, front⟩ := exists_cons_of_ne_nil nonempty
      obtain ⟨before, d, back⟩ := (eq_nil_or_concat' text.toList).resolve_left nonempty
      exact ⟨⟨c, more, front, solid c (by simp [front])⟩, before, d, back, solid d (by simp [back])⟩
  · cases t with
    | opening | closing => exact quoted.elim
    | atom text =>
      obtain ⟨name, _, written⟩ := quoted
      exact ⟨⟨'|', name ++ ['|'], written, rfl⟩, '|' :: name, '|', written, rfl⟩

theorem Printed.trimmed (printed : Printed ts cs) : Printed ts (trim cs) := by
  have front : Printed ts (dropBlanks cs) := by
    induction printed with
    | nil => exact .nil
    | blank blank _ ih => rwa [dropBlanks_blank blank]
    | token sound apart rest _ =>
      obtain ⟨c, more, written, solid⟩ := sound.ends.1
      have whole := Printed.token sound apart rest
      rwa [written, cons_append, dropBlanks_cons solid, ← cons_append, ← written]
  clear printed
  rw [trim]
  generalize dropBlanks cs = cs at front
  induction front with
  | nil => exact .nil
  | blank blank _ ih =>
    rw [dropBlanksRight_cons_blank blank]
    split
    · rename_i gone
      rwa [gone] at ih
    · exact .blank blank ih
  | @token t ts cs sound apart _ ih =>
    obtain ⟨before, c, written, solid⟩ := sound.ends.2
    rw [written, dropBlanksRight_append solid, ← written]
    refine .token sound (fun plain d first => apart plain d ?_) ih
    obtain ⟨after, whole⟩ : dropBlanksRight cs <+: cs :=
      (dropWhile_suffix isBlank).reverse.trans (by simp)
    rw [← whole, List.head?_append, Option.mem_def.mp first]
    rfl

theorem Printed.append (printed : Printed ts cs) (others : Printed us ds) (ends : ∀ c ∈ ds.head?, endsAtom c = true) :
    Printed (ts ++ us) (cs ++ ds) := by
  induction printed with
  | nil => exact others
  | blank blank _ ih => exact .blank blank ih
  | @token t ts cs sound apart _ ih =>
    rw [append_assoc]
    refine .token sound (fun plain c first => ?_) ih
    cases cs with
    | nil => exact ends c first
    | cons d cs => exact apart plain c first

theorem Printed.spaced (printed : Printed ts cs) (others : Printed us ds) : Printed (ts ++ us) (cs ++ ' ' :: ds) :=
  printed.append (.blank rfl others) (by simp [endsAtom, isBlank])

/-- The tokens in their order, where a line may end between any two of them. -/
inductive LaidOut : List Token → List String → Prop
  | nil : LaidOut [] []
  | line {ts us : List Token} {line : String} {lines : List String} (printed : Printed ts line.toList)
      (rest : LaidOut us lines) : LaidOut (ts ++ us) (line :: lines)

theorem LaidOut.kept (laidOut : LaidOut ts lines) :
    LaidOut ts ((lines.map trimmed).filter fun l => !l.isEmpty) := by
  induction laidOut with
  | nil => exact .nil
  | @line ts us line lines printed _ ih =>
    have trimmed : Printed ts (trimmed line).toList := by simpa [trimmed] using printed.trimmed
    rw [map_cons, filter_cons]
    split
    · exact .line trimmed ih
    · rename_i gone
      obtain gone : Dialogue.trimmed line = "" := by simpa using gone
      rw [gone] at trimmed
      obtain rfl : [] = ts := trimmed.reads
      exact ih

theorem LaidOut.joined (laidOut : LaidOut ts lines) : Printed ts (" ".intercalate lines).toList := by
  induction laidOut with
  | nil => exact .nil
  | @line ts us line lines printed rest ih =>
    cases lines with
    | nil =>
      cases rest
      simpa using printed
    | cons next lines =>
      simpa using printed.spaced ih

theorem LaidOut.inside (laidOut : LaidOut ts lines) (unmarked : .atom endMarker ∉ ts) :
    ∀ line ∈ lines, isEnd line = false := by
  induction laidOut with
  | nil => exact forall_mem_nil _
  | @line ts us line lines printed _ ih =>
    obtain ⟨here, later⟩ := not_or.mp fun among => unmarked (mem_append.mpr among)
    refine forall_mem_cons.mpr ⟨Bool.eq_false_iff.mpr fun ends => here ?_, ih later⟩
    have marker : trim line.toList = endMarker.toList := by
      simpa [trimmed] using congrArg String.toList (eq_of_beq ends)
    rw [← printed.trimmed.reads, marker]
    decide +kernel

mutual

def tokens : Sexp → List Token
  | .atom text => [.atom text]
  | .list items => .opening :: tokensAll items ++ [.closing]

def tokensAll : List Sexp → List Token
  | [] => []
  | s :: rest => tokens s ++ tokensAll rest

end

mutual

def print : Sexp → List Char
  | .atom text => text.toList
  | .list items => '(' :: printAll items ++ [')']

def printAll : List Sexp → List Char
  | [] => []
  | [s] => print s
  | s :: rest => print s ++ ' ' :: printAll rest

end

mutual

theorem printed_print (s : Sexp) (sound : ∀ t ∈ s.tokens, t.Sound) : Printed s.tokens s.print := by
  cases s with
  | atom text =>
    have alone : Printed [.atom text] (text.toList ++ []) := .token (sound _ (.head _)) (fun _ => by simp) .nil
    rwa [append_nil] at alone
  | list items =>
    have closing : Printed [.closing] [')'] := .token (.inl (.inr rfl)) (fun _ => by simp) .nil
    have inner := printed_printAll items fun t among => sound t (by simp [tokens, among])
    exact .token (.inl (.inl rfl)) (fun plain => plain.elim) (inner.append closing (by simp [endsAtom]))

theorem printed_printAll (items : List Sexp) (sound : ∀ t ∈ tokensAll items, t.Sound) :
    Printed (tokensAll items) (printAll items) := by
  match items with
  | [] => exact .nil
  | [s] =>
    rw [tokensAll, tokensAll, append_nil] at sound ⊢
    exact printed_print s sound
  | s :: next :: rest =>
    rw [tokensAll, forall_mem_append] at sound
    exact (printed_print s sound.1).spaced (printed_printAll (next :: rest) sound.2)

end

theorem mem_tokensAll {items : List Sexp} : t ∈ tokensAll items ↔ ∃ s ∈ items, t ∈ s.tokens := by
  induction items with
  | nil => simp [tokensAll]
  | cons s rest ih => simp [tokensAll, ih]

mutual

theorem feed_tokens (s : Sexp) (a : Assembly) : s.tokens.foldlM Assembly.feed a = some (a.give s) := by
  cases s with
  | atom text => rfl
  | list items =>
    show (tokensAll items ++ [Token.closing]).foldlM Assembly.feed { a with opened := [] :: a.opened } = _
    rw [foldlM_append, feed_tokensAll items]
    simp [Assembly.feed]

theorem feed_tokensAll (items : List Sexp) {inner : List Sexp} {outer : List (List Sexp)} {done : Option Sexp} :
    (tokensAll items).foldlM Assembly.feed ⟨inner :: outer, done⟩ = some ⟨(items.reverse ++ inner) :: outer, done⟩ := by
  cases items with
  | nil => rfl
  | cons s rest =>
    rw [tokensAll, foldlM_append, feed_tokens s]
    show (tokensAll rest).foldlM Assembly.feed ⟨(s :: inner) :: outer, done⟩ = _
    rw [feed_tokensAll rest]
    simp

end

theorem read_printed {s : Sexp} (printed : Printed s.tokens cs) : read (.ofList cs) = some s := by
  rw [read, String.toList_ofList, printed.reads, feed_tokens]
  rfl

end Sexp

namespace Dialogue

variable {σ : Type} {channel : Channel (StateM σ)} {live : σ → Prop} {answer : String → Option (List String)}
  {s : Session} {w : σ} {assertions : List Term} {lines : List String}

def received (printed : List String) : Option (List String) :=
  if printed.any isEnd then some (printed.takeWhile fun line => !isEnd line) else none

theorem received_upTo (inside : ∀ line ∈ lines, isEnd line = false) (rest : List String) :
    received (lines ++ endMarker :: rest) = some lines := by
  have ends : isEnd endMarker = true := by decide +kernel
  rw [received, if_pos (by simp [ends]), takeWhile_append_of_pos (by simpa using inside)]
  simp [ends]

theorem query_answered (process : Answers channel live answer) (timeoutMs : Option Nat) {terms : List Term}
    {script : Script} (ready : Ready live s w) (unclashed : Script.ofTerms assertions terms = .ok script) :
    ∃ s' w', Gives (query channel timeoutMs assertions terms) s w
      ((linesRead (answer (queryText script terms))).bind readAnswer) s' w' := by
  obtain ⟨s', w', exchanges, _⟩ := exchange_gives process timeoutMs (queryText script terms) ready
  refine ⟨s', w', ?_⟩
  unfold query
  rw [unclashed]
  exact exchanges.bind (gives_pure _)

/-- A symbol with the value that an answer gives it. -/
structure Valued where
  name : String
  sort : SmtSort
  value : Int ⊕ Bool

namespace Valued

variable {v : Valued} {vs : List Valued}

def term (v : Valued) : Term := .var v.name v.sort

def reading (v : Valued) : ModelValue := v.value.elim .int .bool

/-- The value as it is printed: a negative number is the negation of a positive one. -/
def printed (v : Valued) : Sexp :=
  match v.value with
  | .inl (.ofNat n) => .atom (toString n)
  | .inl (.negSucc n) => .list [.atom "-", .atom (toString (n + 1))]
  | .inr b => .atom (boolText b)

def entry (v : Valued) : Sexp := .list [.atom (quoteSymbol v.name), v.printed]

theorem numeral_toString (n : Nat) : numeral? (toString n) = some (n : Int) := Number.readInt_toString (n : Int)

theorem toString_ne {text : String} (n : Nat) {rest : List Char} (written : text.toList = c :: rest)
    (letter : c.isDigit = false) : toString n ≠ text := by
  intro same
  have digit : c.isDigit = true := Number.isDigit_of_mem_toString (n := n) (by simp [same, written])
  rw [digit] at letter
  cases letter

theorem modelValue_printed (v : Valued) : modelValue v.printed = v.reading := by
  unfold printed reading
  match v.value with
  | .inl (.ofNat n) =>
    have yes : toString n ≠ "true" := toString_ne n rfl rfl
    have no : toString n ≠ "false" := toString_ne n rfl rfl
    rw [modelValue, if_neg (by simpa using yes), if_neg (by simpa using no), numeral_toString]
    rfl
  | .inl (.negSucc n) =>
    simp only [modelValue, numeral_toString]
    rfl
  | .inr b => cases b <;> rfl

theorem marker_notMem (vs : List Valued) : Sexp.Token.atom endMarker ∉ (list (vs.map entry)).tokens := by
  have outside (v : Valued) : Sexp.Token.atom endMarker ∉ v.entry.tokens := by
    have symbol : endMarker ≠ quoteSymbol v.name := by
      intro same
      have first := congrArg (fun text => text.toList.head?) same
      simp [endMarker, quoteSymbol] at first
    have number (n : Nat) : endMarker ≠ n.repr := (toString_ne n rfl rfl).symm
    have minus : endMarker ≠ "-" := by decide
    have truth (b : Bool) : endMarker ≠ boolText b := by cases b <;> decide
    unfold entry printed
    split <;> simp only [tokens, tokensAll] <;> simp [symbol, minus, truth, number]
  simp only [tokens, cons_append, mem_cons, mem_append, mem_tokensAll, mem_map]
  rintro (head | ⟨_, ⟨v, _, rfl⟩, among⟩ | last)
  · cases head
  · exact outside v among
  · simp at last

end Valued

theorem get?_of_mem {entries : List (Term × ModelValue)}
    (agree : ∀ e ∈ entries, ∀ e' ∈ entries, e.1 = e'.1 → e.2 = e'.2) {e : Term × ModelValue} (among : e ∈ entries) :
    Model.get? ⟨entries⟩ e.1 = some e.2 := by
  unfold Model.get?
  cases found : entries.find? fun entry => entry.1 == e.1 with
  | none => exact absurd (List.find?_eq_none.mp found e among) (by simp)
  | some e' =>
    have same : e'.1 = e.1 := by simpa using List.find?_some found
    rw [Option.map_some, agree e' (mem_of_find?_eq_some found) e among same]

theorem readModel_printed {vs : List Valued} (laidOut : Sexp.LaidOut (list (vs.map Valued.entry)).tokens lines) :
    readModel (vs.map Valued.term) lines = .ok ⟨vs.map fun v => (v.term, v.reading)⟩ := by
  have reads := read_printed laidOut.joined
  have entries : ((vs.map Valued.term).zip (vs.map Valued.entry)).filterMap (fun p => entry? p.1 p.2) =
      vs.map fun v => (v.term, v.reading) := by
    clear laidOut reads
    induction vs with
    | nil => rfl
    | cons v vs ih =>
      have here : entry? v.term v.entry = some (v.term, v.reading) := by rw [Valued.entry, entry?, v.modelValue_printed]
      simp [here, ih]
  rw [String.ofList_toList] at reads
  rw [readModel, reads, ← entries]

/-- An answer of `sat` and a value for every wanted symbol, in any layout, gives a model with these values.  Every text
that shows the tokens of an expression is read as that expression. -/
theorem model_reads_values (process : Answers channel live answer) (timeoutMs : Option Nat) {script : Script}
    (ready : Ready live s w) {vs : List Valued} (agree : ∀ v ∈ vs, ∀ v' ∈ vs, v.term = v'.term → v.value = v'.value)
    (unclashed : Script.ofTerms assertions (vs.map Valued.term) = .ok script)
    (laidOut : Sexp.LaidOut (list (vs.map Valued.entry)).tokens lines) (rest : List String)
    (prints : answer (queryText script (vs.map Valued.term)) = received ("sat" :: lines ++ endMarker :: rest)) :
    (∃ found s' w', Gives (model channel timeoutMs assertions (vs.map Valued.term)) s w (.ok (some found)) s' w' ∧
      ∀ v ∈ vs, found.get? v.term = some v.reading) ∧
      ∀ e : Sexp, (∀ t ∈ e.tokens, t.Sound) → read (.ofList e.print) = some e := by
  refine ⟨?_, fun e sound => read_printed (printed_print e sound)⟩
  have inside : ∀ line ∈ "sat" :: lines, isEnd line = false :=
    forall_mem_cons.mpr ⟨by decide +kernel, laidOut.inside (Valued.marker_notMem vs)⟩
  obtain ⟨s', w', asks⟩ := query_answered process timeoutMs ready unclashed
  have answered : (linesRead (some ("sat" :: lines))).bind readAnswer =
      .ok (.sat, (lines.map trimmed).filter fun l => !l.isEmpty) := by
    have sat : trimmed "sat" = "sat" := by decide +kernel
    rw [linesRead, map_cons, sat]
    rfl
  rw [prints, received_upTo inside, answered] at asks
  refine ⟨⟨vs.map fun v => (v.term, v.reading)⟩, s', w', asks.bind ?_, fun v among => ?_⟩
  · dsimp only
    rw [if_pos rfl, readModel_printed laidOut.kept]
    exact gives_pure _
  · refine get?_of_mem (fun e member e' member' same => ?_) (mem_map.mpr ⟨v, among, rfl⟩)
    obtain ⟨v, here, rfl⟩ := mem_map.mp member
    obtain ⟨v', there, rfl⟩ := mem_map.mp member'
    exact congrArg (Sum.elim ModelValue.int .bool) (agree v here v' there same)

/-- The symbol of a length holds blanks and parentheses, and its negative value stands on the next line. -/
theorem negative_length_read : let v : Valued := ⟨"(select owners id).length", .int, .inl (-5)⟩
    let printed := ["sat", "((|(select owners id).length|", "  (- 5)))", endMarker]
    ∃ found s w', Gives (model (functionChannel fun _ => received printed) none [] [v.term]) .initial ""
      (.ok (some found)) s w' ∧ found.get? v.term = some (.int (-5)) := by
  intro v printed
  have symbol : Sexp.Token.Sound (.atom (quoteSymbol v.name)) :=
    .inr (.inr ⟨v.name.toList, by decide, by decide +kernel⟩)
  have atom {text : String} (plain : Sexp.Token.Plain (.atom text)) : Sexp.Token.Sound (.atom text) := .inr (.inl plain)
  have opening {ts : List Sexp.Token} {cs : List Char} : Sexp.Printed ts cs →
      Sexp.Printed (.opening :: ts) ('(' :: cs) :=
    .token (.inl (.inl rfl)) fun plain => plain.elim
  have closing {ts : List Sexp.Token} {cs : List Char} : Sexp.Printed ts cs →
      Sexp.Printed (.closing :: ts) (')' :: cs) :=
    .token (.inl (.inr rfl)) fun plain => plain.elim
  have first : Sexp.Printed [.opening, .opening, .atom (quoteSymbol v.name)]
      "((|(select owners id).length|".toList := by
    have text : "((|(select owners id).length|".toList = '(' :: '(' :: ((quoteSymbol v.name).toList ++ []) := by
      decide +kernel
    rw [text]
    exact opening (opening (.token symbol (fun _ => by simp) .nil))
  have second : Sexp.Printed [.opening, .atom "-", .atom "5", .closing, .closing, .closing] "  (- 5)))".toList :=
    .blank rfl (.blank rfl (opening (.token (atom ⟨by decide, by simp; rfl⟩) (fun _ => by simp; rfl)
      (.blank rfl
        (.token (atom ⟨by decide, by simp; rfl⟩) (fun _ => by simp; rfl) (closing (closing (closing .nil))))))))
  have laidOut := Sexp.LaidOut.line first (.line second .nil)
  change Sexp.LaidOut (list ([v].map Valued.entry)).tokens _ at laidOut
  have process := functionChannel_answers fun _ => received printed
  have script : Script.ofTerms [] ([v].map Valued.term) = .ok ⟨[Script.declaration (v.name, .int)], []⟩ := rfl
  obtain ⟨⟨found, s, w', gives, reads⟩, _⟩ :=
    model_reads_values process none (fun _ => trivial) (by simp) script laidOut [] rfl
  exact ⟨found, s, w', gives, reads v (.head _)⟩

end Dialogue

end TokenAudit
