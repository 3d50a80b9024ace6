import TokenAudit.Proofs.Number.Decimal
import TokenAudit.Proofs.Term.Symbols
import TokenAudit.Solver.Dialogue

/-!
# Texts of terms

The text of a term falls into phrases: quoted symbols, string literals, numbers, truth values and applications.
-/

namespace TokenAudit

open List Dialogue Term

inductive Head where
  | arith (op : ArithOp)
  | order (op : OrderOp)
  | eq
  | not
  | junction (j : Junction)
  | ite
  | select
  | store

def Head.text : Head → List Char
  | .arith op => op.smt.toList
  | .order op => op.smt.toList
  | .eq => ['=']
  | .not => "not".toList
  | .junction j => j.smt.toList
  | .ite => "ite".toList
  | .select => "select".toList
  | .store => "store".toList

inductive Phrase where
  | symbol (name : { cs : List Char // '|' ∉ cs })
  | literal (s : List Char)
  | number (n : Nat)
  | truth (b : Bool)
  | applied (head : Head) (args : List Phrase)

namespace Phrase

variable {r s : List Char}

def escaped (s : List Char) : List Char := s.flatMap fun c => if c == '"' then ['"', '"'] else [c]

mutual

@[simp] def text : Phrase → List Char
  | .symbol name => '|' :: (name.1 ++ ['|'])
  | .literal s => '"' :: (escaped s ++ ['"'])
  | .number n => (toString n).toList
  | .truth b => (boolText b).toList
  | .applied head args => '(' :: (head.text ++ textAll args)

@[simp] def textAll : List Phrase → List Char
  | [] => [')']
  | a :: rest => ' ' :: (text a ++ textAll rest)

end

def Ends (rest : List Char) : Prop := ∀ c ∈ rest.head?, c ∈ [' ', ')', '\n']

theorem ends_textAll (args : List Phrase) (rest : List Char) : Ends (textAll args ++ rest) := by
  cases args <;> simp [Ends]

theorem run_unique {P : Char → Prop} {xs ys : List Char} (inside : ∀ c ∈ xs, P c) (inside' : ∀ c ∈ ys, P c)
    (stops : ∀ c ∈ r.head?, ¬ P c) (stops' : ∀ c ∈ s.head?, ¬ P c) (same : xs ++ r = ys ++ s) : xs = ys ∧ r = s := by
  induction xs generalizing ys with
  | nil =>
    cases ys with
    | nil => exact ⟨rfl, same⟩
    | cons y ys =>
      rw [nil_append] at same
      exact absurd (inside' y (mem_cons_self ..)) (stops y (by simp [same]))
  | cons x xs ih =>
    cases ys with
    | nil =>
      rw [nil_append] at same
      exact absurd (inside x (mem_cons_self ..)) (stops' x (by simp [← same]))
    | cons y ys =>
      obtain ⟨rfl, tails⟩ := cons.inj same
      obtain ⟨rfl, rest⟩ := ih (fun c among => inside c (mem_cons_of_mem _ among))
        (fun c among => inside' c (mem_cons_of_mem _ among)) tails
      exact ⟨rfl, rest⟩

theorem escaped_cancel {x y : List Char} (stops : '"' ∉ r.head?) (stops' : '"' ∉ s.head?)
    (same : escaped x ++ '"' :: r = escaped y ++ '"' :: s) : x = y ∧ r = s := by
  have leads (c : Char) (cs rest : List Char) : (escaped (c :: cs) ++ rest).head? = some c := by
    by_cases mark : c = '"' <;> simp [escaped, mark]
  -- a mark that stands alone closes the literal, since what follows it is no mark
  have closes {c : Char} {cs rest rest' : List Char} (alone : '"' ∉ rest.head?)
      (same : '"' :: rest = escaped (c :: cs) ++ '"' :: rest') : False := by
    obtain rfl : '"' = c := by simpa [leads] using congrArg head? same
    have same : rest = '"' :: (escaped cs ++ '"' :: rest') := by simpa [escaped] using same
    simp [same] at alone
  induction x generalizing y with
  | nil =>
    cases y with
    | nil => exact ⟨rfl, (cons.inj same).2⟩
    | cons c y => exact (closes stops same).elim
  | cons c x ih =>
    cases y with
    | nil => exact (closes stops' same.symm).elim
    | cons d y =>
      obtain rfl : c = d := by simpa [leads] using congrArg head? same
      have same : escaped x ++ '"' :: r = escaped y ++ '"' :: s := by simpa [escaped] using same
      obtain ⟨rfl, rest⟩ := ih same
      exact ⟨rfl, rest⟩

def heads : List Head :=
  [.arith .add, .arith .sub, .arith .mul, .arith .div, .arith .mod, .order .lt, .order .le, .order .gt, .order .ge,
    .eq, .not, .junction .all, .junction .any, .ite, .select, .store]

theorem find_head (h : Head) : heads.find? (fun other => other.text == h.text) = some h := by
  rcases h with ⟨_ | _⟩ | ⟨_ | _⟩ | _ | _ | ⟨_ | _⟩ | _ | _ | _ <;> rfl

theorem head_text_unique {h h' : Head} (same : h.text = h'.text) : h = h' := by
  have found := find_head h
  rw [same, find_head h'] at found
  exact (Option.some.inj found).symm

theorem solid_of_mem_head {h : Head} {c : Char} (among : c ∈ h.text) : c ≠ ' ' ∧ c ≠ ')' := by
  have solid : h.text.all fun c => c != ' ' && c != ')' := by
    rcases h with ⟨_ | _⟩ | ⟨_ | _⟩ | _ | _ | ⟨_ | _⟩ | _ | _ | _ <;> rfl
  simpa using all_eq_true.mp solid c among

def kindOf (c : Char) : Nat :=
  if c = '|' then 0 else if c = '"' then 1 else if c = '(' then 2 else if c.isDigit then 3 else 4

def kind : Phrase → Nat
  | .symbol _ => 0
  | .literal _ => 1
  | .applied _ _ => 2
  | .number _ => 3
  | .truth _ => 4

theorem text_starts (a : Phrase) : ∃ c cs, a.text = c :: cs ∧ kindOf c = a.kind := by
  cases a with
  | symbol name | literal s | applied head args => exact ⟨_, _, rfl, rfl⟩
  | truth b => cases b <;> exact ⟨_, _, rfl, rfl⟩
  | number n =>
    obtain ⟨c, cs, written⟩ := Number.toString_eq_cons n
    have digit : c.isDigit = true := Number.isDigit_of_mem_toString (written ▸ mem_cons_self ..)
    have other {d : Char} (plain : d.isDigit = false) : c ≠ d := by
      rintro rfl
      rw [digit] at plain
      cases plain
    refine ⟨c, cs, written, ?_⟩
    rw [kindOf, if_neg (other (by decide)), if_neg (other (by decide)), if_neg (other (by decide)), if_pos digit]
    rfl

mutual

theorem text_cancel (a b : Phrase) {r s : List Char} (ends : Ends r) (ends' : Ends s)
    (same : a.text ++ r = b.text ++ s) : a = b ∧ r = s := by
  have kinds : a.kind = b.kind := by
    obtain ⟨c, cs, written, named⟩ := a.text_starts
    obtain ⟨d, ds, written', named'⟩ := b.text_starts
    rw [written, written'] at same
    rw [← named, ← named', (cons.inj same).1]
  have stops {rest : List Char} {P : Char → Prop} (ends : Ends rest) (unlike : ∀ c ∈ [' ', ')', '\n'], ¬ P c) :
      ∀ c ∈ rest.head?, ¬ P c := fun c here => unlike c (ends c here)
  cases a <;> cases b <;> try cases kinds
  case symbol.symbol x y =>
    have same : x.1 ++ '|' :: r = y.1 ++ '|' :: s := by simpa using same
    obtain ⟨names, rest⟩ := run_unique (P := (· ≠ '|')) (fun c among => by rintro rfl; exact x.2 among)
      (fun c among => by rintro rfl; exact y.2 among) (by simp) (by simp) same
    exact ⟨congrArg symbol (Subtype.ext names), (cons.inj rest).2⟩
  case literal.literal x y =>
    have same : escaped x ++ '"' :: r = escaped y ++ '"' :: s := by simpa using same
    have alone {rest : List Char} (ends : Ends rest) : '"' ∉ rest.head? := fun here => by simpa using ends _ here
    obtain ⟨rfl, rest⟩ := escaped_cancel (alone ends) (alone ends') same
    exact ⟨rfl, rest⟩
  case number.number m n =>
    obtain ⟨digits, rest⟩ := run_unique (fun _ => Number.isDigit_of_mem_toString)
      (fun _ => Number.isDigit_of_mem_toString) (stops ends (by simp)) (stops ends' (by simp)) same
    exact ⟨congrArg number (Fact.digits_inj digits), rest⟩
  case truth.truth b b' =>
    cases b <;> cases b' <;> simp [boolText] at same <;> exact ⟨rfl, same⟩
  case applied.applied h as h' bs =>
    have same : h.text ++ (textAll as ++ r) = h'.text ++ (textAll bs ++ s) := by simpa using same
    have bracket (args : List Phrase) (rest : List Char) :
        ∀ c ∈ (textAll args ++ rest).head?, ¬ (c ≠ ' ' ∧ c ≠ ')') := by
      cases args <;> simp
    obtain ⟨heads, rest⟩ := run_unique (P := fun c => c ≠ ' ' ∧ c ≠ ')') (fun _ => solid_of_mem_head)
      (fun _ => solid_of_mem_head) (bracket as r) (bracket bs s) same
    obtain ⟨rfl, after⟩ := textAll_cancel as bs rest
    exact ⟨by rw [head_text_unique heads], after⟩

theorem textAll_cancel (as bs : List Phrase) {r s : List Char} (same : textAll as ++ r = textAll bs ++ s) :
    as = bs ∧ r = s := by
  cases as with
  | nil =>
    cases bs with
    | nil => exact ⟨rfl, (cons.inj same).2⟩
    | cons b bs => cases (cons.inj same).1
  | cons a as =>
    cases bs with
    | nil => cases (cons.inj same).1
    | cons b bs =>
      have same : a.text ++ (textAll as ++ r) = b.text ++ (textAll bs ++ s) := by simpa using same
      obtain ⟨rfl, rest⟩ := text_cancel a b (ends_textAll as r) (ends_textAll bs s) same
      obtain ⟨rfl, after⟩ := textAll_cancel as bs rest
      exact ⟨rfl, after⟩

end

@[simp] def linesAfter : List Phrase → List Char
  | [] => []
  | a :: rest => '\n' :: (a.text ++ linesAfter rest)

theorem ends_linesAfter (phrases : List Phrase) : Ends (linesAfter phrases) := by
  cases phrases <;> simp [Ends]

theorem linesAfter_unique {as bs : List Phrase} (same : linesAfter as = linesAfter bs) : as = bs := by
  induction as generalizing bs with
  | nil =>
    cases bs with
    | nil => rfl
    | cons b bs => cases same
  | cons a as ih =>
    cases bs with
    | nil => cases same
    | cons b bs =>
      obtain ⟨rfl, rest⟩ := text_cancel a b (ends_linesAfter as) (ends_linesAfter bs) (cons.inj same).2
      rw [ih rest]

end Phrase

namespace Term

def unbarred (name : String) : { cs : List Char // '|' ∉ cs } := by
  refine ⟨name.toList.map fun c => if c == '|' || c == '\\' then '_' else c, fun among => ?_⟩
  obtain ⟨c, _, bar⟩ := mem_map.mp among
  split at bar
  · cases bar
  · simp_all

mutual

@[simp] def phrase : Term → Phrase
  | .var name _ => .symbol (unbarred name)
  | .int (.ofNat n) => .number n
  | .int (.negSucc n) => .applied (.arith .sub) [.number (n + 1)]
  | .bool b => .truth b
  | .str s => .literal s.toList
  | .arith op a b => .applied (.arith op) [phrase a, phrase b]
  | .order op a b => .applied (.order op) [phrase a, phrase b]
  | .eq a b => .applied .eq [phrase a, phrase b]
  | .not a => .applied .not [phrase a]
  | .junction j [] => .truth j.neutral
  | .junction j (t :: ts) => .applied (.junction j) (phrase t :: phraseAll ts)
  | .ite c a b => .applied .ite [phrase c, phrase a, phrase b]
  | .select a k => .applied .select [phrase a, phrase k]
  | .store a k v => .applied .store [phrase a, phrase k, phrase v]

@[simp] def phraseAll : List Term → List Phrase
  | [] => []
  | t :: ts => phrase t :: phraseAll ts

end

theorem text_applied {h : Head} {head : String} (named : h.text = head.toList) {parts : List Phrase}
    {texts : List String} (same : parts.map Phrase.text = texts.map String.toList) :
    (Phrase.applied h parts).text = (applied head texts).toList := by
  have args (parts : List Phrase) :
      Phrase.textAll parts = (parts.map Phrase.text).flatMap (' ' :: ·) ++ [')'] := by
    induction parts with
    | nil => rfl
    | cons a rest ih =>
      rw [Phrase.textAll, ih]
      simp
  have spaced (head : List Char) (texts : List (List Char)) :
      [' '].intercalate (head :: texts) = head ++ texts.flatMap (' ' :: ·) := by
    induction texts generalizing head with
    | nil => simp
    | cons a rest ih =>
      rw [intercalate_cons_cons, ih]
      simp
  have blank : " ".toList = [' '] := rfl
  rw [Phrase.text, args, same, named]
  simp [applied, String.toList_intercalate, spaced, blank]

theorem text_literal (s : String) : (Phrase.literal s.toList).text = (quoteString s).toList := by
  have piece (c : Char) : (if c = '"' then "\"\"" else String.singleton c).toList =
      if c = '"' then ['"', '"'] else [c] := by
    split <;> simp
  simp [quoteString, Phrase.escaped, flatMap_map, piece]

mutual

theorem text_phrase (t : Term) : t.phrase.text = t.smt.toList := by
  cases t with
  | var name sort =>
    show _ = (quoteSymbol name).toList
    simp [quoteSymbol, unbarred]
  | int i =>
    cases i with
    | ofNat n => rfl
    | negSucc n =>
      show _ = (intText (.negSucc n)).toList
      simp [intText, Head.text, ArithOp.smt]
  | bool b => rfl
  | str s => exact text_literal s
  | arith op a b => exact text_applied (h := .arith op) rfl (by simp [text_phrase a, text_phrase b])
  | order op a b => exact text_applied (h := .order op) rfl (by simp [text_phrase a, text_phrase b])
  | eq a b => exact text_applied (h := .eq) rfl (by simp [text_phrase a, text_phrase b])
  | not a => exact text_applied (h := .not) rfl (by simp [text_phrase a])
  | junction j ts =>
    cases ts with
    | nil => rfl
    | cons t ts => exact text_applied (h := .junction j) rfl (by simp [text_phrase t, texts_phraseAll ts])
  | ite c a b => exact text_applied (h := .ite) rfl (by simp [text_phrase c, text_phrase a, text_phrase b])
  | select a k => exact text_applied (h := .select) rfl (by simp [text_phrase a, text_phrase k])
  | store a k v => exact text_applied (h := .store) rfl (by simp [text_phrase a, text_phrase k, text_phrase v])

theorem texts_phraseAll (ts : List Term) : (phraseAll ts).map Phrase.text = (smtAll ts).map String.toList := by
  cases ts with
  | nil => rfl
  | cons t ts =>
    show (phraseAll (t :: ts)).map Phrase.text = (t.smt :: smtAll ts).map String.toList
    simp [text_phrase t, texts_phraseAll ts]

end

mutual

/-- The term with every empty junction read as the literal that leaves such a junction unchanged. -/
@[simp] def neutralized : Term → Term
  | .var name sort => .var name sort
  | .int i => .int i
  | .bool b => .bool b
  | .str s => .str s
  | .arith op a b => .arith op (neutralized a) (neutralized b)
  | .order op a b => .order op (neutralized a) (neutralized b)
  | .eq a b => .eq (neutralized a) (neutralized b)
  | .not a => .not (neutralized a)
  | .junction j [] => .bool j.neutral
  | .junction j (t :: ts) => .junction j (neutralized t :: neutralizedAll ts)
  | .ite c a b => .ite (neutralized c) (neutralized a) (neutralized b)
  | .select a k => .select (neutralized a) (neutralized k)
  | .store a k v => .store (neutralized a) (neutralized k) (neutralized v)

@[simp] def neutralizedAll : List Term → List Term
  | [] => []
  | t :: ts => neutralized t :: neutralizedAll ts

end

end Term

/-- The term that an application stands for; a sign has one operand. -/
@[simp] def Head.build : Head → List Term → Term
  | .arith _, [.int i] => .int (-i)
  | .arith op, [a, b] => .arith op a b
  | .order op, [a, b] => .order op a b
  | .eq, [a, b] => .eq a b
  | .not, [a] => .not a
  | .junction j, ts => .junction j ts
  | .ite, [c, a, b] => .ite c a b
  | .select, [a, k] => .select a k
  | .store, [a, k, v] => .store a k v
  | _, _ => default

namespace Phrase

variable (sorts : String → SmtSort)

mutual

/-- The term that a phrase stands for where every name has one sort. -/
@[simp] def read : Phrase → Term
  | .symbol name => .var (String.ofList name.1) (sorts (String.ofList name.1))
  | .literal s => .str (String.ofList s)
  | .number n => .int n
  | .truth b => .bool b
  | .applied head args => head.build (readAll args)

@[simp] def readAll : List Phrase → List Term
  | [] => []
  | a :: rest => read a :: readAll rest

end

end Phrase

namespace Term

def Legible (sorts : String → SmtSort) (symbol : String × SmtSort) : Prop :=
  '|' ∉ symbol.1.toList ∧ '\\' ∉ symbol.1.toList ∧ sorts symbol.1 = symbol.2

theorem unbarred_eq {name : String} (bar : '|' ∉ name.toList) (slash : '\\' ∉ name.toList) :
    String.ofList (unbarred name).1 = name := by
  have kept : (unbarred name).1 = name.toList.map id := by
    refine map_congr_left fun c among => ?_
    have apart : c ≠ '|' ∧ c ≠ '\\' := by
      constructor <;> rintro rfl <;> contradiction
    simp [apart]
  rw [kept, map_id, String.ofList_toList]

variable {sorts : String → SmtSort}

mutual

theorem read_phrase (t : Term) (legible : ∀ symbol ∈ t.symbols, Legible sorts symbol) :
    t.phrase.read sorts = t.neutralized := by
  cases t with
  | var name sort =>
    obtain ⟨bar, slash, sorted⟩ := legible (name, sort) (mem_singleton.mpr rfl)
    simp [unbarred_eq bar slash, sorted]
  | int i => cases i <;> rfl
  | bool b => rfl
  | str s => simp
  | arith op a b | order op a b | eq a b | select a b =>
    obtain ⟨right, left⟩ := forall_mem_append.mp legible
    simp [read_phrase a left, read_phrase b right]
  | not a => simp [read_phrase a legible]
  | junction j ts =>
    cases ts with
    | nil => rfl
    | cons t ts =>
      obtain ⟨rest, first⟩ := forall_mem_append.mp legible
      simp [read_phrase t first, readAll_phrases ts rest]
  | ite a b c | store a b c =>
    obtain ⟨later, first⟩ := forall_mem_append.mp legible
    obtain ⟨third, second⟩ := forall_mem_append.mp later
    simp [read_phrase a first, read_phrase b second, read_phrase c third]

theorem readAll_phrases (ts : List Term) (legible : ∀ symbol ∈ symbolsAll ts, Legible sorts symbol) :
    Phrase.readAll sorts (phraseAll ts) = neutralizedAll ts := by
  cases ts with
  | nil => rfl
  | cons t ts =>
    obtain ⟨rest, first⟩ := forall_mem_append.mp legible
    simp [read_phrase t first, readAll_phrases ts rest]

end

mutual

theorem smt_neutralized (t : Term) : t.neutralized.smt = t.smt := by
  cases t with
  | var | int | bool | str => rfl
  | arith op a b | order op a b =>
    exact congrArg₂ (fun x y => applied op.smt [x, y]) (smt_neutralized a) (smt_neutralized b)
  | eq a b => exact congrArg₂ (fun x y => applied "=" [x, y]) (smt_neutralized a) (smt_neutralized b)
  | select a k => exact congrArg₂ (fun x y => applied "select" [x, y]) (smt_neutralized a) (smt_neutralized k)
  | not a => exact congrArg (fun x => applied "not" [x]) (smt_neutralized a)
  | junction j ts =>
    cases ts with
    | nil => rfl
    | cons t ts =>
      exact congrArg₂ (fun x xs => applied j.smt (x :: xs)) (smt_neutralized t) (smtAll_neutralized ts)
  | ite c a b =>
    show applied "ite" [c.neutralized.smt, a.neutralized.smt, b.neutralized.smt] = applied "ite" [c.smt, a.smt, b.smt]
    rw [smt_neutralized c, smt_neutralized a, smt_neutralized b]
  | store a k v =>
    show applied "store" [a.neutralized.smt, k.neutralized.smt, v.neutralized.smt] =
      applied "store" [a.smt, k.smt, v.smt]
    rw [smt_neutralized a, smt_neutralized k, smt_neutralized v]

theorem smtAll_neutralized (ts : List Term) : smtAll (neutralizedAll ts) = smtAll ts := by
  cases ts with
  | nil => rfl
  | cons t ts => exact congrArg₂ cons (smt_neutralized t) (smtAll_neutralized ts)

end

end Term

namespace Dialogue

theorem toList_rememberedText (t : Term) (ts : List Term) :
    (rememberedText (t :: ts)).toList = t.phrase.text ++ Phrase.linesAfter (ts.map phrase) := by
  rw [rememberedText, String.toList_intercalate, map_map]
  induction ts generalizing t with
  | nil => simp [text_phrase]
  | cons u ts ih =>
    have below := ih u
    rw [map_cons] at below
    rw [map_cons, map_cons, intercalate_cons_cons, below]
    simp [text_phrase]

theorem phrases_of_text {first second : List Term} (same : rememberedText first = rememberedText second) :
    first.map phrase = second.map phrase := by
  -- no term has an empty text, so that a list that has one is no empty list
  have apart (t : Term) (ts : List Term) : rememberedText [] ≠ rememberedText (t :: ts) := by
    intro same
    obtain ⟨c, cs, starts, _⟩ := t.phrase.text_starts
    have texts := congrArg String.toList same
    rw [toList_rememberedText, starts] at texts
    cases texts
  cases first with
  | nil =>
    cases second with
    | nil => rfl
    | cons u us => exact absurd same (apart u us)
  | cons t ts =>
    cases second with
    | nil => exact absurd same.symm (apart t ts)
    | cons u us =>
      have texts := congrArg String.toList same
      rw [toList_rememberedText, toList_rememberedText] at texts
      obtain ⟨here, rest⟩ := Phrase.text_cancel _ _ (Phrase.ends_linesAfter _) (Phrase.ends_linesAfter _) texts
      rw [map_cons, map_cons, here, Phrase.linesAfter_unique rest]

end Dialogue

/-- No name of the terms has a bar or a backslash, and none occurs with two sorts. -/
structure Term.Readable (ts : List Term) : Prop where
  clean : ∀ t ∈ ts, ∀ symbol ∈ t.symbols, '|' ∉ symbol.1.toList ∧ '\\' ∉ symbol.1.toList
  sorted : ∀ t ∈ ts, ∀ u ∈ ts, ∀ symbol ∈ t.symbols, ∀ other ∈ u.symbols, symbol.1 = other.1 → symbol.2 = other.2

theorem Term.Readable.legible {ts : List Term} (readable : Readable ts) :
    ∃ sorts, ∀ t ∈ ts, ∀ symbol ∈ t.symbols, Legible sorts symbol := by
  classical
  refine ⟨fun name => if known : ∃ sort, ∃ u ∈ ts, (name, sort) ∈ u.symbols then known.choose else .int,
    fun t among symbol occurs => ?_⟩
  have known : ∃ sort, ∃ u ∈ ts, (symbol.1, sort) ∈ u.symbols := ⟨symbol.2, t, among, occurs⟩
  obtain ⟨u, member, other⟩ := known.choose_spec
  refine ⟨(readable.clean t among symbol occurs).1, (readable.clean t among symbol occurs).2, ?_⟩
  dsimp only
  rw [dif_pos known]
  exact readable.sorted u member t among _ other symbol occurs rfl

/-- The phrases of terms tell all but their empty junctions. -/
theorem Term.Readable.neutralized_eq {first second : List Term} (readable : Readable (first ++ second))
    (same : first.map phrase = second.map phrase) : first.map neutralized = second.map neutralized := by
  obtain ⟨sorts, legible⟩ := readable.legible
  have read (ts : List Term) (among : ts ⊆ first ++ second) :
      (ts.map phrase).map (Phrase.read sorts) = ts.map neutralized := by
    rw [map_map]
    exact map_congr_left fun t member => read_phrase t (legible t (among member))
  rw [← read first (subset_append_left _ _), same, read second (subset_append_right _ _)]

theorem texts_uniquely_readable :
    (∀ a b : Term, Term.Readable [a, b] → (a.smt = b.smt ↔ a.neutralized = b.neutralized)) ∧
      ∀ first second : List Term, Term.Readable (first ++ second) →
        (rememberedText first = rememberedText second ↔
          first.length = second.length ∧ first.map neutralized = second.map neutralized) := by
  have lists (first second : List Term) (readable : Term.Readable (first ++ second)) :
      rememberedText first = rememberedText second ↔
        first.map neutralized = second.map neutralized := by
    refine ⟨fun same => readable.neutralized_eq (phrases_of_text same), fun same => ?_⟩
    have texts (ts : List Term) : ts.map smt = (ts.map neutralized).map smt := by
      rw [map_map]
      exact map_congr_left fun t _ => (smt_neutralized t).symm
    rw [rememberedText, texts first, same, ← texts second, rememberedText]
  refine ⟨fun a b readable => ?_, fun first second readable => ?_⟩
  · have single (t : Term) : rememberedText [t] = t.smt := by simp [rememberedText]
    simpa [single] using lists [a] [b] readable
  · rw [lists first second readable]
    exact ⟨fun same => ⟨by simpa using congrArg length same, same⟩, And.right⟩

/-- A quotation mark and a line end inside a literal do not make two lines of it. -/
theorem literal_line_told_apart : let minusOne := eq (.var "x" .int) (.int (-1))
    let first := [.junction .all [], minusOne, .str "a\"\n\"b"]
    let second := [.bool true, minusOne, .str "a", .str "b"]
    Term.Readable (first ++ second) ∧ rememberedText first ≠ rememberedText second := by
  intro minusOne first second
  have readable : Term.Readable (first ++ second) := by
    constructor <;> simp [first, second, minusOne, symbols, symbolsAll]
  refine ⟨readable, fun same => ?_⟩
  cases ((texts_uniquely_readable.2 first second readable).mp same).1

end TokenAudit
