import Mathlib.Data.List.Nodup
import Mathlib.Data.String.Basic
import TokenAudit.Proofs.Solver.Texts

/-!
# The declarations of a script

A script declares the symbols that occur in its terms, unless a name occurs with two sorts; then there is no script.
-/

namespace TokenAudit

open List Script

variable {name : String} {sort : SmtSort}

/-- The symbol stands somewhere in the phrase. -/
inductive Phrase.Mentions (symbol : { cs : List Char // '|' ∉ cs }) : Phrase → Prop
  | here : Mentions symbol (.symbol symbol)
  | inside {head : Head} {args : List Phrase} {arg : Phrase} (among : arg ∈ args) (mentions : Mentions symbol arg) :
      Mentions symbol (.applied head args)

namespace Term

def parts : Term → List Term
  | .var _ _ | .int _ | .bool _ | .str _ => []
  | .arith _ a b | .order _ a b | .eq a b => [a, b]
  | .not a => [a]
  | .junction _ ts => ts
  | .ite c a b => [c, a, b]
  | .select a k => [a, k]
  | .store a k v => [a, k, v]

inductive Occurs (name : String) (sort : SmtSort) : Term → Prop
  | here : Occurs name sort (.var name sort)
  | inside {t part : Term} (among : part ∈ t.parts) (occurs : Occurs name sort part) : Occurs name sort t

variable {t : Term}

theorem mem_symbols_iff_parts :
    (name, sort) ∈ t.symbols ↔ t = .var name sort ∨ ∃ part ∈ t.parts, (name, sort) ∈ part.symbols := by
  cases t with
  | var n s => simp [symbols, parts, eq_comm]
  | junction j ts => simp [symbols, parts, mem_symbolsAll]
  | ite c a b | store a k v => simp [symbols, parts, or_comm, or_assoc]
  | _ => simp [symbols, parts, or_comm]

theorem sizeOf_part {part : Term} (among : part ∈ t.parts) : sizeOf part < sizeOf t := by
  cases t with
  | junction j ts =>
    have smaller : sizeOf part < sizeOf ts := sizeOf_lt_of_mem among
    rw [junction.sizeOf_spec]
    omega
  | var _ _ | int _ | bool _ | str _ => cases among
  | _ =>
    simp only [parts, mem_cons, not_mem_nil, or_false] at among
    grind

theorem occurs_of_mem (t : Term) (member : (name, sort) ∈ t.symbols) : t.Occurs name sort := by
  rcases mem_symbols_iff_parts.mp member with rfl | ⟨part, among, member⟩
  · exact .here
  · exact .inside among (occurs_of_mem part member)
termination_by sizeOf t
decreasing_by exact sizeOf_part among

theorem mem_symbols_iff : (name, sort) ∈ t.symbols ↔ t.Occurs name sort := by
  refine ⟨occurs_of_mem t, fun occurs => ?_⟩
  induction occurs with
  | here => exact mem_symbols_iff_parts.mpr (.inl rfl)
  | inside among _ ih => exact mem_symbols_iff_parts.mpr (.inr ⟨_, among, ih⟩)

theorem phraseAll_eq (ts : List Term) : phraseAll ts = ts.map phrase := by
  induction ts with
  | nil => rfl
  | cons t ts ih => rw [phraseAll, ih, map_cons]

theorem mentions_cases {symbol : { cs : List Char // '|' ∉ cs }} (mentions : t.phrase.Mentions symbol) :
    (∃ name sort, t = .var name sort ∧ unbarred name = symbol) ∨ ∃ part ∈ t.parts, part.phrase.Mentions symbol := by
  have applied {head : Head} {ts : List Term} (mentions : (Phrase.applied head (ts.map phrase)).Mentions symbol) :
      ∃ part ∈ ts, part.phrase.Mentions symbol := by
    obtain _ | ⟨among, inside⟩ := mentions
    obtain ⟨part, listed, rfl⟩ := mem_map.mp among
    exact ⟨part, listed, inside⟩
  cases t with
  | var name sort =>
    cases mentions
    exact .inl ⟨name, sort, rfl, rfl⟩
  | int i =>
    cases i with
    | ofNat n => cases mentions
    | negSucc n =>
      obtain _ | ⟨among, inside⟩ := mentions
      cases mem_singleton.mp among
      cases inside
  | bool b | str s => cases mentions
  | junction j ts =>
    cases ts with
    | nil => cases mentions
    | cons t ts =>
      rw [phrase, phraseAll_eq, ← map_cons] at mentions
      exact .inr (applied mentions)
  | _ => exact .inr (applied mentions)

theorem occurs_of_mentions {symbol : { cs : List Char // '|' ∉ cs }} (t : Term) (mentions : t.phrase.Mentions symbol) :
    ∃ name sort, t.Occurs name sort ∧ unbarred name = symbol := by
  rcases mentions_cases mentions with ⟨name, sort, rfl, same⟩ | ⟨part, among, inside⟩
  · exact ⟨name, sort, .here, same⟩
  · obtain ⟨name, sort, occurs, same⟩ := occurs_of_mentions part inside
    exact ⟨name, sort, .inside among occurs, same⟩
termination_by sizeOf t
decreasing_by exact sizeOf_part among

def OccursAmong (ts : List Term) (name : String) (sort : SmtSort) : Prop := ∃ t ∈ ts, t.Occurs name sort

def Clash (ts : List Term) : Prop :=
  ∃ name s s', OccursAmong ts name s ∧ OccursAmong ts name s' ∧ s ≠ s'

end Term

namespace Declarations

variable {decls : Declarations}

def Ordered (decls : Declarations) : Prop := decls.Pairwise fun d e => d.1 < e.1

theorem Ordered.unique (ordered : Ordered decls) {s s' : SmtSort} (one : (name, s) ∈ decls)
    (other : (name, s') ∈ decls) : s = s' := by
  have names : (decls.map Prod.fst).Nodup := List.Pairwise.map _ (fun _ _ => ne_of_lt) ordered
  cases inj_on_of_nodup_map names one other rfl
  rfl

theorem declare_cases (ordered : Ordered decls) (name : String) (sort : SmtSort) :
    (declare name sort decls = .error (.sortClash name) ∧ ∃ s, (name, s) ∈ decls ∧ s ≠ sort) ∨
      ∃ added, declare name sort decls = .ok added ∧ Ordered added ∧ ∀ d, d ∈ added ↔ d ∈ decls ∨ d = (name, sort) := by
  induction decls with
  | nil => exact .inr ⟨[(name, sort)], rfl, pairwise_singleton .., by simp⟩
  | cons d rest ih =>
    obtain ⟨n, s⟩ := d
    obtain ⟨first, later⟩ := pairwise_cons.mp ordered
    rw [declare]
    cases order : compare name n with
    | lt =>
      have before : name < n := compare_lt_iff_lt.mp order
      refine .inr ⟨_, rfl, pairwise_cons.mpr ⟨?_, ordered⟩, fun d => by rw [mem_cons, or_comm]⟩
      exact forall_mem_cons.mpr ⟨before, fun e among => lt_trans before (first e among)⟩
    | eq =>
      obtain rfl : name = n := compare_eq_iff_eq.mp order
      by_cases same : s = sort
      · subst same
        exact .inr ⟨_, if_pos rfl, ordered, fun d => by simp +contextual⟩
      · exact .inl ⟨if_neg same, s, mem_cons_self .., same⟩
    | gt =>
      have behind : n < name := compare_gt_iff_gt.mp order
      rcases ih later with ⟨fails, s', among, differs⟩ | ⟨added, declared, ordered, members⟩
      · exact .inl ⟨by simp [fails, Except.map], s', mem_cons_of_mem _ among, differs⟩
      · refine .inr ⟨(n, s) :: added, by simp [declared, Except.map], pairwise_cons.mpr ⟨fun e among => ?_, ordered⟩,
          fun d => by simp [members, or_assoc]⟩
        rcases (members e).mp among with old | rfl
        · exact first e old
        · exact behind

theorem declareAll_cases (ordered : Ordered decls) (symbols : List (String × SmtSort)) :
    (∃ name s s', declareAll decls symbols = .error (.sortClash name) ∧ (name, s) ∈ decls ++ symbols ∧
        (name, s') ∈ decls ++ symbols ∧ s ≠ s') ∨
      ∃ all, declareAll decls symbols = .ok all ∧ Ordered all ∧ ∀ d, d ∈ all ↔ d ∈ decls ++ symbols := by
  induction symbols generalizing decls with
  | nil => exact .inr ⟨decls, rfl, ordered, by simp⟩
  | cons symbol rest ih =>
    obtain ⟨name, sort⟩ := symbol
    rw [declareAll]
    rcases declare_cases ordered name sort with ⟨fails, s, among, differs⟩ | ⟨added, declared, ordered, members⟩
    · exact .inl ⟨name, s, sort, by rw [fails], by simp [among], by simp, differs⟩
    · have same : ∀ d, d ∈ added ++ rest ↔ d ∈ decls ++ (name, sort) :: rest := by simp [members, or_assoc]
      rw [declared]
      simpa only [same] using ih ordered

end Declarations

theorem Script.declaration_eq : declaration =
    fun d => "(declare-fun |" ++ String.ofList (Term.unbarred d.1).1 ++ "| () " ++ d.2.smt ++ ")" :=
  funext fun d => String.toList_inj.mp (by simp [declaration, quoteSymbol, Term.unbarred])

/-- A script fails with a clash exactly where a name occurs with two sorts.  Otherwise it declares the symbols that
occur, in order of name and each with its sort, asserts the terms in turn, and each of these is written as a phrase
whose symbols are all declared. -/
theorem script_declares_exactly (assertions extra : List Term) :
    ((∃ name, ofTerms assertions extra = .error (.sortClash name)) ↔ Term.Clash (assertions ++ extra)) ∧
      (Term.Clash (assertions ++ extra) ∨ ∃ decls : Declarations,
        ofTerms assertions extra = .ok
          ⟨decls.map fun d => "(declare-fun |" ++ String.ofList (Term.unbarred d.1).1 ++ "| () " ++ d.2.smt ++ ")",
            assertions.map fun t => "(assert " ++ t.smt ++ ")"⟩ ∧
        decls.Pairwise (fun d e => d.1 < e.1) ∧
        (∀ name sort, (name, sort) ∈ decls ↔ Term.OccursAmong (assertions ++ extra) name sort) ∧
        ∀ t ∈ assertions, ∃ phrase : Phrase, phrase.text = t.smt.toList ∧
          ∀ symbol, phrase.Mentions symbol → ∃ name sort, (name, sort) ∈ decls ∧ Term.unbarred name = symbol) := by
  have occurring (name : String) (sort : SmtSort) : (name, sort) ∈ [] ++ (assertions ++ extra).flatMap Term.symbols ↔
      Term.OccursAmong (assertions ++ extra) name sort := by
    simp only [nil_append, mem_flatMap, Term.mem_symbols_iff, Term.OccursAmong]
  rcases Declarations.declareAll_cases List.Pairwise.nil ((assertions ++ extra).flatMap Term.symbols) with
    ⟨name, s, s', fails, one, other, differs⟩ | ⟨decls, declared, ordered, members⟩
  · have clash : Term.Clash (assertions ++ extra) :=
      ⟨name, s, s', (occurring name s).mp one, (occurring name s').mp other, differs⟩
    have fails : ofTerms assertions extra = .error (.sortClash name) := by
      rw [ofTerms, Declarations.ofTerms, fails]
    exact ⟨⟨fun _ => clash, fun _ => ⟨name, fails⟩⟩, .inl clash⟩
  · have made : ofTerms assertions extra = .ok
        ⟨decls.map fun d => "(declare-fun |" ++ String.ofList (Term.unbarred d.1).1 ++ "| () " ++ d.2.smt ++ ")",
          assertions.map fun t => "(assert " ++ t.smt ++ ")"⟩ := by
      rw [ofTerms, Declarations.ofTerms, declared, ← declaration_eq]
      rfl
    have declares (name : String) (sort : SmtSort) :
        (name, sort) ∈ decls ↔ Term.OccursAmong (assertions ++ extra) name sort :=
      (members _).trans (occurring name sort)
    refine ⟨⟨?_, ?_⟩, .inr ⟨decls, made, ordered, declares, fun t among => ⟨t.phrase, t.text_phrase, ?_⟩⟩⟩
    · rintro ⟨name, fails⟩
      cases made.symm.trans fails
    · rintro ⟨name, s, s', one, other, differs⟩
      exact absurd (Declarations.Ordered.unique ordered ((declares name s).mpr one)
        ((declares name s').mpr other)) differs
    · intro symbol mentions
      obtain ⟨name, sort, occurs, same⟩ := Term.occurs_of_mentions t mentions
      exact ⟨name, sort, (declares name sort).mpr ⟨t, mem_append_left _ among, occurs⟩, same⟩

end TokenAudit
