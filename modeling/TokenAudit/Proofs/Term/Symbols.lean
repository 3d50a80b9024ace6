import Mathlib.Data.List.Basic
import TokenAudit.Proofs.Term.Builders
import TokenAudit.Proofs.World
import TokenAudit.Solver.Script

/-!
# Symbols of terms

The builders of terms bring in no symbol that their operands do not have.
-/

namespace TokenAudit

open List Nat

namespace Term

variable {t t' a b k l r : Term} {ts : List Term} {j : Junction} {op : OrderOp}

inductive Within (P : String → SmtSort → Prop) : Term → Prop
  | var {name : String} {sort : SmtSort} (holds : P name sort) : Within P (.var name sort)
  | int (i : Int) : Within P (.int i)
  | bool (b : Bool) : Within P (.bool b)
  | str (s : String) : Within P (.str s)
  | arith {op : ArithOp} {a b : Term} (left : Within P a) (right : Within P b) : Within P (.arith op a b)
  | order {op : OrderOp} {a b : Term} (left : Within P a) (right : Within P b) : Within P (.order op a b)
  | eq {a b : Term} (left : Within P a) (right : Within P b) : Within P (.eq a b)
  | not {t : Term} (body : Within P t) : Within P (.not t)
  | junction {j : Junction} {ts : List Term} (parts : ∀ t ∈ ts, Within P t) : Within P (.junction j ts)
  | ite {c a b : Term} (cond : Within P c) (yes : Within P a) (no : Within P b) : Within P (.ite c a b)
  | select {a k : Term} (array : Within P a) (key : Within P k) : Within P (.select a k)
  | store {a k v : Term} (array : Within P a) (key : Within P k) (value : Within P v) : Within P (.store a k v)

variable {P : String → SmtSort → Prop} {s : SmtSort}

theorem Within.mono {Q : String → SmtSort → Prop} (within : t.Within P)
    (weaker : ∀ name sort, P name sort → Q name sort) : t.Within Q := by
  induction within with
  | var holds => exact .var (weaker _ _ holds)
  | int i => exact .int i
  | bool b => exact .bool b
  | str s => exact .str s
  | arith _ _ left right => exact .arith left right
  | order _ _ left right => exact .order left right
  | eq _ _ left right => exact .eq left right
  | not _ body => exact .not body
  | junction _ parts => exact .junction parts
  | ite _ _ _ cond yes no => exact .ite cond yes no
  | select _ _ array key => exact .select array key
  | store _ _ _ array key value => exact .store array key value

theorem mem_symbolsAll {symbol : String × SmtSort} : symbol ∈ symbolsAll ts ↔ ∃ t ∈ ts, symbol ∈ t.symbols := by
  induction ts with
  | nil => simp [symbolsAll]
  | cons t rest ih => rw [symbolsAll, mem_append, ih, exists_mem_cons_iff, or_comm]

theorem Within.occurring (within : t.Within P) : ∀ symbol ∈ t.symbols, P symbol.1 symbol.2 := by
  induction within with
  | var holds => exact forall_mem_singleton.mpr holds
  | int i | bool b | str s => exact nofun
  | arith _ _ left right | order _ _ left right | eq _ _ left right =>
    exact forall_mem_append.mpr ⟨right, left⟩
  | not _ body => exact body
  | junction _ parts =>
    intro symbol occurs
    obtain ⟨t, among, occurs⟩ := mem_symbolsAll.mp occurs
    exact parts t among symbol occurs
  | ite _ _ _ cond yes no => exact forall_mem_append.mpr ⟨forall_mem_append.mpr ⟨no, yes⟩, cond⟩
  | select _ _ array key => exact forall_mem_append.mpr ⟨key, array⟩
  | store _ _ _ array key value =>
    exact forall_mem_append.mpr ⟨forall_mem_append.mpr ⟨value, key⟩, array⟩

theorem Within.eval_eq {E E' : Env} (within : t.Within P)
    (agree : ∀ name sort, P name sort → E.symbol name sort = E'.symbol name sort) (arith : E.arith = E'.arith) :
    t.eval E = t.eval E' := by
  induction within with
  | var holds => rw [eval, eval, agree _ _ holds]
  | int | bool | str => rfl
  | arith _ _ left right => rw [eval, eval, left, right, arith]
  | order _ _ left right | eq _ _ left right => rw [eval, eval, left, right]
  | not _ body => rw [eval, eval, body]
  | junction _ parts =>
    rw [eval, eval, truths_eq_map, truths_eq_map]
    congr 2
    exact map_congr_left fun t part => by rw [parts t part]
  | ite _ _ _ cond yes no => rw [eval, eval, cond, yes, no]
  | select _ _ array key => rw [eval, eval, array, key]
  | store _ _ _ array key value => rw [eval, eval, array, key, value]

theorem Within.coerce (within : t.Within P) (s : SmtSort) : (coerce s t).Within P := by
  unfold Term.coerce
  split
  · split
    · exact .bool _
    · split
      · exact .bool _
      · exact .int _
  · exact .int _
  · exact within

theorem Within.fit (within : t.Within P) (fits : fit s t = some t') : t'.Within P := by
  unfold Term.fit at fits
  dsimp only at fits
  split at fits
  · cases fits
    exact within.coerce s
  · cases fits

theorem Within.mkNot (within : t.Within P) : (mkNot t).Within P := by
  unfold Term.mkNot
  split
  · exact .bool _
  · cases within with
    | not body => exact body
  · exact .not within

theorem Within.flatten {flat : List Term} (within : ∀ t ∈ ts, t.Within P) (flattened : flatten j ts = some flat) :
    ∀ t ∈ flat, t.Within P := by
  induction ts generalizing flat with
  | nil =>
    cases flattened
    exact within
  | cons t rest ih =>
    obtain ⟨here, later⟩ := forall_mem_cons.mp within
    unfold Term.flatten at flattened
    split at flattened
    · contradiction
    · rename_i same
      cases same
      split at flattened
      · exact ih later flattened
      · cases flattened
    · rename_i same
      cases same
      split at flattened
      · obtain ⟨others, opened, rfl⟩ := Option.map_eq_some_iff.mp flattened
        cases here with
        | junction parts => exact forall_mem_append.mpr ⟨parts, ih later opened⟩
      · obtain ⟨others, opened, rfl⟩ := Option.map_eq_some_iff.mp flattened
        exact forall_mem_cons.mpr ⟨here, ih later opened⟩
    · rename_i same
      cases same
      obtain ⟨others, opened, rfl⟩ := Option.map_eq_some_iff.mp flattened
      exact forall_mem_cons.mpr ⟨here, ih later opened⟩

theorem Within.mkJunction (within : ∀ t ∈ ts, t.Within P) : (mkJunction j ts).Within P := by
  unfold Term.mkJunction
  split
  · exact .bool _
  · exact .bool _
  · rename_i t flattened
    exact Within.flatten within flattened t (mem_singleton.mpr rfl)
  · rename_i flattened
    exact .junction (Within.flatten within flattened)

theorem mkEq_cases (built : mkEq a b = .ok t) :
    (∃ truth, t = .bool truth) ∨ t = .eq (coercePair a b).1 (coercePair a b).2 := by
  unfold mkEq at built
  dsimp only at built
  split at built
  · cases built
  · split at built
    · cases built
      exact .inl ⟨_, rfl⟩
    · cases built
      exact .inl ⟨_, rfl⟩
    · cases built
      exact .inl ⟨_, rfl⟩
    · cases built
      split
      · exact .inl ⟨_, rfl⟩
      · exact .inr rfl

theorem mkNe_cases (built : mkNe a b = .ok t) :
    (∃ truth, t = .bool truth) ∨ t = .not (.eq (coercePair a b).1 (coercePair a b).2) := by
  unfold mkNe at built
  cases equation : mkEq a b with
  | error e =>
    rw [equation] at built
    cases built
  | ok e =>
    rw [equation] at built
    cases built
    rcases mkEq_cases equation with ⟨truth, rfl⟩ | rfl
    · exact .inl ⟨_, rfl⟩
    · exact .inr rfl

theorem mkOrder_cases (built : mkOrder op a b = .ok t) : (∃ truth, t = .bool truth) ∨ t = .order op a b := by
  unfold mkOrder at built
  split at built
  · cases built
  · split at built
    · cases built
      exact .inl ⟨_, rfl⟩
    · cases built
      exact .inr rfl

theorem coerce_symbol (name : String) (s s' : SmtSort) : coerce s' (.var name s) = .var name s := by
  cases s' <;> rfl

theorem coercePair_symbol (name : String) (s : SmtSort) (b : Term) :
    coercePair (.var name s) b = (.var name s, coerce s b) :=
  Prod.ext (coerce_symbol name s (coerce s b).sort) rfl

theorem Within.mkEq (left : a.Within P) (right : b.Within P) (built : mkEq a b = .ok t) : t.Within P := by
  rcases mkEq_cases built with ⟨truth, rfl⟩ | rfl
  · exact .bool truth
  · exact .eq (left.coerce _) (right.coerce _)

theorem Within.mkNe (left : a.Within P) (right : b.Within P) (built : mkNe a b = .ok t) : t.Within P := by
  rcases mkNe_cases built with ⟨truth, rfl⟩ | rfl
  · exact .bool truth
  · exact .not (.eq (left.coerce _) (right.coerce _))

theorem Within.mkOrder (left : a.Within P) (right : b.Within P) (built : mkOrder op a b = .ok t) : t.Within P := by
  rcases mkOrder_cases built with ⟨truth, rfl⟩ | rfl
  · exact .bool truth
  · exact .order left right

theorem Within.mkArith {op : ArithOp} (left : a.Within P) (right : b.Within P) (built : mkArith op a b = .ok t) :
    t.Within P := by
  unfold Term.mkArith at built
  split at built
  · cases built
  · cases built
    obtain plain | ⟨_, _, z, _, _, _, folded⟩ | ⟨_, _, _, kept⟩ | ⟨_, _, _, kept⟩ := simplify_cases op a b
    · rw [plain]
      exact .arith left right
    · rw [folded]
      exact .int z
    · rw [kept]
      exact right
    · rw [kept]
      exact left

theorem Within.timesPower (base : a.Within P) (n : Nat) {acc : Term} (start : acc.Within P)
    (built : timesPower a n acc = .ok t) : t.Within P := by
  induction n generalizing acc with
  | zero =>
    cases built
    exact start
  | succ n ih =>
    unfold Term.timesPower at built
    split at built
    · rename_i next product
      exact ih (Within.mkArith start base product) built
    · cases built

theorem Within.mkPow (base : a.Within P) (built : mkPow a b = .ok (some t)) : t.Within P := by
  obtain ⟨number, e, rfl, small⟩ := mkPow_inReach built
  by_cases literal : ∃ x, a = .int x
  · obtain ⟨x, rfl⟩ := literal
    rw [mkPow_literal x (by omega)] at built
    cases Option.some.inj (Except.ok.inj built)
    exact .int _
  · have low : e ≤ 8 := small.resolve_right fun big => literal big.1
    have symbolic := not_exists.mp literal
    cases e with
    | zero =>
      rw [mkPow_zero number symbolic] at built
      cases built
      exact .int _
    | succ e =>
      rw [mkPow_succ number symbolic low] at built
      cases product : Term.timesPower a e a with
      | error _ =>
        rw [product] at built
        cases built
      | ok power =>
        rw [product] at built
        cases built
        exact base.timesPower e base product

theorem truthy_sort (built : truthy t = .ok t') : t'.sort = .bool := by
  unfold Term.truthy at built
  split at built
  · rename_i predicate
    cases built
    exact predicate
  · rcases mkNe_cases built with ⟨truth, rfl⟩ | rfl
    · rfl
    · rfl
  · cases built

theorem Within.truthy (within : t.Within P) (built : truthy t = .ok t') : t'.Within P := by
  unfold Term.truthy at built
  split at built
  · cases built
    exact within
  · exact Within.mkNe within (.int 0) built
  · cases built

theorem Within.mkImplies (left : a.Within P) (right : b.Within P) : (mkImplies a b).Within P :=
  Within.mkJunction (forall_mem_cons.mpr ⟨left.mkNot, forall_mem_singleton.mpr right⟩)

theorem Within.mkSelect (array : a.Within P) (key : k.Within P) (built : mkSelect a k = .ok t) : t.Within P := by
  unfold Term.mkSelect at built
  split at built
  · dsimp only at built
    split at built
    · cases built
    · split at built
      · split at built
        · cases built
          cases array with
          | store _ _ value => exact value
        · cases built
          exact .select array (key.coerce _)
      · cases built
        exact .select array (key.coerce _)
  · cases built

theorem Within.mkStore {v : Term} (array : a.Within P) (key : k.Within P) (value : v.Within P)
    (built : mkStore a k v = .ok t) : t.Within P := by
  unfold Term.mkStore at built
  split at built
  · dsimp only at built
    split at built
    · cases built
    · split at built
      · cases built
      · cases built
        exact .store array (key.coerce _) (value.coerce _)
  · cases built

theorem of_map_some {built : Except SortError Term} (maps : built.map some = .ok (some t)) : built = .ok t := by
  cases built with
  | error e => cases maps
  | ok u =>
    cases maps
    rfl

theorem Within.shifted (left : l.Within P) {op : ArithOp} (built : (match Machine.shiftFactor? r with
      | some factor => (Term.mkArith op l factor).map some
      | none => .ok none) = .ok (some t)) : t.Within P := by
  split at built
  · rename_i factor literal
    unfold Machine.shiftFactor? at literal
    split at literal
    · split at literal
      · rw [← Option.some.inj literal] at built
        exact Within.mkArith left (.int _) (of_map_some built)
      · cases literal
    · cases literal
  · cases built

theorem Within.binaryTerm {op : BinaryOp} (left : l.Within P) (right : r.Within P)
    (built : Machine.binaryTerm op l r = .ok (some t)) : t.Within P := by
  have connective (j : Junction) (built : (do
      return some (Term.mkJunction j [← Term.truthy l, ← Term.truthy r])) = Except.ok (some t)) : t.Within P := by
    obtain ⟨a, first, built⟩ := bind_eq_ok_iff.mp built
    obtain ⟨b, second, built⟩ := bind_eq_ok_iff.mp built
    cases built
    refine Within.mkJunction (forall_mem_cons.mpr ⟨left.truthy first, ?_⟩)
    exact forall_mem_singleton.mpr (right.truthy second)
  cases op with
  | add | sub | mul | div | mod => exact Within.mkArith left right (of_map_some built)
  | pow => exact left.mkPow built
  | eq => exact Within.mkEq left right (of_map_some built)
  | ne => exact Within.mkNe left right (of_map_some built)
  | lt | gt | le | ge => exact Within.mkOrder left right (of_map_some built)
  | and => exact connective .all built
  | or => exact connective .any built
  | shiftLeft | shiftRight => exact left.shifted built
  | bitAnd | bitOr | bitXor => cases built

theorem binaryTerm_wellSorted {op : BinaryOp} (left : l.WellSorted) (right : r.WellSorted)
    (built : Machine.binaryTerm op l r = .ok (some t)) : t.WellSorted := by
  have E : Env := default
  have arith {op : ArithOp} {r : Term} (right : r.WellSorted)
      (built : (Term.mkArith op l r).map some = .ok (some t)) : t.WellSorted :=
    ((mkArith_yields (E := E) op left right).denotes t (of_map_some built)).hasSort.1
  have order {op : OrderOp} (built : (Term.mkOrder op l r).map some = .ok (some t)) : t.WellSorted :=
    ((mkOrder_yields (E := E) op left right).denotes t (of_map_some built)).hasSort.1
  have connective (j : Junction) (built : (do
      return some (Term.mkJunction j [← Term.truthy l, ← Term.truthy r])) = Except.ok (some t)) : t.WellSorted := by
    obtain ⟨a, first, built⟩ := bind_eq_ok_iff.mp built
    obtain ⟨b, second, built⟩ := bind_eq_ok_iff.mp built
    cases built
    have predicate := ((truthy_yields (E := E) left).denotes a first).hasSort
    have predicate' := ((truthy_yields (E := E) right).denotes b second).hasSort
    have parts : AllPredicates [a, b] := ⟨predicate, predicate', trivial⟩
    exact (mkJunction_denotes (E := E) j parts).hasSort.1
  have shifted {op : ArithOp} (built : (match Machine.shiftFactor? r with
      | some factor => (Term.mkArith op l factor).map some
      | none => .ok none) = .ok (some t)) : t.WellSorted := by
    split at built
    · rename_i factor literal
      unfold Machine.shiftFactor? at literal
      split at literal
      · split at literal
        · cases literal
          exact arith (r := .int _) trivial built
        · cases literal
      · cases literal
    · cases built
  cases op with
  | add | sub | mul | div | mod => exact arith right built
  | pow => exact (mkPow_value (E := E) left built).hasSort.1
  | eq => exact ((mkEq_yields (E := E) left right).denotes t (of_map_some built)).hasSort.1
  | ne => exact ((mkNe_yields (E := E) left right).denotes t (of_map_some built)).hasSort.1
  | lt | gt | le | ge => exact order built
  | and => exact connective .all built
  | or => exact connective .any built
  | shiftLeft | shiftRight => exact shifted built
  | bitAnd | bitOr | bitXor => cases built

/-- A term that is neither a boolean symbol with a hash nor the negation of one. -/
def Silent (t : Term) : Prop :=
  ∀ name, '#' ∈ name.toList → t ≠ .var name .bool ∧ t ≠ .not (.var name .bool)

/-- A symbol that no fact has; a boolean one is not even like that of a fact. -/
structure Plain (name : String) (sort : SmtSort) : Prop where
  unhashed : sort = .bool → '#' ∉ name.toList
  unspoken : ∀ fact : Fact, name ≠ fact.symbol

theorem Within.silent (within : t.Within Plain) : t.Silent := by
  intro name hash
  constructor
  · rintro rfl
    cases within with
    | var plain => exact plain.unhashed rfl hash
  · rintro rfl
    cases within with
    | not body =>
      cases body with
      | var plain => exact plain.unhashed rfl hash

/-- A term of plain symbols whose parts have the sorts that its operators take. -/
structure Clear (t : Term) : Prop where
  plain : t.Within Plain
  sorted : t.WellSorted

def isLiteral : Term → Bool
  | .var _ _ => true
  | .not (.var _ _) => true
  | _ => false

theorem silent_of_compound (compound : t.isLiteral = false) : t.Silent := by
  intro name _
  constructor
  · rintro rfl
    cases compound
  · rintro rfl
    cases compound

theorem silent_mkEq (built : mkEq a b = .ok t) : t.Silent := by
  rcases mkEq_cases built with ⟨truth, rfl⟩ | rfl
  · exact silent_of_compound rfl
  · exact silent_of_compound rfl

theorem silent_mkNe (built : mkNe a b = .ok t) : t.Silent := by
  rcases mkNe_cases built with ⟨truth, rfl⟩ | rfl
  · exact silent_of_compound rfl
  · exact silent_of_compound rfl

theorem silent_mkOrder (built : mkOrder op a b = .ok t) : t.Silent := by
  rcases mkOrder_cases built with ⟨truth, rfl⟩ | rfl
  · exact silent_of_compound rfl
  · exact silent_of_compound rfl

end Term

namespace Fact

variable {fact other : Fact}

/-- The facts that hold or do not hold, with function names that have no dot. -/
def Watched : Fact → Prop
  | .written _ => True
  | .emitted _ => True
  | .called _ function => '.' ∉ function.toList
  | .fnCalled function => '.' ∉ function.toList
  | .threw => True
  | .usedInCheck _ => True
  | _ => False

def halves : Fact → List Char × List Char
  | .written var => (var.toList, "written".toList)
  | .writtenCount var => (var.toList, "writtencnt".toList)
  | .writtenKey var write level => (var.toList ++ '#' :: (toString write).toList, (toString level).toList)
  | .postExec var _ => (var.toList, "postexec".toList)
  | .emitted event => (event.toList, "emitted".toList)
  | .emittedArg event occurrence index _ =>
    (event.toList ++ '#' :: (toString occurrence).toList, (toString index).toList)
  | .called receiver function => (receiver.toList ++ '.' :: function.toList, "called".toList)
  | .fnCalled function => (function.toList, "called".toList)
  | .callReturn function _ => (function.toList, "ret".toList)
  | .callArg function occurrence index _ =>
    (function.toList ++ "#call#".toList ++ (toString occurrence).toList, (toString index).toList)
  | .threw => ([], "throwed".toList)
  | .usedInCheck name => (name.toList, "check-used".toList)

@[simp] theorem hash_notMem_toDigits (n : Nat) : '#' ∉ toDigits 10 n := by
  intro digit
  simpa using isDigit_of_mem_toDigits (by decide) (by decide) digit

theorem digits_inj {m n : Nat} (same : (toString m).toList = (toString n).toList) : m = n := by
  have same : toDigits 10 m = toDigits 10 n := by simpa using same
  rw [← ofDigitChars_toDigits (b := 10) (n := m) (by decide) (by decide), same,
    ofDigitChars_toDigits (by decide) (by decide)]

theorem symbol_halves (fact : Fact) :
    fact.symbol.toList = fact.halves.1 ++ '#' :: fact.halves.2 ∧ '#' ∉ fact.halves.2 := by
  cases fact <;> simp [symbol, halves]

theorem dot_notMem_halves (fact : Fact) : '.' ∉ fact.halves.2 := by
  have digits (n : Nat) : '.' ∉ (toString n).toList := by
    intro digit
    have digit : '.' ∈ toDigits 10 n := by simpa using digit
    exact absurd (isDigit_of_mem_toDigits (by decide) (by decide) digit) (by decide)
  cases fact with
  | writtenKey _ _ level => exact digits level
  | emittedArg _ _ index _ | callArg _ _ index _ => exact digits index
  | _ => simp [halves]

theorem sort_of_watched (watched : fact.Watched) : fact.sort = .bool := by
  cases fact with
  | written | emitted | called | fnCalled | threw | usedInCheck => rfl
  | _ => cases watched

/-- A list is cut in one way only at the last place that holds a given character. -/
theorem cut_unique {c : Char} {l l' s s' : List Char} (after : c ∉ s) (after' : c ∉ s')
    (same : l ++ c :: s = l' ++ c :: s') : l = l' ∧ s = s' := by
  rcases append_eq_append_iff.mp same with ⟨between, rfl, rest⟩ | ⟨between, rfl, rest⟩
  · cases between with
    | nil => simpa using rest
    | cons d between =>
      obtain ⟨rfl, rfl⟩ := List.cons.inj rest
      exact (after (by simp)).elim
  · cases between with
    | nil => simpa [eq_comm] using rest
    | cons d between =>
      obtain ⟨rfl, rfl⟩ := List.cons.inj rest
      exact (after' (by simp)).elim

theorem halves_of_symbol (same : fact.symbol = other.symbol) : fact.halves = other.halves := by
  obtain ⟨cut, after⟩ := fact.symbol_halves
  obtain ⟨cut', after'⟩ := other.symbol_halves
  obtain ⟨stem, kind⟩ := cut_unique after after' (cut.symm.trans ((congrArg String.toList same).trans cut'))
  exact Prod.ext stem kind

def Numbered (fact : Fact) (stem : List Char) (number index : Nat) : Prop :=
  fact.halves = (stem ++ '#' :: (toString number).toList, (toString index).toList)

theorem writtenKey_numbered (name : String) (number index : Nat) :
    (writtenKey name number index).Numbered name.toList number index := rfl

theorem emittedArg_numbered (name : String) (number index : Nat) (s : SmtSort) :
    (emittedArg name number index s).Numbered name.toList number index := rfl

theorem callArg_numbered (f : String) (number index : Nat) (s : SmtSort) :
    (callArg f number index s).Numbered (f.toList ++ "#call".toList) number index := by
  simp [Numbered, halves]

theorem numbered_inj {stem stem' : List Char} {number number' index index' : Nat}
    (one : fact.Numbered stem number index) (two : other.Numbered stem' number' index')
    (same : fact.symbol = other.symbol) : stem = stem' ∧ number = number' ∧ index = index' := by
  have halves := one.symm.trans ((halves_of_symbol same).trans two)
  obtain ⟨cut, place⟩ := Prod.mk.inj halves
  obtain ⟨stems, numbers⟩ := cut_unique (by simp) (by simp) cut
  exact ⟨stems, digits_inj numbers, digits_inj place⟩

theorem Numbered.ne_of_letter {stem : List Char} {number index : Nat} (numbered : other.Numbered stem number index)
    (letter : ∃ c ∈ fact.halves.2, c.isDigit = false) : fact.symbol ≠ other.symbol := by
  intro same
  obtain ⟨c, among, letter⟩ := letter
  rw [halves_of_symbol same, numbered] at among
  have digit : c ∈ toDigits 10 index := by simpa using among
  rw [isDigit_of_mem_toDigits (by decide) (by decide) digit] at letter
  cases letter

def Uncalled : Fact → Prop
  | .called _ _ => False
  | .fnCalled _ => False
  | _ => True

theorem halves_of_uncalled (uncalled : fact.Uncalled) : fact.halves.2 ≠ "called".toList := by
  have digits (n : Nat) : (toString n).toList ≠ "called".toList := by
    intro same
    have letter : 'c' ∈ toDigits 10 n := by
      have toDigits : (toString n).toList = toDigits 10 n := by simp
      rw [← toDigits, same]
      decide
    exact absurd (isDigit_of_mem_toDigits (by decide) (by decide) letter) (by decide)
  cases fact with
  | called | fnCalled => exact uncalled.elim
  | writtenKey _ _ level => exact digits level
  | emittedArg _ _ index _ | callArg _ _ index _ => exact digits index
  | _ => simp [halves]

/-- The last part of the symbol is no number. -/
def Lettered (fact : Fact) : Prop := ∃ c ∈ fact.halves.2, c.isDigit = false

def unsorted : Fact → Fact
  | .postExec var _ => .postExec var .int
  | .emittedArg event occurrence index _ => .emittedArg event occurrence index .int
  | .callReturn function _ => .callReturn function .int
  | .callArg function occurrence index _ => .callArg function occurrence index .int
  | fact => fact

/-- The fact with a symbol that ends in a word, if it is not about a call. -/
def ofHalves (stem kind : List Char) : Fact :=
  if kind = "written".toList then .written (.ofList stem)
  else if kind = "writtencnt".toList then .writtenCount (.ofList stem)
  else if kind = "postexec".toList then .postExec (.ofList stem) .int
  else if kind = "emitted".toList then .emitted (.ofList stem)
  else if kind = "ret".toList then .callReturn (.ofList stem) .int
  else if kind = "throwed".toList then .threw
  else .usedInCheck (.ofList stem)

theorem ofHalves_halves (uncalled : fact.Uncalled) (lettered : fact.Lettered) :
    ofHalves fact.halves.1 fact.halves.2 = fact.unsorted := by
  cases fact with
  | called | fnCalled => exact uncalled.elim
  | writtenKey => exact absurd rfl (Numbered.ne_of_letter (writtenKey_numbered ..) lettered)
  | emittedArg => exact absurd rfl (Numbered.ne_of_letter (emittedArg_numbered ..) lettered)
  | callArg => exact absurd rfl (Numbered.ne_of_letter (callArg_numbered ..) lettered)
  | _ => simp [ofHalves, halves, unsorted]

/-- Function names that a dot may stand before have none. -/
def Dotless : Fact → Prop
  | .called _ function => '.' ∉ function.toList
  | .fnCalled function => '.' ∉ function.toList
  | _ => True

theorem unsorted_eq_of_halves (dotless : fact.Dotless) (dotless' : other.Dotless) (lettered : fact.Lettered)
    (lettered' : other.Lettered) (same : fact.halves = other.halves) : fact.unsorted = other.unsorted := by
  by_cases uncalled : fact.Uncalled
  · have uncalled' : other.Uncalled := by
      cases other with
      | called | fnCalled => exact halves_of_uncalled uncalled (congrArg Prod.snd same)
      | _ => trivial
    rw [← ofHalves_halves uncalled lettered, same, ofHalves_halves uncalled' lettered']
  · have called' : ¬ other.Uncalled := by
      intro uncalled'
      have kind := halves_of_uncalled uncalled'
      cases fact with
      | called | fnCalled => exact kind (congrArg Prod.snd same).symm
      | _ => exact uncalled trivial
    cases fact with
    | called receiver function =>
      cases other with
      | called receiver' function' =>
        obtain ⟨receivers, functions⟩ := cut_unique dotless dotless' (congrArg Prod.fst same)
        rw [String.toList_injective receivers, String.toList_injective functions]
      | fnCalled function' =>
        have stem : receiver.toList ++ '.' :: function.toList = function'.toList := congrArg Prod.fst same
        exact (dotless' (by simp [← stem])).elim
      | _ => exact (called' trivial).elim
    | fnCalled function =>
      cases other with
      | fnCalled function' => exact congrArg fnCalled (String.toList_injective (congrArg Prod.fst same))
      | called receiver' function' =>
        have stem : function.toList = receiver'.toList ++ '.' :: function'.toList := congrArg Prod.fst same
        exact (dotless (by simp [stem])).elim
      | _ => exact (called' trivial).elim
    | _ => exact (uncalled trivial).elim

theorem eq_of_halves (watched : fact.Watched) (watched' : other.Watched) (same : fact.halves = other.halves) :
    fact = other := by
  have plain {fact : Fact} (watched : fact.Watched) : fact.Dotless ∧ fact.Lettered ∧ fact.unsorted = fact := by
    cases fact with
    | called | fnCalled => exact ⟨watched, by simp [Lettered, halves], rfl⟩
    | written | emitted | threw | usedInCheck => exact ⟨trivial, by simp [Lettered, halves], rfl⟩
    | _ => cases watched
  obtain ⟨dotless, lettered, bare⟩ := plain watched
  obtain ⟨dotless', lettered', bare'⟩ := plain watched'
  rw [← bare, unsorted_eq_of_halves dotless dotless' lettered lettered' same, bare']

theorem term_inj (watched : fact.Watched) (watched' : other.Watched) (same : fact.term = other.term) :
    fact = other := by
  have symbols : fact.symbol = other.symbol := by
    injection same
  exact eq_of_halves watched watched' (halves_of_symbol symbols)

theorem hash_mem_symbol (fact : Fact) : '#' ∈ fact.symbol.toList := by
  simp [(symbol_halves fact).1]

theorem not_silent_term (boolean : fact.sort = .bool) : ¬ fact.term.Silent := by
  intro silent
  refine (silent fact.symbol fact.hash_mem_symbol).1 ?_
  rw [term, boolean]

theorem not_silent_denial (boolean : fact.sort = .bool) : ¬ fact.denial.Silent := by
  intro silent
  refine (silent fact.symbol fact.hash_mem_symbol).2 ?_
  rw [denial, term, boolean]
  rfl

theorem denial_inj (watched : fact.Watched) (watched' : other.Watched) (same : fact.denial = other.denial) :
    fact = other :=
  term_inj watched watched' (Term.not.inj same)

theorem term_ne_denial (fact other : Fact) : fact.term ≠ other.denial := by
  nofun

end Fact

namespace Term

variable {name : String}

def Uncalling (name : String) (sort : SmtSort) : Prop :=
  sort = .bool → ∀ stem, name.toList ≠ stem ++ '#' :: "called".toList

theorem uncalling_int (name : String) : Uncalling name .int := by
  nofun

theorem plain_of_unhashed (unhashed : '#' ∉ name.toList) (sort : SmtSort) : Plain name sort where
  unhashed _ := unhashed
  unspoken fact same := unhashed (same ▸ fact.hash_mem_symbol)

theorem plain_derived (stem : String) {suffix : String} (unhashed : '#' ∉ suffix.toList) :
    Plain (stem ++ "." ++ suffix) .int where
  unhashed impossible := by cases impossible
  unspoken fact same := by
    obtain ⟨cut, _⟩ := fact.symbol_halves
    have cuts : stem.toList ++ '.' :: suffix.toList = fact.halves.1 ++ '#' :: fact.halves.2 := by
      rw [← cut, ← same]
      simp
    rcases append_eq_append_iff.mp cuts with ⟨between, _, rest⟩ | ⟨between, _, rest⟩
    · have hash : '#' ∈ '.' :: suffix.toList := by simp [rest]
      exact unhashed ((mem_cons.mp hash).resolve_left (by decide))
    · have dot : '.' ∈ '#' :: fact.halves.2 := by simp [rest]
      exact fact.dot_notMem_halves ((mem_cons.mp dot).resolve_left (by decide))

theorem Plain.uncalling {sort : SmtSort} (plain : Plain name sort) : Uncalling name sort := by
  intro boolean stem cut
  exact plain.unhashed boolean (by simp [cut])

end Term

theorem Fact.Uncalled.uncalling {fact : Fact} (uncalled : fact.Uncalled) :
    Term.Uncalling fact.symbol fact.sort := by
  intro _ stem cut
  obtain ⟨cut', after⟩ := fact.symbol_halves
  exact halves_of_uncalled uncalled (cut_unique after (by decide) (cut'.symm.trans cut)).2

end TokenAudit
