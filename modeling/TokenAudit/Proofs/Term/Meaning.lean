import Mathlib.Logic.Function.Basic
import TokenAudit.Term.Build

/-!
# The meaning of terms

Terms denote values: booleans, unbounded integers, strings, and arrays as total functions.
-/

namespace TokenAudit

def SmtSort.Carrier : SmtSort → Type
  | .bool => Bool
  | .int => Int
  | .str => String
  | .array domain range => domain.Carrier → range.Carrier

def SmtSort.domain : SmtSort → SmtSort
  | .array domain _ => domain
  | s => s

def SmtSort.range : SmtSort → SmtSort
  | .array _ range => range
  | s => s

def SmtSort.someValue : (s : SmtSort) → s.Carrier
  | .bool => false
  | .int => (0 : Int)
  | .str => ""
  | .array _ range => fun _ => range.someValue

noncomputable instance (s : SmtSort) : DecidableEq s.Carrier := Classical.decEq _

inductive Datum where
  | bool (b : Bool)
  | int (i : Int)
  | str (s : String)
  | array (domain range : SmtSort) (cells : domain.Carrier → range.Carrier)

noncomputable instance : DecidableEq Datum := Classical.decEq _

namespace Datum

variable {s domain range : SmtSort} {v key value : Datum}

def sort : Datum → SmtSort
  | .bool _ => .bool
  | .int _ => .int
  | .str _ => .str
  | .array domain range _ => .array domain range

def ofCarrier : (s : SmtSort) → s.Carrier → Datum
  | .bool, b => .bool b
  | .int, i => .int i
  | .str, s => .str s
  | .array domain range, cells => .array domain range cells

def carrier : (v : Datum) → v.sort.Carrier
  | .bool b => b
  | .int i => i
  | .str s => s
  | .array _ _ cells => cells

def as (s : SmtSort) (v : Datum) : s.Carrier :=
  if same : v.sort = s then same ▸ v.carrier else s.someValue

def toBool (v : Datum) : Bool := v.as .bool

def toInt (v : Datum) : Int := v.as .int

def truth : Datum → Bool
  | .bool b => b
  | .int i => decide (i ≠ 0)
  | _ => false

def select : Datum → Datum → Datum
  | .array domain range cells, key => ofCarrier range (cells (key.as domain))
  | v, _ => v

noncomputable def store : Datum → Datum → Datum → Datum
  | .array domain range cells, key, value =>
    .array domain range (Function.update cells (key.as domain) (value.as range))
  | v, _, _ => v

@[simp] theorem sort_ofCarrier (s : SmtSort) (x : s.Carrier) : (ofCarrier s x).sort = s := by
  cases s <;> rfl

theorem as_sort (v : Datum) : v.as v.sort = v.carrier := dif_pos rfl

@[simp] theorem as_ofCarrier (s : SmtSort) (x : s.Carrier) : (ofCarrier s x).as s = x := by
  cases s <;> exact as_sort (ofCarrier _ x)

theorem ofCarrier_as (sorted : v.sort = s) : ofCarrier s (v.as s) = v := by
  subst sorted
  rw [as_sort]
  cases v <;> rfl

theorem as_inj {w : Datum} (hv : v.sort = s) (hw : w.sort = s) : v.as s = w.as s ↔ v = w := by
  constructor
  · intro same
    rw [← ofCarrier_as hv, ← ofCarrier_as hw, same]
  · intro same
    rw [same]

@[simp] theorem toBool_bool (b : Bool) : (bool b).toBool = b := rfl

@[simp] theorem toInt_int (i : Int) : (int i).toInt = i := rfl

theorem eq_bool_of_sort (sorted : v.sort = .bool) : v = .bool v.toBool :=
  (ofCarrier_as sorted).symm

theorem eq_int_of_sort (sorted : v.sort = .int) : v = .int v.toInt :=
  (ofCarrier_as sorted).symm

theorem eq_array_of_sort (sorted : v.sort = .array domain range) : ∃ cells, v = .array domain range cells := by
  cases v with
  | array domain' range' cells =>
    cases sorted
    exact ⟨cells, rfl⟩
  | _ => cases sorted

theorem sort_select (sorted : v.sort = .array domain range) : (v.select key).sort = range := by
  obtain ⟨cells, rfl⟩ := eq_array_of_sort sorted
  exact sort_ofCarrier range _

@[simp] theorem sort_store (v key value : Datum) : (v.store key value).sort = v.sort := by
  cases v <;> rfl

theorem select_store_same (sorted : v.sort = .array domain range) (fits : value.sort = range) :
    (v.store key value).select key = value := by
  obtain ⟨cells, rfl⟩ := eq_array_of_sort sorted
  simp only [store, select, Function.update_self]
  exact ofCarrier_as fits

theorem select_store_other {other : Datum} (sorted : v.sort = .array domain range) (keyed : key.sort = domain)
    (keyed' : other.sort = domain) (differ : other ≠ key) : (v.store key value).select other = v.select other := by
  obtain ⟨cells, rfl⟩ := eq_array_of_sort sorted
  have apart : other.as domain ≠ key.as domain := fun same => differ ((as_inj keyed' keyed).mp same)
  simp only [store, select, Function.update_of_ne apart]

end Datum

/-- A value for every symbol.  Division by zero is left open: it gives some number for each dividend. -/
structure Env where
  symbol : String → (s : SmtSort) → s.Carrier
  quotientByZero : Int → Int
  remainderByZero : Int → Int

instance : Inhabited Env where
  default := { symbol := fun _ => SmtSort.someValue, quotientByZero := id, remainderByZero := id }

def Env.arith (E : Env) : ArithOp → Int → Int → Int
  | .add, x, y => x + y
  | .sub, x, y => x - y
  | .mul, x, y => x * y
  | .div, x, y => if y = 0 then E.quotientByZero x else x / y
  | .mod, x, y => if y = 0 then E.remainderByZero x else x % y

def Junction.combine : Junction → List Bool → Bool
  | .all, bs => bs.all id
  | .any, bs => bs.any id

namespace Term

mutual

noncomputable def eval (E : Env) : Term → Datum
  | .var name s => .ofCarrier s (E.symbol name s)
  | .int i => .int i
  | .bool b => .bool b
  | .str s => .str s
  | .arith op a b => .int (E.arith op (eval E a).toInt (eval E b).toInt)
  | .order op a b => .bool (op.holds (eval E a).toInt (eval E b).toInt)
  | .eq a b => .bool (decide (eval E a = eval E b))
  | .not a => .bool !(eval E a).toBool
  | .junction j ts => .bool (j.combine (truths E ts))
  | .ite c a b => if (eval E c).toBool then eval E a else eval E b
  | .select a k => (eval E a).select (eval E k)
  | .store a k v => (eval E a).store (eval E k) (eval E v)

noncomputable def truths (E : Env) : List Term → List Bool
  | [] => []
  | t :: ts => (eval E t).toBool :: truths E ts

end

mutual

def WellSorted : Term → Prop
  | .arith _ a b => (a.WellSorted ∧ a.sort = .int) ∧ b.WellSorted ∧ b.sort = .int
  | .order _ a b => (a.WellSorted ∧ a.sort = .int) ∧ b.WellSorted ∧ b.sort = .int
  | .eq a b => a.WellSorted ∧ b.WellSorted ∧ a.sort = b.sort
  | .not a => a.WellSorted ∧ a.sort = .bool
  | .junction _ ts => AllPredicates ts
  | .ite c a b => (c.WellSorted ∧ c.sort = .bool) ∧ a.WellSorted ∧ b.WellSorted ∧ a.sort = b.sort
  | .select a k => a.WellSorted ∧ k.WellSorted ∧ a.sort = .array k.sort a.sort.range
  | .store a k v => a.WellSorted ∧ k.WellSorted ∧ v.WellSorted ∧ a.sort = .array k.sort v.sort
  | _ => True

def AllPredicates : List Term → Prop
  | [] => True
  | t :: ts => (t.WellSorted ∧ t.sort = .bool) ∧ AllPredicates ts

end

def HasSort (t : Term) (s : SmtSort) : Prop := t.WellSorted ∧ t.sort = s

theorem allPredicates_iff (ts : List Term) : AllPredicates ts ↔ ∀ t ∈ ts, t.HasSort .bool := by
  induction ts with
  | nil => simp [AllPredicates]
  | cons t ts ih => simp [AllPredicates, HasSort, ih]

theorem truths_eq_map (E : Env) (ts : List Term) : truths E ts = ts.map fun t => (t.eval E).toBool := by
  induction ts with
  | nil => rfl
  | cons t ts ih => simp [truths, ih]

theorem sort_eval (E : Env) : ∀ t : Term, t.WellSorted → (t.eval E).sort = t.sort
  | .var name s, _ => by simp [eval, sort]
  | .int _, _ | .bool _, _ | .str _, _ => rfl
  | .arith _ _ _, _ | .order _ _ _, _ | .eq _ _, _ | .not _, _ | .junction _ _, _ => rfl
  | .ite c a b, sorted => by
    obtain ⟨_, yes, no, same⟩ := sorted
    simp only [eval, sort]
    split
    · exact sort_eval E a yes
    · rw [sort_eval E b no, same]
  | .select a k, sorted => by
    obtain ⟨array, _, shape⟩ := sorted
    have arraySort := (sort_eval E a array).trans shape
    rw [eval, Datum.sort_select arraySort, sort, shape]
    rfl
  | .store a k v, sorted => by
    simp only [eval, sort, Datum.sort_store]
    exact sort_eval E a sorted.1

namespace HasSort

variable {t : Term} {s : SmtSort}

theorem sort_eval (sorted : t.HasSort s) (E : Env) : (t.eval E).sort = s :=
  (t.sort_eval E sorted.1).trans sorted.2

theorem eval_bool (sorted : t.HasSort .bool) (E : Env) : t.eval E = .bool (t.eval E).toBool :=
  Datum.eq_bool_of_sort (sorted.sort_eval E)

theorem eval_int (sorted : t.HasSort .int) (E : Env) : t.eval E = .int (t.eval E).toInt :=
  Datum.eq_int_of_sort (sorted.sort_eval E)

end HasSort

end Term

end TokenAudit
