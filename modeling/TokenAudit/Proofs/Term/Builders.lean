import Mathlib.Tactic.Common
import TokenAudit.Machine.Step
import TokenAudit.Proofs.Term.Meaning

/-!
# Builders keep meaning and sort

Every builder gives a term exactly when the sorts of its operands admit it, and that term means the operator.
-/

namespace TokenAudit

namespace Term

variable {t a b key value : Term} {admissible : Prop} {s : SmtSort} {v : Datum} {ts : List Term} {op : ArithOp}
  {x y : Int} {e : Nat}

structure Denotes (E : Env) (t : Term) (s : SmtSort) (v : Datum) : Prop where
  hasSort : t.HasSort s
  eval_eq : t.eval E = v

/-- A builder gives a term exactly when its operands are admissible, and the term denotes `v`. -/
structure Yields (E : Env) (built : Except SortError Term) (admissible : Prop) (s : SmtSort) (v : Datum) :
    Prop where
  gives : admissible → ∃ t, built = .ok t
  admits : ∀ t, built = .ok t → admissible
  denotes : ∀ t, built = .ok t → t.Denotes E s v

variable {E : Env} (j : Junction)

theorem Yields.ok (admitted : admissible) (denotes : t.Denotes E s v) : Yields E (.ok t) admissible s v :=
  ⟨fun _ => ⟨t, rfl⟩, fun _ _ => admitted, fun _ built => Except.ok.inj built ▸ denotes⟩

theorem Yields.error {e : SortError} (refused : ¬ admissible) : Yields E (.error e) admissible s v :=
  ⟨fun admitted => absurd admitted refused, nofun, nofun⟩

theorem coerce_of_sort (same : t.sort = s) : coerce s t = t := by
  subst same
  cases t <;> simp [sort, coerce]

theorem coerce_wellSorted (s : SmtSort) (sorted : t.WellSorted) : (coerce s t).WellSorted := by
  unfold coerce
  split
  · split_ifs <;> trivial
  · trivial
  · exact sorted

/-- A literal of one of the sorts `Bool` and `Int`, and the literal of the other that stands for it. -/
inductive Counterpart : Term → SmtSort → Term → Prop
  | predicate (b : Bool) : Counterpart (.int (if b then 1 else 0)) .bool (.bool b)
  | number (b : Bool) : Counterpart (.bool b) .int (.int (if b then 1 else 0))

theorem coerce_counterpart {u : Term} (stands : Counterpart t s u) : coerce s t = u := by
  cases stands with
  | predicate b => cases b <;> rfl
  | number b => rfl

theorem coerce_other (none : ∀ u, ¬ Counterpart t s u) : coerce s t = t := by
  unfold coerce
  split
  · split_ifs with zero one
    · subst zero
      exact (none _ (.predicate false)).elim
    · subst one
      exact (none _ (.predicate true)).elim
    · rfl
  · exact (none _ (.number _)).elim
  · rfl

theorem mkNot_denotes (sorted : t.HasSort .bool) : (mkNot t).Denotes E .bool (.bool !(t.eval E).toBool) := by
  unfold mkNot
  split
  · exact ⟨⟨trivial, rfl⟩, rfl⟩
  · rename_i body
    have bodySorted : body.HasSort .bool := sorted.1
    refine ⟨bodySorted, ?_⟩
    rw [eval, Datum.toBool_bool, Bool.not_not]
    exact bodySorted.eval_bool E
  · exact ⟨⟨sorted, rfl⟩, rfl⟩

theorem combine_append (as bs : List Bool) : j.combine (as ++ bs) = j.combine [j.combine as, j.combine bs] := by
  cases j <;> simp [Junction.combine]

theorem combine_neutral (bs : List Bool) : j.combine (j.neutral :: bs) = j.combine bs := by
  cases j <;> simp [Junction.combine, Junction.neutral]

theorem combine_absorbing {b : Bool} (absorbs : b ≠ j.neutral) (bs : List Bool) : j.combine (b :: bs) = !j.neutral := by
  cases j <;> cases b <;> simp_all [Junction.combine, Junction.neutral]

theorem combine_singleton (b : Bool) : j.combine [b] = b := by
  cases j <;> simp [Junction.combine]

theorem truths_append (ts us : List Term) : truths E (ts ++ us) = truths E ts ++ truths E us := by
  simp [truths_eq_map]

/-- What is left of the parts of a junction has the same value; if nothing is, the junction is decided. -/
def KeepsValue (E : Env) (j : Junction) (ts : List Term) : Option (List Term) → Prop
  | some flat => j.combine (truths E flat) = j.combine (truths E ts)
  | none => j.combine (truths E ts) = !j.neutral

theorem KeepsValue.prepend {j : Junction} {rest : List Term} {left : Option (List Term)}
    (keeps : KeepsValue E j rest left) (parts : List Term) (same : j.combine (truths E parts) = (t.eval E).toBool) :
    KeepsValue E j (t :: rest) (left.map (parts ++ ·)) := by
  have split : j.combine (truths E (t :: rest)) =
      j.combine [(t.eval E).toBool, j.combine (truths E rest)] := by
    rw [truths, ← List.singleton_append, combine_append, combine_singleton]
  cases left with
  | none =>
    simp only [KeepsValue, Option.map_none] at keeps ⊢
    rw [split, keeps]
    cases j <;> simp [Junction.combine, Junction.neutral]
  | some flat =>
    simp only [KeepsValue, Option.map_some] at keeps ⊢
    rw [split, truths_append, combine_append, same, keeps]

theorem flatten_keepsValue (ts : List Term) : KeepsValue E j ts (flatten j ts) := by
  fun_induction flatten j ts with
  | case1 => rfl
  | case2 rest ih =>
    unfold KeepsValue at ih ⊢
    simpa only [truths, eval, Datum.toBool_bool, combine_neutral] using ih
  | case3 b rest absorbs => exact combine_absorbing j absorbs (truths E rest)
  | case4 inner rest ih =>
    apply ih.prepend inner
    rfl
  | case5 j' inner rest _ ih =>
    apply ih.prepend [.junction j' inner]
    exact combine_singleton j _
  | case6 t rest _ _ ih =>
    apply ih.prepend [t]
    exact combine_singleton j _

theorem flatten_allPredicates (ts : List Term) (sorted : AllPredicates ts)
    {flat : List Term} (left : flatten j ts = some flat) : AllPredicates flat := by
  rw [allPredicates_iff] at sorted ⊢
  fun_induction flatten j ts generalizing flat with
  | case1 => simp_all
  | case2 rest ih => exact ih (List.forall_mem_cons.mp sorted).2 left
  | case3 b rest absorbs => cases left
  | case4 inner rest ih =>
    obtain ⟨tail, tailLeft, rfl⟩ := Option.map_eq_some_iff.mp left
    obtain ⟨innerSorted, restSorted⟩ := List.forall_mem_cons.mp sorted
    exact List.forall_mem_append.mpr ⟨(allPredicates_iff inner).mp innerSorted.1, ih restSorted tailLeft⟩
  | case5 j' inner rest _ ih | case6 t rest _ _ ih =>
    obtain ⟨tail, tailLeft, rfl⟩ := Option.map_eq_some_iff.mp left
    obtain ⟨headSorted, restSorted⟩ := List.forall_mem_cons.mp sorted
    exact List.forall_mem_cons.mpr ⟨headSorted, ih restSorted tailLeft⟩

theorem mkJunction_denotes (sorted : AllPredicates ts) :
    (mkJunction j ts).Denotes E .bool (.bool (j.combine (truths E ts))) := by
  have keeps := flatten_keepsValue (E := E) j ts
  unfold mkJunction
  split
  · rename_i left
    rw [left] at keeps
    exact ⟨⟨trivial, rfl⟩, congrArg Datum.bool keeps.symm⟩
  · rename_i left
    rw [left] at keeps
    refine ⟨⟨trivial, rfl⟩, congrArg Datum.bool (Eq.trans ?_ keeps)⟩
    cases j <;> rfl
  · rename_i t left
    rw [left] at keeps
    have partSorted : t.HasSort .bool := (flatten_allPredicates j ts sorted left).1
    refine ⟨partSorted, ?_⟩
    rw [partSorted.eval_bool E, ← keeps, truths, truths, combine_singleton]
  · rename_i flat _ _ left
    rw [left] at keeps
    exact ⟨⟨flatten_allPredicates j ts sorted left, rfl⟩, congrArg Datum.bool keeps⟩

theorem mkAnd_denotes (sorted : ∀ t ∈ ts, t.HasSort .bool) :
    (mkAnd ts).Denotes E .bool (.bool (ts.all fun t => (t.eval E).toBool)) := by
  have built := mkJunction_denotes (E := E) .all ((allPredicates_iff ts).mpr sorted)
  simpa [mkAnd, truths_eq_map, Junction.combine, List.all_map] using built

theorem mkOr_denotes (sorted : ∀ t ∈ ts, t.HasSort .bool) :
    (mkOr ts).Denotes E .bool (.bool (ts.any fun t => (t.eval E).toBool)) := by
  have built := mkJunction_denotes (E := E) .any ((allPredicates_iff ts).mpr sorted)
  simpa [mkOr, truths_eq_map, Junction.combine, List.any_map] using built

theorem mkImplies_denotes (hypothesis : a.HasSort .bool) (conclusion : b.HasSort .bool) :
    (mkImplies a b).Denotes E .bool (.bool (!(a.eval E).toBool || (b.eval E).toBool)) := by
  have negated := mkNot_denotes (E := E) hypothesis
  have parts : ∀ t ∈ [mkNot a, b], t.HasSort .bool := by
    simp [negated.hasSort, conclusion]
  have built := mkOr_denotes (E := E) parts
  simpa [mkImplies, negated.eval_eq] using built

theorem coercePair_wellSorted (left : a.WellSorted) (right : b.WellSorted) :
    (coercePair a b).1.WellSorted ∧ (coercePair a b).2.WellSorted :=
  ⟨coerce_wellSorted _ left, coerce_wellSorted _ right⟩

theorem coercePair_of_sort (same : a.sort = b.sort) : coercePair a b = (a, b) := by
  simp only [coercePair]
  rw [coerce_of_sort same.symm, coerce_of_sort same]

theorem mkEq_yields (left : a.WellSorted) (right : b.WellSorted) :
    Yields E (mkEq a b) ((coercePair a b).1.sort = (coercePair a b).2.sort) .bool
      (.bool (decide ((coercePair a b).1.eval E = (coercePair a b).2.eval E))) := by
  obtain ⟨left', right'⟩ := coercePair_wellSorted left right
  unfold mkEq
  generalize coercePair a b = pair at left' right' ⊢
  obtain ⟨a, b⟩ := pair
  dsimp only
  split
  · rename_i differ
    exact .error differ
  · rename_i same
    have same : a.sort = b.sort := not_not.mp same
    split
    · exact .ok same ⟨⟨trivial, rfl⟩, by simp [eval, beq_eq_decide]⟩
    · exact .ok same ⟨⟨trivial, rfl⟩, by simp [eval, beq_eq_decide]⟩
    · exact .ok same ⟨⟨trivial, rfl⟩, by simp [eval, beq_eq_decide]⟩
    · split
      · rename_i equal
        subst equal
        exact .ok same ⟨⟨trivial, rfl⟩, by simp [eval]⟩
      · exact .ok same ⟨⟨⟨left', right', same⟩, rfl⟩, rfl⟩

theorem mkNe_yields (left : a.WellSorted) (right : b.WellSorted) :
    Yields E (mkNe a b) ((coercePair a b).1.sort = (coercePair a b).2.sort) .bool
      (.bool (decide ((coercePair a b).1.eval E ≠ (coercePair a b).2.eval E))) := by
  have equality := mkEq_yields (E := E) left right
  unfold mkNe
  cases built : mkEq a b with
  | error e =>
    apply Yields.error
    intro fits
    obtain ⟨t, returned⟩ := equality.gives fits
    rw [built] at returned
    cases returned
  | ok t =>
    have body := equality.denotes t built
    have negated := mkNot_denotes (E := E) body.hasSort
    rw [body.eval_eq] at negated
    apply Yields.ok (equality.admits t built)
    simpa using negated

theorem mkOrder_yields (op : OrderOp) (left : a.WellSorted) (right : b.WellSorted) :
    Yields E (mkOrder op a b) (a.sort = .int ∧ b.sort = .int) .bool
      (.bool (op.holds (a.eval E).toInt (b.eval E).toInt)) := by
  unfold mkOrder
  split
  · rename_i mixed
    exact .error (Decidable.not_and_iff_or_not.mpr mixed)
  · rename_i ints
    have ints : a.sort = .int ∧ b.sort = .int := by simpa using ints
    split
    · exact .ok ints ⟨⟨trivial, rfl⟩, rfl⟩
    · exact .ok ints ⟨⟨⟨⟨left, ints.1⟩, right, ints.2⟩, rfl⟩, rfl⟩

theorem literal_arith {z : Int} (folded : op.literal x y = some z) : E.arith op x y = z := by
  cases op <;> simp only [ArithOp.literal, Option.ite_none_right_eq_some, Option.some.injEq] at folded
  case div | mod =>
    obtain ⟨⟨_, positive⟩, rfl⟩ := folded
    exact if_neg (by omega)
  all_goals exact folded

theorem leftUnit_arith (unit : op.hasLeftUnit x = true) (y : Int) : E.arith op x y = y := by
  cases op <;> simp_all [ArithOp.hasLeftUnit, Env.arith]

theorem rightUnit_arith (unit : op.hasRightUnit y = true) (x : Int) : E.arith op x y = x := by
  cases op <;> simp_all [ArithOp.hasRightUnit, Env.arith]

theorem simplify_cases (op : ArithOp) (a b : Term) :
    op.simplify a b = .arith op a b ∨
    (∃ x y z, a = .int x ∧ b = .int y ∧ op.literal x y = some z ∧ op.simplify a b = .int z) ∨
    (∃ x, a = .int x ∧ op.hasLeftUnit x = true ∧ op.simplify a b = b) ∨
    (∃ y, b = .int y ∧ op.hasRightUnit y = true ∧ op.simplify a b = a) := by
  unfold ArithOp.simplify
  grind

theorem simplify_denotes (op : ArithOp) (left : a.HasSort .int) (right : b.HasSort .int) :
    (op.simplify a b).Denotes E .int (.int (E.arith op (a.eval E).toInt (b.eval E).toInt)) := by
  obtain plain | ⟨x, y, z, rfl, rfl, folded, result⟩ | ⟨x, rfl, unit, result⟩ | ⟨y, rfl, unit, result⟩ :=
    simplify_cases op a b
  · rw [plain]
    exact ⟨⟨⟨left, right⟩, rfl⟩, rfl⟩
  · rw [result]
    exact ⟨⟨trivial, rfl⟩, congrArg Datum.int (literal_arith folded).symm⟩
  · rw [result]
    refine ⟨right, ?_⟩
    simp only [eval, Datum.toInt_int, leftUnit_arith unit]
    exact right.eval_int E
  · rw [result]
    refine ⟨left, ?_⟩
    simp only [eval, Datum.toInt_int, rightUnit_arith unit]
    exact left.eval_int E

theorem mkArith_yields (op : ArithOp) (left : a.WellSorted) (right : b.WellSorted) :
    Yields E (mkArith op a b) (a.sort = .int ∧ b.sort = .int) .int
      (.int (E.arith op (a.eval E).toInt (b.eval E).toInt)) := by
  unfold mkArith
  split
  · rename_i mixed
    exact .error (Decidable.not_and_iff_or_not.mpr mixed)
  · rename_i ints
    have ints : a.sort = .int ∧ b.sort = .int := by simpa using ints
    exact .ok ints (simplify_denotes op ⟨left, ints.1⟩ ⟨right, ints.2⟩)

theorem mkMul_of_ints (left : a.HasSort .int) (right : b.HasSort .int) :
    ∃ t, mkMul a b = .ok t ∧ t.Denotes E .int (.int ((a.eval E).toInt * (b.eval E).toInt)) := by
  have built := mkArith_yields (E := E) .mul left.1 right.1
  obtain ⟨t, returned⟩ := built.gives ⟨left.2, right.2⟩
  exact ⟨t, returned, built.denotes t returned⟩

theorem timesPower_denotes (sorted : a.HasSort .int) (n : Nat) (acc : Term) (start : acc.HasSort .int) :
    ∃ t, timesPower a n acc = .ok t ∧
      t.Denotes E .int (.int ((acc.eval E).toInt * Int.pow (a.eval E).toInt n)) := by
  induction n generalizing acc with
  | zero =>
    refine ⟨acc, rfl, start, ?_⟩
    have empty : Int.pow (a.eval E).toInt 0 = 1 := Int.pow_zero _
    rw [empty, Int.mul_one]
    exact start.eval_int E
  | succ n ih =>
    obtain ⟨next, product, denotes⟩ := mkMul_of_ints start sorted
    obtain ⟨t, rest, result⟩ := ih next denotes.hasSort
    refine ⟨t, by rw [timesPower, product]; exact rest, result.hasSort, ?_⟩
    have succ : Int.pow (a.eval E).toInt (n + 1) = Int.pow (a.eval E).toInt n * (a.eval E).toInt :=
      Int.pow_succ _ n
    rw [result.eval_eq, denotes.eval_eq, Datum.toInt_int, succ, Int.mul_assoc,
      Int.mul_comm (a.eval E).toInt]

/-- A power is built for a literal exponent of at most 256 over a literal base and of at most 8 over any
other. -/
def PowerInReach (a b : Term) : Prop :=
  a.sort = .int ∧ ∃ e : Nat, b = .int e ∧ (e ≤ 8 ∨ (∃ x, a = .int x) ∧ e ≤ 256)

theorem mkPow_literal (x : Int) (small : e ≤ 256) : mkPow (.int x) (.int e) = .ok (some (.int (Int.pow x e))) := by
  unfold mkPow
  exact congrArg Except.ok (if_pos small)

theorem mkPow_zero (number : a.sort = .int) (symbolic : ∀ x, a ≠ .int x) :
    mkPow a (.int (0 : Nat)) = .ok (some (.int 1)) := by
  unfold mkPow
  rw [if_neg (by simp [sort, number])]
  cases a with
  | int x => exact (symbolic x rfl).elim
  | _ => rfl

theorem mkPow_succ (number : a.sort = .int) (symbolic : ∀ x, a ≠ .int x) (small : e + 1 ≤ 8) :
    mkPow a (.int (e + 1 : Nat)) = (timesPower a e a).map some := by
  unfold mkPow
  rw [if_neg (by simp [sort, number])]
  cases a with
  | int x => exact (symbolic x rfl).elim
  | _ => exact if_pos small

theorem mkPow_denotes (sorted : a.HasSort .int) (small : e ≤ 8 ∨ (∃ x, a = .int x) ∧ e ≤ 256) :
    ∃ t, mkPow a (.int e) = .ok (some t) ∧ t.Denotes E .int (.int (Int.pow (a.eval E).toInt e)) := by
  by_cases literal : ∃ x, a = .int x
  · obtain ⟨x, rfl⟩ := literal
    exact ⟨_, mkPow_literal x (by omega), ⟨trivial, rfl⟩, rfl⟩
  · have low : e ≤ 8 := small.resolve_right fun big => literal big.1
    have symbolic := not_exists.mp literal
    cases e with
    | zero =>
      exact ⟨_, mkPow_zero sorted.2 symbolic, ⟨trivial, rfl⟩, congrArg Datum.int (Int.pow_zero _).symm⟩
    | succ e =>
      obtain ⟨t, product, denotes⟩ := timesPower_denotes sorted e a sorted
      have succ : Int.pow (a.eval E).toInt (e + 1) = (a.eval E).toInt * Int.pow (a.eval E).toInt e :=
        (Int.pow_succ _ e).trans (Int.mul_comm _ _)
      rw [mkPow_succ sorted.2 symbolic low, product, succ]
      exact ⟨t, rfl, denotes⟩

theorem mkPow_inReach (built : mkPow a b = .ok (some t)) : PowerInReach a b := by
  unfold mkPow at built
  split at built
  · cases built
  · rename_i ints
    have number : a.sort = .int := by
      by_contra other
      exact ints (.inl other)
    refine ⟨number, ?_⟩
    split at built
    · split at built
      · exact ⟨_, rfl, .inr ⟨⟨_, rfl⟩, by assumption⟩⟩
      · cases built
    · exact ⟨0, rfl, .inl (by omega)⟩
    · split at built
      · exact ⟨_, rfl, .inl (by assumption)⟩
      · cases built
    · cases built

theorem mkPow_value (base : a.WellSorted) (built : mkPow a b = .ok (some t)) :
    t.Denotes E .int (.int (Int.pow (a.eval E).toInt (b.eval E).toInt.toNat)) := by
  obtain ⟨number, e, rfl, small⟩ := mkPow_inReach built
  obtain ⟨u, returned, denotes⟩ := mkPow_denotes ⟨base, number⟩ small
  rw [built] at returned
  cases returned
  exact denotes

theorem mkPow_gives (base : a.WellSorted) (small : PowerInReach a b) : ∃ t, mkPow a b = .ok (some t) := by
  obtain ⟨number, e, rfl, bound⟩ := small
  obtain ⟨t, returned, _⟩ := mkPow_denotes (E := default) ⟨base, number⟩ bound
  exact ⟨t, returned⟩

theorem mkIte_yields {c : Term} (cond : c.HasSort .bool) (yes : a.WellSorted) (no : b.WellSorted) :
    Yields E (mkIte c a b) ((coercePair a b).1.sort = (coercePair a b).2.sort)
      (coercePair a b).1.sort
      (if (c.eval E).toBool then (coercePair a b).1.eval E else (coercePair a b).2.eval E) := by
  obtain ⟨yes', no'⟩ := coercePair_wellSorted yes no
  unfold mkIte
  generalize coercePair a b = pair at yes' no' ⊢
  obtain ⟨a, b⟩ := pair
  dsimp only
  split
  · rename_i differ
    exact .error differ
  · rename_i same
    have same : a.sort = b.sort := not_not.mp same
    split
    · exact .ok same ⟨⟨yes', rfl⟩, rfl⟩
    · exact .ok same ⟨⟨no', same.symm⟩, rfl⟩
    · exact .ok same ⟨⟨⟨cond, yes', no', same⟩, rfl⟩, rfl⟩

theorem truthy_yields (sorted : t.WellSorted) :
    Yields E (truthy t) (t.sort = .bool ∨ t.sort = .int) .bool (.bool (t.eval E).truth) := by
  unfold truthy
  split
  · rename_i predicate
    have hasSort : t.HasSort .bool := ⟨sorted, predicate⟩
    refine .ok (.inl predicate) ⟨hasSort, ?_⟩
    rw [hasSort.eval_bool E]
    rfl
  · rename_i number
    have hasSort : t.HasSort .int := ⟨sorted, number⟩
    have test := mkNe_yields (E := E) (b := zero) sorted trivial
    rw [coercePair_of_sort number] at test
    obtain ⟨u, built⟩ := test.gives number
    have denotes := test.denotes u built
    rw [built]
    refine .ok (.inr number) ⟨denotes.hasSort, denotes.eval_eq.trans ?_⟩
    rw [hasSort.eval_int E]
    simp [Datum.truth, zero, eval]
  · rename_i notBool notInt
    apply Yields.error
    rintro (predicate | number)
    · exact notBool predicate
    · exact notInt number

theorem not_isArray (scalar : ∀ domain range, s = .array domain range → False) : s.isArray = false := by
  cases s with
  | array domain range => exact (scalar domain range rfl).elim
  | _ => rfl

theorem select_denotes_written {inner : Term} {domain range : SmtSort} (array : (store inner key value).WellSorted)
    (shape : (store inner key value).sort = .array domain range) :
    value.Denotes E range (((store inner key value).eval E).select (key.eval E)) := by
  obtain ⟨innerSorted, _, valueSorted, innerShape⟩ := array
  have innerArray := (inner.sort_eval E innerSorted).trans innerShape
  have rangeSort : value.sort = range := by
    injection innerShape.symm.trans shape
  refine ⟨⟨valueSorted, rangeSort⟩, ?_⟩
  rw [eval, Datum.select_store_same innerArray (value.sort_eval E valueSorted)]

theorem mkSelect_yields (array : a.WellSorted) (keyed : key.WellSorted) :
    Yields E (mkSelect a key)
      (a.sort.isArray = true ∧ (coerce a.sort.domain key).sort = a.sort.domain) a.sort.range
      ((a.eval E).select ((coerce a.sort.domain key).eval E)) := by
  have keyed' := coerce_wellSorted a.sort.domain keyed
  unfold mkSelect
  split
  · rename_i domain range shape
    simp only [shape, SmtSort.isArray, SmtSort.domain, SmtSort.range, true_and] at keyed' ⊢
    generalize coerce domain key = key at keyed' ⊢
    split
    · rename_i misfit
      exact .error misfit
    · rename_i fits
      have fits : key.sort = domain := not_not.mp fits
      have cell : (select a key).Denotes E range ((a.eval E).select (key.eval E)) := by
        refine ⟨⟨⟨array, keyed', ?_⟩, ?_⟩, rfl⟩
        · rw [shape, fits]
          rfl
        · rw [sort, shape]
      split
      · split
        · rename_i hit
          subst hit
          exact .ok fits (select_denotes_written array shape)
        · exact .ok fits cell
      · exact .ok fits cell
  · rename_i scalar
    apply Yields.error
    simp [not_isArray scalar]

theorem mkStore_yields (array : a.WellSorted) (keyed : key.WellSorted) (valued : value.WellSorted) :
    Yields E (mkStore a key value)
      (a.sort.isArray = true ∧ (coerce a.sort.domain key).sort = a.sort.domain ∧
        (coerce a.sort.range value).sort = a.sort.range) a.sort
      ((a.eval E).store ((coerce a.sort.domain key).eval E) ((coerce a.sort.range value).eval E)) := by
  have keyed' := coerce_wellSorted a.sort.domain keyed
  have valued' := coerce_wellSorted a.sort.range valued
  unfold mkStore
  split
  · rename_i domain range shape
    simp only [shape, SmtSort.isArray, SmtSort.domain, SmtSort.range, true_and] at keyed' valued' ⊢
    generalize coerce domain key = key at keyed' ⊢
    generalize coerce range value = value at valued' ⊢
    split
    · rename_i misfit
      exact .error fun fits => misfit fits.1
    · rename_i keyFits
      have keyFits : key.sort = domain := not_not.mp keyFits
      split
      · rename_i misfit
        exact .error fun fits => misfit fits.2
      · rename_i valueFits
        have valueFits : value.sort = range := not_not.mp valueFits
        refine .ok ⟨keyFits, valueFits⟩ ⟨⟨⟨array, keyed', valued', ?_⟩, shape⟩, rfl⟩
        rw [shape, keyFits, valueFits]
  · rename_i scalar
    apply Yields.error
    simp [not_isArray scalar]

end Term

namespace Machine

open Term

variable {E : Env} {k : Nat} {l : Term}

theorem shiftFactor_literal (small : k ≤ 256) : shiftFactor? (.int k) = some (.int (Nat.pow 2 k)) :=
  if_pos small

theorem shiftLeft_denotes (sorted : l.HasSort .int) (small : k ≤ 256) :
    ∃ t, binaryTerm .shiftLeft l (.int k) = .ok (some t) ∧
      t.Denotes E .int (.int ((l.eval E).toInt * (Nat.pow 2 k : Nat))) := by
  obtain ⟨t, product, denotes⟩ := mkMul_of_ints (b := .int (Nat.pow 2 k)) sorted ⟨trivial, rfl⟩
  refine ⟨t, ?_, denotes⟩
  simp only [binaryTerm, shiftFactor_literal small, product]
  rfl

theorem shiftRight_denotes (sorted : l.HasSort .int) (small : k ≤ 256) :
    ∃ t, binaryTerm .shiftRight l (.int k) = .ok (some t) ∧
      t.Denotes E .int (.int ((l.eval E).toInt.fdiv (Nat.pow 2 k : Nat))) := by
  have built := mkArith_yields (E := E) (b := .int (Nat.pow 2 k)) .div sorted.1 trivial
  obtain ⟨t, quotient⟩ := built.gives ⟨sorted.2, rfl⟩
  have denotes := built.denotes t quotient
  refine ⟨t, ?_, denotes.hasSort, denotes.eval_eq.trans ?_⟩
  · simp only [binaryTerm, shiftFactor_literal small, mkDiv, quotient]
    rfl
  · have positive : 0 < Nat.pow 2 k := Nat.pow_pos (by omega)
    have nonzero : ((Nat.pow 2 k : Nat) : Int) ≠ 0 := by omega
    rw [Int.fdiv_eq_ediv_of_nonneg _ (by omega)]
    exact congrArg Datum.int (if_neg nonzero)

end Machine

namespace Term

def Compares (E : Env) (builder : Term → Term → Except SortError Term) (op : Int → Int → Bool) : Prop :=
  ∀ a b : Term, a.WellSorted → b.WellSorted →
    Yields E (builder a b) (a.sort = .int ∧ b.sort = .int) .bool
      (.bool (op (a.eval E).toInt (b.eval E).toInt))

def Computes (E : Env) (builder : Term → Term → Except SortError Term) (op : Int → Int → Int) : Prop :=
  ∀ a b : Term, a.WellSorted → b.WellSorted →
    Yields E (builder a b) (a.sort = .int ∧ b.sort = .int) .int
      (.int (op (a.eval E).toInt (b.eval E).toInt))

theorem builders_denote_operators (E : Env) :
    (∀ s t, (∀ u, Counterpart t s u → coerce s t = u) ∧
      ((∀ u, ¬ Counterpart t s u) → coerce s t = t)) ∧
    (∀ a b : Term, a.WellSorted → b.WellSorted →
      let b' := coerce a.sort b
      let a' := coerce b'.sort a
      Yields E (mkEq a b) (a'.sort = b'.sort) .bool (.bool (decide (a'.eval E = b'.eval E))) ∧
        Yields E (mkNe a b) (a'.sort = b'.sort) .bool (.bool (decide (a'.eval E ≠ b'.eval E)))) ∧
    (Compares E mkLt (fun x y => decide (x < y)) ∧ Compares E mkLe (fun x y => decide (x ≤ y)) ∧
      Compares E mkGt (fun x y => decide (x > y)) ∧ Compares E mkGe (fun x y => decide (x ≥ y))) ∧
    (Computes E mkAdd (· + ·) ∧ Computes E mkSub (· - ·) ∧ Computes E mkMul (· * ·) ∧
      Computes E mkDiv (fun x y => if y = 0 then E.quotientByZero x else x / y) ∧
      Computes E mkMod (fun x y => if y = 0 then E.remainderByZero x else x % y)) ∧
    (∀ a b : Term, a.WellSorted → b.WellSorted →
      (PowerInReach a b ↔ ∃ t, mkPow a b = .ok (some t)) ∧
        ∀ t, mkPow a b = .ok (some t) →
          t.Denotes E .int (.int (Int.pow (a.eval E).toInt (b.eval E).toInt.toNat))) ∧
    (∀ t : Term, t.HasSort .bool → (mkNot t).Denotes E .bool (.bool !(t.eval E).toBool)) ∧
    (∀ ts : List Term, (∀ t ∈ ts, t.HasSort .bool) →
      (mkAnd ts).Denotes E .bool (.bool (ts.all fun t => (t.eval E).toBool)) ∧
        (mkOr ts).Denotes E .bool (.bool (ts.any fun t => (t.eval E).toBool))) ∧
    (∀ a b : Term, a.HasSort .bool → b.HasSort .bool →
      (mkImplies a b).Denotes E .bool (.bool (!(a.eval E).toBool || (b.eval E).toBool))) ∧
    (∀ c a b : Term, c.HasSort .bool → a.WellSorted → b.WellSorted →
      let b' := coerce a.sort b
      let a' := coerce b'.sort a
      Yields E (mkIte c a b) (a'.sort = b'.sort) a'.sort (if (c.eval E).toBool then a'.eval E else b'.eval E)) ∧
    (∀ t : Term, t.WellSorted →
      Yields E (truthy t) (t.sort = .bool ∨ t.sort = .int) .bool (.bool (t.eval E).truth)) ∧
    (∀ a key : Term, a.WellSorted → key.WellSorted →
      Yields E (mkSelect a key) (a.sort.isArray = true ∧ (coerce a.sort.domain key).sort = a.sort.domain)
        a.sort.range ((a.eval E).select ((coerce a.sort.domain key).eval E))) ∧
    (∀ a key value : Term, a.WellSorted → key.WellSorted → value.WellSorted →
      Yields E (mkStore a key value)
        (a.sort.isArray = true ∧ (coerce a.sort.domain key).sort = a.sort.domain ∧
          (coerce a.sort.range value).sort = a.sort.range) a.sort
        ((a.eval E).store ((coerce a.sort.domain key).eval E) ((coerce a.sort.range value).eval E))) ∧
    (∀ (l : Term) (k : Nat), l.HasSort .int → k ≤ 256 →
      (∃ t, Machine.binaryTerm .shiftLeft l (.int k) = .ok (some t) ∧
          t.Denotes E .int (.int ((l.eval E).toInt * (Nat.pow 2 k : Nat)))) ∧
        ∃ t, Machine.binaryTerm .shiftRight l (.int k) = .ok (some t) ∧
          t.Denotes E .int (.int ((l.eval E).toInt.fdiv (Nat.pow 2 k : Nat)))) := by
  refine ⟨?coerce, ?equality, ?order, ?arithmetic, ?power, ?negation, ?junction, ?implication, ?choice,
    ?predicate, ?select, ?store, ?shift⟩
  case coerce => exact fun s t => ⟨fun u => coerce_counterpart, coerce_other⟩
  case equality => exact fun a b left right => ⟨mkEq_yields left right, mkNe_yields left right⟩
  case order =>
    exact ⟨fun a b => mkOrder_yields .lt, fun a b => mkOrder_yields .le, fun a b => mkOrder_yields .gt,
      fun a b => mkOrder_yields .ge⟩
  case arithmetic =>
    exact ⟨fun a b => mkArith_yields .add, fun a b => mkArith_yields .sub, fun a b => mkArith_yields .mul,
      fun a b => mkArith_yields .div, fun a b => mkArith_yields .mod⟩
  case power =>
    intro a b base _
    refine ⟨⟨mkPow_gives base, ?_⟩, fun t => mkPow_value base⟩
    rintro ⟨t, built⟩
    exact mkPow_inReach built
  case negation => exact fun t => mkNot_denotes
  case junction => exact fun ts sorted => ⟨mkAnd_denotes sorted, mkOr_denotes sorted⟩
  case implication => exact fun a b => mkImplies_denotes
  case choice => exact fun c a b => mkIte_yields
  case predicate => exact fun t => truthy_yields
  case select => exact fun a key => mkSelect_yields
  case store => exact fun a key value => mkStore_yields
  case shift =>
    exact fun l k sorted small =>
      ⟨Machine.shiftLeft_denotes sorted small, Machine.shiftRight_denotes sorted small⟩

theorem constant_of_defaultOf {s : SmtSort} {t : Term} (found : defaultOf s = some t) :
    ∃ c : Constant, c.term = t := by
  cases s with
  | bool => exact ⟨.bool false, Option.some.inj found⟩
  | int => exact ⟨.int 0, Option.some.inj found⟩
  | str => exact ⟨.str "", Option.some.inj found⟩
  | array key value => cases found

end Term

end TokenAudit
