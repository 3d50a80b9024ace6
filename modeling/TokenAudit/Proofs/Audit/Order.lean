import Mathlib.Data.List.Perm.Subperm
import TokenAudit.Audit.Violation

/-!
# The order of a report

The comparison of violations is a linear order that tells any two of them apart.
-/

namespace TokenAudit

theorem Severity.rank_injective {s t : Severity} (same : s.rank = t.rank) : s = t := by
  cases s <;> cases t <;> simp_all [rank]

theorem RuleKind.rank_injective {k l : RuleKind} (same : k.rank = l.rank) : k = l := by
  cases k <;> cases l <;> simp_all [rank]

namespace Violation

theorem compareOption_eq_compare (a b : Option String) : compareOption a b = compare a b := by
  cases a <;> cases b <;> rfl

theorem compareTags_eq_compare (as bs : List String) : compareTags as bs = compare as bs := by
  induction as generalizing bs with
  | nil => cases bs <;> rfl
  | cons a as ih =>
    cases bs with
    | nil => rfl
    | cons b bs =>
      rw [compareTags, ih]
      exact List.compareLex_cons_cons.symm

theorem order_eq_compareLex : order =
    compareLex (compareOn document) (compareLex (compareOn ruleId) (compareLex (compareOn (·.kind.rank))
      (compareLex (compareOn rule) (compareLex (compareOn contract) (compareLex (compareOn interface)
        (compareLex (compareOn function) (compareLex (compareOn (·.severity.rank)) (compareOn tags)))))))) := by
  funext a b
  unfold order
  rw [compareOption_eq_compare, compareTags_eq_compare]
  rfl

instance : Std.TransCmp order := by
  rw [order_eq_compareLex]
  infer_instance

theorem eq_of_order {a b : Violation} (same : order a b = .eq) : a = b := by
  unfold order at same
  rw [compareOption_eq_compare, compareTags_eq_compare] at same
  simp only [Ordering.then_eq_eq, Std.LawfulEqOrd.compare_eq_iff_eq] at same
  obtain ⟨document, ruleId, kind, rule, contract, interface, function, severity, tags⟩ := same
  cases a
  cases b
  simp only [mk.injEq]
  exact ⟨document, ruleId, RuleKind.rank_injective kind, rule, contract, interface, function,
    Severity.rank_injective severity, tags⟩

theorem pairwise_sort (vs : List Violation) : (sort vs).Pairwise fun a b => (order a b).isLE = true := by
  have le (a b : Violation) : (order a b != .gt) = (order a b).isLE := by cases order a b <;> rfl
  unfold sort
  simp only [le]
  apply List.pairwise_mergeSort
  · intro a b c
    exact Std.TransCmp.isLE_trans
  · intro a b
    have swapped : order b a = (order a b).swap := Std.OrientedCmp.eq_swap
    rw [swapped]
    cases order a b <;> rfl

theorem sort_eq_of_perm {vs us : List Violation} (same : vs.Perm us) : sort vs = sort us := by
  have sorted : (sort vs).Perm (sort us) :=
    (List.mergeSort_perm vs _).trans (same.trans (List.mergeSort_perm us _).symm)
  refine List.Perm.eq_of_pairwise ?_ (pairwise_sort vs) (pairwise_sort us) sorted
  intro a b _ _ before after
  exact eq_of_order (Std.OrientedCmp.isLE_antisymm before after)

end Violation

end TokenAudit
