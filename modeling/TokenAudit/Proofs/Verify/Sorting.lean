import TokenAudit.Proofs.Machine.Sorts
import TokenAudit.Proofs.Verify.Resolution

/-!
# Sorts of the terms of a check

Selectors become well-sorted terms and conditions become well-sorted predicates, whatever the types of the variables
they refer to.
-/

namespace TokenAudit

structure Resolution.Sorted (r : Resolution) : Prop where
  path : r.path.Sorted
  unsigned : ∀ t ∈ r.unsignedTerms, t.WellSorted

theorem Resolution.Sorted.noted {r : Resolution} {p : Path} (sorted : r.Sorted) (same : p.terms = r.path.terms) :
    Resolution.Sorted { r with path := p } :=
  ⟨sorted.path.of_terms same, sorted.unsigned⟩

namespace Resolve

/-- The resolution leaves the path sorted, also where it fails, and what it gives has the property. -/
abbrev Sorts {α : Type} (Q : α → Prop) (x : ResolveM α) : Prop := Keeps Resolution.Sorted Q x

variable {S : Subject}

theorem sorted_vocabulary : Vocabulary Term.WellSorted fun _ => Term.Assertable where
  constant := Term.wellSorted_constant
  int := Term.wellSorted_int
  fact _ := Term.wellSorted_fact _
  size _ _ := trivial
  select := Term.wellSorted_mkSelect
  equation := Term.assertable_mkEq
  order := Term.assertable_mkOrder
  bool _ := ⟨trivial, rfl⟩
  told _ predicate := ⟨trivial, predicate⟩
  called _ := ⟨trivial, rfl⟩
  not := Term.Assertable.mkNot
  junction := Term.assertable_mkJunction _
  expecting _ := id

theorem sorted_upholding : Upholding S (fun _ => True) (fun _ => True) Term.WellSorted (fun _ => Term.Assertable)
    Resolution.Sorted where
  terms := sorted_vocabulary
  value {r v t} sorted _ given := by
    have good := (sorted.path.read S.contract v).2
    rw [given] at good
    exact Value.all_term.mp good
  read sorted _ := ⟨(sorted.path.read S.contract _).1, sorted.unsigned⟩
  assume sorted _ fair := ⟨sorted.path.assume fair, sorted.unsigned⟩
  unsigned sorted good :=
    ⟨sorted.path, List.forall_mem_append.mpr ⟨sorted.unsigned, List.forall_mem_singleton.mpr good⟩⟩
  refers sorted _ := { sorted with }
  demand {r ts} sorted _ posed := by
    have assertable : ∀ t ∈ ts, t.Assertable := by
      intro t member
      rcases posed t member with fair | ⟨f, rfl⟩
      · exact fair
      · exact ⟨trivial, rfl⟩
    have path := sorted.path
    exact ⟨⟨path.constraints, List.forall_mem_append.mpr ⟨path.required, assertable⟩, path.deferred, path.buggy,
      path.bindings, path.returned, path.links⟩, sorted.unsigned⟩
  writes sorted _ _ := sorted.noted rfl
  levels _ sorted _ := sorted.noted rfl
  events sorted _ _ := sorted.noted rfl
  eventArgs _ sorted _ := sorted.noted rfl
  callArgs _ sorted _ := sorted.noted rfl
  checks sorted _ _ := sorted.noted rfl

theorem sorts_read (v : Variable) : Sorts Term.WellSorted (read S v) := by
  refine keeps_reading (fun sorted => ⟨(sorted.path.read S.contract v).1, sorted.unsigned⟩) fun sorted given => ?_
  have good := (sorted.path.read S.contract v).2
  rw [given] at good
  exact Value.all_term.mp good

theorem sorts_selector (opts : Reading) (s : Selector) :
    Sorts (fun found => ∀ t ∈ found, t.WellSorted) (selector S opts s) :=
  sorted_upholding.setting.selector opts fun _ _ => trivial

end Resolve

namespace Prepare

open Resolve Term

variable {S : Subject} {t : Term} {ts : List Term}

theorem sorts_assume (assertable : t.Assertable) : Sorts (fun _ => True) (Prepare.assume t) :=
  keeps_modify fun _ sorted => ⟨sorted.path.assume assertable, sorted.unsigned⟩

theorem sorts_setup (opts : Reading) (check : Check) : Sorts (fun _ => True) (setup S opts check) := by
  refine (sorted_upholding.delivers_setup opts check.permits_all (fun _ _ => trivial) (fun inv => inv) (fun inv => inv)
    fun {r _ bug} sorted _ assertable => ?_).keeps
  have path := sorted.path
  refine ⟨⟨path.constraints, path.required, path.deferred, ?_, path.bindings, path.returned, path.links⟩,
    sorted.unsigned⟩
  rintro _ ⟨⟩
  exact assertable

theorem sorts_assumeUnsignedTerms (good : ∀ t ∈ ts, t.WellSorted) : Sorts (fun _ => True) (assumeUnsignedTerms ts) :=
  keeps_assumeUnsignedTerms ts fun sorted member built =>
    ⟨sorted.path.assume (assertable_mkOrder (good _ member) (wellSorted_int 0) built), sorted.unsigned⟩

theorem sorts_basePath : Sorts (fun _ => True) (basePath S) := by
  have zero := wellSorted_int 0
  exact .bind (keeps_modify fun _ sorted => ⟨sorted.path.seed _ _ _ _, sorted.unsigned⟩) fun _ _ =>
    .bind (keeps_modify fun _ sorted => sorted.noted rfl) fun _ _ =>
    .bind (sorts_read _) fun _ sender => .bind (sorts_read _) fun _ this =>
    .bind (keeps_sorted fun _ built => assertable_mkNe sender zero built) fun _ differs =>
    .bind (sorts_assume differs) fun _ _ =>
    .bind (keeps_sorted fun _ built => assertable_mkNe sender this built) fun _ differs =>
    .bind (sorts_assume differs) fun _ _ =>
    .bind (keeps_sorted fun _ built => assertable_mkNe this zero built) fun _ => sorts_assume

theorem sorts_assumeLengths (length : Nat) (arrays : List Variable) :
    Sorts (fun _ => True) (assumeLengths S length arrays) := by
  induction arrays with
  | nil => exact keeps_pure trivial
  | cons v rest ih =>
    exact .bind (sorts_read v) fun array _ =>
      .bind (keeps_sorted fun _ built => assertable_mkEq (a := array.derived "length" .int) trivial
        (wellSorted_int length) built) fun _ same =>
      .bind (sorts_assume same) fun _ _ => ih

end Prepare

end TokenAudit
