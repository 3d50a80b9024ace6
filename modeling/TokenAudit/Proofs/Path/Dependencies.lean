import Mathlib.Data.List.Nodup
import Mathlib.Logic.Relation
import TokenAudit.Machine.Record

/-!
# Dependencies of a check

A check marks the tracked variables that its operand was made from, directly or through others, by definitions and by
copies alike.
-/

namespace TokenAudit.Path

open List

variable {p : Path} {v w : VarId} {deps : VarId → List VarId} {stack seen result : List VarId}
  (t : Table VarId (List VarId))

def DependsOn (p : Path) (v w : VarId) : Prop := w ∈ p.definedBy.getD v [] ∨ w ∈ p.aliases.getD v []

theorem mem_dependencies_iff : w ∈ p.dependencies v ↔ p.DependsOn v w := mem_append

inductive Followed (deps : VarId → List VarId) : List VarId → List VarId → List VarId → Prop
  | done (seen : List VarId) : Followed deps [] seen seen
  | known {v : VarId} {stack seen result : List VarId} (met : v ∈ seen) (rest : Followed deps stack seen result) :
      Followed deps (v :: stack) seen result
  | new {v : VarId} {stack seen result : List VarId} (unmet : v ∉ seen)
      (rest : Followed deps (deps v ++ stack) (seen ++ [v]) result) : Followed deps (v :: stack) seen result

def edgesLeft (t : Table VarId (List VarId)) (seen : List VarId) : Nat :=
  edgeCount ⟨t.entries.filter fun e => e.1 ∉ seen⟩

theorem edgesLeft_nil : edgesLeft t [] = edgeCount t := by
  simp [edgesLeft]

theorem edgesLeft_met (unmet : v ∉ seen) : (t.getD v []).length + edgesLeft t (seen ++ [v]) ≤ edgesLeft t seen := by
  obtain ⟨entries⟩ := t
  unfold Table.getD Table.get? edgesLeft edgeCount
  induction entries with
  | nil => simp [Table.find]
  | cons e rest ih =>
    by_cases here : e.1 = v
    · simp [Table.find, here, unmet] at ih ⊢
      omega
    · by_cases met : e.1 ∈ seen
      · simpa [Table.find, here, met] using ih
      · simp [Table.find, here, met] at ih ⊢
        omega

theorem follow_followed (p : Path) (fuel : Nat) (stack seen : List VarId)
    (enough : stack.length + edgesLeft p.definedBy seen + edgesLeft p.aliases seen ≤ fuel) :
    Followed p.dependencies stack seen (follow p.dependencies fuel stack seen) := by
  induction fuel generalizing stack seen with
  | zero =>
    have empty : stack = [] := eq_nil_of_length_eq_zero (by omega)
    subst empty
    exact .done seen
  | succ fuel ih =>
    cases stack with
    | nil => exact .done seen
    | cons v stack =>
      rw [length_cons] at enough
      rw [follow]
      split
      · rename_i met
        exact .known met (ih stack seen (by omega))
      · rename_i unmet
        have defined := edgesLeft_met p.definedBy unmet
        have aliased := edgesLeft_met p.aliases unmet
        refine .new unmet (ih _ _ ?_)
        rw [dependencies, length_append, length_append]
        omega

namespace Followed

theorem nodup (followed : Followed deps stack seen result) (distinct : seen.Nodup) : result.Nodup := by
  induction followed with
  | done seen => exact distinct
  | known met rest ih => exact ih distinct
  | new unmet rest ih =>
    refine ih (nodup_append.mpr ⟨distinct, nodup_singleton _, ?_⟩)
    rintro x before _ only rfl
    exact unmet (mem_singleton.mp only ▸ before)

theorem lift {P : VarId → Prop} (edges : ∀ v, P v → ∀ w ∈ deps v, P w) (followed : Followed deps stack seen result)
    (waits : ∀ v ∈ stack, P v) (holds : ∀ v ∈ seen, P v) : ∀ v ∈ result, P v := by
  induction followed with
  | done seen => exact holds
  | known met rest ih => exact ih (forall_mem_cons.mp waits).2 holds
  | @new v stack seen result unmet rest ih =>
    obtain ⟨here, later⟩ := forall_mem_cons.mp waits
    refine ih (forall_mem_append.mpr ⟨edges v here, later⟩) (forall_mem_append.mpr ⟨holds, ?_⟩)
    exact forall_mem_singleton.mpr here

theorem extends_seen (followed : Followed deps stack seen result) : seen ⊆ result := by
  induction followed with
  | done seen => exact List.Subset.refl _
  | known met rest ih => exact ih
  | new unmet rest ih => exact List.Subset.trans (subset_append_left _ _) ih

theorem meets_stack (followed : Followed deps stack seen result) : stack ⊆ result := by
  induction followed with
  | done seen => exact nil_subset _
  | known met rest ih => exact cons_subset.mpr ⟨rest.extends_seen met, ih⟩
  | new unmet rest ih =>
    refine cons_subset.mpr ⟨rest.extends_seen (by simp), ?_⟩
    exact List.Subset.trans (subset_append_right _ _) ih

/-- The edges of what was met lead to what was met or waits, so that in the end none leads outside. -/
theorem closed (followed : Followed deps stack seen result)
    (pending : ∀ v ∈ seen, ∀ w ∈ deps v, w ∈ seen ∨ w ∈ stack) : ∀ v ∈ result, ∀ w ∈ deps v, w ∈ result := by
  induction followed with
  | done seen =>
    intro v met w edge
    exact (pending v met w edge).resolve_right not_mem_nil
  | @known u stack seen result met rest ih =>
    refine ih fun v before w edge => ?_
    rcases pending v before w edge with done | waits
    · exact .inl done
    · rcases mem_cons.mp waits with rfl | waits
      · exact .inl met
      · exact .inr waits
  | @new u stack seen result unmet rest ih =>
    refine ih fun v before w edge => ?_
    rcases mem_append.mp before with before | only
    · rcases pending v before w edge with done | waits
      · exact .inl (mem_append_left _ done)
      · rcases mem_cons.mp waits with rfl | waits
        · exact .inl (by simp)
        · exact .inr (mem_append_right _ waits)
    · rw [mem_singleton.mp only] at edge
      exact .inr (mem_append_left _ edge)

end Followed

theorem dependencyClosure_followed (p : Path) (v : VarId) :
    Followed p.dependencies [v] [] (p.dependencyClosure v) := by
  refine follow_followed p _ _ _ ?_
  rw [edgesLeft_nil, edgesLeft_nil, length_singleton]
  omega

theorem mem_dependencyClosure_iff : w ∈ p.dependencyClosure v ↔ Relation.ReflTransGen p.DependsOn v w := by
  have followed := p.dependencyClosure_followed v
  constructor
  · refine followed.lift (fun u reached w edge => ?_) (forall_mem_singleton.mpr .refl) (by simp) w
    exact .tail reached (mem_dependencies_iff.mp edge)
  · intro reached
    induction reached with
    | refl => exact followed.meets_stack (mem_singleton.mpr rfl)
    | tail _ edge ih => exact followed.closed (by simp) _ ih _ (mem_dependencies_iff.mpr edge)

def withMarks (p : Path) (vars : List VarId) : Path :=
  { p with
    usedInCheck := p.usedInCheck ++ vars
    constraints := vars.foldl (fun log v => log.push (Fact.usedInCheck (p.symbolBase v)).term) p.constraints }

def unmarked (p : Path) (vars : List VarId) : List VarId :=
  vars.filter fun v => v ∈ p.checkTracked ∧ v ∉ p.usedInCheck

theorem terms_withMarks (p : Path) (vars : List VarId) : (p.withMarks vars).constraints.terms =
    p.constraints.terms ++ vars.map fun v => (Fact.usedInCheck (p.symbolBase v)).term := by
  unfold withMarks
  generalize p.constraints = log
  induction vars generalizing log with
  | nil => simp
  | cons v rest ih =>
    rw [foldl_cons, ih]
    simp [Fact.term]

theorem foldl_markUsed (vars : List VarId) (p : Path) (distinct : vars.Nodup) :
    vars.foldl markUsed p = p.withMarks (p.unmarked vars) := by
  induction vars generalizing p with
  | nil => simp [withMarks, unmarked]
  | cons v rest ih =>
    obtain ⟨once, distinct⟩ := nodup_cons.mp distinct
    rw [foldl_cons, ih _ distinct]
    unfold markUsed
    split
    · rename_i marks
      -- a variable further on is not the one that was marked
      have others : (({ p with usedInCheck := p.usedInCheck ++ [v] } : Path).assume
          (Fact.usedInCheck (p.symbolBase v)).term).unmarked rest = p.unmarked rest := by
        refine filter_congr fun w among => ?_
        have apart : w ≠ v := fun same => once (same ▸ among)
        simp [assume, apart]
      have first : p.unmarked (v :: rest) = v :: p.unmarked rest := by simp [unmarked, marks]
      rw [others, first]
      simp [withMarks, assume, symbolBase]
    · rename_i passes
      have same : p.unmarked (v :: rest) = p.unmarked rest := by
        unfold unmarked
        rw [filter_cons_of_neg (by simpa using passes)]
      rw [same]

/-- A check of a variable marks exactly the tracked variables that it depends on, and for each one that was not marked
before it notes one fact; nothing else changes, and a check of a constant changes nothing. -/
theorem check_marks_dependencies (p : Path) (operand : Operand) :
    match operand with
    | .const _ => p.markUsedInCheck operand = p
    | .var v =>
      Followed p.dependencies [v.id] [] (p.dependencyClosure v.id) ∧
        ∃ added : List VarId, added.Nodup ∧
          (∀ w, w ∈ added ↔ w ∈ p.checkTracked ∧ w ∉ p.usedInCheck ∧ Relation.ReflTransGen p.DependsOn v.id w) ∧
          (∀ w, w ∈ (p.markUsedInCheck operand).usedInCheck ↔
            w ∈ p.usedInCheck ∨ w ∈ p.checkTracked ∧ Relation.ReflTransGen p.DependsOn v.id w) ∧
          (p.markUsedInCheck operand).constraints.terms =
            p.constraints.terms ++ added.map (fun w => (Fact.usedInCheck (p.symbolBase w)).term) ∧
          p.markUsedInCheck operand =
            { p with
              usedInCheck := p.usedInCheck ++ added
              constraints := (p.markUsedInCheck operand).constraints } := by
  cases operand with
  | const c => rfl
  | var v =>
    have followed := p.dependencyClosure_followed v.id
    have distinct := followed.nodup nodup_nil
    have marked : p.markUsedInCheck (.var v) = p.withMarks (p.unmarked (p.dependencyClosure v.id)) :=
      foldl_markUsed _ p distinct
    have added (w : VarId) : w ∈ p.unmarked (p.dependencyClosure v.id) ↔
        w ∈ p.checkTracked ∧ w ∉ p.usedInCheck ∧ Relation.ReflTransGen p.DependsOn v.id w := by
      rw [unmarked, mem_filter, mem_dependencyClosure_iff, decide_eq_true_eq, and_comm, and_assoc]
    refine ⟨followed, p.unmarked _, distinct.filter _, added, fun w => ?_, ?_, ?_⟩
    · rw [marked, withMarks, mem_append, added]
      by_cases before : w ∈ p.usedInCheck <;> simp [before]
    · rw [marked, terms_withMarks]
    · rw [marked]
      rfl

end TokenAudit.Path
