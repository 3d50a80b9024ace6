import TokenAudit.Proofs.Verify.Containment
import TokenAudit.Proofs.Verify.Unfolding

/-!
# The order of the worklist

An exploration may step the pending paths in any order, because each path unfolds on its own.
-/

namespace TokenAudit

open Nat

namespace Explore

variable {σ : Type} {solver : Solver (StateM σ)} {answer : List Term → Except SolverError SatResult}
  {clock : Clock (StateM σ)} {w w' : σ} {M : Machine} {s t u : Search} {m n started : Nat}

/-- The path at some place has a step that does not come to an end, so it cannot be advanced. -/
def Stuck (M : Machine) (s : Search) (i : Nat) : Prop := ∃ p, s.paths[i]? = some p ∧ M.Endless p

/-- Some pending path is advanced, and the call returns. -/
def Picks (M : Machine) (solver : Solver (StateM σ)) (s t : Search) : Prop :=
  ∃ i ∈ s.pending, ¬ Stuck M s i ∧
    ∃ w w', Returns (advance M solver { s with pending := s.pending.erase i } i) w t w'

inductive PicksIn (M : Machine) (solver : Solver (StateM σ)) : Nat → Search → Search → Prop
  | none (s : Search) : PicksIn M solver 0 s s
  | next {n : Nat} {s t u : Search} (first : Picks M solver s t) (later : PicksIn M solver n t u) :
      PicksIn M solver (n + 1) s u

theorem PicksIn.trans (first : PicksIn M solver m s t) (second : PicksIn M solver n t u) :
    PicksIn M solver (n + m) s u := by
  induction first with
  | none => exact second
  | next pick _ ih => exact .next pick (ih second)

theorem exists_picks (w : σ) (returns : ∀ i ∈ s.pending, ¬ Stuck M s i) (pending : s.pending ≠ []) :
    ∃ t, Picks M solver s t := by
  obtain ⟨i, member⟩ := List.exists_mem_of_ne_nil _ pending
  exact ⟨_, i, member, returns i member, w, _, rfl⟩

theorem Picks.expands (picks : Picks M solver s t) (placed : s.Placed) :
    t.Placed ∧ ∃ p items rest, ¬ M.Endless p ∧ Expands solver.Says M p items ∧
      s.contents.Perm ((p, true) :: rest) ∧ t.contents.Perm (bare items ++ rest) := by
  obtain ⟨i, pending, returns, _, _, advances⟩ := picks
  have inRange := placed.inRange i pending
  have settled : i ∉ s.pending.erase i := List.Nodup.not_mem_erase placed.distinct
  have found : s.paths[i]? = some s.paths[i] := List.getElem?_eq_getElem inRange
  have popped : (s.awaiting (s.pending.erase i)).Placed :=
    ⟨placed.distinct.erase i, fun x among => placed.inRange x (List.mem_of_mem_erase among)⟩
  obtain ⟨first, later, expands, rfl⟩ := advance_expands (s := s.awaiting (s.pending.erase i)) found advances
  have pops (x : Nat) : x ∈ s.pending ↔ x = i ∨ x ∈ s.pending.erase i := by
    by_cases same : x = i <;> simp [same, pending]
  obtain ⟨rest, before, after⟩ := Search.contents_replace first later popped settled pops found
  refine ⟨popped.replace settled inRange, _, _, rest, fun endless => returns ⟨_, found, ?_⟩, expands.unnumbered,
    before, ?_⟩
  · exact Machine.endless_unnumbered.mp endless
  · rwa [bare_bare]

theorem Picks.unfolds (answers : solver.AnswersBy answer) (picks : Picks M solver s t) (placed : s.Placed)
    {ends : Multiset Path} :
    Unfolds solver.Says M s.contents n ends ↔ ∃ k, n = k + 1 ∧ Unfolds solver.Says M t.contents k ends := by
  obtain ⟨_, p, items, rest, returns, expands, before, after⟩ := picks.expands placed
  exact unfolds_step answers.fixed returns expands before after

theorem PicksIn.unfolds (answers : solver.AnswersBy answer) (picks : PicksIn M solver m s t) (placed : s.Placed)
    {ends : Multiset Path} :
    Unfolds solver.Says M s.contents n ends ↔ ∃ k, n = k + m ∧ Unfolds solver.Says M t.contents k ends := by
  induction picks generalizing n with
  | none s => simp
  | @next m s t u first later ih =>
    rw [first.unfolds answers placed]
    constructor
    · rintro ⟨k, rfl, unfolds⟩
      obtain ⟨l, rfl, rest⟩ := (ih (first.expands placed).1).mp unfolds
      exact ⟨l, by omega, rest⟩
    · rintro ⟨l, rfl, unfolds⟩
      exact ⟨l + m, by omega, (ih (first.expands placed).1).mpr ⟨l, rfl, unfolds⟩⟩

theorem PicksIn.placed (picks : PicksIn M solver m s t) (placed : s.Placed) : t.Placed := by
  induction picks with
  | none s => exact placed
  | next first later ih => exact ih (first.expands placed).1

theorem PicksIn.ends (answers : solver.AnswersBy answer) (picks : PicksIn M solver n s t) (placed : s.Placed)
    (empty : t.pending = []) : Unfolds solver.Says M s.contents n (t.paths.map Path.unnumbered : List Path) := by
  rw [picks.unfolds answers placed, ← Search.contents_paths]
  exact ⟨0, by omega, unfolds_ended (Search.contents_settled empty)⟩

theorem unfolds_returns {ends : Multiset Path} (unfolds : Unfolds solver.Says M s.contents n ends) :
    ∀ i ∈ s.pending, ¬ Stuck M s i := by
  rintro i pending ⟨p, found, endless⟩
  refine unfolds.returns (List.mem_map.mpr ⟨(p, i), List.mem_zipIdx_iff_getElem?.mpr found, ?_⟩)
    (Machine.endless_unnumbered.mpr endless)
  exact Prod.ext rfl (decide_eq_true pending)

theorem PicksIn.bounded (answers : solver.AnswersBy answer) (w : σ) (picks : PicksIn M solver n s t) (placed : s.Placed)
    (empty : t.pending = []) (others : PicksIn M solver m s u) (goesOn : u.pending ≠ []) :
    m < n ∧ u.paths.length ≤ t.paths.length := by
  obtain ⟨k, rfl, unfolds⟩ := (others.unfolds answers placed).mp (picks.ends answers placed empty)
  constructor
  · obtain ⟨v, next⟩ : ∃ v, Picks M solver u v := exists_picks w (unfolds_returns unfolds) goesOn
    obtain ⟨l, rfl, _⟩ := (next.unfolds answers (others.placed placed)).mp unfolds
    omega
  · have fewer := unfolds.length_le
    simpa [Search.length_contents] using fewer

def forkNode : Node := {
  instructions := [.condition (.var flag)]
  sons := [1, 2]
  sonTrue := some 1
  sonFalse := some 2 }

end Explore

end TokenAudit
