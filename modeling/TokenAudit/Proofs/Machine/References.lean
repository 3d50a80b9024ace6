import Mathlib.Data.List.Perm.Subperm
import TokenAudit.Proofs.Machine.Framing

/-!
# Ways up from references

The links of a path lead from a reference to its base, and from base to base up to the root variable, if they do not
lead back to where they were.
-/

namespace TokenAudit.Machine

open List

variable {p : Path} {links : Table VarId IndexLink} {root v : VarId} {up : List IndexLink} {fuel : Nat}

inductive Reaches (links : Table VarId IndexLink) (root : VarId) : VarId → List IndexLink → Prop
  | root (free : links.get? root = none) : Reaches links root root []
  | step {v : VarId} {link : IndexLink} {up : List IndexLink} (linked : links.get? v = some link)
      (above : Reaches links root link.base up) : Reaches links root v (link :: up)

theorem Reaches.unique {up' : List IndexLink} (reaches : Reaches links root v up)
    (reaches' : Reaches links root v up') : up = up' := by
  induction reaches generalizing up' with
  | root free =>
    cases reaches' with
    | root _ => rfl
    | step linked _ =>
      rw [free] at linked
      cases linked
  | step linked above ih =>
    cases reaches' with
    | root free =>
      rw [free] at linked
      cases linked
    | step linked' above' =>
      rw [linked] at linked'
      cases linked'
      rw [ih above']

theorem Reaches.passes (reaches : Reaches links root v up) :
    ∃ vars : List VarId, vars.length = up.length ∧ vars.Nodup ∧
      ∀ w ∈ vars, (links.get? w).isSome ∧ ∃ up', Reaches links root w up' ∧ up'.length ≤ up.length := by
  induction reaches with
  | root free => exact ⟨[], rfl, nodup_nil, nofun⟩
  | @step v link up linked above ih =>
    obtain ⟨vars, count, distinct, known⟩ := ih
    have here : Reaches links root v (link :: up) := .step linked above
    refine ⟨v :: vars, by simp [count], nodup_cons.mpr ⟨fun again => ?_, distinct⟩, fun w member => ?_⟩
    · obtain ⟨-, up', reaches', shorter⟩ := known v again
      rw [reaches'.unique here, length_cons] at shorter
      omega
    · rcases mem_cons.mp member with rfl | member
      · exact ⟨by simp [linked], link :: up, here, Nat.le_refl _⟩
      · obtain ⟨linked', up', reaches', shorter⟩ := known w member
        exact ⟨linked', up', reaches', by simp only [length_cons]; omega⟩

theorem mem_keys_of_get? (linked : (links.get? v).isSome) : v ∈ links.keys := by
  obtain ⟨entries⟩ := links
  unfold Table.get? Table.keys at *
  induction entries with
  | nil => cases linked
  | cons entry rest ih =>
    rw [Table.find] at linked
    split at linked
    · rename_i here
      exact here ▸ mem_cons_self ..
    · exact mem_cons_of_mem _ (ih linked)

theorem Reaches.length_le (reaches : Reaches links root v up) : up.length ≤ links.entries.length := by
  obtain ⟨vars, count, distinct, known⟩ := reaches.passes
  have within : vars ⊆ links.keys := fun w member => mem_keys_of_get? (known w member).1
  have bound := (subperm_of_subset distinct within).length_le
  rwa [count, Table.keys, length_map] at bound

theorem Reaches.linkKeys (reaches : Reaches links root v up)
    (enough : up.length ≤ fuel) : linkKeys links fuel v = some (up.map IndexLink.key) := by
  induction reaches generalizing fuel with
  | root free => cases fuel <;> simp [Machine.linkKeys, free]
  | step linked _ ih =>
    cases fuel with
    | zero => cases enough
    | succ fuel =>
      rw [Machine.linkKeys, linked]
      exact congrArg (Option.map _) (ih (Nat.le_of_succ_le_succ enough))

/-- A walk that gives keys came to an end, so where the links have none it gives no keys under any bound. -/
theorem reaches_of_linkKeys {keys : List Term}
    (walked : linkKeys links fuel v = some keys) : ∃ root up, Reaches links root v up := by
  induction fuel generalizing v keys with
  | zero =>
    cases linked : links.get? v with
    | none => exact ⟨v, [], .root linked⟩
    | some link => simp [Machine.linkKeys, linked] at walked
  | succ fuel ih =>
    cases linked : links.get? v with
    | none => exact ⟨v, [], .root linked⟩
    | some link =>
      simp only [Machine.linkKeys, linked] at walked
      obtain ⟨_, walked, _⟩ := Option.map_eq_some_iff.mp walked
      obtain ⟨root, up, above⟩ := ih walked
      exact ⟨root, link :: up, .step linked above⟩

theorem Reaches.remembered (reaches : Reaches p.links root v up) (sorted : p.WellSorted) :
    ∀ link ∈ up, link.baseValue.WellSorted ∧ link.key.WellSorted := by
  induction reaches with
  | root free => exact nofun
  | step linked above ih =>
    intro link member
    rcases mem_cons.mp member with rfl | member
    · exact sorted.links _ _ linked
    · exact ih link member

end TokenAudit.Machine
