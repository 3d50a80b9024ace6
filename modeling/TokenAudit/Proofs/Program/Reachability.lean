import Mathlib.Data.List.Nodup
import Mathlib.Data.List.Perm.Subperm
import TokenAudit.Program.Calls

/-!
# Reachable functions

The visit of the call graph meets every function once, so that the number of functions is fuel enough: what it returns
holds the root and is closed under calls.
-/

namespace TokenAudit

open List

namespace OrdSet

variable {α : Type} [Ord α] [Std.LawfulEqOrd α]

theorem mem_insertAll (s : OrdSet α) (b : α) (as : List α) :
    b ∈ (s.insertAll as).toList ↔ b ∈ s.toList ∨ b ∈ as := by
  unfold insertAll
  induction as generalizing s with
  | nil => simp
  | cons a rest ih =>
    rw [foldl_cons, ih, insert, mem_insertInto, mem_cons]
    constructor
    · rintro ((rfl | old) | later)
      · exact .inr (.inl rfl)
      · exact .inl old
      · exact .inr (.inr later)
    · rintro (old | rfl | later)
      · exact .inl (.inr old)
      · exact .inl (.inl rfl)
      · exact .inr later

theorem mem_ofList (b : α) (as : List α) : b ∈ (ofList as).toList ↔ b ∈ as := by
  rw [ofList, mem_insertAll]
  simp [empty]

end OrdSet

namespace Program

variable {p : Program} {k contract : Nat} {contracts : List Contract} {id : FnId}

def placesFrom : Nat → List Contract → List FnId
  | _, [] => []
  | k, c :: rest => (List.range c.functions.length).map (FnId.mk k) ++ placesFrom (k + 1) rest

def places (p : Program) : List FnId := placesFrom 0 p.contracts

theorem length_placesFrom (k : Nat) (contracts : List Contract) :
    (placesFrom k contracts).length = contracts.foldr (fun c n => c.functions.length + n) 0 := by
  induction contracts generalizing k with
  | nil => rfl
  | cons c rest ih => simp [placesFrom, ih]

theorem mem_placesFrom {i j : Nat} {c : Contract} (found : contracts[i]? = some c) (inRange : j < c.functions.length) :
    ⟨k + i, j⟩ ∈ placesFrom k contracts := by
  induction contracts generalizing k i with
  | nil => cases found
  | cons head rest ih =>
    rw [placesFrom, mem_append]
    cases i with
    | zero =>
      cases found
      exact .inl (mem_map.mpr ⟨j, mem_range.mpr inRange, rfl⟩)
    | succ i =>
      have later := ih (k := k + 1) found
      rw [show k + (i + 1) = k + 1 + i by omega]
      exact .inr later

theorem getElem?_of_mem_placesFrom (listed : id ∈ placesFrom k contracts) :
    ∃ i c, id.contract = k + i ∧ contracts[i]? = some c ∧ id.function < c.functions.length := by
  induction contracts generalizing k with
  | nil => cases listed
  | cons head rest ih =>
    rw [placesFrom, mem_append] at listed
    rcases listed with here | later
    · obtain ⟨j, inRange, rfl⟩ := mem_map.mp here
      exact ⟨0, head, rfl, rfl, mem_range.mp inRange⟩
    · obtain ⟨i, c, placed, found, inRange⟩ := ih later
      exact ⟨i + 1, c, by omega, found, inRange⟩

theorem function?_isSome_of_mem_places (listed : id ∈ p.places) : (p.function? id).isSome := by
  obtain ⟨i, c, placed, found, inRange⟩ := getElem?_of_mem_placesFrom listed
  simp [function?, placed, found, inRange]

theorem mem_places_of_resolveInternal {arity : Nat} {name : String}
    (resolved : p.resolveInternal? contract name arity = some id) : id ∈ p.places := by
  unfold resolveInternal? at resolved
  split at resolved
  · cases resolved
  · rename_i c found
    obtain ⟨i, chosen, rfl⟩ := Option.map_eq_some_iff.mp resolved
    have inRange : i < c.functions.length := by
      rcases Option.or_eq_some_iff.mp chosen with exact | ⟨_, named⟩
      · exact (List.findIdx?_eq_some_iff_getElem.mp exact).1
      · exact (List.findIdx?_eq_some_iff_getElem.mp named).1
    have member := mem_placesFrom (k := 0) found inRange
    rwa [Nat.zero_add] at member

theorem mem_places_of_callee {i : Instruction} (called : p.callee? contract i = some id) : id ∈ p.places := by
  unfold callee? at called
  split at called
  · exact mem_places_of_resolveInternal called
  · unfold resolveLibrary? at called
    split at called
    · cases called
    · exact mem_places_of_resolveInternal called
  · cases called

theorem mem_places_of_callees {caller : FnId} (called : id ∈ p.callees caller) : id ∈ p.places := by
  obtain ⟨i, _, resolved⟩ := mem_filterMap.mp called
  exact mem_places_of_callee resolved

theorem mem_fresh {seen ids : List FnId} : id ∈ fresh seen ids ↔ id ∈ ids ∧ id ∉ seen := by
  induction ids generalizing seen with
  | nil => simp [fresh]
  | cons head rest ih =>
    rw [fresh]
    split
    · rename_i old
      rw [ih, mem_cons]
      constructor
      · rintro ⟨among, new⟩
        exact ⟨.inr among, new⟩
      · rintro ⟨rfl | among, new⟩
        · exact absurd old new
        · exact ⟨among, new⟩
    · rename_i new
      rw [mem_cons, ih, mem_cons, mem_append, mem_singleton, not_or]
      constructor
      · rintro (rfl | ⟨among, unseen, _⟩)
        · exact ⟨.inl rfl, new⟩
        · exact ⟨.inr among, unseen⟩
      · rintro ⟨same | among, unseen⟩
        · exact .inl same
        · by_cases same : id = head
          · exact .inl same
          · exact .inr ⟨among, unseen, same⟩

theorem nodup_fresh (seen ids : List FnId) : (fresh seen ids).Nodup := by
  induction ids generalizing seen with
  | nil => exact nodup_nil
  | cons head rest ih =>
    rw [fresh]
    split
    · exact ih seen
    · refine nodup_cons.mpr ⟨fun among => ?_, ih _⟩
      exact (mem_fresh.mp among).2 (mem_append_right _ (mem_singleton.mpr rfl))

inductive Visited (p : Program) : List FnId → List FnId → List FnId → Prop
  | done (seen : List FnId) : Visited p [] seen seen
  | next {id : FnId} {queue seen result : List FnId}
      (rest : Visited p (queue ++ fresh seen (p.callees id)) (seen ++ fresh seen (p.callees id)) result) :
      Visited p (id :: queue) seen result

variable {queue seen result : List FnId}

theorem nodup_append_fresh (distinct : seen.Nodup) (ids : List FnId) : (seen ++ fresh seen ids).Nodup := by
  refine nodup_append.mpr ⟨distinct, nodup_fresh seen ids, ?_⟩
  rintro x before _ new rfl
  exact (mem_fresh.mp new).2 before

/-- What the visit has met splits into the functions it is done with and those in the queue.  As long as
the fuel covers what is left to meet, the visit comes to its end. -/
theorem visit_visited {all : List FnId} (callable : ∀ caller, ∀ id ∈ p.callees caller, id ∈ all)
    (fuel : Nat) (done queue : List FnId) (distinct : (done ++ queue).Nodup) (known : done ++ queue ⊆ all)
    (enough : all.length ≤ done.length + fuel) :
    p.Visited queue (done ++ queue) (p.visit fuel queue (done ++ queue)) := by
  induction fuel generalizing done queue with
  | zero =>
    -- everything there is has been met, so the queue is empty
    have bound := (subperm_of_subset distinct known).length_le
    rw [length_append] at bound
    have empty : queue = [] := eq_nil_of_length_eq_zero (by omega)
    subst empty
    exact .done _
  | succ fuel ih =>
    cases queue with
    | nil => exact .done _
    | cons id queue =>
      rw [visit]
      refine .next ?_
      have unmet := nodup_append_fresh distinct (p.callees id)
      have callees : ∀ x ∈ fresh (done ++ id :: queue) (p.callees id), x ∈ all :=
        fun x new => callable id x (mem_fresh.mp new).1
      generalize fresh (done ++ id :: queue) (p.callees id) = new at unmet callees ⊢
      have split : done ++ id :: queue ++ new = done ++ [id] ++ (queue ++ new) := by simp
      rw [split] at unmet ⊢
      refine ih (done ++ [id]) (queue ++ new) unmet ?_ ?_
      · rw [← split]
        exact append_subset.mpr ⟨known, callees⟩
      · rw [length_append, length_singleton]
        omega

namespace Visited

theorem extends_seen (visited : p.Visited queue seen result) : seen <+: result := by
  induction visited with
  | done seen => exact prefix_rfl
  | next rest ih => exact (prefix_append _ _).trans ih

theorem nodup (visited : p.Visited queue seen result) (distinct : seen.Nodup) : result.Nodup := by
  induction visited with
  | done seen => exact distinct
  | next rest ih => exact ih (nodup_append_fresh distinct _)

theorem lift {P : FnId → Prop} (calls : ∀ caller, P caller → ∀ id ∈ p.callees caller, P id)
    (visited : p.Visited queue seen result) (queued : queue ⊆ seen) (holds : ∀ id ∈ seen, P id) :
    ∀ id ∈ result, P id := by
  induction visited with
  | done seen => exact holds
  | @next caller queue seen result rest ih =>
    obtain ⟨here, later⟩ := cons_subset.mp queued
    refine ih (append_subset.mpr ⟨?_, ?_⟩) (forall_mem_append.mpr ⟨holds, ?_⟩)
    · exact subset_append_of_subset_left _ later
    · exact subset_append_right _ _
    · intro id new
      exact calls caller (holds caller here) id (mem_fresh.mp new).1

/-- A function that was met waits in the queue or has all its callees among those met, so that in the end no callee
is left out. -/
theorem closed (visited : p.Visited queue seen result)
    (pending : ∀ caller ∈ seen, caller ∈ queue ∨ ∀ id ∈ p.callees caller, id ∈ seen) :
    ∀ caller ∈ result, ∀ id ∈ p.callees caller, id ∈ result := by
  induction visited with
  | done seen =>
    intro caller met
    exact (pending caller met).resolve_left not_mem_nil
  | @next first queue seen result rest ih =>
    refine ih fun caller met => ?_
    rcases mem_append.mp met with before | new
    · rcases pending caller before with waits | finished
      · rcases mem_cons.mp waits with rfl | waits
        · right
          intro id called
          by_cases known : id ∈ seen
          · exact mem_append_left _ known
          · exact mem_append_right _ (mem_fresh.mpr ⟨called, known⟩)
        · exact .inl (mem_append_left _ waits)
      · exact .inr fun id called => mem_append_left _ (finished id called)
    · exact .inl (mem_append_right _ new)

end Visited

theorem reachable_visited (p : Program) (root : FnId) : p.Visited [root] [root] (p.reachable root) := by
  have count : (root :: p.places).length = p.functionCount + 1 := by
    rw [length_cons, places, length_placesFrom, functionCount]
  have callable : ∀ caller, ∀ id ∈ p.callees caller, id ∈ root :: p.places :=
    fun _ _ called => mem_cons_of_mem _ (mem_places_of_callees called)
  exact visit_visited callable (p.functionCount + 1) [] [root] (nodup_singleton root) (by simp) (by simp [count])

theorem reachable_closed (p : Program) (root : FnId) :
    root ∈ p.reachable root ∧
      ∀ caller ∈ p.reachable root, ∀ id ∈ p.callees caller, id ∈ p.reachable root := by
  have visited := p.reachable_visited root
  exact ⟨visited.extends_seen.subset (mem_singleton.mpr rfl), visited.closed fun _ met => .inl met⟩

def emittedEvents (f : Function) : List String :=
  f.instructions.filterMap fun
    | .eventCall name _ => some name
    | _ => none

/-- The analysis of `root` counts every access and every event of the function. -/
structure Accounts (p : Program) (root : FnId) (f : Function) : Prop where
  reads : ∀ name ∈ f.directReads.toList, name ∈ (p.stateVariablesRead root).toList
  writes : ∀ name ∈ f.directWrites.toList, name ∈ (p.stateVariablesWritten root).toList
  events : ∀ name ∈ emittedEvents f, name ∈ (p.eventsEmitted root).toList

theorem accounts_of_reachable {root : FnId} {f : Function} (reached : id ∈ p.reachable root)
    (known : p.function? id = some f) : p.Accounts root f := by
  have listed : f ∈ p.reachableFunctions root := mem_filterMap.mpr ⟨id, reached, known⟩
  refine ⟨fun name reads => ?_, fun name writes => ?_, fun name emits => ?_⟩
  · exact (OrdSet.mem_ofList _ _).mpr (mem_flatMap.mpr ⟨f, listed, reads⟩)
  · exact (OrdSet.mem_ofList _ _).mpr (mem_flatMap.mpr ⟨f, listed, writes⟩)
  · exact (OrdSet.mem_ofList _ _).mpr (mem_flatMap.mpr ⟨f, listed, emits⟩)

end Program

end TokenAudit
