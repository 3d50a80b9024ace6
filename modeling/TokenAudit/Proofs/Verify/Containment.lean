import TokenAudit.Proofs.Verify.Exploration

/-!
# What a failure of the solver reaches

When the solver fails on one way of a step, the stepped path is failed and nothing else is done.
-/

namespace TokenAudit

open List

def Successor.Ended (way : Successor) (status : Status) : Prop :=
  match way with
  | .throws _ => status = .threw
  | .finish => status = .finished
  | .goto _ _ => status.isTerminal = true

namespace Explore

variable {σ : Type} {solver : Solver (StateM σ)}

inductive FailsOn (solver : Solver (StateM σ)) :
    List (Nat × Successor) → List Path → σ → Nat → SolverError → List Path → σ → Prop where
  | here {place : Nat} {way : Successor} {rest : List (Nat × Successor)} {paths : List Path} {p q : Path}
      {w w' : σ} {e : SolverError} (found : paths[place]? = some p)
      (fails : Returns (take solver way p) w (.error e, q) w') :
      FailsOn solver ((place, way) :: rest) paths w 0 e (paths.set place q) w'
  | later {place j : Nat} {way : Successor} {rest : List (Nat × Successor)} {paths paths' : List Path}
      {p q : Path} {goesOn : Bool} {w v w' : σ} {e : SolverError} (found : paths[place]? = some p)
      (taken : Returns (take solver way p) w (.ok goesOn, q) v)
      (fails : FailsOn solver rest (paths.set place q) v j e paths' w') :
      FailsOn solver ((place, way) :: rest) paths w (j + 1) e paths' w'

namespace FailsOn

variable {work : List (Nat × Successor)} {paths paths' : List Path} {w w' : σ} {j : Nat} {e : SolverError}

section

variable (fails : FailsOn solver work paths w j e paths' w')

include fails

theorem lt_length : j < work.length := by
  induction fails with
  | here => exact Nat.succ_pos _
  | later _ _ _ ih => exact Nat.succ_lt_succ ih

theorem takeAll : Returns (takeAll solver work paths) w (.error e, paths') w' := by
  induction fails with
  | here found fails =>
    simp only [Explore.takeAll, found]
    exact returns_bind.mpr ⟨_, _, fails, returns_pure.mpr ⟨rfl, rfl⟩⟩
  | later found taken _ ih =>
    simp only [Explore.takeAll, found]
    refine returns_bind.mpr ⟨_, _, taken, returns_bind.mpr ⟨_, _, ih, returns_pure.mpr ⟨rfl, rfl⟩⟩⟩

theorem status (distinct : (work.map Prod.fst).Nodup) {k place : Nat} {way : Successor} (later : j ≤ k)
    (listed : work[k]? = some (place, way)) : statusAt paths' place = statusAt paths place := by
  -- the places of later ways are not the place of this one
  have elsewhere {first k : Nat} {rest : List (Nat × Successor)} (apart : first ∉ rest.map Prod.fst)
      (listed : rest[k]? = some (place, way)) : first ≠ place := by
    rintro rfl
    exact apart (mem_map.mpr ⟨_, mem_of_getElem? listed, rfl⟩)
  induction fails generalizing k with
  | here found fails =>
    obtain ⟨apart, _⟩ := nodup_cons.mp distinct
    cases k with
    | zero =>
      cases listed
      exact statusAt_set found ((take_took fails).status nofun)
    | succ k => exact statusAt_set_ne (elsewhere apart listed) _
  | @later _ j _ _ _ _ _ _ _ _ _ _ _ found taken fails ih =>
    obtain ⟨apart, distinct⟩ := nodup_cons.mp distinct
    cases k with
    | zero => exact absurd later (Nat.not_succ_le_zero j)
    | succ k =>
      rw [ih distinct (Nat.le_of_succ_le_succ later) listed]
      exact statusAt_set_ne (elsewhere apart listed) _

end

end FailsOn

structure Breakdown (M : Machine) (solver : Solver (StateM σ)) (clock : Clock (StateM σ)) (started : Nat)
    (s : Search) (w : σ) where
  place : Nat
  rest : List Nat
  pending : s.pending = place :: rest
  asked : σ
  within : Returns (exhausted M.config clock started s) w none asked
  path : Path
  found : s.paths[place]? = some path
  ways : List Successor
  stepped : Path
  steps : M.stepOn path = (.ok ways, stepped)
  ready : σ
  feasible : Returns (feasibleIfRequired solver stepped) asked (.ok true) ready
  /-- The number of the way on which the solver fails. -/
  failing : Nat
  error : SolverError
  paths : List Path
  after : σ
  fails : FailsOn solver (work s place ways) (s.forked place stepped (ways.length - 1)) ready failing error
    paths after

/-- The failure stays with the path of its way: the other ways end as they should, and so does every path
that had ended before. -/
structure Contained {M : Machine} {clock : Clock (StateM σ)} {started : Nat} {s : Search} {w : σ}
    (b : Breakdown M solver clock started s w) (final : List Path) : Prop where
  own : ∀ place way, (work s b.place b.ways)[b.failing]? = some (place, way) →
    statusAt final place = some (.failed (.error (.solver b.error)))
  others : ∀ k place way, k ≠ b.failing → (work s b.place b.ways)[k]? = some (place, way) →
    ∃ status, statusAt final place = some status ∧ way.Ended status
  settled : ∀ x, x ∉ s.pending → x < s.paths.length → final[x]? = s.paths[x]?

section

variable {M : Machine} {clock : Clock (StateM σ)} {started : Nat} {s : Search} {w : σ} {left k : Nat}
  {final : List Path} {w' : σ}

/-- The search after a breakdown: the stepped path has failed, and none of its ways is pending. -/
def Breakdown.outcome (b : Breakdown M solver clock started s w) : Search :=
  ⟨b.paths.modify b.place (·.fail (.solver b.error)), b.rest, s.nextId + (b.ways.length - 1)⟩

theorem Breakdown.advances (b : Breakdown M solver clock started s w) :
    Returns (advance M solver { s with pending := b.rest } b.place) b.asked b.outcome b.after := by
  simp only [advance, b.found, b.steps]
  refine returns_bind.mpr ⟨_, _, b.feasible, ?_⟩
  exact returns_branch.mpr ⟨.error b.error, b.paths, b.fails.takeAll, rfl⟩

theorem Breakdown.final_eq (b : Breakdown M solver clock started s w) {x : Nat}
    (explores : Returns (search M solver clock started (left + 1) s) w final w') (settled : x ∉ b.rest)
    (inRange : x < b.paths.length) : final[x]? = b.outcome.paths[x]? := by
  have later := (returns_search_succ b.pending b.within b.advances).mp explores
  exact search_settled later (by simpa [outcome] using inRange) settled

theorem length_work (s : Search) (i : Nat) (ways : List Successor) : (work s i ways).length = ways.length := by
  cases ways with
  | nil => rfl
  | cons way rest => simp [work, Search.places]

theorem work_copy (s : Search) (i : Nat) {ways : List Successor} (below : k + 1 < ways.length) :
    ∃ way, (work s i ways)[k + 1]? = some (s.paths.length + k, way) := by
  refine ⟨ways[k + 1], List.getElem?_zip_eq_some.mpr ⟨?_, List.getElem?_eq_getElem below⟩⟩
  have inRange : k < ways.length - 1 := by omega
  simp [Search.places, inRange]

theorem work_sublist (s : Search) (i : Nat) (ways : List Successor) :
    ((work s i ways).map Prod.fst).Sublist (s.places i (ways.length - 1)) := by
  unfold work
  rw [zip_eq_zip_take_min, map_fst_zip (by simp)]
  exact take_sublist _ _

theorem nodup_places {i : Nat} (inRange : i < s.paths.length) (n : Nat) : (s.places i n).Nodup := by
  refine nodup_cons.mpr ⟨fun among => ?_, ?_⟩
  · obtain ⟨k, _, same⟩ := mem_map.mp among
    omega
  · exact nodup_range.map fun a b same => Nat.add_left_cancel same

theorem statusAt_forked (s : Search) (i : Nat) (p : Path) {n : Nat} (below : k < n) :
    statusAt (s.forked i p n) (s.paths.length + k) = some p.status := by
  unfold statusAt Search.forked
  simp [below, Path.fork]

theorem Breakdown.copy_running (b : Breakdown M solver clock started s w) (formed : s.WellFormed)
    (explores : Returns (search M solver clock started (left + 1) s) w final w') (later : b.failing ≤ k + 1)
    (below : k + 1 < b.ways.length) : statusAt final (s.paths.length + k) = some .running := by
  have running := formed.running b.place (b.pending ▸ mem_cons_self ..)
  have inRange := statusAt_lt running
  have same : b.path.SameTask b.stepped := Machine.step_sameTask b.steps
  have status : b.stepped.status = .running := by
    rw [same.status]
    simpa [statusAt, b.found] using running
  obtain ⟨way, listed⟩ := work_copy s b.place below
  have distinct := (work_sublist s b.place b.ways).nodup (nodup_places inRange _)
  -- the solver's failure leaves the copy as the step made it
  have kept : statusAt b.paths (s.paths.length + k) = some .running := by
    rw [b.fails.status distinct later listed, statusAt_forked s b.place b.stepped (by omega), status]
  -- and its place is not pending, so that the search never comes back to it
  have settled : s.paths.length + k ∉ b.rest := by
    intro pending
    have old := statusAt_lt (formed.running _ (b.pending ▸ mem_cons_of_mem b.place pending))
    omega
  have apart : b.place ≠ s.paths.length + k := by omega
  rw [statusAt, b.final_eq explores settled (statusAt_lt kept), outcome, List.getElem?_modify_ne _ _ apart]
  exact kept

theorem Breakdown.place_failed (b : Breakdown M solver clock started s w) (formed : s.WellFormed)
    (explores : Returns (search M solver clock started (left + 1) s) w final w') :
    statusAt final b.place = some (.failed (.error (.solver b.error))) := by
  have inRange := statusAt_lt (formed.running b.place (b.pending ▸ mem_cons_self ..))
  obtain ⟨first, later, _, same⟩ := advance_expands (s := { s with pending := b.rest }) b.found b.advances
  have grows := congrArg (·.paths.length) same
  have inRange : b.place < b.paths.length := by
    simp only [outcome, Search.replace, length_modify, length_append, length_set] at grows
    omega
  have distinct := formed.distinct
  rw [b.pending] at distinct
  have settled := (nodup_cons.mp distinct).1
  rw [statusAt, b.final_eq explores settled inRange]
  simp [outcome, inRange, Path.fail, Path.endAs]

end

theorem contained_iff_one_way {M : Machine} {clock : Clock (StateM σ)} {started left : Nat} {s : Search}
    {w w' : σ} (b : Breakdown M solver clock started s w) (formed : s.WellFormed) {final : List Path}
    (explores : Returns (search M solver clock started (left + 1) s) w final w') :
    Contained b final ↔ b.ways.length = 1 := by
  have below := b.fails.lt_length
  rw [length_work] at below
  constructor
  · intro contained
    by_contra several
    cases failing : b.failing with
    | zero =>
      -- the copy for the second way was never taken
      have two : 0 + 1 < b.ways.length := by omega
      obtain ⟨way, listed⟩ := work_copy s b.place two
      obtain ⟨status, known, ended⟩ := contained.others 1 _ way (by omega) listed
      have running := b.copy_running formed explores (by omega) two
      rw [running] at known
      cases known
      cases way <;> cases ended
    | succ k =>
      -- the copy for the way that failed is running, not failed
      rw [failing] at below
      obtain ⟨way, listed⟩ := work_copy s b.place below
      have failed := contained.own _ way (failing ▸ listed)
      rw [b.copy_running formed explores (by omega) below] at failed
      cases failed
  · intro one
    have first : b.failing = 0 := by omega
    have length : (work s b.place b.ways).length = 1 := (length_work _ _ _).trans one
    refine ⟨fun place way listed => ?_, fun k place way other listed => ?_, fun x settled inRange => ?_⟩
    · rw [first] at listed
      have placed := (List.getElem?_zip_eq_some.mp listed).1
      cases placed
      exact b.place_failed formed explores
    · have inRange := (List.getElem?_eq_some_iff.mp listed).1
      omega
    · exact search_settled explores inRange settled

/-- A failure of the solver stays with the path of its way exactly when the step had no other way.  It
always fails the stepped path, and the copies from the failing way on are left running for good. -/
theorem solver_failure_contained_iff (solver : Solver (StateM σ)) (clock : Clock (StateM σ)) (config : Config)
    (prepared : Prepared) (running : ∀ p ∈ prepared.paths, p.status = .running) {w₀ w₁ w w' : σ}
    {started left : Nat} {s : Search} {final : List Path} (starts : Returns clock.now w₀ started w₁)
    (visits : Visits (prepared.machine config) solver clock started config.maxSteps
      (.start prepared.paths) w₁ (left + 1) s w)
    (b : Breakdown (prepared.machine config) solver clock started s w)
    (explores : Returns (explore solver clock config prepared) w₀ final w') :
    (Contained b final ↔ b.ways.length = 1) ∧
      statusAt final b.place = some (.failed (.error (.solver b.error))) ∧
      ∀ k, b.failing ≤ k + 1 → k + 1 < b.ways.length → statusAt final (s.paths.length + k) = some .running := by
  obtain ⟨time, v, now, explores⟩ := explores.of_bind
  obtain ⟨rfl, rfl⟩ := starts.unique now
  have formed := visits.wellFormed (Search.wellFormed_start running)
  have explores := visits.search.mp explores
  exact ⟨contained_iff_one_way b formed explores, b.place_failed formed explores,
    fun k => b.copy_running formed explores⟩

def flag : Variable := ⟨"flag", .param "guard" 0, .named "bool"⟩

def flagSymbol : Term := .var "p0" .bool

def mute : Solver (StateM Unit) := ⟨fun _ => pure (.error .closed), fun _ _ => pure (.error .closed)⟩

def stopped : Clock (StateM Unit) := ⟨pure 0⟩

def noLoops : Config := { loopBound := 0, timeBudgetMs := none }

def entering : Path := (Path.start 0 ⟨0, 0⟩ 0 "guard").bind flag.id (.term flagSymbol)

def guarded (n : Node) : Prepared where
  subject :=
    let f : Function := { name := "guard", nodes := [n, default, default] }
    let c : Contract := { functions := [f] }
    ⟨⟨[c]⟩, c, f, ⟨0, 0⟩⟩
  tracking := {}
  paths := [entering]
  expectedCalls := []
  vacuous := false

def guardMachine (n : Node) : Machine := (guarded n).subject.machine (guarded n).tracking noLoops

def entered (n : Node) : Path := ((guardMachine n).stepOn entering).2

def finalPaths (n : Node) : List Path := ((explore mute stopped noLoops (guarded n)).run ()).1

theorem guarded_running (n : Node) : ∀ p ∈ (guarded n).paths, p.status = .running := by
  intro p among
  cases mem_singleton.mp among
  rfl

def loopNode : Node := {
  kind := .ifLoop
  instructions := [.condition (.var flag)]
  sons := [1, 2]
  sonTrue := some 1
  sonFalse := some 2 }

def loopBreakdown : Breakdown (guardMachine loopNode) mute stopped 0 (.start [entering]) () where
  place := 0
  rest := []
  pending := rfl
  asked := ()
  within := rfl
  path := entering
  found := rfl
  ways := [.goto (.start ⟨0, 0⟩ 2) (some (.not flagSymbol))]
  stepped := entered loopNode
  steps := rfl
  ready := ()
  feasible := rfl
  failing := 0
  error := .closed
  paths := [(entered loopNode).assume (.not flagSymbol)]
  after := ()
  fails := .here rfl rfl

theorem spent_loop_contained :
    (∀ p ∈ (guarded loopNode).paths, p.status = .running) ∧
      Returns (explore mute stopped noLoops (guarded loopNode)) () (finalPaths loopNode) () ∧
      Contained loopBreakdown (finalPaths loopNode) := by
  have explores : Returns (explore mute stopped noLoops (guarded loopNode)) () (finalPaths loopNode) () := rfl
  refine ⟨guarded_running loopNode, explores, ?_⟩
  have visits : Visits (guardMachine loopNode) mute stopped 0 noLoops.maxSteps (.start [entering]) ()
      noLoops.maxSteps (.start [entering]) () := .here _ _ _
  exact (solver_failure_contained_iff mute stopped noLoops (guarded loopNode) (guarded_running loopNode) rfl
    visits loopBreakdown explores).1.mpr rfl

def requireNode : Node := {
  instructions := [.builtinCall "require(bool)" [.var flag] none] }

def requireBreakdown : Breakdown (guardMachine requireNode) mute stopped 0 (.start [entering]) () where
  place := 0
  rest := []
  pending := rfl
  asked := ()
  within := rfl
  path := entering
  found := rfl
  ways := [.goto ⟨⟨0, 0⟩, 0, 1⟩ (some flagSymbol), .throws (some (.not flagSymbol))]
  stepped := entered requireNode
  steps := rfl
  ready := ()
  feasible := rfl
  failing := 0
  error := .closed
  paths := [(entered requireNode).assume flagSymbol, (entered requireNode).fork 1]
  after := ()
  fails := .here rfl rfl

/-- The copy that should throw is left running. -/
theorem throwing_copy_left_running :
    Returns (explore mute stopped noLoops (guarded requireNode)) () (finalPaths requireNode) () ∧
      statusAt (finalPaths requireNode) 1 = some .running ∧
      ¬ Contained requireBreakdown (finalPaths requireNode) := by
  have running : statusAt (finalPaths requireNode) 1 = some .running := rfl
  refine ⟨rfl, running, fun contained => ?_⟩
  obtain ⟨status, known, ended⟩ := contained.others 1 1 (.throws (some (.not flagSymbol))) (by decide) rfl
  cases known
  cases ended

end Explore

end TokenAudit
