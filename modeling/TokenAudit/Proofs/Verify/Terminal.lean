import TokenAudit.Proofs.Machine.DeadEnds
import TokenAudit.Proofs.Verify.Containment
import TokenAudit.Proofs.Verify.Trails

/-!
# How the exploration leaves its paths

Every path that is not pending has ended, as long as each step gives a way and the solver answers.
-/

namespace TokenAudit

open List Search

def Search.Settled (s : Search) : Prop :=
  ∀ ⦃x : Nat⦄ ⦃q : Path⦄, s.paths[x]? = some q → x ∉ s.pending → q.status.isTerminal = true

theorem Search.settled_start (paths : List Path) : (start paths).Settled := by
  intro x q found settled
  exact absurd (pending_start found) settled

theorem Search.Settled.giveUp {s : Search} (settled : s.Settled) (b : Budget) :
    ∀ q ∈ s.giveUp b, q.status.isTerminal = true := by
  intro q member
  obtain ⟨x, found⟩ := List.getElem?_of_mem member
  rcases giveUp_found found with ⟨p, _, _, rfl⟩ | ⟨idle, found⟩
  · rfl
  · exact settled found idle

namespace Explore

variable {σ : Type} {solver : Solver (StateM σ)} {clock : Clock (StateM σ)} {started : Nat} {w w' : σ} {M : Machine}
  {s t : Search} {paths paths' final : List Path} {q : Path} {left : Nat}

/-- The next step of the search leaves a path running that is not pending: the machine gives no way, or the solver
fails where there are several. -/
inductive Strands (M : Machine) (solver : Solver (StateM σ)) (clock : Clock (StateM σ)) (started : Nat) (s : Search)
    (w : σ) : Prop
  | deadEnd {i : Nat} {rest : List Nat} {p q : Path} {v v' : σ} (pending : s.pending = i :: rest)
      (within : Returns (exhausted M.config clock started s) w none v) (found : s.paths[i]? = some p)
      (steps : Machine.Runs M.step p [] q) (feasible : Returns (feasibleIfRequired solver q) v (.ok true) v') :
      Strands M solver clock started s w
  | failure (b : Breakdown M solver clock started s w) (several : 1 < b.ways.length) :
      Strands M solver clock started s w

theorem Strands.goesOn (strands : Strands M solver clock started s w) :
    ∃ i rest v, s.pending = i :: rest ∧ Returns (exhausted M.config clock started s) w none v := by
  cases strands with
  | deadEnd pending within found steps feasible => exact ⟨_, _, _, pending, within⟩
  | failure b several => exact ⟨_, _, _, b.pending, b.within⟩

theorem failsOn_of_takeAll {work : List (Nat × Successor)} {e : SolverError}
    (placed : ∀ x ∈ work.map Prod.fst, x < paths.length)
    (takes : Returns (takeAll solver work paths) w (.error e, paths') w') :
    ∃ j, FailsOn solver work paths w j e paths' w' := by
  induction work generalizing paths w with
  | nil => cases takes.of_pure
  | cons head rest ih =>
    obtain ⟨here, later⟩ := forall_mem_cons.mp placed
    rw [takeAll] at takes
    split at takes
    · rename_i missing
      exact absurd here (Nat.not_lt.mpr (List.getElem?_eq_none_iff.mp missing))
    · rename_i p found
      obtain ⟨⟨answer, q⟩, v, taken, takes⟩ := takes.of_bind
      cases answer with
      | error e' =>
        cases takes.of_pure
        obtain ⟨_, rfl⟩ := returns_pure.mp takes
        exact ⟨0, .here found taken⟩
      | ok goesOn =>
        obtain ⟨⟨result, paths₂⟩, v₂, takes, ends⟩ := takes.of_bind
        obtain ⟨same, rfl⟩ := returns_pure.mp ends
        cases result with
        | ok running => cases same
        | error e' =>
          cases same
          obtain ⟨j, fails⟩ := ih (by simpa using later) takes
          exact ⟨j + 1, .later found taken fails⟩

theorem Spreads.ended {may : Saying} {p : Path} {ways : List Successor} {items : List (Path × Bool)}
    (spreads : Spreads may p ways items .none) (member : (q, false) ∈ items) : q.status.isTerminal = true := by
  generalize answered : Option.none = failure at spreads
  induction spreads with
  | none => cases member
  | took took later ih =>
    rcases mem_cons.mp member with same | member
    · cases same
      exact took.ended
    · exact ih member answered
  | failed => cases answered

section

variable {i : Nat} {rest : List Nat} {p q : Path} {first : Path × Bool} {later : List (Path × Bool)}

theorem settled_replace (formed : s.WellFormed) (settled : s.Settled) (pending : s.pending = i :: rest)
    (ended : ∀ q, (q, false) ∈ first :: later → q.status.isTerminal = true) :
    (replace (s.awaiting rest) i first later).Settled := by
  obtain ⟨placed, idle⟩ := formed.placed.pop pending
  have inRange := formed.placed.inRange i (pending ▸ mem_cons_self ..)
  intro x q found rests
  rcases replace_found placed idle inRange found with ⟨apart, old, same⟩ | ⟨goesOn, site, same⟩
  · refine settled old ?_
    rw [pending]
    exact not_mem_cons_of_ne_of_not_mem apart (mt same.mpr rests)
  · cases Bool.eq_false_iff.mpr (mt same.mpr rests)
    exact ended q (mem_of_site site)

theorem settled_put (formed : s.WellFormed) (settled : s.Settled) (pending : s.pending = i :: rest)
    (ended : q.status.isTerminal = true) : (put (s.awaiting rest) i q).Settled := by
  rw [put_eq_replace]
  refine settled_replace formed settled pending fun r member => ?_
  cases mem_singleton.mp member
  exact ended

theorem advance_settled (formed : s.WellFormed) (settled : s.Settled) (pending : s.pending = i :: rest)
    (found : s.paths[i]? = some p) {v : σ} (within : Returns (exhausted M.config clock started s) w none v)
    (advances : Returns (advance M solver (s.awaiting rest) i) v t w')
    (unstranded : ¬ Strands M solver clock started s w) : t.Settled := by
  have inRange := (List.getElem?_eq_some_iff.mp found).1
  cases advance_advanced (s := s.awaiting rest) found advances with
  | broken | failed | unmet => exact settled_put formed settled pending rfl
  | @branched ways r t v' w' steps asks branched =>
    obtain ⟨failure, first, later, branches, rfl, failing⟩ :=
      branch_branches (s := s.awaiting rest) inRange branched
    refine settled_replace formed settled pending fun q member => ?_
    cases branches with
    | stuck => exact absurd (.deadEnd pending within found steps asks) unstranded
    | taken spreads => exact spreads.ended member
    | @halted _ e first' items spreads =>
      obtain ⟨paths, takes⟩ := failing e rfl
      have placed : ∀ x ∈ (work s i ways).map Prod.fst, x < (s.forked i r (ways.length - 1)).length := by
        intro x member
        rw [forked, length_append, length_set, length_map, length_range]
        rcases mem_cons.mp ((work_sublist s i ways).subset member) with rfl | member
        · omega
        · obtain ⟨k, below, rfl⟩ := mem_map.mp member
          exact Nat.add_lt_add_left (mem_range.mp below) _
      obtain ⟨j, fails⟩ := failsOn_of_takeAll placed takes
      have counted := spreads.copied.length_eq
      rw [length_cons] at counted
      have single : items.length = 0 := by
        by_contra copies
        exact unstranded (.failure ⟨i, rest, pending, v, within, p, found, ways, r, steps, v', asks, j, e, paths, w',
          fails⟩ (by simp only [counted]; omega))
      rw [length_eq_zero_iff.mp single] at member
      cases mem_singleton.mp member
      rfl

end

theorem Strands.running (strands : Strands M solver clock started s w) (formed : s.WellFormed)
    (explores : Returns (search M solver clock started (left + 1) s) w final w') :
    ∃ q ∈ final, q.status.isTerminal = false := by
  have alive {x : Nat} (known : statusAt final x = some .running) : ∃ q ∈ final, q.status.isTerminal = false := by
    obtain ⟨q, found, status⟩ := Option.map_eq_some_iff.mp known
    exact ⟨q, mem_of_getElem? found, by rw [status]; rfl⟩
  cases strands with
  | @deadEnd i rest p q v v' pending within found steps feasible =>
    have stays : Returns (advance M solver (s.awaiting rest) i) v
        ⟨s.paths.set i q ++ [], rest, s.nextId⟩ v' := by
      have steps : M.stepOn p = (.ok [], q) := steps
      simp only [advance, found, steps]
      exact returns_bind.mpr ⟨_, _, feasible, returns_branch.mpr ⟨.ok [], _, returns_pure.mpr ⟨rfl, rfl⟩, rfl⟩⟩
    have settled := (formed.placed.pop pending).2
    have inRange := (List.getElem?_eq_some_iff.mp found).1
    obtain ⟨_, here, running⟩ := formed.head pending
    cases found.symm.trans here
    have status : q.status = .running := (Machine.step_sameTask steps).status.trans running
    refine alive (x := i) ?_
    have later := (returns_search_succ pending within stays).mp explores
    rw [statusAt, search_settled later (by simpa using inRange) settled]
    simp [inRange, status]
  | failure b several =>
    have below := b.fails.lt_length
    rw [length_work] at below
    cases failing : b.failing with
    | zero => exact alive (b.copy_running formed explores (k := 0) (by omega) several)
    | succ k => exact alive (b.copy_running formed explores (k := k) (by omega) (failing ▸ below))

theorem search_terminal_iff (formed : s.WellFormed) (settled : s.Settled)
    (explores : Returns (search M solver clock started left s) w final w') :
    (∀ q ∈ final, q.status.isTerminal = true) ↔ ∀ last t v, Visits M solver clock started left s w (last + 1) t v →
      ¬ Strands M solver clock started t v := by
  -- where the search goes no further, no path is stranded from here on
  have unstranded {left : Nat} {s : Search} {w : σ} (ends : ¬ ∃ i rest v, s.pending = i :: rest ∧
      Returns (exhausted M.config clock started s) w none v) (last : Nat) (t : Search) (v : σ)
      (visits : Visits M solver clock started left s w (last + 1) t v) : ¬ Strands M solver clock started t v := by
    intro strands
    cases visits with
    | here => exact ends strands.goesOn
    | next pending within => exact ends ⟨_, _, _, pending, within⟩
  induction left generalizing s w with
  | zero =>
    rw [← explores.of_pure]
    refine iff_of_true (settled.giveUp _) fun last t v visits => ?_
    cases visits
  | succ left ih =>
    rw [search] at explores
    split at explores
    · rename_i none
      rw [← explores.of_pure]
      refine iff_of_true (fun q member => ?_) (unstranded (by simp [none]))
      obtain ⟨x, found⟩ := List.getElem?_of_mem member
      exact settled found (by simp [none])
    · rename_i i rest pending
      obtain ⟨budget, v, checked, explores⟩ := explores.of_bind
      cases budget with
      | some b =>
        rw [← explores.of_pure]
        refine iff_of_true (settled.giveUp b) (unstranded ?_)
        rintro ⟨_, _, _, _, within⟩
        cases (checked.unique within).1
      | none =>
        obtain ⟨t, v', advances, later⟩ := explores.of_bind
        by_cases strands : Strands M solver clock started s w
        · have explores := (returns_search_succ pending checked advances).mpr later
          obtain ⟨q, member, running⟩ := strands.running formed explores
          refine iff_of_false (fun ended => ?_) fun none => none _ _ _ (.here _ _ _) strands
          exact absurd ((ended q member).symm.trans running) (by simp)
        · obtain ⟨p, found, _⟩ := formed.head pending
          refine (ih ((Visits.next pending checked advances (.here left t v')).wellFormed formed)
            (advance_settled formed settled pending found checked advances strands) later).trans ⟨?_, ?_⟩
          · intro none last u z visits
            cases visits with
            | here => exact strands
            | next pending' within advances' rest =>
              cases pending.symm.trans pending'
              obtain ⟨_, rfl⟩ := checked.unique within
              obtain ⟨rfl, rfl⟩ := advances.unique advances'
              exact none _ _ _ rest
          · exact fun none last u z visits => none _ _ _ (.next pending checked advances visits)

/-- When the exploration of running paths is over, all of them have ended exactly when it stranded none. -/
theorem explored_terminal_iff (solver : Solver (StateM σ)) (clock : Clock (StateM σ)) (config : Config)
    (prepared : Prepared) (running : ∀ p ∈ prepared.paths, p.status = .running) {w₀ w' : σ} {final : List Path}
    (explores : Returns (explore solver clock config prepared) w₀ final w') :
    ((∀ q ∈ final, q.status.isTerminal = true) ↔ ∀ started w₁ left s w, Returns clock.now w₀ started w₁ →
      Visits (prepared.machine config) solver clock started config.maxSteps
        (.start prepared.paths) w₁ (left + 1) s w →
      ¬ Strands (prepared.machine config) solver clock started s w) ∧
    ∀ p ways q, Machine.Runs (prepared.machine config).step p ways q →
      (ways = [] ↔ ∃ loc f n r, p.location = some loc ∧ prepared.subject.program.function? loc.function = some f ∧
        f.node? loc.node = some n ∧ (prepared.machine config).RunsOut loc n p r ∧
        n.DeadEnd f (config.loopBound < q.loopCounts.getD ⟨loc.function, n.id⟩ 0)) := by
  refine ⟨?_, fun p ways q runs => Machine.step_dead_end_iff runs⟩
  obtain ⟨started, w₁, starts, explores⟩ := explores.of_bind
  refine (search_terminal_iff (wellFormed_start running) (settled_start _) explores).trans ⟨?_, ?_⟩
  · intro none time v left s w now visits
    obtain ⟨rfl, rfl⟩ := starts.unique now
    exact none _ _ _ visits
  · exact fun none last t v visits => none _ _ _ _ _ starts visits

/-- The loop that may not be entered is left by its other branch, where the solver fails on the only way. -/
theorem spent_loop_strands_nothing :
    (∀ p ∈ (guarded loopNode).paths, p.status = .running) ∧
      Returns (explore mute stopped noLoops (guarded loopNode)) () (finalPaths loopNode) () ∧
      ∀ started w₁ left s w, Returns stopped.now () started w₁ →
        Visits (guardMachine loopNode) mute stopped started noLoops.maxSteps (.start [entering]) w₁ (left + 1) s w →
        ¬ Strands (guardMachine loopNode) mute stopped started s w := by
  have explores : Returns (explore mute stopped noLoops (guarded loopNode)) () (finalPaths loopNode) () := rfl
  have ended : ∀ q ∈ finalPaths loopNode, q.status.isTerminal = true := by decide +kernel
  exact ⟨guarded_running loopNode, explores,
    (explored_terminal_iff mute stopped noLoops (guarded loopNode) (guarded_running loopNode) explores).1.mp ended⟩

def crossing (n : Node) : Prepared where
  subject :=
    let joint (i : Nat) : Node := { id := i, kind := .endIf }
    let f : Function := {
      name := "guard", params := [⟨"flag", .named "bool"⟩], nodes := [n, joint 1, joint 2, joint 3] }
    let c : Contract := { functions := [f] }
    ⟨⟨[c]⟩, c, f, ⟨0, 0⟩⟩
  tracking := {}
  paths := [entering]
  expectedCalls := []
  vacuous := false

def joining : Node := { sons := [1, 2, 3] }

def sonless : Node := { sonTrue := some 1, sonFalse := some 2 }

def endless : Node := {
  kind := .ifLoop
  instructions := [.condition (.var flag)]
  sons := [0, 1]
  sonTrue := some 0 }

/-- The program is valid and the solver finds everything possible; a step of the only path gives no way, and the path
is left running. -/
def LeftRunning (n : Node) : Prop :=
  (crossing n).subject.program.fault? = none ∧
    (Machine.stepOn ((crossing n).subject.machine {} noLoops) entering).1.toOption = some [] ∧
    ((explore agreeable stopped noLoops (crossing n)).run ()).1.map Path.status = [.running]

theorem dead_ends_left_running : LeftRunning joining ∧ LeftRunning sonless ∧ LeftRunning endless := by
  unfold LeftRunning
  decide +kernel

end Explore

end TokenAudit
