import TokenAudit.Proofs.Verify.Trails
import TokenAudit.Proofs.Verify.Worklist

/-!
# Exploration within its budgets

A step, whether it succeeds or fails, keeps the number of its path and adds to its log (`Prolongs`).  The steps of an
exploration lead from the seeds to the search it ends with (`Reached`).
-/

namespace TokenAudit

open List Search

/-- The same path, with more in its log. -/
structure Path.Prolongs (p q : Path) : Prop where
  id : q.id = p.id
  log : p.Adds q

namespace Machine

open Upkeep

variable {M : Machine} {o p q : Path}

theorem Changes.prolongs {K : Part → Prop} (changes : Changes K p q) (before : o.Prolongs p) : o.Prolongs q := by
  induction changes with
  | refl => exact before
  | tail _ last ih => exact ⟨by cases last <;> exact ih.id, Trans.trans ih.log last.adds⟩

theorem step_prolongs (o : Path) : Keeps o.Prolongs (FairWays Any) M.step := by
  have upkeep : Upkeep M o.Prolongs Any Any Any Any := withstands_of_changes fun _ _ => Changes.prolongs
  refine upkeep.keeps_step ⟨⟨fun _ before => { before with }, fun before _ => { before with }⟩,
    fun before => { before with }, fun _ _ _ => trivial, fun _ _ _ _ => ?_⟩
  exact allows_any (fun _ _ before => { before with })
    (fun _ _ _ _ _ p receiver => (noteCall_changes (K := Any) p trivial receiver _).prolongs)
    fun _ _ _ _ => ⟨fun before => { before with }, fun before => { before with }⟩

theorem stepOn_prolongs (M : Machine) (p : Path) : p.Prolongs (M.stepOn p).2 :=
  (step_prolongs p ⟨rfl, Std.Refl.refl p⟩).1

end Machine

namespace Explore

variable {σ : Type} {solver : Solver (StateM σ)} {may : Saying} {M : Machine}
  {s t : Search} {i x : Nat} {p q : Path} {way : Successor} {paths paths' : List Path} {w w' : σ} {goesOn : Bool}

theorem withstands_adds (o : Path) : Withstands M Machine.Any fun _ => o.Adds where
  step p adds := ⟨Trans.trans adds (M.stepOn_prolongs p).log, fun _ _ _ _ _ _ => trivial⟩
  assume adds _ := Trans.trans adds (Path.adds_of_push _ rfl)
  move _ _ _ adds := adds
  threw adds := Trans.trans adds (Path.adds_of_push Fact.threw.term rfl)
  finished adds := Trans.trans adds (Path.adds_of_push Fact.threw.denial rfl)

theorem Expanded.adds (expanded : Expanded may M p q goesOn) : p.Adds q := by
  obtain ⟨_, adds⟩ := (withstands_adds p).expanded expanded (Std.Refl.refl p)
  exact adds

theorem Took.id {said : Except SolverError Bool} (took : Took may way p said q) : q.id = p.id := by
  cases took with
  | @went next constraint => cases constraint <;> rfl
  | @threw constraint => cases constraint <;> rfl
  | _ => rfl

theorem map_id_set (found : paths[x]? = some p) (same : q.id = p.id) :
    (paths.set x q).map Path.id = paths.map Path.id := by
  have inRange := (List.getElem?_eq_some_iff.mp found).1
  apply ext_getElem?
  intro y
  rw [List.getElem?_map, List.getElem?_map]
  by_cases here : x = y
  · subst here
    rw [List.getElem?_set_self inRange, found, Option.map_some, Option.map_some, same]
  · rw [List.getElem?_set_ne here]

theorem map_id_modify {f : Path → Path} (same : ∀ p, (f p).id = p.id) (x : Nat) (paths : List Path) :
    (paths.modify x f).map Path.id = paths.map Path.id := by
  cases found : paths[x]? with
  | none => rw [modify_eq_self (getElem?_eq_none_iff.mp found)]
  | some p =>
    rw [modify_eq_set_getElem?, found]
    exact map_id_set found (same p)

theorem takeAll_ids {work : List (Nat × Successor)} {result : Except SolverError (List Nat)}
    (takes : Returns (takeAll solver work paths) w (result, paths') w') : paths'.map Path.id = paths.map Path.id := by
  induction work generalizing paths w result w' with
  | nil =>
    cases takes.of_pure
    rfl
  | cons head rest ih =>
    obtain ⟨place, way⟩ := head
    rw [takeAll] at takes
    split at takes
    · exact ih takes
    · rename_i p found
      obtain ⟨⟨said, q⟩, v, taken, takes⟩ := takes.of_bind
      have same := map_id_set found (take_took taken).id
      cases said with
      | error e =>
        cases takes.of_pure
        exact same
      | ok goesOn =>
        obtain ⟨⟨others, final⟩, v', takes, ends⟩ := takes.of_bind
        cases ends.of_pure
        exact (ih takes).trans same

/-- A step keeps the numbers of all paths and gives fresh ones to the copies. -/
theorem advance_ids (found : s.paths[i]? = some p) (advances : Returns (advance M solver s i) w t w') :
    ∃ n, t.paths.map Path.id = s.paths.map Path.id ++ range' s.nextId n ∧ t.nextId = s.nextId + n := by
  have stays {q : Path} (same : q.id = p.id) : ∃ n, (s.put i q).paths.map Path.id =
      s.paths.map Path.id ++ range' s.nextId n ∧ (s.put i q).nextId = s.nextId + n :=
    ⟨0, by rw [range'_zero, append_nil]; exact map_id_set found same, rfl⟩
  have stepped := (M.stepOn_prolongs p).id
  cases advance_advanced found advances with
  | broken fails =>
    rw [fails] at stepped
    exact stays stepped
  | failed steps asks | unmet steps asks =>
    rw [steps] at stepped
    exact stays stepped
  | @branched ways q t v w' steps asks branched =>
    rw [steps] at stepped
    obtain ⟨result, paths, takes, rfl⟩ := returns_branch.mp branched
    have forked : (s.forked i q (ways.length - 1)).map Path.id =
        s.paths.map Path.id ++ range' s.nextId (ways.length - 1) := by
      rw [forked, map_append, map_id_set found stepped, map_map, range'_eq_map_range]
      rfl
    have ids := (takeAll_ids takes).trans forked
    refine ⟨ways.length - 1, ?_⟩
    cases result with
    | ok running => exact ⟨ids, rfl⟩
    | error e =>
      refine ⟨?_, rfl⟩
      rw [← ids]
      exact map_id_modify (f := (·.fail (.solver e))) (fun _ => rfl) i paths

/-- The exploration comes from the seeds to the search and steps the paths of the first list on the way, in this order.
The second list tells for each path the place of the seed it descends from. -/
inductive Reached (M : Machine) (solver : Solver (StateM σ)) (seeds : List Path) (w₀ : σ) :
    List Path → List Nat → Search → σ → Prop
  | start : Reached M solver seeds w₀ [] (range seeds.length) (.start seeds) w₀
  | step {stepped : List Path} {origins : List Nat} {s t : Search} {w w' : σ} {i origin : Nat} {rest : List Nat}
    {p : Path} (before : Reached M solver seeds w₀ stepped origins s w) (pending : s.pending = i :: rest)
      (few : s.paths.length ≤ M.config.maxPaths) (found : s.paths[i]? = some p) (line : origins[i]? = some origin)
      (advances : Returns (advance M solver (s.awaiting rest) i) w t w') :
      Reached M solver seeds w₀ (stepped ++ [p])
        (origins ++ replicate (t.paths.length - s.paths.length) origin) t w'

variable {seeds stepped final : List Path} {origins : List Nat} {w₀ : σ} {what : String}

/-- Every log goes on from the log of the seed that is the origin of its path. -/
def Lines (seeds : List Path) (origins : List Nat) (paths : List Path) : Prop :=
  ∀ ⦃x : Nat⦄ ⦃q : Path⦄ ⦃o : Nat⦄, paths[x]? = some q → origins[x]? = some o →
    ∃ p, seeds[o]? = some p ∧ p.Adds q

structure Orderly (seeds : List Path) (origins : List Nat) (s : Search) : Prop where
  placed : s.Placed
  distinct : (s.paths.map Path.id).Nodup
  fresh : ∀ id ∈ s.paths.map Path.id, id < s.nextId
  kept : seeds.map Path.id <+: s.paths.map Path.id
  first : range seeds.length <+: origins
  length : origins.length = s.paths.length
  lines : Lines seeds origins s.paths

theorem orderly_start (distinct : (seeds.map Path.id).Nodup) : Orderly seeds (range seeds.length) (.start seeds) where
  placed := placed_start seeds
  distinct := distinct
  fresh id among := by
    have among : id ∈ seeds.map Path.id := among
    show id < ((seeds.map Path.id).max?.map (· + 1)).getD 0
    cases greatest : (seeds.map Path.id).max? with
    | none =>
      rw [max?_eq_none_iff.mp greatest] at among
      cases among
    | some m => exact Nat.lt_succ_of_le ((max?_eq_some_iff.mp greatest).2 id among)
  kept := prefix_refl _
  first := prefix_refl _
  length := length_range
  lines x q o found line := by
    obtain ⟨_, rfl⟩ := List.getElem?_eq_some_iff.mp line
    rw [getElem_range] at *
    exact ⟨q, found, Std.Refl.refl q⟩

theorem Orderly.advance {rest : List Nat} {origin : Nat} (orderly : Orderly seeds origins s)
    (pending : s.pending = i :: rest) (found : s.paths[i]? = some p) (line : origins[i]? = some origin)
    (advances : Returns (advance M solver (s.awaiting rest) i) w t w') :
    Orderly seeds (origins ++ List.replicate (t.paths.length - s.paths.length) origin) t := by
  obtain ⟨placed, settled⟩ := orderly.placed.pop pending
  have inRange := (List.getElem?_eq_some_iff.mp found).1
  obtain ⟨n, ids, next⟩ := advance_ids (s := s.awaiting rest) found advances
  obtain ⟨first, later, expands, rfl⟩ := advance_expands (s := s.awaiting rest) found advances
  have grown : (replace (s.awaiting rest) i first later).paths.length = s.paths.length + later.length := by
    simp [Search.replace]
  refine ⟨placed.replace settled inRange, ?_, ?_, ?_, ?_, ?_, ?_⟩
  · rw [ids]
    refine nodup_append.mpr ⟨orderly.distinct, nodup_range', ?_⟩
    rintro id old _ new rfl
    have below := orderly.fresh id old
    have above := (mem_range'_1.mp new).1
    exact absurd below (Nat.not_lt.mpr above)
  · intro id among
    rw [ids] at among
    rw [next]
    rcases mem_append.mp among with old | new
    · exact Nat.lt_add_right n (orderly.fresh id old)
    · exact (mem_range'_1.mp new).2
  · rw [ids]
    exact orderly.kept.trans (prefix_append _ _)
  · exact orderly.first.trans (prefix_append _ _)
  · rw [length_append, length_replicate, orderly.length, grown]
    omega
  · intro x q o there known
    rcases replace_found placed settled inRange there with ⟨_, old, _⟩ | ⟨goesOn, site, _⟩
    · have below : x < origins.length := orderly.length ▸ (List.getElem?_eq_some_iff.mp old).1
      rw [List.getElem?_append_left below] at known
      exact orderly.lines old known
    · -- the path that was stepped and its copies are of one line
      have same : o = origin := by
        rcases site_cases site with rfl | beyond
        · rw [List.getElem?_append_left (orderly.length ▸ inRange), line] at known
          exact (Option.some.inj known).symm
        · rw [List.getElem?_append_right (orderly.length ▸ beyond)] at known
          exact eq_of_mem_replicate (mem_of_getElem? known)
      subst same
      obtain ⟨seed, sown, before⟩ := orderly.lines found line
      exact ⟨seed, sown, before.trans (expands.expanded (mem_of_site site)).adds⟩

theorem Reached.orderly (reached : Reached M solver seeds w₀ stepped origins s w)
    (distinct : (seeds.map Path.id).Nodup) : Orderly seeds origins s := by
  induction reached with
  | start => exact orderly_start distinct
  | step before pending few found line advances ih => exact ih.advance pending found line advances

/-- When a budget has run out, the pending paths are failed and the others are left as they were. -/
structure GivenUp (s : Search) (what : String) (final : List Path) : Prop where
  pending : ∀ x ∈ s.pending, ∃ p cause, s.paths[x]? = some p ∧ cause.message = "budget exhausted: " ++ what ∧
    final[x]? = some { p with status := .failed cause }
  others : ∀ x, x ∉ s.pending → final[x]? = s.paths[x]?

inductive Ends (config : Config) (steps : Nat) (s : Search) (final : List Path) : Prop
  | done (idle : s.pending = []) (all : final = s.paths)
  | outOfSteps (busy : s.pending ≠ []) (spent : steps = config.maxSteps)
      (given : GivenUp s (toString config.maxSteps ++ " steps") final)
  | outOfPaths (busy : s.pending ≠ []) (left : steps < config.maxSteps) (many : config.maxPaths < s.paths.length)
      (given : GivenUp s (toString s.paths.length ++ " paths") final)

theorem GivenUp.log (given : GivenUp s what final) (found : final[x]? = some q) :
    ∃ p, s.paths[x]? = some p ∧ q.constraints = p.constraints := by
  by_cases pending : x ∈ s.pending
  · obtain ⟨p, cause, there, _, failed⟩ := given.pending x pending
    cases found.symm.trans failed
    exact ⟨p, there, rfl⟩
  · exact ⟨q, (given.others x pending).symm.trans found, rfl⟩

theorem Ends.log {config : Config} {steps : Nat} (ends : Ends config steps s final) (found : final[x]? = some q) :
    ∃ p, s.paths[x]? = some p ∧ q.constraints = p.constraints := by
  cases ends with
  | done idle all => exact ⟨q, all ▸ found, rfl⟩
  | outOfSteps _ _ given | outOfPaths _ _ _ given => exact given.log found

theorem giveUp_ids (s : Search) (b : Budget) : (s.giveUp b).map Path.id = s.paths.map Path.id := by
  unfold giveUp
  generalize s.paths = paths
  induction s.pending generalizing paths with
  | nil => rfl
  | cons i rest ih =>
    rw [foldl_cons, ih]
    exact map_id_modify (f := (·.giveUp b)) (fun _ => rfl) i paths

theorem givenUp_giveUp (placed : s.Placed) {b : Budget}
    (text : b.message = "budget exhausted: " ++ what) : GivenUp s what (s.giveUp b) := by
  refine ⟨fun x pending => ?_, fun x settled => giveUp_other settled⟩
  have length : (s.giveUp b).length = s.paths.length := by simpa using congrArg length (giveUp_ids s b)
  have found := getElem?_eq_getElem (length ▸ placed.inRange x pending)
  rcases giveUp_found found with ⟨p, _, there, same⟩ | ⟨settled, _⟩
  · exact ⟨p, .budget b, there, text, found.trans (congrArg some same)⟩
  · exact absurd pending settled

theorem search_reaches {clock : Clock (StateM σ)} {started left : Nat} (untimed : M.config.timeBudgetMs = none)
    (distinct : (seeds.map Path.id).Nodup) (reached : Reached M solver seeds w₀ stepped origins s w)
    (counted : stepped.length + left = M.config.maxSteps)
    (explores : Returns (search M solver clock started left s) w final w') :
    ∃ stepped origins s, Reached M solver seeds w₀ stepped origins s w' ∧ stepped.length ≤ M.config.maxSteps ∧
      Ends M.config stepped.length s final ∧ final.map Path.id = s.paths.map Path.id := by
  induction left generalizing stepped origins s w with
  | zero =>
    obtain ⟨rfl, rfl⟩ := returns_pure.mp explores
    refine ⟨stepped, origins, s, reached, by omega, ?_, giveUp_ids s _⟩
    by_cases idle : s.pending = []
    · exact .done idle (by simp [giveUp, idle])
    · exact .outOfSteps idle (by omega) (givenUp_giveUp (reached.orderly distinct).placed (String.append_assoc ..))
  | succ left ih =>
    rw [search] at explores
    split at explores
    · rename_i idle
      obtain ⟨rfl, rfl⟩ := returns_pure.mp explores
      exact ⟨stepped, origins, s, reached, by omega, .done idle rfl, rfl⟩
    · rename_i i rest pending
      have orderly := reached.orderly distinct
      have busy : s.pending ≠ [] := by simp [pending]
      obtain ⟨budget, v, checked, explores⟩ := explores.of_bind
      unfold exhausted at checked
      rw [untimed] at checked
      split at checked
      · rename_i many
        obtain ⟨rfl, rfl⟩ := returns_pure.mp checked
        obtain ⟨rfl, rfl⟩ := returns_pure.mp explores
        exact ⟨stepped, origins, s, reached, by omega,
          .outOfPaths busy (by omega) many (givenUp_giveUp orderly.placed (String.append_assoc ..)), giveUp_ids s _⟩
      · rename_i few
        obtain ⟨rfl, rfl⟩ := returns_pure.mp checked
        obtain ⟨t, v', advances, explores⟩ := explores.of_bind
        have inRange : i < s.paths.length := orderly.placed.inRange i (pending ▸ mem_cons_self ..)
        have found := getElem?_eq_getElem inRange
        have line := getElem?_eq_getElem (orderly.length ▸ inRange : i < origins.length)
        refine ih (.step reached pending (Nat.not_lt.mp few) found line advances) ?_ explores
        rw [length_append, length_singleton]
        omega

/-- Without a time budget and from seeds with numbers of their own, the exploration steps at most as often as it may.
Every seed keeps its place, all numbers stay distinct, and every log goes on from the log of the seed that the path
descends from.  When a budget runs out, the pending paths fail with its message and no other path changes. -/
theorem explored_within_budgets (solver : Solver (StateM σ)) (clock : Clock (StateM σ)) (config : Config)
    (prepared : Prepared) (untimed : config.timeBudgetMs = none) (distinct : (prepared.paths.map Path.id).Nodup)
    {w w' : σ} {final : List Path} (explores : Returns (explore solver clock config prepared) w final w') :
    ∃ started w₀ stepped origins s, Returns clock.now w started w₀ ∧
      Reached (prepared.machine config) solver prepared.paths w₀ stepped origins s w' ∧
      stepped.length ≤ config.maxSteps ∧
      (prepared.paths.map Path.id <+: final.map Path.id ∧ (final.map Path.id).Nodup) ∧
      (range prepared.paths.length <+: origins ∧ origins.length = final.length ∧
        Lines prepared.paths origins final) ∧
      Ends config stepped.length s final := by
  obtain ⟨started, w₀, reads, explores⟩ := explores.of_bind
  obtain ⟨stepped, origins, s, reached, few, ends, ids⟩ :=
    search_reaches (M := prepared.subject.machine _ config) untimed distinct .start (Nat.zero_add _) explores
  have orderly := reached.orderly distinct
  refine ⟨started, w₀, stepped, origins, s, reads, reached, few, ⟨ids ▸ orderly.kept, ids ▸ orderly.distinct⟩,
    ⟨orderly.first, ?_, fun x q o found line => ?_⟩, ends⟩
  · rw [orderly.length]
    simpa using (congrArg length ids).symm
  · obtain ⟨r, there, same⟩ := ends.log found
    obtain ⟨p, sown, adds⟩ := orderly.lines there line
    exact ⟨p, sown, Trans.trans adds (Path.adds_of_same same)⟩

def shortConfig : Config := { maxSteps := 2, timeBudgetMs := none }

def shortFinal : List Path := ((explore agreeable stopped shortConfig (guarded forkNode)).run ()).1

/-- One branch ends in time, and the other is given up. -/
theorem second_branch_given_up :
    shortConfig.timeBudgetMs = none ∧ ((guarded forkNode).paths.map Path.id).Nodup ∧
      Returns (explore agreeable stopped shortConfig (guarded forkNode)) () shortFinal () ∧
      shortFinal.map Path.status = [.failed (.budget (.steps 2)), .finished] ∧
      ∃ stepped origins s, Reached ((guarded forkNode).subject.machine {} shortConfig) agreeable [entering] () stepped
        origins s () ∧ stepped.length ≤ 2 ∧ (shortFinal.map Path.id).Nodup ∧ Lines [entering] origins shortFinal ∧
        Ends shortConfig stepped.length s shortFinal := by
  have explores : Returns (explore agreeable stopped shortConfig (guarded forkNode)) () shortFinal () := rfl
  have distinct : ((guarded forkNode).paths.map Path.id).Nodup := by decide
  obtain ⟨_, _, stepped, origins, s, _, reached, few, ⟨_, ids⟩, ⟨_, _, lines⟩, ends⟩ :=
    explored_within_budgets agreeable stopped shortConfig (guarded forkNode) rfl distinct explores
  exact ⟨rfl, distinct, explores, by decide +kernel, stepped, origins, s, reached, few, ids, lines, ends⟩

end Explore

end TokenAudit
