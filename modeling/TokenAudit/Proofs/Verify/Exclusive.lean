import Mathlib.Data.List.Pairwise
import TokenAudit.Proofs.Machine.Exclusion
import TokenAudit.Proofs.Verify.Descent
import TokenAudit.Proofs.Verify.Preparation

/-!
# Explored paths exclude each other

A place of a search is live while its path is pending and after the path has finished or thrown.
-/

namespace TokenAudit

open List Search TokenAudit.Path

variable {paths : List Path} {check : Check} {config : Config}

namespace Search

structure Live (s : Search) (x : Nat) (p : Path) : Prop where
  found : s.paths[x]? = some p
  counts : x ∈ s.pending ∨ p.status = .finished ∨ p.status = .threw

def Exclusive (s : Search) : Prop :=
  ∀ ⦃x y p q⦄, x ≠ y → s.Live x p → s.Live y q → p.Excludes q

end Search

namespace Explore

variable {may : Saying} {M : Machine} {s : Search} {i : Nat} {p q : Path}
  {rest : List Nat} {first : Path × Bool} {later items : List (Path × Bool)}

theorem Move.adds (move : Move p q) : p.Adds q := by
  cases move with
  | assume t => exact adds_of_push t rfl
  | _ => exact adds_of_same rfl

theorem Moves.adds (moves : Moves p q) : p.Adds q := moves.lift fun _ _ => Move.adds

/-- A path that goes on, or that has come to its end, among those that a step makes. -/
def Counts (item : Path × Bool) : Prop := item.2 = true ∨ item.1.status = .finished ∨ item.1.status = .threw

theorem not_counts_of_failed {cause : Failure} (failed : q.status = .failed cause) : ¬ Counts (q, false) := by
  simp [Counts, failed]

theorem Copied.isOpen {way : Successor} {goesOn : Bool} (copied : Copied may p way (q, goesOn))
    (running : p.status = .running) (counts : Counts (q, goesOn)) {E : Env} (satisfies : E.Satisfies q.constraints) :
    way.isOpen E = true := by
  rcases copied.moves with moves | ⟨rfl, id, rfl⟩
  · exact satisfies_assumeEdge (moves.adds.satisfies satisfies)
  · simp [Counts, fork, running] at counts

theorem Spreads.exclusive {ways : List Successor} {failure : Option SolverError}
    (spreads : Spreads may p ways items failure) (apart : ways.Pairwise Successor.Apart)
    (running : p.status = .running) : items.Pairwise fun a b => Counts a → Counts b → a.1.Excludes b.1 := by
  have copied := spreads.copied
  clear spreads
  induction copied with
  | nil => exact .nil
  | cons here later ih =>
    obtain ⟨heads, apart⟩ := pairwise_cons.mp apart
    refine .cons (fun item member counts counts' E both => ?_) (ih apart)
    obtain ⟨way, among, copied⟩ := exists_of_mem_right later member
    exact heads way among E ⟨here.isOpen running counts both.1, copied.isOpen running counts' both.2⟩

theorem Expands.exclusive (conditional : M.program.Conditional) (expands : Expands may M p items)
    (running : p.status = .running) : items.Pairwise fun a b => Counts a → Counts b → a.1.Excludes b.1 := by
  unfold Expands at expands
  split at expands
  · subst expands
    exact pairwise_singleton _ _
  · rename_i ways r steps
    have runs : Machine.Runs M.step p ways r := steps
    have apart := Machine.step_apart conditional runs
    have running : r.status = .running := (Machine.step_sameTask runs).status.trans running
    obtain ⟨said, _, expands⟩ := expands
    split at expands
    · subst expands
      exact pairwise_singleton _ _
    · subst expands
      exact pairwise_singleton _ _
    · obtain ⟨failure, branches⟩ := expands
      cases branches with
      | stuck => exact pairwise_singleton _ _
      | taken spreads => exact spreads.exclusive apart running
      | halted spreads =>
        obtain ⟨_, exclusive⟩ := pairwise_cons.mp (spreads.exclusive apart running)
        refine .cons (fun item _ counts => absurd counts (not_counts_of_failed rfl)) ?_
        have counts {item : Path × Bool} (counts : Counts (item.1, false)) : Counts item := by
          simpa [Counts] using Or.inr counts
        exact exclusive.map _ fun a b excludes first second => excludes (counts first) (counts second)

theorem replace_exclusive (conditional : M.program.Conditional) (formed : s.WellFormed)
    (pending : s.pending = i :: rest) (found : s.paths[i]? = some p) (exclusive : s.Exclusive)
    (expands : Expands may M p (first :: later)) :
    (replace (s.awaiting rest) i first later).Exclusive := by
  obtain ⟨placed, settled⟩ := formed.placed.pop pending
  obtain ⟨_, here, running⟩ := formed.head pending
  cases found.symm.trans here
  have inRange := (List.getElem?_eq_some_iff.mp found).1
  have here : s.Live i p := ⟨found, .inl (pending ▸ mem_cons_self ..)⟩
  have cases_of {x : Nat} {q : Path} (live : (replace (s.awaiting rest) i first later).Live x q) :
      (x ≠ i ∧ s.Live x q) ∨
        ∃ goesOn, ((q, goesOn), x) ∈ sites (s.awaiting rest) i first later ∧ Counts (q, goesOn) := by
    rcases replace_found placed settled inRange live.found with ⟨apart, old, same⟩ | ⟨goesOn, site, same⟩
    · exact .inl ⟨apart, old, live.counts.imp_left fun goes => pending ▸ mem_cons_of_mem i (same.mp goes)⟩
    · exact .inr ⟨goesOn, site, live.counts.imp_left same.mp⟩
  -- an old path excludes the stepped one, and so whatever comes of it
  have mixed {x y : Nat} {q q' : Path} {goesOn : Bool} (apart : x ≠ i) (live : s.Live x q)
      (site : ((q', goesOn), y) ∈ sites (s.awaiting rest) i first later) (counts : Counts (q', goesOn)) :
      q.Excludes q' := by
    have expanded := expands.expanded (mem_of_site site)
    rcases expanded.descends with ⟨cause, failed⟩ | ⟨ways, r, runs, moves⟩
    · cases goesOn with
      | false => exact absurd counts (not_counts_of_failed failed)
      | true => exact absurd (expanded.running.symm.trans failed) (by simp [running])
    · exact (exclusive apart live here).adds (Std.Refl.refl q) (Trans.trans (Machine.step_adds runs) moves.adds)
  intro x y q q' differ left right
  rcases cases_of left with ⟨apart, old⟩ | ⟨goesOn, site, counts⟩
  · rcases cases_of right with ⟨apart', old'⟩ | ⟨goesOn', site', counts'⟩
    · exact exclusive differ old old'
    · exact mixed apart old site' counts'
  · rcases cases_of right with ⟨apart', old'⟩ | ⟨goesOn', site', counts'⟩
    · exact (mixed apart' old' site counts).symm
    · have paired : (sites (s.awaiting rest) i first later).Pairwise
          fun a b => Counts a.1 → Counts b.1 → a.1.1.Excludes b.1.1 := by
        refine List.Pairwise.of_map (S := fun a b => Counts a → Counts b → a.1.Excludes b.1) Prod.fst (fun _ _ => id) ?_
        simpa [sites] using expands.exclusive conditional running
      have : Std.Symm fun a b : (Path × Bool) × Nat => Counts a.1 → Counts b.1 → a.1.1.Excludes b.1.1 :=
        ⟨fun _ _ excludes second first => (excludes first second).symm⟩
      exact paired.forall site site' (fun same => differ (congrArg Prod.snd same)) counts counts'

end Explore

namespace Resolve

variable {K : Interest → Prop} {p q : Path}

theorem Registration.adds (registration : Registration K p q) : p.Adds q := by
  cases registration with
  | read c v => exact (Machine.path_read_changes (K := fun _ => False) p c v).lift fun _ _ => Machine.Change.adds
  | assume t => exact adds_of_push t rfl
  | _ => exact adds_of_same rfl

theorem Registrations.adds (registrations : Registrations K p q) : p.Adds q :=
  registrations.lift fun _ _ => Registration.adds

end Resolve

theorem Path.value_of_read (p : Path) (c : Contract) (v : Variable) :
    (p.read c v).1 = (p.bindings.get? v.id).getD (symbolFor (p.symbolBase v.id) v.type) := by
  unfold read
  split
  · rename_i bound
    rw [bound, Option.getD_some]
  · rename_i unbound
    rw [unbound, Option.getD_none]

namespace Prepare

open Resolve

variable {S : Subject} {n : Nat} {v : Variable} {rest : List Variable}

theorem assumeLengths_holds {r r' : Resolution} {u : Unit}
    (resolves : Resolves (assumeLengths S n (v :: rest)) r u r') :
    ∃ array, (r.path.read S.contract v).1 = .term array ∧ ∀ E : Env, E.Satisfies r'.path.constraints →
      E.Holds (.eq (array.derived "length" .int) (.int n)) := by
  obtain ⟨array, r₁, reads, resolves⟩ := resolves_bind.mp resolves
  obtain ⟨t, r₂, built, resolves⟩ := resolves_bind.mp resolves
  obtain ⟨_, r₃, assumes, later⟩ := resolves_bind.mp resolves
  have equation : t = .eq (array.derived "length" .int) (.int n) := by
    cases built
    rfl
  refine ⟨array, (resolves_read.mp reads).1, fun E satisfies => ?_⟩
  have before := (assumeLengths_registers (K := fun _ => False) S n rest later).path.adds.satisfies satisfies
  rw [← resolves_modify.mp assumes] at before
  rw [← equation]
  exact (Env.satisfies_push.mp before).2

theorem pairwise_excludes_of_values (length : Term) {values : List Nat}
    (fixed : List.Forall₂
      (fun (n : Nat) p => ∀ E : Env, E.Satisfies p.constraints → E.Holds (.eq length (.int n))) values paths)
    (distinct : values.Nodup) : paths.Pairwise Path.Excludes := by
  induction fixed with
  | nil => exact .nil
  | cons here later ih =>
    obtain ⟨fresh, distinct⟩ := nodup_cons.mp distinct
    refine .cons (fun q member E both => ?_) (ih distinct)
    obtain ⟨m, among, there⟩ := exists_of_mem_right later member
    have left := of_decide_eq_true (here E both.1)
    have right := of_decide_eq_true (there E both.2)
    have same := left.symm.trans right
    simp only [Term.eval, Datum.int.injEq, Int.natCast_inj] at same
    exact fresh (same ▸ among)

theorem withLength_holds {base p : Path} {id : Nat} (arrays : arrayParams S.function = v :: rest)
    (built : withLength S base id n = .ok p) :
    ∃ array, (base.read S.contract v).1 = .term array ∧
      ∀ E : Env, E.Satisfies p.constraints → E.Holds (.eq (array.derived "length" .int) (.int n)) := by
  obtain ⟨r, resolves, rfl⟩ := withLength_ends built
  rw [arrays] at resolves
  obtain ⟨array, reads, holds⟩ := assumeLengths_holds resolves
  -- neither the number nor the length matters to what is read
  have same : (({ base.fork id with arrayLength := some n } : Path).read S.contract v).1 =
      (base.read S.contract v).1 := by
    rw [value_of_read, value_of_read]
    rfl
  exact ⟨array, same ▸ reads, holds⟩

theorem startPaths_exclusive {starts : List Path} (distinct : (lengthsFor config check).Nodup)
    (started : startPaths S config check = .ok starts) : starts.Pairwise Path.Excludes := by
  obtain ⟨base, -, rfl | ⟨arrays, started⟩⟩ := startPaths_ends started
  · exact pairwise_singleton _ _
  obtain ⟨v, rest, arrays⟩ := ne_nil_iff_exists_cons.mp arrays
  have built := started.imp fun length p built => withLength_holds arrays built
  cases value : (base.path.read S.contract v).1 with
  | term array =>
    refine pairwise_excludes_of_values (array.derived "length" .int) ?_ distinct
    rw [← zipIdx_map_fst 0 (lengthsFor config check), forall₂_map_left_iff]
    refine built.imp fun length p fixed => ?_
    obtain ⟨array', reads, holds⟩ := fixed
    cases value.symm.trans reads
    exact holds
  | tuple items =>
    have none : starts = [] := eq_nil_iff_forall_not_mem.mpr fun p member => by
      obtain ⟨_, _, array, reads, _⟩ := exists_of_mem_right built member
      cases value.symm.trans reads
    rw [none]
    exact .nil

end Prepare

theorem Search.start_exclusive (exclusive : paths.Pairwise Path.Excludes) : (start paths).Exclusive := by
  intro x y p q differ left right
  obtain ⟨inRange, rfl⟩ := List.getElem?_eq_some_iff.mp left.found
  obtain ⟨inRange', rfl⟩ := List.getElem?_eq_some_iff.mp right.found
  rcases Nat.lt_or_gt_of_ne differ with before | after
  · exact pairwise_iff_getElem.mp exclusive x y inRange inRange' before
  · exact (pairwise_iff_getElem.mp exclusive y x inRange' inRange after).symm

theorem pairwise_excludes_of_adds {later : List Path} (exclusive : paths.Pairwise Path.Excludes)
    (adds : List.Forall₂ Path.Adds paths later) : later.Pairwise Path.Excludes := by
  induction adds with
  | nil => exact .nil
  | cons here rest ih =>
    obtain ⟨heads, exclusive⟩ := pairwise_cons.mp exclusive
    refine .cons (fun q member => ?_) (ih exclusive)
    obtain ⟨p, among, adds⟩ := exists_of_mem_right rest member
    exact (heads p among).adds here adds

theorem prepared_exclusive {program : Program} {contract : String} {target : Target} {prepared : Prepared}
    (lengths : config.arrayLengths.Nodup) (throwLengths : config.throwArrayLengths.Nodup)
    (prepares : prepare (some program) config contract target check = .ok prepared) :
    prepared.subject.program = program ∧ prepared.paths.Pairwise Path.Excludes := by
  have distinct : (Prepare.lengthsFor config check).Nodup := by
    unfold Prepare.lengthsFor
    split
    · exact throwLengths
    · exact lengths
  obtain ⟨located, starts, used, started, initial, registered⟩ :=
    Prepare.prepare_registers check.permits_all prepares
  have exclusive := Prepare.startPaths_exclusive distinct started
  have adds : List.Forall₂ Path.Adds used prepared.paths := registered.imp fun _ _ => Resolve.Registrations.adds
  exact ⟨(Prepare.subjectOf_located located).same, pairwise_excludes_of_adds (exclusive.sublist initial.sublist) adds⟩

/-- The paths of an exploration that have finished or thrown exclude each other. -/
theorem explored_paths_exclusive {σ : Type} {solver : Solver (StateM σ)} {clock : Clock (StateM σ)}
    {program : Program} {config : Config} {contract : String} {target : Target} {check : Check}
    {prepared : Prepared} (conditional : program.Conditional) (lengths : config.arrayLengths.Nodup)
    (throwLengths : config.throwArrayLengths.Nodup)
    (prepares : prepare (some program) config contract target check = .ok prepared) {w w' : σ}
    {final : List Path} (explores : Returns (explore solver clock config prepared) w final w') {i j : Nat}
    {p q : Path} (differ : i ≠ j) (first : final[i]? = some p) (second : final[j]? = some q)
    (ended : p.status = .finished ∨ p.status = .threw) (ended' : q.status = .finished ∨ q.status = .threw) :
    ∀ E : Env, ¬ (E.Satisfies p.constraints ∧ E.Satisfies q.constraints) := by
  have running := Prepare.prepared_running prepares
  obtain ⟨rfl, exclusive⟩ := prepared_exclusive lengths throwLengths prepares
  obtain ⟨started, v, _, explores⟩ := explores.of_bind
  obtain ⟨u, exclusive, ends⟩ := Explore.search_keeps
    (Explore.replace_exclusive conditional) (wellFormed_start running) (start_exclusive exclusive)
    explores
  have live {x : Nat} {p : Path} (found : final[x]? = some p)
      (ended : p.status = .finished ∨ p.status = .threw) : u.Live x p := by
    rcases ends with ⟨rfl, _⟩ | ⟨b, rfl⟩
    · exact ⟨found, .inr ended⟩
    · rcases giveUp_found found with ⟨_, _, _, rfl⟩ | ⟨_, old⟩
      · simp [Path.giveUp] at ended
      · exact ⟨old, .inr ended⟩
  exact exclusive differ (live first ended) (live second ended')

def batch : Program where
  contracts := [{
    name := "Token"
    functions := [{
      name := "batch"
      params := [⟨"items", .array (.named "uint256") none⟩, ⟨"flag", .named "bool"⟩]
      nodes := [
        {
          kind := .ifBranch
          instructions := [.condition (.var ⟨"flag", .param "batch" 1, .named "bool"⟩)]
          sons := [1, 2] },
        { id := 1 }, { id := 2 }] }] }]

theorem batch_conditional : batch.Conditional := by
  intro c contract f function n node branching
  cases mem_singleton.mp contract
  cases mem_singleton.mp function
  rcases mem_cons.mp node with rfl | node
  · exact ⟨_, rfl⟩
  · rcases mem_cons.mp node with rfl | node
    · exact absurd branching (by decide)
    · cases mem_singleton.mp node
      exact absurd branching (by decide)

def batchConfig : Config := { timeBudgetMs := none, maxSteps := 20 }

def batchPrepared : Except VerifyError Prepared :=
  prepare (some batch) batchConfig "Token" (.named "batch" none) (.returns default)

def agreeable : Solver (StateM Unit) := ⟨fun _ => pure (.ok .sat), fun _ _ => pure (.ok none)⟩

def batchRun (prepared : Prepared) : StateM Unit (List Path) := explore agreeable ⟨pure 0⟩ batchConfig prepared

theorem batch_finishes :
    batchPrepared.toOption.map (fun prepared => ((batchRun prepared).run ()).1.map status) =
      some (List.replicate 6 .finished) := by
  decide +kernel

theorem batch_paths_exclusive : ∃ prepared final p q, batchPrepared = .ok prepared ∧
    Returns (batchRun prepared) () final () ∧ final[0]? = some p ∧ final[5]? = some q ∧
    p.status = .finished ∧ q.status = .finished ∧
    ∀ E : Env, ¬ (E.Satisfies p.constraints ∧ E.Satisfies q.constraints) := by
  have finishes := batch_finishes
  cases prepares : batchPrepared with
  | error e =>
    rw [prepares] at finishes
    cases finishes
  | ok prepared =>
    rw [prepares, Except.toOption, Option.map_some] at finishes
    have explores : Returns (batchRun prepared) () ((batchRun prepared).run ()).1 () := rfl
    generalize ((batchRun prepared).run ()).1 = final at finishes explores
    have statuses : final.map status = List.replicate 6 .finished := Option.some.inj finishes
    have finished (k : Nat) (inRange : k < 6) : ∃ p, final[k]? = some p ∧ p.status = .finished := by
      have at_place := congrArg (·[k]?) statuses
      simp only [List.getElem?_map, List.getElem?_replicate, inRange, if_true, Option.map_eq_some_iff] at at_place
      exact at_place
    obtain ⟨p, first, ended⟩ := finished 0 (by decide)
    obtain ⟨q, second, ended'⟩ := finished 5 (by decide)
    refine ⟨prepared, final, p, q, rfl, explores, first, second, ended, ended', ?_⟩
    exact explored_paths_exclusive batch_conditional (by decide) (by decide) prepares explores (by decide) first
      second (.inl ended) (.inl ended')

end TokenAudit
