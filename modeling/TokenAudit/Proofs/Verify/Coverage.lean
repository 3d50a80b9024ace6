import TokenAudit.Proofs.Verify.Preparation

/-!
# Tracking covers what a check registers

A check registers on its paths what it will ask about, and its tracking says what a path records while it runs.  The
two are computed apart.
-/

namespace TokenAudit

open List

open Resolve

def Path.Registered (p : Path) : Interest → Prop
  | .condition => p.required ≠ []
  | .writes => p.varsTracked ≠ .empty
  | .levels => p.keyLevels ≠ .empty
  | .events => p.eventsTracked ≠ .empty
  | .eventArgs => p.eventArgsTracked ≠ .empty
  | .callArgs => p.callArgsTracked ≠ .empty
  | .checks => p.checkTracked ≠ []
  | .results => p.returnsTracked ≠ .empty

def Tracking.Serves (t : Tracking) : Interest → Prop
  | .condition => True
  | .writes => t.write = true
  | .levels => t.write = true ∧ t.writeCount = true ∧ t.writtenKey = true
  | .events => t.emit = true
  | .eventArgs => t.emit = true ∧ t.emitArgs = true
  | .callArgs => t.callArgs = true
  | .checks => t.usedInCheck = true ∧ t.defBy = true
  | .results => True

def Tracking.Covers (t : Tracking) (p : Path) : Prop := ∀ interest, p.Registered interest → t.Serves interest

/-- A result or a call is checked under a condition that asks whether a variable was written. -/
def Check.OverlooksWrites : Check → Prop
  | .returns v => ∃ c ∈ v.cond, c.writtenSelectors ≠ []
  | .calls v => ∃ a ∈ v.args, ∃ c ∈ a.cond, c.writtenSelectors ≠ []
  | _ => False

theorem Tracking.Serves.writing {t : Tracking} {interest : Interest} (serves : t.Serves interest) :
    ({ t with write := true } : Tracking).Serves interest := by
  cases interest with
  | writes => rfl
  | levels => exact ⟨rfl, serves.2⟩
  | _ => exact serves

namespace Check

variable {check : Check} {c : Condition} {interest : Interest}

def Allows (check : Check) (interest : Interest) : Prop :=
  check.tracking.Serves interest ∨ interest = .writes ∧ check.OverlooksWrites

theorem tracking_used (member : c ∈ check.conditions) (mentions : c.mentionsUsedInCheck = true) :
    check.tracking.usedInCheck = true ∧ check.tracking.defBy = true := by
  have some_mentions : check.conditions.any Condition.mentionsUsedInCheck = true :=
    any_eq_true.mpr ⟨c, member, mentions⟩
  unfold tracking
  rw [if_pos some_mentions]
  exact ⟨rfl, rfl⟩

theorem tracking_serves (other : interest ≠ .checks) (serves : check.kindTracking.Serves interest) :
    check.tracking.Serves interest := by
  unfold tracking
  split
  · cases interest with
    | checks => exact absurd rfl other
    | _ => exact serves
  · exact serves

theorem condition_allowed (member : c ∈ check.conditions) : c.Permits check.Allows := by
  refine ⟨fun asks => ?_, fun mentions => .inl (tracking_used member mentions), fun _ => .inl trivial⟩
  have writing (serves : check.kindTracking.write = true) : check.Allows .writes :=
    .inl (tracking_serves nofun serves)
  cases check with
  | throws v => exact writing rfl
  | returns v => exact .inr ⟨rfl, c, Option.mem_toList.mp member, asks⟩
  | emits v => exact writing rfl
  | assigns v => cases member
  | calls v =>
    obtain ⟨a, among, cond⟩ := mem_filterMap.mp member
    exact .inr ⟨rfl, a, among, c, cond, asks⟩
  | orders v => cases member

theorem kind_allowed (other : interest ≠ .checks) (serves : check.kindTracking.Serves interest) :
    check.Allows interest :=
  .inl (tracking_serves other serves)

/-- A check asks for nothing that its tracking does not serve, the overlooked writes apart. -/
theorem permits_allowed (check : Check) : check.Permits check.Allows := by
  cases check with
  | throws v => exact ⟨.inl trivial, condition_allowed (mem_singleton_self _)⟩
  | returns v => exact fun c asked => ⟨.inl trivial, condition_allowed (Option.mem_toList.mpr asked)⟩
  | emits v =>
    have stated (c : Condition) (asked : c ∈ v.stateCond) : c ∈ (Check.emits v).conditions := by
      simp [conditions, Option.mem_def.mp asked]
    have required (c : Condition) (asked : c ∈ v.cond) : c ∈ (Check.emits v).conditions := by
      simp [conditions, Option.mem_def.mp asked]
    have argued (a : ArgCheck) (among : a ∈ v.args) (c : Condition) (asked : c ∈ a.cond) :
        c ∈ (Check.emits v).conditions :=
      mem_append_right _ (mem_filterMap.mpr ⟨a, among, asked⟩)
    refine ⟨fun c asked => ⟨.inl trivial, condition_allowed (required c asked)⟩, kind_allowed nofun rfl,
      fun c asked => condition_allowed (stated c asked), fun changes => ?_,
      fun a among => ⟨?_, fun _ _ _ => .inl trivial, fun c asked => ?_⟩⟩
    · exact kind_allowed nofun ⟨rfl, rfl, by simpa [kindTracking] using changes⟩
    · exact kind_allowed nofun ⟨rfl, rfl⟩
    · exact condition_allowed (argued a among c asked)
  | assigns v =>
    refine ⟨kind_allowed nofun rfl, fun event named => ?_⟩
    have emits : v.event.isSome = true := by rw [Option.mem_def.mp named, Option.isSome_some]
    exact ⟨kind_allowed nofun emits, kind_allowed nofun ⟨emits, emits⟩⟩
  | calls v =>
    refine ⟨.inl trivial, fun _ => .inl trivial, fun a among =>
      ⟨kind_allowed nofun ?_, fun _ _ _ => .inl trivial, fun c asked => ?_⟩⟩
    · have some_args : v.args ≠ [] := ne_nil_of_mem among
      simpa [kindTracking, Tracking.Serves] using some_args
    · exact condition_allowed (mem_filterMap.mpr ⟨a, among, asked⟩)
  | orders v =>
    cases v with
    | mk target orderedBy =>
      cases target with
      | event name arg => exact ⟨kind_allowed nofun rfl, kind_allowed nofun ⟨rfl, rfl⟩⟩
      | written state level => exact ⟨kind_allowed nofun rfl, kind_allowed nofun ⟨rfl, rfl, rfl⟩⟩

end Check

namespace Resolve

variable {K : Interest → Prop} {p q : Path}

/-- Nothing is registered on the second path that is neither on the first nor among `K`. -/
def Widens (K : Interest → Prop) (p q : Path) : Prop :=
  ∀ interest, q.Registered interest → p.Registered interest ∨ K interest

instance : Std.Refl (Widens K) := ⟨fun _ _ => .inl⟩

instance : Trans (Widens K) (Widens K) (Widens K) where
  trans first second := fun interest registered =>
    (second interest registered).elim (first interest) .inr

theorem widens_of_task (same : p.SameTask q) : Widens K p q := by
  intro interest registered
  have on_task (r : Path) : r.task.Registered interest ↔ r.Registered interest := by
    cases interest <;> exact Iff.rfl
  left
  rw [← on_task, ← (show q.task = p.task from same)]
  exact registered

theorem Registration.widens (registration : Registration K p q) : Widens K p q := by
  intro interest registered
  cases registration with
  | read c v => exact widens_of_task (Machine.read_sameTask p c v) interest registered
  | _ =>
    -- a field that was set was allowed to be, every other one is the old one
    cases interest
    all_goals
      first
      | exact .inl registered
      | exact .inr (by assumption)

def TracksWrite (p : Path) : Prop := p.varsTracked ≠ .empty

theorem insert_ne_empty (s : OrdSet Nat) (i : Nat) : s.insert i ≠ .empty := by
  intro empty
  have member : i ∈ (s.insert i).toList := (OrdSet.mem_insertInto i i s.toList).mpr (.inl rfl)
  rw [empty] at member
  cases member

instance : Lasting TracksWrite where
  kept {p q} registration tracked := by
    cases registration with
    | read c v =>
      have same := congrArg Path.varsTracked (Machine.read_sameTask p c v)
      rw [TracksWrite, show (p.read c v).2.varsTracked = p.varsTracked from same]
      exact tracked
    | writes i allowed => exact insert_ne_empty _ i
    | _ => exact tracked

section

variable (S : Subject) (opts : Reading)

mutual

theorem condition_tracks : ∀ {c : Condition}, c.writtenSelectors ≠ [] → Ensures TracksWrite (condition S opts c)
  | .comparison left right op, asks => absurd rfl asks
  | .logic parts op, asks => .first (conditions_tracks asks) fun _ => registers_pure _
  | .written value change, _ => by
    refine .later fun found => .first ?_ fun _ => registers_pure _
    intro r u r' resolves
    rw [← resolves_modify.mp resolves]
    exact insert_ne_empty _ found.1
  | .usedInCheck value, asks => absurd rfl asks

theorem conditions_tracks : ∀ {cs : List Condition}, Condition.allWrittenSelectors cs ≠ [] →
    Ensures TracksWrite (conditions S opts cs)
  | [], asks => absurd rfl asks
  | c :: rest, asks => by
    have registers (t : Term) : Registers (fun _ => True) (do
        let ts ← conditions S opts rest
        pure (t :: ts)) :=
      .bind (conditions_registers S opts fun c _ => c.permits_all) fun _ => registers_pure _
    by_cases here : c.writtenSelectors = []
    · rw [Condition.allWrittenSelectors, here, nil_append] at asks
      exact .later fun _ => .first (conditions_tracks asks) fun _ => registers_pure _
    · exact .first (condition_tracks here) registers

end

end

end Resolve

namespace Prepare

variable (S : Subject) (opts : Reading) {c : Condition} {within : Term → Term} {a : ArgCheck}

theorem returns_tracks {v : ReturnCheck} (asked : c ∈ v.cond) (asks : c.writtenSelectors ≠ []) :
    Ensures TracksWrite (returns S opts v) := by
  unfold returns demandCondition
  rw [Option.mem_def.mp asked]
  exact .first (.first (condition_tracks S opts asks) fun _ => demandAll_registers trivial _) fun _ =>
    registers_pure _

theorem argumentBugs_tracks {arg : Term} (asked : c ∈ a.cond) (asks : c.writtenSelectors ≠ []) :
    Ensures TracksWrite (argumentBugs S opts within arg a) := by
  have tracks (bugs : List Term) : Ensures TracksWrite (do
      let t ← condition S opts c
      let others ← pure [within (Term.mkNot t)]
      pure (bugs ++ others)) :=
    .first (condition_tracks S opts asks) fun _ => .bind (registers_pure _) fun _ => registers_pure _
  unfold argumentBugs
  rw [Option.mem_def.mp asked]
  cases a.value with
  | none => exact .later fun _ => tracks _
  | some s =>
    refine .later fun value => ?_
    cases value with
    | none => exact .later fun _ => tracks _
    | some t => exact .later fun _ => .later fun _ => tracks _

theorem callArgumentBugs_tracks {callee : String} {args : List ArgCheck} (among : a ∈ args) (asked : c ∈ a.cond)
    (asks : c.writtenSelectors ≠ []) : Ensures TracksWrite (callArgumentBugs S opts callee within args) := by
  induction args with
  | nil => cases among
  | cons b rest ih =>
    have registers (bugs : List Term) : Registers (fun _ => True) (do
        let others ← callArgumentBugs S opts callee within rest
        pure (bugs ++ others)) :=
      .bind (callArgumentBugs_registers S opts callee within fun a _ => ⟨trivial, a.permits_all⟩) fun _ =>
        registers_pure _
    refine .later fun _ => ?_
    rcases mem_cons.mp among with rfl | among
    · exact .first (argumentBugs_tracks S opts asked asks) registers
    · exact .later fun _ => .first (ih among) fun _ => registers_pure _

theorem calls_tracks {v : CallCheck} (among : a ∈ v.args) (asked : c ∈ a.cond) (asks : c.writtenSelectors ≠ []) :
    Ensures TracksWrite (calls S opts v) := by
  unfold calls
  refine .unless (.later fun _ => .later fun receiver => ?_)
  dsimp only
  split
  all_goals
    exact .later fun terms => .later fun _ => .later fun _ => .later fun _ => .later fun _ =>
      .first (callArgumentBugs_tracks S _ among asked asks) fun _ =>
        .bind (setBuggy_registers _) fun _ => registers_pure _

theorem setup_tracks {check : Check} (overlooks : check.OverlooksWrites) :
    Ensures TracksWrite (setup S opts check) := by
  cases check with
  | returns v =>
    obtain ⟨c, asked, asks⟩ := overlooks
    exact returns_tracks S opts asked asks
  | calls v =>
    obtain ⟨a, among, c, asked, asks⟩ := overlooks
    exact calls_tracks S opts among asked asks
  | _ => exact overlooks.elim

end Prepare

theorem Check.OverlooksWrites.untracked {check : Check} (overlooks : check.OverlooksWrites) :
    check.tracking.write = false := by
  have kind : check.kindTracking.write = false := by
    cases check with
    | returns v | calls v => rfl
    | _ => exact overlooks.elim
  unfold tracking
  split
  · exact kind
  · exact kind

/-- The tracking of a check covers what is registered on a prepared path exactly when the check is not one of
a result or a call under a condition on a write; and the record of writes is all that is missing then. -/
theorem covers_iff_writes_seen {program : Option Program} {config : Config} {contract : String} {target : Target}
    {check : Check} {prepared : Prepared} (prepares : prepare program config contract target check = .ok prepared)
    {p : Path} (member : p ∈ prepared.paths) :
    (check.tracking.Covers p ↔ ¬ check.OverlooksWrites) ∧
      ({ check.tracking with write := true } : Tracking).Covers p := by
  have widens : Widens check.Allows prepared.subject.entryPath p := by
    refine Prepare.prepare_lift (fun _ _ => Registration.widens) (fun p id n => ?_) check.permits_allowed prepares
      p member
    intro interest registered
    cases interest <;> exact .inl registered
  have allowed {interest : Interest} (registered : p.Registered interest) : check.Allows interest := by
    refine (widens interest registered).resolve_left fun before => ?_
    cases interest <;> exact before rfl
  refine ⟨⟨fun covers overlooks => ?_, fun seen interest registered => ?_⟩, fun interest registered => ?_⟩
  · have tracks (S : Subject) (opts : Reading) := Prepare.setup_tracks S opts overlooks
    have records := covers .writes (Prepare.prepare_ensures tracks prepares p member)
    have untracked := overlooks.untracked
    rw [Tracking.Serves, untracked] at records
    cases records
  · exact (allowed registered).resolve_right fun overlooked => seen overlooked.2
  · rcases allowed registered with serves | ⟨rfl, _⟩
    · exact serves.writing
    · rfl

def totalled : Program where
  contracts := [
    {
      name := "Token"
      stateVariables := [
        { name := "total", type := .named "uint256" }]
      functions := [
        {
          name := "mint"
          returns := [.named "bool"]
          nodes := [{ instructions := [.ret [.const (.bool true)]] }] }] }]

def totalWritten : Condition := .logic [.written (.stateVar "total" []) .unspecified] .all

theorem throw_on_write_covered : ∃ prepared, ∃ p ∈ prepared.paths,
    prepare (some totalled) default "Token" (.named "mint" none) (.throws ⟨totalWritten, .throws⟩) = .ok prepared ∧
      p.varsTracked.toList = [0] ∧ (Check.throws ⟨totalWritten, .throws⟩).tracking.Covers p := by
  have shown : (prepare (some totalled) default "Token" (.named "mint" none)
      (.throws ⟨totalWritten, .throws⟩)).toOption.map (fun prepared =>
        prepared.paths.map (·.varsTracked.toList)) = some [[0]] := by decide +kernel
  cases prepares : prepare (some totalled) default "Token" (.named "mint" none)
      (.throws ⟨totalWritten, .throws⟩) with
  | error e =>
    rw [prepares] at shown
    cases shown
  | ok prepared =>
    rw [prepares] at shown
    obtain ⟨p, paths, tracked⟩ := map_eq_singleton_iff.mp (Option.some.inj shown)
    have member : p ∈ prepared.paths := paths ▸ mem_singleton_self p
    exact ⟨prepared, p, member, rfl, tracked, (covers_iff_writes_seen prepares member).1.mpr id⟩

/-- A result that is due only when the total was written: the total is tracked, its writes are not recorded. -/
theorem result_on_write_uncovered :
    (Check.returns ⟨.constant (.bool true), some totalWritten, true⟩).tracking.write = false ∧
      (prepare (some totalled) default "Token" (.named "mint" none)
        (.returns ⟨.constant (.bool true), some totalWritten, true⟩)).toOption.map (fun prepared =>
          (prepared.tracking.write, prepared.paths.map (·.varsTracked.toList))) = some (false, [[0]]) := by
  decide +kernel

end TokenAudit
