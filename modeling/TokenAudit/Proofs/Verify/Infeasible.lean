import TokenAudit.Proofs.Verify.Trigger
import TokenAudit.Proofs.Verify.Verdict

/-!
# Infeasible paths and the verdict

A finished path is dead when no environment satisfies its log.  Every question about it has the answer no.
-/

namespace TokenAudit

open List Solver Judge Report Resolve

/-- The solver gives models by a function, and none of unsatisfiable assertions. -/
def Solver.GivesModels {σ : Type} (solver : Solver (StateM σ)) (model : List Term → List Term → Option Model) :
    Prop :=
  ∀ ts terms, Follows (solver.model ts terms) (.ok (model ts terms)) ∧ (¬ Satisfiable ts → model ts terms = none)

namespace Solver

open Classical in
noncomputable def oracle (model : List Term → List Term → Option Model) : Solver Id where
  checkSat ts := pure (.ok (if Satisfiable ts then .sat else .unsat))
  model ts terms := pure (.ok (model ts terms))

def mute : Solver Id where
  checkSat _ := pure (.ok .unsat)
  model _ _ := pure (.ok none)

variable {σ : Type} {solver : Solver (StateM σ)} {model : List Term → List Term → Option Model}

theorem Truthful.consults_oracle (truthful : solver.Truthful) (models : solver.GivesModels model) :
    solver.Consults (oracle model) [] where
  sat ts _ w := by
    obtain ⟨w', ⟨possible, sat⟩ | ⟨impossible, unsat⟩⟩ := truthful ts w
    · exact ⟨w', by simpa [oracle, possible] using sat⟩
    · exact ⟨w', by simpa [oracle, impossible] using unsat⟩
  model ts terms _ := (models ts terms).1

theorem Truthful.consults_mute (truthful : solver.Truthful) (models : solver.GivesModels model) {log : List Term}
    (impossible : ¬ Satisfiable log) : solver.Consults mute log := by
  have never {ts : List Term} (within : log ⊆ ts) : ¬ Satisfiable ts := fun all => impossible (all.mono within)
  constructor
  · intro ts within w
    obtain ⟨w', ⟨possible, sat⟩ | ⟨_, unsat⟩⟩ := truthful ts w
    · exact absurd possible (never within)
    · exact ⟨w', unsat⟩
  · intro ts terms within
    obtain ⟨follows, none⟩ := models ts terms
    rw [none (never within)] at follows
    exact follows

end Solver

def Path.Dead (p : Path) : Prop := p.status = .finished ∧ ¬ Satisfiable p.constraints.terms

open Classical in
noncomputable def livePaths (paths : List Path) : List Path := paths.filter fun p => ¬ p.Dead

variable {paths : List Path} {p : Path} {σ : Type}

theorem livePaths_of_alive (alive : ∀ p ∈ paths, ¬ p.Dead) : livePaths paths = paths :=
  filter_eq_self.mpr (by simpa using alive)

theorem livePaths_cons_dead (dead : p.Dead) (rest : List Path) : livePaths (p :: rest) = livePaths rest :=
  filter_cons_of_neg (by simpa using dead)

theorem livePaths_cons_alive (alive : ¬ p.Dead) (rest : List Path) : livePaths (p :: rest) = p :: livePaths rest :=
  filter_cons_of_pos (by simpa using alive)

namespace Check

/-- A dead path leaves the verdict of the check to the others: the selectors of an assignment or an order resolve on it,
and it does not write twice what has to be written in order. -/
def Overlooks (check : Check) (S : Subject) (p : Path) : Prop :=
  match check with
  | .throws v => v.op = .throws
  | .returns v => (lookFor mute S check p).run.1 = .ok (returnFinding v !v.atLeastOne)
  | .emits _ | .calls _ => True
  | .assigns v => ∃ bug r, Resolves (assignBug S v) (.start p) bug r
  | .orders v => ∃ ordered r, Resolves (ordering S v.orderedBy) (.start p) ordered r ∧
    match v.target with
    | .event name arg => ∃ bug, eventOrderBug S name arg ordered r.path = .ok bug
    | .written state _ => ∃ i v r', Resolves (stateVariable S state) r (i, v) r' ∧
      (i ∈ r.path.varsWritten.toList → r.path.writeCounts.getD i 0 < 2)

/-- The verdict on the two lists of paths is the same, whatever the solver was asked before. -/
def SameVerdict {σ : Type} (check : Check) (solver : Solver (StateM σ)) (S : Subject) (paths others : List Path) :
    Prop :=
  ∀ ⦃w result final w' v result' final' v'⦄, Returns (judge solver S check paths) w (result, final) w' →
    Returns (judge solver S check others) v (result', final') v' → result = result'

def Inert {σ : Type} (check : Check) (solver : Solver (StateM σ)) (S : Subject) (p : Path) : Prop :=
  ∀ before after, before ++ after ≠ [] → check.SameVerdict solver S (before ++ p :: after) (before ++ after)

theorem sameVerdict_iff {solver : Solver (StateM σ)} {oracle : Solver Id} (consults : solver.Consults oracle [])
    (check : Check) (S : Subject) (paths others : List Path) (w : σ) :
    check.SameVerdict solver S paths others ↔
      (judge oracle S check paths).run.1 = (judge oracle S check others).run.1 := by
  have left := judge_follows consults S check paths
  have right := judge_follows consults S check others
  constructor
  · intro same
    obtain ⟨_, judges⟩ := left w
    obtain ⟨_, judges'⟩ := right w
    exact same judges judges'
  · intro equal w result final w' v result' final' v' judges judges'
    calc result = (judge oracle S check paths).run.1 := congrArg Prod.fst (left.result judges)
      _ = (judge oracle S check others).run.1 := equal
      _ = result' := (congrArg Prod.fst (right.result judges')).symm

end Check

namespace Judge

variable {S : Subject} {check : Check} {p : Path} {oracle : Solver Id} {idle : Path}

def Quiet (found : Except VerifyError Finding) : Prop := found = .ok .holds ∨ found = .ok .silent

theorem not_quiet_error {e : VerifyError} : ¬ Quiet (.error e) := by
  simp [Quiet]

theorem lookBuggy_mute (p : Path) : Quiet (lookBuggy mute p).run.1 := by
  unfold lookBuggy
  cases p.buggy with
  | none => exact .inr rfl
  | some b => exact .inl rfl

theorem lookEmit_mute (v : EmitCheck) (p : Path) : Quiet (lookEmit mute v p).run.1 := by
  unfold lookEmit
  split
  · split
    · exact lookBuggy_mute p
    · exact .inr rfl
  · exact lookBuggy_mute p

theorem lookAssign_mute (v : AssignCheck) :
    Quiet (lookAssign mute S v p).run.1 ↔ (Check.assigns v).Overlooks S p := by
  unfold lookAssign
  split
  rename_i result r run
  cases result with
  | error e =>
    refine iff_of_false not_quiet_error ?_
    rintro ⟨_, _, resolves⟩
    cases run.symm.trans resolves
  | ok bug => exact iff_of_true (.inl rfl) ⟨bug, r, run⟩

theorem lookWriteOrder_mute {i level : Nat} {v : Variable} {ordered : Term} :
    Quiet (lookWriteOrder mute i v level ordered p).run ↔
      (i ∈ p.varsWritten.toList → p.writeCounts.getD i 0 < 2) := by
  unfold lookWriteOrder
  split
  · rename_i few
    exact iff_of_true (.inr rfl) (by simpa [OrdSet.contains, Decidable.imp_iff_not_or] using few)
  · rename_i often
    exact iff_of_false not_quiet_error (by simpa [OrdSet.contains] using often)

theorem lookOrder_mute (v : OrderCheck) : Quiet (lookOrder mute S v p).run.1 ↔ (Check.orders v).Overlooks S p := by
  obtain ⟨target, orderedBy⟩ := v
  unfold lookOrder
  split
  rename_i result r run
  cases result with
  | error e =>
    refine iff_of_false not_quiet_error ?_
    rintro ⟨_, _, resolves, _⟩
    cases run.symm.trans resolves
  | ok ordered =>
    have here {Q : Term → Resolution → Prop} :
        (∃ ordered r, Resolves (ordering S orderedBy) (.start p) ordered r ∧ Q ordered r) ↔ Q ordered r := by
      constructor
      · rintro ⟨_, _, resolves, holds⟩
        cases run.symm.trans resolves
        exact holds
      · exact fun holds => ⟨ordered, r, run, holds⟩
    cases target with
    | event name arg =>
      refine Iff.trans ?_ here.symm
      dsimp only
      split
      · rename_i e failed
        exact iff_of_false not_quiet_error (by simp [failed])
      · rename_i built
        exact iff_of_true (.inr rfl) ⟨_, built⟩
      · rename_i built
        exact iff_of_true (.inl rfl) ⟨_, built⟩
    | written state level =>
      refine Iff.trans ?_ here.symm
      dsimp only
      split
      · rename_i failed
        refine iff_of_false not_quiet_error ?_
        rintro ⟨_, _, _, resolves, _⟩
        cases failed.symm.trans (congrArg Prod.fst resolves)
      · rename_i i v found
        refine lookWriteOrder_mute.trans ⟨fun few => ⟨i, v, _, Prod.ext found rfl, few⟩, ?_⟩
        rintro ⟨_, _, _, resolves, few⟩
        cases found.symm.trans (congrArg Prod.fst resolves)
        exact few

theorem quiet_iff_overlooks (finished : p.status = .finished) (noThrow : ∀ v, check ≠ .throws v)
    (noReturn : ∀ v, check ≠ .returns v) : Quiet (lookFor mute S check p).run.1 ↔ check.Overlooks S p := by
  cases check with
  | throws v => exact absurd rfl (noThrow v)
  | returns v => exact absurd rfl (noReturn v)
  | emits v =>
    rw [lookFor, ifFinished, if_pos finished]
    exact iff_of_true (lookEmit_mute v p) trivial
  | calls v =>
    rw [lookFor, ifFinished, if_pos finished]
    exact iff_of_true (lookBuggy_mute p) trivial
  | assigns v => rw [lookFor, ifFinished, if_pos finished, lookAssign_mute]
  | orders v => rw [lookFor, ifFinished, if_pos finished, lookOrder_mute]

theorem lookReturn_mute (S : Subject) (v : ReturnCheck) (p : Path) :
    (∃ e, (lookReturn mute S v p).run.1 = .error e) ∨
      ∃ b, (lookReturn mute S v p).run.1 = .ok (returnFinding v b) := by
  unfold lookReturn
  rcases (returnMatch S v).run (.start p) with ⟨result, r⟩
  cases result with
  | error e => exact .inl ⟨e, rfl⟩
  | ok found =>
    right
    cases found with
    | none => exact ⟨false, rfl⟩
    | some t =>
      cases t with
      | bool b => exact ⟨b, rfl⟩
      | _ => exact ⟨false, rfl⟩

theorem noneViolated_insert {finding : Finding} (unviolated : finding ≠ .violated) (earlier later : List Finding) :
    noneViolated (earlier ++ finding :: later) = noneViolated (earlier ++ later) := by
  have other : (Finding.violated == finding) = false := beq_eq_false_iff_ne.mpr unviolated.symm
  simp only [noneViolated, contains_append, contains_cons, other, Bool.false_or]

theorem overlooked_finding (finished : p.status = .finished) (overlooks : check.Overlooks S p) :
    ∃ finding, (lookFor mute S check p).run.1 = .ok finding ∧ finding ≠ .violated ∧
      (∀ earlier later, concludes check [] (earlier ++ finding :: later) = concludes check [] (earlier ++ later)) ∧
      ∀ paths, concludes check paths = concludes check [] := by
  have quiet {found : Except VerifyError Finding} (either : Quiet found) :
      ∃ finding, found = .ok finding ∧ finding ≠ .violated := by
    rcases either with rfl | rfl
    · exact ⟨.holds, rfl, nofun⟩
    · exact ⟨.silent, rfl, nofun⟩
  cases check with
  | throws v =>
    obtain ⟨cond, op⟩ := v
    obtain rfl : op = .throws := overlooks
    refine ⟨.holds, ?_, nofun, fun earlier later => ?_, fun paths => ?_⟩
    · unfold lookFor lookThrow
      simp only [finished]
      rfl
    · simp only [concludes, noneViolated_insert (show Finding.holds ≠ .violated from nofun)]
    · funext findings
      simp [concludes]
  | returns v =>
    obtain ⟨expected, cond, atLeastOne⟩ := v
    cases atLeastOne with
    | false =>
      refine ⟨.holds, overlooks, nofun, fun earlier later => ?_, fun paths => rfl⟩
      simp [concludes, noneViolated_insert]
    | true =>
      refine ⟨.silent, overlooks, nofun, fun earlier later => ?_, fun paths => rfl⟩
      simp [concludes, noneViolated_insert]
  | _ =>
    obtain ⟨finding, found, unviolated⟩ := quiet ((quiet_iff_overlooks finished (by simp) (by simp)).mpr overlooks)
    exact ⟨finding, found, unviolated, noneViolated_insert unviolated, fun paths => rfl⟩

theorem judge_insert (finished : p.status = .finished) (overlooks : check.Overlooks S p)
    (muted : (lookFor oracle S check p).run.1 = (lookFor mute S check p).run.1) {before after : List Path}
    (returning : (∃ v, check = .returns v) → before ++ after ≠ []) :
    (judge oracle S check (before ++ p :: after)).run.1 = (judge oracle S check (before ++ after)).run.1 := by
  obtain ⟨finding, found, unviolated, passes, alike⟩ := overlooked_finding finished overlooks
  have scanned {paths : List Path} (returning : (∃ v, check = .returns v) → paths ≠ []) :
      (judge oracle S check paths).run.1 =
        (scan (lookFor oracle S check) paths).run.1.map (concludes check []) := by
    rw [judge_scans oracle S returning, ← alike (scan (lookFor oracle S check) paths).run.2]
    rfl
  rw [scanned returning, scanned fun _ => by simp]
  exact scan_insert (muted.trans found) unviolated passes before after

theorem judge_livePaths
    (muted : ∀ p ∈ paths, p.Dead → (lookFor oracle S check p).run.1 = (lookFor mute S check p).run.1)
    (overlooks : ∀ p ∈ paths, p.Dead → check.Overlooks S p) (before : List Path)
    (returning : (∃ v, check = .returns v) → before ++ livePaths paths ≠ []) :
    (judge oracle S check (before ++ paths)).run.1 = (judge oracle S check (before ++ livePaths paths)).run.1 := by
  induction paths generalizing before with
  | nil => rfl
  | cons p rest ih =>
    -- a live path joins those before it, a dead one is left out
    have muted_rest := fun q among => muted q (mem_cons_of_mem p among)
    have overlooks_rest := fun q among => overlooks q (mem_cons_of_mem p among)
    by_cases dead : p.Dead
    · rw [livePaths_cons_dead dead] at returning ⊢
      have some_left : (∃ v, check = .returns v) → before ++ rest ≠ [] := by
        intro returns empty
        obtain ⟨rfl, rfl⟩ := append_eq_nil_iff.mp empty
        exact returning returns rfl
      have here := mem_cons_self (a := p) (l := rest)
      exact (judge_insert dead.1 (overlooks p here dead) (muted p here dead) some_left).trans
        (ih muted_rest overlooks_rest before returning)
    · rw [livePaths_cons_alive dead, append_cons before p (livePaths rest)] at returning ⊢
      rw [append_cons before p rest]
      exact ih muted_rest overlooks_rest (before ++ [p]) returning

theorem lookFor_idle (S : Subject) (check : Check) (idle : p.status = .unsat) :
    lookFor oracle S check p = (.ok .silent, p) := by
  cases check with
  | throws v =>
    obtain ⟨cond, op⟩ := v
    unfold lookFor lookThrow
    simp only [idle]
    cases op <;> rfl
  | _ =>
    unfold lookFor ifFinished
    simp only [idle]
    rfl

theorem judge_beside_idle (ended : idle.status = .unsat) :
    (judge oracle S check [idle]).run.1 = .ok (concludes check [idle] [.silent]) ∧
    (judge oracle S check [idle, p]).run.1 = (lookFor oracle S check p).run.1.map fun finding =>
      concludes check [idle, (lookFor oracle S check p).run.2] [.silent, finding] := by
  rw [judge_scans oracle S (by simp), judge_scans oracle S (by simp)]
  have silent : lookFor oracle S check idle = (.ok .silent, idle) := lookFor_idle S check ended
  simp only [scan, silent]
  refine ⟨rfl, ?_⟩
  rcases lookFor oracle S check p with ⟨result, q⟩
  cases result with
  | error e => rfl
  | ok finding => cases finding <;> rfl

theorem heard_finding (finished : p.status = .finished) (heard : ¬ check.Overlooks S p) (ended : idle.status = .unsat)
    (left : Path) (kept : ∀ v, check = .throws v → left = p) :
    (lookFor mute S check p).run.1.map (fun finding => concludes check [idle, left] [.silent, finding]) ≠
      .ok (concludes check [idle] [.silent]) := by
  -- one that is not quiet fails, or denies what holds without it
  have loud {found : Except VerifyError Finding} (unquiet : ¬ Quiet found) :
      found.map (fun finding => noneViolated [.silent, finding]) ≠ .ok (noneViolated [.silent]) := by
    intro equal
    rcases found with e | finding
    · cases equal
    · cases finding with
      | violated => cases equal
      | holds => exact unquiet (.inl rfl)
      | silent => exact unquiet (.inr rfl)
  cases check with
  | throws v =>
    obtain ⟨cond, op⟩ := v
    obtain rfl := kept _ rfl
    cases op with
    | throws => exact absurd rfl heard
    | passes =>
      have silent : (lookFor mute S (.throws ⟨cond, .passes⟩) left).run.1 = .ok .silent := by
        unfold lookFor lookThrow
        simp only [finished]
        rfl
      rw [silent]
      simp [Except.map, concludes, noneViolated, finished, ended]
  | returns v =>
    obtain ⟨expected, cond, atLeastOne⟩ := v
    have looks : lookFor mute S (.returns ⟨expected, cond, atLeastOne⟩) p =
        lookReturn mute S ⟨expected, cond, atLeastOne⟩ p := if_pos finished
    unfold Check.Overlooks at heard
    rw [looks] at heard ⊢
    rcases lookReturn_mute S ⟨expected, cond, atLeastOne⟩ p with ⟨e, found⟩ | ⟨b, found⟩
    · rw [found]
      intro equal
      cases equal
    · cases atLeastOne <;> cases b <;> simp_all [returnFinding, concludes, noneViolated, Except.map]
  | _ => exact loud fun quiet => heard ((quiet_iff_overlooks finished (by simp) (by simp)).mp quiet)

theorem judge_distinguishes (finished : p.status = .finished) (heard : ¬ check.Overlooks S p)
    (muted : (lookFor oracle S check p).run.1 = (lookFor mute S check p).run.1) (ended : idle.status = .unsat) :
    (judge oracle S check [idle, p]).run.1 ≠ (judge oracle S check [idle]).run.1 := by
  obtain ⟨alone, together⟩ := judge_beside_idle (p := p) ended
  rw [alone, together, muted]
  refine heard_finding finished heard ended _ ?_
  rintro ⟨cond, op⟩ rfl
  unfold lookFor lookThrow
  simp only [finished]
  cases op <;> rfl

end Judge

def Path.Triggered (p : Path) : Prop := p.required ≠ []

namespace Prepare

open Resolve

instance : Lasting Path.Triggered where
  kept {p q} registration triggered := by
    cases registration with
    | read c v =>
      rw [Path.Triggered, (Machine.read_sameTask p c v).required]
      exact triggered
    | demand ts allowed => exact append_ne_nil_of_left_ne_nil triggered ts
    | _ => exact triggered

theorem demand_triggers (t : Term) : Ensures Path.Triggered (demand t) := by
  intro r u r' resolves
  rw [← resolves_modify.mp resolves]
  exact append_ne_nil_of_right_ne_nil _ (cons_ne_nil t [])

theorem throws_triggers (S : Subject) (opts : Reading) (v : ThrowCheck) :
    Ensures Path.Triggered (throws S opts v) := by
  unfold throws
  split
  · exact .later fun t => .first (demand_triggers t) fun _ => .bind registers_get fun _ =>
      .bind (demandAll_registers trivial _) fun _ => registers_pure _
  · exact ensures_throw

theorem returns_triggers (S : Subject) (opts : Reading) {v : ReturnCheck} (conditional : v.cond ≠ none) :
    Ensures Path.Triggered (returns S opts v) := by
  unfold returns demandCondition
  cases asked : v.cond with
  | none => exact absurd asked conditional
  | some c => exact .first (.later fun t => demand_triggers t) fun _ => registers_pure _

end Prepare

theorem completed_alive {solver : Solver (StateM σ)} (truthful : solver.Truthful) {clock : Clock (StateM σ)}
    {program : Option Program} {config : Config} {contract : String} {target : Target} {check : Check}
    {prepared : Prepared} (prepares : prepare program config contract target check = .ok prepared)
    (triggered : ∀ p ∈ prepared.paths, p.Triggered) {explored completed : List Path} {w v v' : σ}
    (explores : Returns (explore solver clock config prepared) w explored v)
    (completes : Returns (prepared.complete solver explored) v (.ok completed) v') : ∀ p ∈ completed, ¬ p.Dead := by
  rintro p member ⟨finished, impossible⟩
  obtain ⟨applies, q, among, still, same⟩ := complete_applies truthful completes member finished
  obtain ⟨start, among, kept, _⟩ := explored_origin prepares explores among (by simp [still])
  have asked : p.required ≠ [] := by
    rw [same, kept]
    exact triggered start among
  obtain ⟨E, satisfies, _⟩ := applies.resolve_left asked
  exact impossible ⟨E, satisfies⟩

def Check.Guarded : Check → Prop
  | .throws _ => True
  | .emits _ => True
  | .calls _ => True
  | .returns v => v.cond ≠ none
  | .assigns _ => False
  | .orders _ => False

section

variable {σ : Type} {solver : Solver (StateM σ)} {model : List Term → List Term → Option Model} {S : Subject}
  {check : Check}

theorem Path.Dead.muted (truthful : solver.Truthful) (models : solver.GivesModels model) (S : Subject) (check : Check)
    (w : σ) (dead : p.Dead) :
    (lookFor (oracle model) S check p).run.1 = (lookFor mute S check p).run.1 := by
  have told := lookFor_follows ((truthful.consults_oracle models).mono (nil_subset _)) S check (p := p)
  have untold := lookFor_follows (truthful.consults_mute models dead.2) S check
  obtain ⟨_, looks⟩ := told w
  exact congrArg Prod.fst (untold.result looks)

theorem Path.Dead.inert_iff (truthful : solver.Truthful) (models : solver.GivesModels model) (w : σ) (dead : p.Dead) :
    check.Inert solver S p ↔ check.Overlooks S p := by
  have muted := dead.muted truthful models S check w
  have consults := truthful.consults_oracle models
  constructor
  · intro inert
    by_contra heard
    -- any path that is not looked at will do as company
    have same := inert [{ p with status := .unsat }] [] (by simp)
    rw [check.sameVerdict_iff consults S _ _ w] at same
    exact judge_distinguishes dead.1 heard muted rfl same
  · intro overlooks before after others
    rw [check.sameVerdict_iff consults S _ _ w]
    exact judge_insert dead.1 overlooks muted fun _ => others

end

/-- With a truthful solver, the paths of a run are judged alike with and without the dead ones exactly as far as
the check overlooks them. -/
theorem dead_paths_ignored_iff {σ : Type} {solver : Solver (StateM σ)} (truthful : solver.Truthful)
    {model : List Term → List Term → Option Model} (models : solver.GivesModels model) {clock : Clock (StateM σ)}
    {program : Option Program} {config : Config} {contract : String} {target : Target} {check : Check}
    {prepared : Prepared} (prepares : prepare program config contract target check = .ok prepared)
    {explored completed : List Path} {w v v' : σ}
    (explores : Returns (explore solver clock config prepared) w explored v)
    (completes : Returns (prepared.complete solver explored) v (.ok completed) v') :
    (check.Guarded → check.SameVerdict solver prepared.subject completed (livePaths completed)) ∧
    ((∀ p ∈ completed, p.Dead → check.Overlooks prepared.subject p) →
      ((∃ r, check = .returns r) → livePaths completed ≠ []) →
      check.SameVerdict solver prepared.subject completed (livePaths completed)) ∧
    ∀ p ∈ completed, p.Dead → (check.Inert solver prepared.subject p ↔ check.Overlooks prepared.subject p) := by
  have consults := truthful.consults_oracle models
  have overlooked (overlooks : ∀ p ∈ completed, p.Dead → check.Overlooks prepared.subject p)
      (returning : (∃ r, check = .returns r) → livePaths completed ≠ []) :
      check.SameVerdict solver prepared.subject completed (livePaths completed) := by
    rw [check.sameVerdict_iff consults _ _ _ w]
    exact judge_livePaths (fun p _ dead => dead.muted truthful models _ check w) overlooks [] returning
  have alive (triggered : ∀ p ∈ prepared.paths, p.Triggered) :
      check.SameVerdict solver prepared.subject completed (livePaths completed) := by
    rw [livePaths_of_alive (completed_alive truthful prepares triggered explores completes),
      check.sameVerdict_iff consults _ _ _ w]
  refine ⟨fun guarded => ?_, overlooked, fun p _ dead => dead.inert_iff truthful models w⟩
  cases check with
  | throws t =>
    refine alive (Prepare.prepare_ensures (fun S opts => ?_) prepares)
    exact Prepare.throws_triggers S opts t
  | returns r =>
    refine alive (Prepare.prepare_ensures (fun S opts => ?_) prepares)
    exact Prepare.returns_triggers S opts guarded
  | emits e => exact overlooked (fun _ _ _ => trivial) nofun
  | calls c => exact overlooked (fun _ _ _ => trivial) nofun
  | assigns a | orders o => exact guarded.elim

namespace Picked

/-- A function returns its third argument; if the first holds, it asserts the second and its denial before. -/
def program : Program :=
  let param (name type : String) (i : Nat) : Operand := .var ⟨name, .param "pick" i, .named type⟩
  let denied : Variable := ⟨"denied", .temporary "pick", .named "bool"⟩
  { contracts := [{
      name := "Token"
      functions := [{
        name := "pick"
        params := [⟨"b", .named "bool"⟩, ⟨"c", .named "bool"⟩, ⟨"x", .named "int256"⟩]
        returns := [.named "int256"]
        nodes := [
          {
            kind := .ifBranch, instructions := [.condition (param "b" "bool" 0)]
            sons := [1, 2], sonTrue := some 1, sonFalse := some 2 },
          {
            id := 1, kind := .expression, sons := [2]
            instructions := [
              .builtinCall "assert(bool)" [param "c" "bool" 1] none,
              .unary .not (param "c" "bool" 1) denied,
              .builtinCall "assert(bool)" [.var denied] none] },
          {
            id := 2, kind := .ret, instructions := [.ret [param "x" "int256" 2]] }] }] }] }

def config : Config := { timeBudgetMs := none, maxSteps := 20 }

def check (atLeastOne : Bool) : Check := .returns ⟨.constant (.int 1), none, atLeastOne⟩

def taken : Term := .var "p0" .bool

def asserted : Term := .var "p1" .bool

def finishes : Term := .not (.var "#throwed" .bool)

def isOne : Term := .eq (.var "p2" .int) (.int 1)

def deadLog : List Term := baseLog ++ [taken, asserted, .not asserted, finishes]

def liveLog : List Term := baseLog ++ [.not taken, finishes]

noncomputable def solver : Solver (StateM Unit) :=
  .informed [baseLog ++ [taken], liveLog ++ [isOne]] [[asserted, .not asserted]]

theorem live_satisfiable : Satisfiable (liveLog ++ [isOne]) := by
  refine ⟨world 1 1 false, ?_⟩
  simp [liveLog, baseLog, taken, finishes, isOne, Env.Holds, Term.eval, world, Datum.ofCarrier,
    OrderOp.holds]

theorem solver_truthful : solver.Truthful := by
  apply informed_truthful
  · simp only [forall_mem_cons, not_mem_nil, false_imp_iff, implies_true, and_true]
    refine ⟨⟨world 1 1 true, ?_⟩, live_satisfiable⟩
    simp [baseLog, taken, Env.Holds, Term.eval, world, Datum.ofCarrier, OrderOp.holds]
  · simpa only [mem_singleton, forall_eq] using not_satisfiable_denied asserted

theorem solver_models : solver.GivesModels fun _ _ => none :=
  fun _ _ => ⟨follows_pure _, fun _ => rfl⟩

structure Shown where
  paths : List (Status × List Term × Option Finding)
  verdict : Option Bool
  verdictOnRest : Option Bool
  deriving DecidableEq

noncomputable def shown (atLeastOne : Bool) : Option Shown :=
  (prepare (some program) config "Token" (.named "pick" none) (check atLeastOne)).toOption.bind fun prepared =>
    let explored := ((explore solver ⟨pure 0⟩ config prepared).run ()).1
    let closes := prepared.complete solver explored
    (closes.run ()).1.toOption.map fun completed =>
      { paths := completed.map fun p => (p.status, p.constraints.terms,
          (lookFor mute prepared.subject (check atLeastOne) p).run.1.toOption)
        verdict := ((judge solver prepared.subject (check atLeastOne) completed).run ()).1.1.toOption
        verdictOnRest := ((judge solver prepared.subject (check atLeastOne) completed.tail).run ()).1.1.toOption }

def failing (atLeastOne : Bool) : Finding := if atLeastOne then .silent else .violated

theorem shown_eq (atLeastOne : Bool) : shown atLeastOne =
    some ⟨[(.finished, deadLog, some (failing atLeastOne)), (.finished, liveLog, some (failing atLeastOne))],
      some atLeastOne, some true⟩ := by
  cases atLeastOne <;> decide +kernel

structure Run (atLeastOne : Bool) (prepared : Prepared) (dead live : Path) : Prop where
  prepares : prepare (some program) config "Token" (.named "pick" none) (check atLeastOne) = .ok prepared
  completes : ∃ explored, Returns (explore solver ⟨pure 0⟩ config prepared) () explored () ∧
    Returns (prepared.complete solver explored) ()
      (.ok [dead, live]) ()
  dies : dead.Dead
  lives : ¬ live.Dead
  found : (lookFor mute prepared.subject (check atLeastOne) dead).run.1 =
    .ok (failing atLeastOne)
  judges : ∃ final, Returns (judge solver prepared.subject (check atLeastOne) [dead, live]) ()
    (.ok atLeastOne, final) ()
  judges_live : ∃ final, Returns (judge solver prepared.subject (check atLeastOne) [live]) () (.ok true, final) ()

theorem run (atLeastOne : Bool) : ∃ prepared dead live, Run atLeastOne prepared dead live := by
  have told := shown_eq atLeastOne
  obtain ⟨prepared, prepares, told⟩ := Option.bind_eq_some_iff.mp told
  obtain ⟨completed, completes, told⟩ := Option.map_eq_some_iff.mp told
  simp only [Shown.mk.injEq, Prod.mk.injEq, map_eq_cons_iff, map_eq_nil_iff] at told
  obtain ⟨⟨dead, _, rfl, ⟨dead_finished, dead_log, found⟩, live, _, rfl, ⟨live_finished, live_log, _⟩, rfl⟩, judges,
    judges_live⟩ := told
  refine ⟨prepared, dead, live, ok_of_toOption prepares, ⟨_, rfl, ?_⟩, ⟨dead_finished, ?_⟩, ?_, ok_of_toOption found,
    returns_of_toOption judges, returns_of_toOption judges_live⟩
  · rw [← ok_of_toOption completes]
    rfl
  · rw [dead_log]
    exact fun satisfiable => not_satisfiable_denied asserted (satisfiable.mono (by decide))
  · rintro ⟨_, impossible⟩
    rw [live_log] at impossible
    exact impossible (live_satisfiable.mono (subset_append_left _ _))

end Picked

/-- If one path has to return one, the dead path is overlooked, and the verdict is the same without it. -/
theorem picked_once_same : Picked.solver.Truthful ∧ ∃ prepared dead live, Picked.Run true prepared dead live ∧
    (Picked.check true).SameVerdict Picked.solver prepared.subject [dead, live] (livePaths [dead, live]) := by
  obtain ⟨prepared, dead, live, run⟩ := Picked.run true
  obtain ⟨explored, explores, completes⟩ := run.completes
  have ignored := dead_paths_ignored_iff Picked.solver_truthful Picked.solver_models run.prepares explores completes
  refine ⟨Picked.solver_truthful, prepared, dead, live, run, ignored.2.1 ?_ fun _ => ?_⟩
  · intro p member dies
    rcases mem_pair.mp member with rfl | rfl
    · exact run.found
    · exact absurd dies run.lives
  · rw [livePaths_cons_dead run.dies, livePaths_cons_alive run.lives]
    exact cons_ne_nil _ _

/-- If every path has to return one, the dead path is the one that does not. -/
theorem picked_always_differs : Picked.solver.Truthful ∧ (Picked.solver.GivesModels fun _ _ => none) ∧
    ∃ prepared dead live, Picked.Run false prepared dead live ∧
      ∃ final final', Returns (judge Picked.solver prepared.subject (Picked.check false) [dead, live]) ()
          (.ok false, final) () ∧
        Returns (judge Picked.solver prepared.subject (Picked.check false) (livePaths [dead, live])) ()
          (.ok true, final') () := by
  obtain ⟨prepared, dead, live, run⟩ := Picked.run false
  obtain ⟨final, judges⟩ := run.judges
  obtain ⟨final', judges_live⟩ := run.judges_live
  refine ⟨Picked.solver_truthful, Picked.solver_models, prepared, dead, live, run, final, final', judges, ?_⟩
  rw [livePaths_cons_dead run.dies, livePaths_cons_alive run.lives]
  exact judges_live

end TokenAudit
