import TokenAudit.Proofs.Verify.Completion
import TokenAudit.Proofs.Verify.Sorting
import TokenAudit.Proofs.Verify.Trails

/-!
# The paths of a run

The paths that arise while a check is prepared, explored and completed (`Arises`), also where a part fails.
-/

namespace TokenAudit

variable {prepared : Prepared} {α : Type} {final paths : List Path} {expected : List CallOn}

open List Term

namespace Prepare

open Resolve

variable {S : Subject} {config : Config} {check : Check} {p q : Path}

/-- Where a resolution that starts on a path leaves it, whether it succeeds or fails. -/
def remains {α : Type} (x : ResolveM α) (p : Path) : Path := (outcome x (.start p)).2.path

def reading (p : Path) : Reading := { element := p.arrayLength.bind fun n => if n = 0 then none else some (n - 1) }

/-- Sets up the check on a path, and then notes what turned out to be unsigned and whose results matter. -/
def readied (S : Subject) (check : Check) (p : Path) : ResolveM Outlook := do
  let outlook ← setup S (reading p) check
  let r ← get
  assumeUnsignedTerms r.unsignedTerms
  onPath fun p => { p with returnsTracked := p.returnsTracked.insertAll r.returnsOf.toList }
  pure outlook

def withSize (p : Path) (id length : Nat) : Path := { p.fork id with arrayLength := some length }

/-- The paths while a check is prepared: between any two of the operations it is made of, and where one of them
fails.  Lists are worked off from the front, so a part of an operation is one on a shorter list. -/
inductive Stage (S : Subject) (check : Check) : Path → Prop
  | entered : Stage S check S.entryPath
  | seeded : Stage S check (S.seed S.entryPath)
  | noted {p q : Path} (stage : Stage S check p) (same : q.terms = p.terms) : Stage S check q
  | read {p : Path} (stage : Stage S check p) (v : Variable) : Stage S check (p.read S.contract v).2
  | distinct {p : Path} {v w : VarId} {a b t : Term} (stage : Stage S check p)
      (first : p.bindings.get? v = some (.term a)) (second : b = .zero ∨ p.bindings.get? w = some (.term b))
      (built : mkNe a b = .ok t) : Stage S check (p.assume t)
  | based : Stage S check (remains (basePath S) S.entryPath)
  | numbered {p : Path} (stage : Stage S check p) (id length : Nat) : Stage S check (withSize p id length)
  | sized {p : Path} (stage : Stage S check p) (length : Nat) (arrays : List Variable) :
      Stage S check (remains (assumeLengths S length arrays) p)
  | selected {p : Path} (stage : Stage S check p) (opts : Reading) (s : Selector) :
      Stage S check (remains (selector S opts s) p)
  | conditioned {p : Path} (stage : Stage S check p) (opts : Reading) (c : Condition) :
      Stage S check (remains (condition S opts c) p)
  | demanded {p : Path} (stage : Stage S check p) (opts : Reading) (cond : Option Condition) :
      Stage S check (remains (demandCondition S opts cond) p)
  | calling {p : Path} (stage : Stage S check p) (fs : List String) :
      Stage S check (remains (demandAll (fs.map fun f => (Fact.fnCalled f).term)) p)
  | coded {p : Path} {receiver a b t : Term} (stage : Stage S check p) (built : codeTerms receiver = .ok (a, b))
      (linked : t = mkImplies a b ∨ t = mkImplies b a) : Stage S check (p.assume t)
  | received {p q : Path} {opts : Reading} {s : Selector} {receiver t : Term} {r : Resolution} (stage : Stage S check p)
      (resolves : outcome (selector S opts s) (.start p) = (.ok (some receiver), r)) (later : Stage S check q)
      (built : mkNe receiver .zero = .ok t) : Stage S check (remains (demand t) q)
  | passed {p : Path} (stage : Stage S check p) (opts : Reading) (callee : String) (args : List ArgCheck) :
      Stage S check (remains (callArgumentBugs S opts callee id args) p)
  | announced {p : Path} (stage : Stage S check p) (names : List String) :
      Stage S check (remains (trackNamedEvents S names) p)
  | stated {p : Path} (stage : Stage S check p) (opts : Reading) (cond : Option Condition) :
      Stage S check (remains (stateCondition S opts cond) p)
  | emitted {p : Path} (stage : Stage S check p) (opts : Reading) (event : String) (i : Nat) (args : List ArgCheck) :
      Stage S check (remains (eventArgumentBugs S opts event i id args) p)
  | setUp {p : Path} (stage : Stage S check p) : Stage S check (remains (setup S (reading p) check) p)
  | unsigned {p : Path} {ts : List Term} (stage : Stage S check p)
      (among : ts ⊆ (outcome (setup S (reading p) check) (.start p)).2.unsignedTerms) :
      Stage S check (remains (assumeUnsignedTerms ts) (remains (setup S (reading p) check) p))
  | readied {p : Path} (stage : Stage S check p) : Stage S check (remains (readied S check p) p)

theorem onePath_eq (S : Subject) (check : Check) (p : Path) : onePath S check p =
    (outcome (readied S check p) (.start p)).1.map fun outlook => (outlook, remains (readied S check p) p) := rfl

theorem onePath_stage {outlook : Outlook} (prepares : onePath S check p = .ok (outlook, q)) (stage : Stage S check p) :
    Stage S check q := by
  rw [onePath_eq] at prepares
  cases result : (outcome (readied S check p) (.start p)).1 with
  | error e =>
    rw [result] at prepares
    cases prepares
  | ok outlook =>
    rw [result] at prepares
    cases prepares
    exact .readied stage

theorem startPaths_stage {starts : List Path} (started : startPaths S config check = .ok starts) :
    ∀ p ∈ starts, Stage S check p := by
  obtain ⟨r, runs, started⟩ := startPaths_ends started
  have same : r.path = remains (basePath S) S.entryPath := congrArg (fun run => run.2.path) runs.symm
  have base : Stage S check r.path := same ▸ .based
  rcases started with rfl | ⟨-, started⟩
  · exact forall_mem_singleton.mpr base
  · intro p member
    obtain ⟨⟨length, id⟩, _, built⟩ := exists_of_mem_right started member
    obtain ⟨r', runs', rfl⟩ := withLength_ends built
    have same : r'.path = remains (assumeLengths S length (arrayParams S.function)) (withSize r.path id length) :=
      congrArg (fun run => run.2.path) runs'.symm
    exact same ▸ .sized (.numbered base id length) length _

theorem prepared_stage {program : Option Program} {contract : String} {target : Target}
    (prepares : prepare program config contract target check = .ok prepared) :
    ∀ p ∈ prepared.paths, Stage prepared.subject check p := by
  intro q member
  obtain ⟨_, _, starts, used, started, initial, ready⟩ := prepare_ends prepares
  obtain ⟨p, among, _, one⟩ := exists_of_mem_right ready member
  exact onePath_stage one (startPaths_stage started p (initial.subset among))

theorem remains_sorted {Q : α → Prop} {x : ResolveM α} (sorts : Sorts Q x) (sorted : p.Sorted) : (remains x p).Sorted :=
  (sorts (w := .start p) ⟨sorted, fun _ none => nomatch none⟩).1.path

theorem sorts_readied (check : Check) (p : Path) : Sorts (fun _ => True) (readied S check p) :=
  .bind (sorts_setup _ check) fun _ _ => .bind keeps_get fun _ sorted =>
    .bind (sorts_assumeUnsignedTerms sorted.unsigned) fun _ _ =>
      .bind (keeps_modify fun _ sorted => sorted.noted rfl) fun _ _ =>
    keeps_pure trivial

theorem Stage.sorted (stage : Stage S check p) : p.Sorted := by
  induction stage with
  | entered => exact .start _ _ _ _
  | seeded => exact (Path.Sorted.start _ _ _ _).seed _ _ _ _
  | noted _ same sorted => exact sorted.of_terms same
  | read _ v sorted => exact (sorted.read _ v).1
  | distinct _ first second built sorted =>
    have left := Value.all_term.mp (sorted.bindings first)
    rcases second with rfl | second
    · exact sorted.assume (assertable_mkNe left (wellSorted_int 0) built)
    · exact sorted.assume (assertable_mkNe left (Value.all_term.mp (sorted.bindings second)) built)
  | based => exact remains_sorted sorts_basePath (.start _ _ _ _)
  | numbered _ _ _ sorted => exact sorted.of_terms rfl
  | sized _ length arrays sorted => exact remains_sorted (sorts_assumeLengths length arrays) sorted
  | selected _ opts s sorted => exact remains_sorted (sorts_selector opts s) sorted
  | conditioned _ opts c sorted =>
    exact remains_sorted (sorted_upholding.setting.condition opts c.permits_all fun _ _ => trivial) sorted
  | demanded _ opts cond sorted => exact remains_sorted (sorted_upholding.setting.demandCondition opts
      (fun c _ => ⟨trivial, c.permits_all⟩) fun _ _ _ _ => trivial) sorted
  | calling _ fs sorted =>
    refine remains_sorted (keeps_modify fun _ inv => sorted_upholding.demand (S := S) inv trivial fun t member =>
      ?_) sorted
    obtain ⟨f, _, rfl⟩ := mem_map.mp member
    exact .inr ⟨f, rfl⟩
  | coded _ built linked sorted =>
    obtain ⟨hasCode, hasHash⟩ := sorted_vocabulary.codeTerms built
    rcases linked with rfl | rfl
    · exact sorted.assume (hasCode.mkImplies hasHash)
    · exact sorted.assume (hasHash.mkImplies hasCode)
  | @received p q opts s receiver t r _ resolves _ built first sorted =>
    have sound := (sorts_selector (S := S) opts s (w := .start p) ⟨first, fun _ none => nomatch none⟩).2
    rw [resolves] at sound
    have differs := assertable_mkNe (sound _ rfl receiver rfl) (wellSorted_int 0) built
    exact remains_sorted (sorted_upholding.setting.demand (S := S) trivial differs) sorted
  | passed _ opts callee args sorted =>
    exact remains_sorted (sorted_upholding.setting.callArgumentBugs opts callee
      (fun _ assertable => assertable) (fun a _ => ⟨trivial, a.permits_all⟩) fun _ _ _ _ => trivial) sorted
  | announced _ names sorted => exact remains_sorted (sorted_upholding.setting.trackNamedEvents trivial names) sorted
  | stated _ opts cond sorted => exact remains_sorted (sorted_upholding.setting.stateCondition opts
      (fun c _ => c.permits_all) (fun _ _ _ _ => trivial) fun _ _ => trivial) sorted
  | emitted _ opts event i args sorted =>
    exact remains_sorted (sorted_upholding.setting.eventArgumentBugs opts event i
      (fun _ assertable => assertable) (fun a _ => ⟨trivial, a.permits_all⟩) fun _ _ _ _ => trivial) sorted
  | setUp _ sorted => exact remains_sorted (sorts_setup _ check) sorted
  | @unsigned p ts _ among sorted =>
    have resolved := (sorts_setup (S := S) (reading p) check (w := .start p) ⟨sorted, fun _ none => nomatch none⟩).1
    exact remains_sorted (sorts_assumeUnsignedTerms fun t member => resolved.unsigned t (among member)) resolved.path
  | readied _ sorted => exact remains_sorted (sorts_readied check _) sorted

end Prepare

def Search.Sorted (s : Search) : Prop := ∀ p ∈ s.paths, p.Sorted

namespace Explore

variable {σ : Type} {solver : Solver (StateM σ)} {clock : Clock (StateM σ)} {w w' : σ} {M : Machine} {s t : Search}
  {i : Nat} {p q : Path}

theorem withstands_sorted : Withstands M Term.Assertable fun _ p => p.Sorted where
  step := Machine.step_sorted
  assume sorted assertable := sorted.assume assertable
  move _ _ _ sorted := sorted.of_terms rfl
  threw sorted := sorted.assumeFact rfl
  finished sorted := sorted.deny rfl

theorem advance_sorted (sorted : s.Sorted) (advances : Returns (advance M solver s i) w t w') : t.Sorted := by
  cases found : s.paths[i]? with
  | none =>
    simp only [advance, found] at advances
    obtain ⟨rfl, _⟩ := returns_pure.mp advances
    exact sorted
  | some p =>
    obtain ⟨first, later, expands, rfl⟩ := advance_expands found advances
    have made {q : Path} {goesOn : Bool} (member : (q, goesOn) ∈ first :: later) : q.Sorted := by
      obtain ⟨_, sorted⟩ := withstands_sorted.expanded (expands.expanded member) (sorted p (mem_of_getElem? found))
      exact sorted
    intro q member
    rcases mem_append.mp member with old | copy
    · rcases mem_or_eq_of_mem_set old with old | rfl
      · exact sorted q old
      · exact made (mem_cons_self ..)
    · obtain ⟨item, among, rfl⟩ := mem_map.mp copy
      exact made (mem_cons_of_mem _ among)

theorem Visits.sorted {started left last : Nat} {v : σ} (visits : Visits M solver clock started left s w last t v)
    (sorted : s.Sorted) : t.Sorted := by
  induction visits with
  | here => exact sorted
  | @next left last i s t u w₁ w₂ w₃ w₄ rest pending within advances later ih =>
    have popped : (s.awaiting rest).Sorted := sorted
    exact ih (advance_sorted popped advances)

theorem explore_sorted {config : Config} (running : ∀ p ∈ prepared.paths, p.status = .running)
    (sorted : ∀ p ∈ prepared.paths, p.Sorted) (explores : Returns (explore solver clock config prepared) w final w') :
    ∀ q ∈ final, q.Sorted := by
  intro q member
  obtain ⟨start, among, visited, p, trail, left⟩ := explore_emerges running explores q member
  obtain ⟨_, sorted⟩ := withstands_sorted.left left (withstands_sorted.trail trail (sorted start among))
  exact sorted

end Explore

namespace Complete

variable {c : Contract} {tracking : Tracking} {p q r : Path}

inductive Stage (c : Contract) (p : Path) : Path → Prop
  | finished : Stage c p p
  | denied {q : Path} {fact : Fact} (stage : Stage c p q) (predicate : fact.sort = .bool) (happened : Bool) :
      Stage c p (denyUnless happened fact q)
  | counted {q : Path} {t : Term} (stage : Stage c p q) (name : String) (count : Nat)
      (built : mkEq (Fact.writtenCount name).term (.int count) = .ok t) : Stage c p (q.assume t)
  | read {q : Path} (stage : Stage c p q) (v : Variable) : Stage c p (q.read c v).2
  | pinned {q : Path} {v : Variable} {now t : Term} {fact : Fact} (stage : Stage c p q)
      (given : (q.read c v).1 = .term now) (built : mkEq fact.term now = .ok t) :
      Stage c p ((q.read c v).2.assume t)
  | settled {q : Path} (stage : Stage c p q) (n : Nat) :
      Stage c p ((q.deferred.take n).foldl Path.assume { q with deferred := [] })

theorem closeVariable_stage {i : Nat} (stage : Stage c p q) (closes : closeVariable c tracking q i = .ok r) :
    Stage c p r := by
  unfold closeVariable at closes
  split at closes
  · cases closes
    exact stage
  · rename_i sv _
    have pins {q : Path} {now : Term} (stage : Stage c p q)
        (given : (q.read c (.ofState sv.name sv.type)).1 = .term now)
        (closes : (do pure ((q.read c (.ofState sv.name sv.type)).2.assume
          (← sorted (mkEq (Fact.postExec sv.name (.ofType sv.type)).term now)))) = .ok r) : Stage c p r := by
      obtain ⟨t, built, closes⟩ := bind_eq_ok_iff.mp closes
      cases closes
      exact .pinned stage given (sorted_eq_ok.mp built)
    have denied : Stage c p (denyUnless (q.varsWritten.contains i) (.written sv.name) q) := .denied stage rfl _
    dsimp only at closes
    split at closes
    · obtain ⟨t, built, closes⟩ := bind_eq_ok_iff.mp closes
      obtain ⟨_, ⟨⟩, closes⟩ := bind_eq_ok_iff.mp closes
      have counted := Stage.counted denied sv.name _ (sorted_eq_ok.mp built)
      split at closes
      · exact pins counted ‹_› closes
      · cases closes
        exact .read counted _
    · obtain ⟨_, ⟨⟩, closes⟩ := bind_eq_ok_iff.mp closes
      split at closes
      · exact pins denied ‹_› closes
      · cases closes
        exact .read denied _

theorem foldl_stage {f : Path → α → Path} (each : ∀ q a, Stage c p q → Stage c p (f q a)) (stage : Stage c p q)
    (as : List α) : Stage c p (as.foldl f q) := by
  induction as generalizing q with
  | nil => exact stage
  | cons a rest ih => exact ih (each q a stage)

theorem closeEvent_stage (q : Path) (i : Nat) (stage : Stage c p q) : Stage c p (closeEvent c q i) := by
  unfold closeEvent
  split
  · exact stage
  · exact .denied stage rfl _

theorem settle_stage (stage : Stage c p q) : Stage c p (settle q) := by
  have settled := Stage.settled stage q.deferred.length
  rw [take_length] at settled
  exact settled

theorem close_stage (closes : close c tracking expected p = .ok r) : Stage c p r := by
  obtain ⟨q, closed, closes⟩ := bind_eq_ok_iff.mp closes
  have closing (is : List Nat) {q r : Path} (stage : Stage c p q)
      (closed : is.foldlM (closeVariable c tracking) q = .ok r) : Stage c p r := by
    induction is generalizing q with
    | nil =>
      cases closed
      exact stage
    | cons i rest ih =>
      obtain ⟨q', first, closed⟩ := bind_eq_ok_iff.mp closed
      exact ih (closeVariable_stage stage first) closed
  have denies {q : Path} {fact : Fact} (predicate : fact.sort = .bool) (happened : Bool) (stage : Stage c p q) :
      Stage c p (denyUnless happened fact q) := .denied stage predicate happened
  rw [← Except.ok.inj closes]
  refine settle_stage (foldl_stage (fun _ _ => denies rfl _) (foldl_stage (fun _ _ => denies rfl _)
    (foldl_stage (fun _ _ => denies rfl _) (foldl_stage closeEvent_stage (closing _ .finished closed) _) _) _) _)

theorem foldl_assume_sorted {ts : List Term} (assertable : ∀ t ∈ ts, t.Assertable) (sorted : p.Sorted) :
    (ts.foldl Path.assume p).Sorted := by
  induction ts generalizing p with
  | nil => exact sorted
  | cons t rest ih =>
    obtain ⟨here, later⟩ := forall_mem_cons.mp assertable
    exact ih later (sorted.assume here)

theorem Stage.sorted (stage : Stage c p q) (sorted : p.Sorted) : q.Sorted := by
  induction stage with
  | finished => exact sorted
  | denied _ predicate happened ih =>
    unfold denyUnless
    split
    · exact ih
    · exact ih.deny predicate
  | counted _ _ count built ih =>
    exact ih.assume (assertable_mkEq (wellSorted_fact _) (wellSorted_int count) built)
  | read _ v ih => exact (ih.read c v).1
  | @pinned _ v now t fact _ given built ih =>
    obtain ⟨sorted, good⟩ := ih.read c v
    rw [given] at good
    exact sorted.assume (assertable_mkEq (wellSorted_fact _) (Value.all_term.mp good) built)
  | @settled q _ n ih =>
    have emptied : ({ q with deferred := [] } : Path).Sorted :=
      ⟨ih.constraints, ih.required, (fun _ none => nomatch none), ih.buggy, ih.bindings, ih.returned, ih.links⟩
    exact foldl_assume_sorted (fun t member => ih.deferred t (mem_of_mem_take member)) emptied

end Complete

theorem complete_sorted {σ : Type} {solver : Solver (StateM σ)} {c : Contract} {tracking : Tracking} {w w' : σ}
    (sorted : ∀ p ∈ paths, p.Sorted)
    (completes : Returns (complete solver c tracking expected paths) w (.ok final) w') : ∀ q ∈ final, q.Sorted := by
  intro q member
  obtain ⟨p, among, settled⟩ := exists_of_mem_right (complete_settled completes) member
  have sorted := sorted p among
  cases settled with
  | kept _ => exact sorted
  | @closed q applies _ _ _ closes _ =>
    have closed := (Complete.close_stage closes).sorted sorted
    cases applies with
    | true => exact closed
    | false => exact closed.of_terms rfl

section

variable {σ : Type} (solver : Solver (StateM σ)) (clock : Clock (StateM σ)) (program : Option Program) (config : Config)
  (contract : String) (target : Target) (check : Check)

inductive Arises : Path → Prop
  | preparing {S : Subject} {p : Path} (found : subjectOf program contract target = .ok S)
      (stage : Prepare.Stage S check p) : Arises p
  | visited {prepared : Prepared} (prepares : prepare program config contract target check = .ok prepared)
      {started left : Nat} {s : Search} {w v : σ}
      (visits : Explore.Visits (prepared.machine config) solver clock started config.maxSteps
        (.start prepared.paths) w left s v) {p : Path} (among : p ∈ s.paths) : Arises p
  | performing {prepared : Prepared} (prepares : prepare program config contract target check = .ok prepared) {p : Path}
      (arises : Arises p) {d : Performed}
      (performed : d ∈ (prepared.machine config).performedIn p) {q : Path}
      (moment : q = d.before ∨ q = d.after) : Arises q
  | stepped {prepared : Prepared} (prepares : prepare program config contract target check = .ok prepared) {p q : Path}
      (arises : Arises p) {result : Except PathError (List Successor)}
      (steps : (prepared.machine config).stepOn p = (result, q)) : Arises q
  | taking {prepared : Prepared} (prepares : prepare program config contract target check = .ok prepared) {p q : Path}
      (arises : Arises p) {ways : List Successor}
      (steps : (prepared.machine config).stepOn p = (.ok ways, q)) {way : Successor}
      (among : way ∈ ways) : Arises (q.assumeEdge way.constraint?)
  | explored {prepared : Prepared} (prepares : prepare program config contract target check = .ok prepared)
      {paths : List Path} {w v : σ} (explores : Returns (explore solver clock config prepared) w paths v) {p : Path}
      (among : p ∈ paths) : Arises p
  | closing {prepared : Prepared} (prepares : prepare program config contract target check = .ok prepared) {p q : Path}
      (arises : Arises p) (stage : Complete.Stage prepared.subject.contract p q) : Arises q
  | completed {prepared : Prepared} (prepares : prepare program config contract target check = .ok prepared)
      {paths final : List Path} {w v v' : σ} (explores : Returns (explore solver clock config prepared) w paths v)
      (completes : Returns (prepared.complete solver paths) v
        (.ok final) v') {p : Path} (among : p ∈ final) : Arises p

end

section

variable {σ : Type} {solver : Solver (StateM σ)} {clock : Clock (StateM σ)} {program : Option Program} {config : Config}
  {contract : String} {target : Target} {check : Check} {prepared : Prepared}

theorem prepared_sorted (prepares : prepare program config contract target check = .ok prepared) :
    ∀ p ∈ prepared.paths, p.Sorted :=
  fun p member => (Prepare.prepared_stage prepares p member).sorted

theorem explored_sorted (prepares : prepare program config contract target check = .ok prepared) {w v : σ}
    (explores : Returns (explore solver clock config prepared) w paths v) : ∀ p ∈ paths, p.Sorted :=
  Explore.explore_sorted (Prepare.prepared_running prepares) (prepared_sorted prepares) explores

theorem Arises.sorted {p : Path} (arises : Arises solver clock program config contract target check p) : p.Sorted := by
  induction arises with
  | preparing found stage => exact stage.sorted
  | visited prepares visits among => exact visits.sorted (prepared_sorted prepares) _ among
  | performing prepares arises performed moment sorted =>
    obtain ⟨before, after⟩ := Machine.performedIn_sorted sorted performed
    rcases moment with rfl | rfl
    · exact before
    · exact after
  | @stepped prepared prepares p q arises result steps sorted =>
    have kept := (Machine.step_sorted (M := prepared.machine config) sorted).1
    rw [show outcome _ p = (result, q) from steps] at kept
    exact kept
  | @taking prepared prepares p q arises ways steps way among sorted =>
    have withstands := Explore.withstands_sorted (M := prepared.machine config)
    obtain ⟨kept, fair⟩ := withstands.step.ends sorted steps
    exact withstands.assumeEdge (fair way among) kept
  | explored prepares explores among => exact explored_sorted prepares explores _ among
  | closing prepares arises stage sorted => exact stage.sorted sorted
  | completed prepares explores completes among =>
    exact complete_sorted (explored_sorted prepares explores) completes _ among

end

end TokenAudit
