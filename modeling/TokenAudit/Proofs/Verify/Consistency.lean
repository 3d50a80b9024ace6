import TokenAudit.Proofs.Verify.Asking
import TokenAudit.Proofs.Verify.Completion
import TokenAudit.Proofs.Verify.Trails

/-!
# Completed logs are consistent

An explored path asserts what has happened on it and how it ended.  Completing it denies facts that have not happened.
-/

namespace TokenAudit

open List Prepare TokenAudit.Fact Complete

open Machine.Upkeep (FairWays)

variable {c : Contract} {ended : Option Bool} {q : Path}

namespace Explore

variable {M : Machine} {b : Path.Brief}

theorem withstands_told : Withstands M (fun _ => True) fun _ p => p.Told M.contract b where
  step := Machine.step_told.imp fun _ _ _ _ _ _ => trivial
  assume told _ := told.assume _
  move _ _ _ told := { told with }
  threw told := told.assume _
  finished told := told.assume _

def EndAsserts (ended : Option Bool) (fact : Fact) : Prop := fact = .threw ∧ ended = some true

def EndDenies (c : Contract) (ended : Option Bool) (fact : Fact) : Prop :=
  c.Undeclared fact ∨ fact = .threw ∧ ended = some false

theorem withstands_ledger (tidy : ∀ v ∈ M.program.variables, v.id.Tidy)
    (named : ∀ f ∈ M.program.calledNames, '.' ∉ f.toList) :
    Withstands M Term.Silent fun ended p => p.Ledger M.contract (EndAsserts ended) (EndDenies M.contract ended) where
  step := Machine.step_ledger tidy named
  assume ledger silent := ledger.assume silent
  move _ _ _ ledger := { ledger with }
  threw {p} ledger := by
    have watched : threw.Watched := trivial
    refine (ledger.assert watched).mono (fun fact asserted => ?_) fun fact denied => ?_
    · rcases asserted with ⟨_, impossible⟩ | rfl
      · cases impossible
      · exact ⟨rfl, rfl⟩
    · exact denied.imp_right fun ⟨_, impossible⟩ => by cases impossible
  finished {p} ledger := by
    have watched : threw.Watched := trivial
    refine (ledger.deny watched).mono (fun fact asserted => ?_) fun fact denied => ?_
    · obtain ⟨_, impossible⟩ := asserted
      cases impossible
    · rcases denied with (undeclared | ⟨_, impossible⟩) | rfl
      · exact .inl undeclared
      · cases impossible
      · exact .inr ⟨rfl, rfl⟩

end Explore

namespace Complete

variable {c : Contract} {tracking : Tracking} {expected : List CallOn} {p q : Path} {facts : List Fact}
  {A D : Fact → Prop} {fact : Fact} {b : Path.Brief}

theorem Closes.ledger (tidy : ∀ v ∈ c.stateNames, v.id.Tidy) (closes : Closes c facts p q)
    (watched : ∀ fact ∈ facts, fact.Watched) (ledger : p.Ledger c A D) :
    q.Ledger c A fun fact => D fact ∨ fact ∈ facts := by
  induction closes generalizing D with
  | done p => exact ledger.mono (fun _ asserted => asserted) fun _ => .inl
  | read listed rest ih => exact ih watched (ledger.read (tidy _ (mem_map_of_mem listed))).1
  | pin built rest ih => exact ih watched (ledger.assume (Term.silent_mkEq built))
  | deny rest ih =>
    obtain ⟨here, later⟩ := forall_mem_cons.mp watched
    refine (ih later (ledger.deny here)).mono (fun _ asserted => asserted) fun fact denied => ?_
    rcases denied with (before | rfl) | after
    · exact .inl before
    · exact .inr (mem_cons_self ..)
    · exact .inr (mem_cons_of_mem _ after)

theorem settle_ledger (ledger : p.Ledger c A D) : (settle p).Ledger c A D := by
  have assumes (ts : List Term) (silent : ∀ t ∈ ts, t.Silent) : ∀ {p : Path}, p.Ledger c A D →
      (ts.foldl Path.assume p).Ledger c A D := by
    induction ts with
    | nil => exact fun ledger => ledger
    | cons t rest ih =>
      obtain ⟨here, later⟩ := forall_mem_cons.mp silent
      exact fun ledger => ih later (ledger.assume here)
  refine assumes p.deferred ledger.sound.deferred ⟨ledger.accounted, ?_⟩
  exact ⟨ledger.sound.values, ledger.sound.links, ledger.sound.targets, nofun,
    ledger.sound.results⟩

theorem Denied.watched (denied : Denied c expected p fact) (named : ∀ call ∈ expected, '.' ∉ call.function.toList)
    (sound : p.holdings.Sound) : fact.Watched := by
  cases denied with
  | call asked unnoted => exact named _ asked
  | result asked unnoted => exact sound.results _ asked
  | _ => trivial

theorem close_ledger (tidy : ∀ v ∈ c.stateNames, v.id.Tidy) (named : ∀ call ∈ expected, '.' ∉ call.function.toList)
    (ledger : p.Ledger c A D) (closes : close c tracking expected p = .ok q) :
    q.Ledger c A fun fact => D fact ∨ Denied c expected p fact := by
  obtain ⟨r, shuts, rfl⟩ := close_closes closes
  refine settle_ledger ((shuts.ledger tidy (fun fact among => ?_) ledger).mono (fun _ asserted => asserted) ?_)
  · exact (mem_denials.mp among).watched named ledger.sound
  · exact fun _ => Or.imp_right mem_denials.mp

theorem close_told (told : p.Told c b) (closes : close c tracking expected p = .ok q) : q.Told c b := by
  obtain ⟨r, shuts, rfl⟩ := close_closes closes
  have told : r.Told c b := told.of_record shuts.record shuts.adds
  have adds := settle_adds r
  obtain ⟨log, same⟩ := settle_log r
  rw [same] at adds ⊢
  exact ⟨told.asked, fun fact happened => adds.subset_terms (told.asserted fact happened), told.used, told.counted⟩

theorem Denied.unhappened {S : Subject} (denied : Denied S.contract expected p fact) (told : p.Told S.contract b)
    (tracks : Prepare.Tracks S b) (apart : ∀ v ∈ b.checks, ∀ w ∈ b.checks, p.symbolBase v = p.symbolBase w → v = w) :
    ¬ p.Happened S.contract fact := by
  have asks : p.brief = b := told.asked
  intro happened
  cases denied with
  | @write i sv asked listed unnoted =>
    obtain ⟨j, sv', found, written⟩ := happened
    have asked : i ∈ p.brief.vars.toList := asked
    rw [asks] at asked
    obtain ⟨name, sv'', canonical⟩ := tracks.vars i asked
    obtain ⟨listed', named⟩ := Contract.stateVariable?_listed canonical
    cases listed.symm.trans listed'
    rw [named, canonical] at found
    cases found
    exact unnoted written
  | @emission i event asked listed unnoted =>
    obtain ⟨j, event', found, emitted⟩ := happened
    have asked : i ∈ p.brief.events.toList := asked
    rw [asks] at asked
    obtain ⟨name, event'', canonical⟩ := tracks.events i asked
    obtain ⟨listed', named⟩ := Contract.event?_listed canonical
    cases listed.symm.trans listed'
    rw [named, canonical] at found
    cases found
    exact unnoted emitted
  | call asked unnoted => exact unnoted happened
  | result asked unnoted => exact unnoted (told.counted _ happened.2)
  | @use v asked unnoted =>
    obtain ⟨u, used, same⟩ := happened
    have asked : v ∈ p.brief.checks := asked
    rw [asks] at asked
    exact unnoted (apart u (told.used u used) v asked same ▸ used)

end Complete

def Path.Denies (c : Contract) (ended : Option Bool) (q : Path) (fact : Fact) : Prop :=
  Explore.EndDenies c ended fact ∨ ¬ q.Happened c fact ∧ fact ≠ .threw

theorem Path.not_denies {fact : Fact} (asserted : q.Happened c fact ∨ Explore.EndAsserts ended fact) :
    ¬ q.Denies c ended fact := by
  rintro ((⟨name, rfl, undeclared⟩ | ⟨rfl, finished⟩) | ⟨unhappened, other⟩)
  · rcases asserted with ⟨i, event, declared, _⟩ | ⟨impossible, _⟩
    · rw [undeclared] at declared
      cases declared
    · cases impossible
  · rcases asserted with impossible | ⟨_, threw⟩
    · exact impossible
    · rw [finished] at threw
      cases threw
  · rcases asserted with happened | ⟨threw, _⟩
    · exact unhappened happened
    · exact other threw

section

variable {σ : Type} {solver : Solver (StateM σ)} {tracking : Tracking} {expected : List CallOn} {S : Subject}
  {b : Path.Brief} {ended : Option Bool} {p q : Path}

theorem Settled.ledger (settled : Settled solver S.contract tracking expected p q)
    (tidy : ∀ v ∈ S.contract.stateNames, v.id.Tidy) (named : ∀ call ∈ expected, '.' ∉ call.function.toList)
    (tracks : Prepare.Tracks S b) (apart : ∀ v ∈ b.checks, ∀ w ∈ b.checks, p.symbolBase v = p.symbolBase w → v = w)
    (told : p.Told S.contract b)
    (ledger : p.Ledger S.contract (Explore.EndAsserts ended) (Explore.EndDenies S.contract ended)) :
    q.Told S.contract b ∧ q.Ledger S.contract (Explore.EndAsserts ended) (q.Denies S.contract ended) := by
  cases settled with
  | kept unfinished => exact ⟨told, ledger.mono (fun _ asserted => asserted) fun _ => .inl⟩
  | @closed q applies w w' finished closes answers =>
    have told' := close_told told closes
    have unhappened {fact : Fact} (denied : Complete.Denied S.contract expected p fact) :
        ¬ q.Happened S.contract fact ∧ fact ≠ .threw := by
      obtain ⟨bindings, log, rfl⟩ := close_log closes
      refine ⟨fun happened => denied.unhappened told tracks apart happened, ?_⟩
      rintro rfl
      cases denied
    have closed : q.Ledger S.contract (Explore.EndAsserts ended) (q.Denies S.contract ended) :=
      (close_ledger tidy named ledger closes).mono (fun _ asserted => asserted) fun _ => Or.imp_right unhappened
    cases applies
    · exact ⟨{ told' with }, { closed with }⟩
    · exact ⟨told', closed⟩

theorem Settled.threw {may : Saying} {M : Machine} {starts : List Path}
    (settled : Settled solver c tracking expected p q) (emerges : Explore.Emerges may M starts p)
    (running : ∀ start ∈ starts, start.status = .running) :
    (q.status = .threw → threw.term ∈ q.constraints.terms) ∧
      (p.status = .finished → threw.denial ∈ q.constraints.terms) := by
  constructor
  · intro threw
    cases settled.of_threw threw
    exact emerges.threw running threw
  · intro finished
    cases settled with
    | kept unfinished => exact absurd finished unfinished
    | @closed q applies w w' _ closes answers =>
      obtain ⟨start, _, visited, finishes⟩ := emerges.finished running finished
      cases finishes
      have kept := (close_adds closes).subset_terms (Path.mem_terms_assume (denial_ne_true .threw))
      cases applies <;> exact kept

theorem explored_ledger {clock : Clock (StateM σ)} {program : Program} {config : Config} {contract : String}
    {target : Target} {check : Check} {prepared : Prepared} {w w' : σ} {paths : List Path}
    (tidy : ∀ v ∈ program.variables, v.id.Tidy) (calls : ∀ f ∈ program.calledNames, '.' ∉ f.toList)
    (results : ∀ f ∈ check.callReturns, '.' ∉ f.toList)
    (prepares : prepare (some program) config contract target check = .ok prepared)
    (explores : Returns (explore solver clock config prepared) w paths w') :
    ∀ p ∈ paths, ∃ b ended, Prepare.Tracks prepared.subject b ∧
      b.entryName = prepared.subject.entryPath.entryName ∧ p.Told prepared.subject.contract b ∧
      p.Ledger prepared.subject.contract (Explore.EndAsserts ended)
        (Explore.EndDenies prepared.subject.contract ended) := by
  have located := subjectOf_located (prepare_ends prepares).1
  rw [← located.same] at tidy calls
  intro p member
  obtain ⟨start, among, visited, r, trail, left⟩ :=
    Explore.explore_emerges (prepared_running prepares) explores p member
  have fresh := prepare_past prepares start among
  have balanced := prepare_balanced prepares (located.same ▸ tidy) results start among
  obtain ⟨_, told⟩ :=
    Explore.withstands_told.left left (Explore.withstands_told.trail trail (told_of_past fresh))
  have withstands := Explore.withstands_ledger (M := prepared.machine config) tidy calls
  obtain ⟨ended, ledger⟩ := withstands.left left (withstands.trail trail
    (balanced.mono (fun _ => False.elim) fun _ => .inl))
  have entry : start.past.entryName = prepared.subject.entryPath.entryName := congrArg Past.entryName fresh
  exact ⟨start.brief, ended, prepare_tracks prepares start among, entry, told, ledger⟩

end

def Subject.Separates (S : Subject) (vars : List Variable) : Prop :=
  ∀ v ∈ vars, ∀ w ∈ vars, S.entryPath.symbolBase v.id = S.entryPath.symbolBase w.id → v.id = w.id

instance (S : Subject) (vars : List Variable) : Decidable (S.Separates vars) :=
  inferInstanceAs (Decidable (∀ v ∈ vars, ∀ w ∈ vars,
    S.entryPath.symbolBase v.id = S.entryPath.symbolBase w.id → v.id = w.id))

/-- No fact is both asserted and denied, and what is asserted is what the path has noted. -/
structure Path.Consistent (c : Contract) (vars : List Variable) (q : Path) : Prop where
  exclusive : ∀ fact : Fact, fact.sort = .bool → fact.term ∈ q.constraints.terms → fact.denial ∉ q.constraints.terms
  written : ∀ name, (written name).term ∈ q.constraints.terms ↔
    ∃ i sv, c.stateVariable? name = some (i, sv) ∧ i ∈ q.varsWritten.toList
  emitted : ∀ name, (emitted name).term ∈ q.constraints.terms ↔
    ∃ i event, c.event? name = some (i, event) ∧ i ∈ q.eventsEmitted.toList
  called : ∀ receiver function, '.' ∉ function.toList →
    ((called receiver function).term ∈ q.constraints.terms ↔ ⟨receiver, function⟩ ∈ q.calledOn.toList)
  used : ∀ v ∈ vars, (Fact.usedInCheck (q.symbolBase v.id)).term ∈ q.constraints.terms ↔ v.id ∈ q.usedInCheck

theorem Path.Ledger.consistent {b : Path.Brief} {vars : List Variable}
    (ledger : q.Ledger c (Explore.EndAsserts ended) (q.Denies c ended)) (told : q.Told c b)
    (apart : ∀ u ∈ b.checks, ∀ v ∈ vars, q.symbolBase u = q.symbolBase v.id → u = v.id) : q.Consistent c vars := by
  have asserted (fact : Fact) (watched : fact.Watched) (other : fact ≠ .threw) :
      fact.term ∈ q.constraints.terms ↔ q.Happened c fact := by
    refine ⟨fun member => ?_, told.asserted fact⟩
    exact (ledger.accounted.asserted watched member).resolve_right fun ends => other ends.1
  constructor
  · exact fun fact boolean => ledger.accounted.exclusive (fun _ => Path.not_denies) boolean
  · exact fun name => asserted (.written name) trivial (by simp)
  · exact fun name => asserted (.emitted name) trivial (by simp)
  · exact fun receiver function named => asserted (.called receiver function) named (by simp)
  · intro v among
    rw [asserted (.usedInCheck _) trivial (by simp)]
    constructor
    · rintro ⟨u, used, same⟩
      exact apart u (told.used u used) v among same ▸ used
    · exact fun used => ⟨v.id, used, rfl⟩

/-- Where variables have no hash in their names, functions no dot and different variables different symbols, the log
of every completed path is consistent.  A path that threw asserts it, and one that came to its end denies it. -/
theorem completed_logs_consistent {σ : Type} {solver : Solver (StateM σ)} {clock : Clock (StateM σ)}
    {program : Program} {config : Config} {contract : String} {target : Target} {check : Check}
    {prepared : Prepared} (tidy : ∀ v ∈ program.variables, v.id.Tidy)
    (named : ∀ f ∈ program.calledNames ++ check.callReturns ++ check.callees, '.' ∉ f.toList)
    (prepares : prepare (some program) config contract target check = .ok prepared)
    (separates : prepared.subject.Separates program.variables) {w₁ w₂ w₃ w₄ : σ} {paths final : List Path}
    (explores : Returns (explore solver clock config prepared) w₁ paths w₂)
    (completes : Returns (prepared.complete solver paths) w₃ (.ok final) w₄) :
    List.Forall₂ (fun p q => q.Consistent prepared.subject.contract program.variables ∧
      (q.status = .threw → threw.term ∈ q.constraints.terms) ∧
      (p.status = .finished → threw.denial ∈ q.constraints.terms)) paths final := by
  have located := subjectOf_located (prepare_ends prepares).1
  have running := prepared_running prepares
  simp only [forall_mem_append] at named
  obtain ⟨⟨calls, results⟩, callees⟩ := named
  have listed (v : Variable) (among : v ∈ prepared.subject.contract.stateNames) : v ∈ program.variables :=
    Program.mem_variables_of_state (mem_of_getElem? located.contract) among
  have emerges := Explore.explore_emerges running explores
  refine ((forall₂_and_left paths final).mpr ⟨fun _ among => among, complete_settled completes⟩).imp
    fun p q both => ?_
  obtain ⟨member, settled⟩ := both
  refine ⟨?_, settled.threw (emerges p member) running⟩
  obtain ⟨b, ended, tracks, entry, told, ledger⟩ := explored_ledger tidy calls results prepares explores p member
  have asked (u : VarId) (among : u ∈ b.checks) : ∃ v ∈ program.variables, v.id = u := by
    obtain ⟨v, asks, same⟩ := tracks.checks u among
    exact ⟨v, asks_listed located asks, same⟩
  have apart {r : Path} (told : r.Told prepared.subject.contract b) {v w : Variable} (here : v ∈ program.variables)
      (there : w ∈ program.variables) (same : r.symbolBase v.id = r.symbolBase w.id) : v.id = w.id := by
    have named : r.entryName = prepared.subject.entryPath.entryName :=
      (congrArg Path.Brief.entryName told.asked).trans entry
    rw [Path.symbolBase_congr named, Path.symbolBase_congr named] at same
    exact separates v here w there same
  obtain ⟨told', ledger'⟩ := settled.ledger (fun v among => tidy v (listed v among))
    (fun call among => callees _ (prepare_callees prepares call among)) tracks (fun u here v there same => by
      obtain ⟨u, listed, rfl⟩ := asked u here
      obtain ⟨v, listed', rfl⟩ := asked v there
      exact apart told listed listed' same) told ledger
  refine ledger'.consistent told' fun u here v there same => ?_
  obtain ⟨u, listed, rfl⟩ := asked u here
  exact apart told' listed there same

def paidAmount : Variable := ⟨"x", .param "pay" 0, .named "int256"⟩

def paidCheck : Variable := ⟨"t", .localIn "pay", .named "bool"⟩

/-- A positive amount is added up after the bank was asked for its fee, and the payment is announced. -/
def paying : Trial where
  program := { contracts := [{
    name := "Token"
    stateVariables := [⟨"total", .named "int256", .publicAccess, none⟩, ⟨"bank", .named "address", .publicAccess, none⟩]
    events := [⟨"Paid", []⟩, ⟨"Skipped", []⟩]
    functions := [{
      name := "pay"
      params := [⟨"x", .named "int256"⟩]
      nodes := [{
        instructions := [.binary .gt (.var paidAmount) (.const (.int 0)) paidCheck false,
          .builtinCall "require(bool)" [.var paidCheck] none,
          .highLevelCall (.var (.ofState "bank" (.named "address"))) ⟨"fee", [], [.named "int256"]⟩ [] none,
          .assignment (.ofState "total" (.named "int256")) (.var paidAmount), .eventCall "Paid" [], .ret []] }] }] }] }
  function := "pay"
  check := .emits {
    event := "Paid"
    alternatives := ["Skipped"]
    stateCond := some (.written (.stateVar "total" []) .unspecified)
    cond := some (.logic [.usedInCheck (.funcParam 0),
      .comparison (.callReturn "fee") (.constant (.int 0)) .eq] .all) }

def Trial.endings (t : Trial) : Option (Bool × List Status) :=
  t.outcome?.map fun (prepared, paths, _) =>
    (decide (prepared.subject.Separates t.program.variables), paths.map Path.status)

theorem payment_logs_consistent : ∃ prepared paths final, paying.outcome? = some (prepared, paths, final) ∧
    paths.map Path.status = [.finished, .threw] ∧
    List.Forall₂ (fun p q => q.Consistent prepared.subject.contract paying.program.variables ∧
      (q.status = .threw → threw.term ∈ q.constraints.terms) ∧
      (p.status = .finished → threw.denial ∈ q.constraints.terms)) paths final := by
  have ends : paying.endings = some (true, [.finished, .threw]) := by decide +kernel
  obtain ⟨⟨prepared, paths, final⟩, ends, computed⟩ := Option.map_eq_some_iff.mp ends
  obtain ⟨separates, statuses⟩ := Prod.mk.inj computed
  obtain ⟨prepares, explores, completes⟩ := Trial.outcome_runs ends
  exact ⟨prepared, paths, final, ends, statuses, completed_logs_consistent (by decide) (by decide) prepares
    (of_decide_eq_true separates) explores completes⟩

end TokenAudit
