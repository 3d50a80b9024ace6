import TokenAudit.Proofs.Machine.Ledger
import TokenAudit.Proofs.Verify.Preparation

/-!
# What a prepared path asks and asserts

A prepared path has noted nothing yet.
-/

namespace TokenAudit

open List Term

structure Past where
  written : OrdSet Nat
  emitted : OrdSet Nat
  calls : OrdSet CallOn
  counts : Table String Nat
  used : List VarId
  links : Table VarId IndexLink
  stack : List Frame
  deferred : List Term
  entryName : String

def Path.past (p : Path) : Past :=
  ⟨p.varsWritten, p.eventsEmitted, p.calledOn, p.callCounts, p.usedInCheck, p.links, p.stack, p.deferred, p.entryName⟩

variable {K : Interest → Prop}

theorem Resolve.Registration.past {p q : Path} (registration : Registration K p q) : p.past = q.past := by
  cases registration with
  | read c v =>
    have same := congrArg Path.past (Machine.read_record p c v)
    exact same.symm
  | _ => rfl

namespace Prepare

open Resolve

variable {S : Subject} {p q : Path} {check : Check}

theorem prepare_past {program : Option Program} {config : Config} {contract : String} {target : Target}
    {prepared : Prepared} (prepares : prepare program config contract target check = .ok prepared) :
    ∀ p ∈ prepared.paths, p.past = prepared.subject.entryPath.past := by
  intro p member
  have same := prepare_lift (fun _ _ => Registration.past) (fun _ _ _ => rfl) check.permits_all prepares p member
  exact same.symm

theorem told_of_past {c : Contract} (fresh : p.past = S.entryPath.past) : p.Told c p.brief := by
  have written : p.varsWritten = .empty := congrArg Past.written fresh
  have emitted : p.eventsEmitted = .empty := congrArg Past.emitted fresh
  have calls : p.calledOn = .empty := congrArg Past.calls fresh
  have counts : p.callCounts = .empty := congrArg Past.counts fresh
  have used : p.usedInCheck = [] := congrArg Past.used fresh
  refine ⟨rfl, fun fact happened => ?_, by simp [used], by simp [counts, Table.getD]⟩
  cases fact <;> simp [Path.Happened, written, emitted, calls, counts, used, OrdSet.empty, Table.getD] at happened

end Prepare

inductive Subject.Seeds (S : Subject) : Variable → Prop
  | param {k : Nat} {v : Variable} (found : S.function.param? k = some v) : Seeds S v
  | state {name : String} {i : Nat} {sv : StateVariable} (found : S.contract.stateVariable? name = some (i, sv)) :
      Seeds S (.ofState sv.name sv.type)
  | sender : Seeds S .sender
  | this : Seeds S .this
  | sentValue : Seeds S .sentValue

namespace Prepare

open Resolve

variable {S : Subject} {p q : Path} {check : Check} {F : String → Prop} {Q : Option Term → OrdSet String → Prop}
  {config : Config} {starts : List Path} {program : Option Program} {contract : String} {target : Target}
  {prepared : Prepared}

/-- The invariant withstands what is done when the function of the subject is entered. -/
structure Entry (S : Subject) (I : Path → Prop) : Prop where
  read {p : Path} {v : Variable} (inv : I p) (seeded : S.Seeds v) : I (p.read S.contract v).2
  equation {p : Path} {a b t : Term} (inv : I p) (built : mkEq a b = .ok t) : I (p.assume t)
  inequation {p : Path} {a b t : Term} (inv : I p) (built : mkNe a b = .ok t) : I (p.assume t)
  order {p : Path} {op : OrderOp} {a b t : Term} (inv : I p) (built : mkOrder op a b = .ok t) : I (p.assume t)
  number {p : Path} (id n : Nat) (inv : I p) : I { p.fork id with arrayLength := some n }

namespace Entry

variable {I J : Path → Prop} (E : Entry S I) {v : Variable}

include E

theorem readUnsigned (seeded : S.Seeds v) (inv : I p) : I (p.readUnsigned S.contract v) := by
  have reads : I (p.read S.contract v).2 := E.read inv seeded
  change I ((p.read S.contract v).2.assumeUnsigned _ _)
  rcases Machine.assumeUnsigned_cases (p.read S.contract v).2 _ _ with same | ⟨_, _, _, built, same⟩ <;> rw [same]
  · exact reads
  · exact E.order reads built

theorem readAll {vars : List Variable} (seeded : ∀ v ∈ vars, S.Seeds v) (inv : I p) :
    I (vars.foldl (Path.readUnsigned S.contract) p) := by
  induction vars generalizing p with
  | nil => exact inv
  | cons v rest ih =>
    obtain ⟨here, later⟩ := forall_mem_cons.mp seeded
    exact ih later (E.readUnsigned here inv)

theorem seed (inv : I p) : I (S.seed p) := by
  have environment {q : Path} (inv : I q) :
      I (((q.read S.contract .sender).2.read S.contract .this).2.readUnsigned S.contract .sentValue) :=
    E.readUnsigned .sentValue (E.read (E.read inv .sender) .this)
  refine environment (E.readAll (fun v member => ?_) inv)
  rcases mem_append.mp member with param | state
  · obtain ⟨k, _, param⟩ := mem_filterMap.mp param
    exact .param param
  · obtain ⟨name, _, named⟩ := mem_filterMap.mp state
    obtain ⟨⟨i, sv⟩, found, rfl⟩ := Option.map_eq_some_iff.mp named
    exact .state found

theorem keeps_read (seeded : S.Seeds v) : Keeps (fun r => I r.path) (fun _ => True) (Resolve.read S v) :=
  keeps_reading (fun inv => E.read inv seeded) fun _ _ => trivial

theorem keeps_distinct (a b : Term) :
    Keeps (fun r => I r.path) (fun _ => True) (do Prepare.assume (← Resolve.sorted (mkNe a b))) :=
  .bind (keeps_sorted fun _ built => built) fun _ built => keeps_modify fun _ inv => E.inequation inv built

theorem keeps_accounts : Keeps (fun r => I r.path) (fun _ => True) (do
    let sender ← Resolve.read S .sender
    let this ← Resolve.read S .this
    Prepare.assume (← Resolve.sorted (mkNe sender .zero))
    Prepare.assume (← Resolve.sorted (mkNe sender this))
    Prepare.assume (← Resolve.sorted (mkNe this .zero))) :=
  .bind (E.keeps_read .sender) fun _ _ => .bind (E.keeps_read .this) fun _ _ =>
    .bind (keeps_sorted fun _ built => built) fun _ built =>
    .bind (keeps_modify fun _ inv => E.inequation inv built) fun _ _ =>
    .bind (keeps_sorted fun _ built => built) fun _ built =>
    .bind (keeps_modify fun _ inv => E.inequation inv built) fun _ _ => E.keeps_distinct _ _

theorem keeps_assumeLengths (length : Nat) {arrays : List Variable} (seeded : ∀ v ∈ arrays, S.Seeds v) :
    Keeps (fun r => I r.path) (fun _ => True) (assumeLengths S length arrays) := by
  induction arrays with
  | nil => exact keeps_pure trivial
  | cons v rest ih =>
    obtain ⟨here, later⟩ := forall_mem_cons.mp seeded
    exact .bind (E.keeps_read here) fun _ _ => .bind (keeps_sorted fun _ built => built) fun _ built =>
      .bind (keeps_modify fun _ inv => E.equation inv built) fun _ _ => ih later

theorem startPaths (F : Entry S J)
    (visit : ∀ {p : Path}, I p → J { p with calledFunctions := p.calledFunctions.insert S.function.name })
    (start : I S.entryPath) (started : Prepare.startPaths S config check = .ok starts) : ∀ p ∈ starts, J p := by
  obtain ⟨base, resolves, started⟩ := startPaths_ends started
  have entered : J base.path := by
    obtain ⟨_, r, seeds, resolves⟩ := resolves_bind.mp resolves
    obtain ⟨_, r', visits, resolves⟩ := resolves_bind.mp resolves
    refine (F.keeps_accounts.ends ?_ resolves).1
    rw [← resolves_modify.mp visits, ← resolves_modify.mp seeds]
    exact visit (E.seed start)
  rcases started with rfl | ⟨-, started⟩
  · exact forall_mem_singleton.mpr entered
  · intro p member
    obtain ⟨_, _, built⟩ := exists_of_mem_right started member
    obtain ⟨r, resolves, rfl⟩ := withLength_ends built
    refine ((F.keeps_assumeLengths _ fun v among => ?_).ends (F.number _ _ entered) resolves).1
    obtain ⟨k, _, param⟩ := mem_filterMap.mp (mem_filter.mp among).1
    exact .param param

end Entry

section

variable {I : Path → Prop} {F : String → Prop} {V : Term → Prop} {C : List CallOn → Term → Prop}

theorem onePath_upholds (upholding : Upholding S (fun _ => True) F V C fun r => I r.path)
    (assume : ∀ {p : Path} {t : Term}, I p → S.Assumes t → I (p.assume t))
    (accuse : ∀ {p : Path} (bug : Term), I p → I { p with buggy := some bug })
    (results : ∀ {p fs}, I p → (∀ f ∈ fs, F f) → I { p with returnsTracked := p.returnsTracked.insertAll fs })
    (named : ∀ f ∈ check.callReturns, F f) {outlook : Outlook} (prepares : onePath S check p = .ok (outlook, q))
    (inv : I p) : I q := by
  obtain ⟨opts, r, r', sets, assumes, rfl⟩ := onePath_ends S prepares
  have both := upholding.and names_upholding
  have set := both.delivers_setup (J := fun _ r => I r.path ∧ ∀ f ∈ r.returnsOf.toList, F f) opts check.permits_all
    named (fun inv => inv) (fun inv => inv) (fun inv _ _ => ⟨accuse _ inv.1, inv.2⟩)
  obtain ⟨set, names⟩ := set.ends ⟨inv, forall_mem_nil _⟩ sets
  have keeps := keeps_assumeUnsignedTerms (I := fun r => I r.path) r.unsignedTerms fun inv _ built =>
    assume inv (.order built)
  exact results (keeps.ends set assumes).1 names

theorem prepare_upholds (prepares : prepare program config contract target check = .ok prepared)
    (upholding : Upholding prepared.subject (fun _ => True) F V C fun r => I r.path)
    (assume : ∀ {p : Path} {t : Term}, I p → prepared.subject.Assumes t → I (p.assume t))
    (accuse : ∀ {p : Path} (bug : Term), I p → I { p with buggy := some bug })
    (results : ∀ {p fs}, I p → (∀ f ∈ fs, F f) → I { p with returnsTracked := p.returnsTracked.insertAll fs })
    (named : ∀ f ∈ check.callReturns, F f)
    (starts : ∀ {starts}, startPaths prepared.subject config check = .ok starts → ∀ p ∈ starts, I p) :
    ∀ p ∈ prepared.paths, I p := by
  intro q member
  obtain ⟨_, _, starting, used, started, initial, ready⟩ := prepare_ends prepares
  obtain ⟨p, among, expected, one⟩ := exists_of_mem_right ready member
  exact onePath_upholds upholding assume accuse results named one (starts started p (initial.subset among))

end

theorem standing_upholding :
    Upholding S K F (fun _ => True) (fun _ _ => True) fun r => Q r.path.buggy r.path.calledFunctions where
  terms := any_vocabulary
  value _ _ _ := trivial
  read {r v} inv _ := by
    have same := Machine.read_record r.path S.contract v
    have inv : Q r.path.record.buggy r.path.record.calledFunctions := inv
    rw [← same] at inv
    exact inv
  assume inv _ _ := inv
  unsigned inv _ := inv
  refers inv _ := inv
  demand inv _ _ := inv
  writes inv _ _ := inv
  levels _ inv _ := inv
  events inv _ _ := inv
  eventArgs _ inv _ := inv
  callArgs _ inv _ := inv
  checks inv _ _ := inv

theorem standing_entry : Entry S fun p => Q p.buggy p.calledFunctions where
  read {p v} inv _ := by
    have same := Machine.read_record p S.contract v
    have inv : Q p.record.buggy p.record.calledFunctions := inv
    rw [← same] at inv
    exact inv
  equation inv _ := inv
  inequation inv _ := inv
  order inv _ := inv
  number _ _ inv := inv

theorem onePath_formula {I : Path → Prop} {V : Term → Prop} {C : List CallOn → Term → Prop}
    (upholding : Upholding S (fun _ => True) F V C fun r => I r.path) (named : ∀ f ∈ check.callReturns, F f)
    {expected : List CallOn} (prepares : onePath S check p = .ok (.ready expected, q)) (inv : I p)
    (unaccused : p.buggy = none) : (∀ call ∈ expected, call.function ∈ check.callees) ∧
      ∀ bug, q.buggy = some bug → C expected bug := by
  obtain ⟨opts, r, r', sets, assumes, rfl⟩ := onePath_ends S prepares
  have both := upholding.and (standing_upholding (Q := fun bug _ => bug = none))
  have set := both.delivers_setup (J := fun outlook r => ∀ expected, outlook = .ready expected →
      (∀ call ∈ expected, call.function ∈ check.callees) ∧
        ∀ bug, r.path.buggy = some bug → C expected bug) opts check.permits_all named ?_ ?_ ?_
  · obtain ⟨functions, formula⟩ := set.ends ⟨inv, unaccused⟩ sets expected rfl
    have keeps := keeps_assumeUnsignedTerms (I := fun s => s.path.buggy = r.path.buggy) r.unsignedTerms
      fun inv _ _ => inv
    obtain ⟨kept, _⟩ := keeps.ends rfl assumes
    exact ⟨functions, fun bug accused => formula bug (kept.symm.trans accused)⟩
  · intro r inv expected impossible
    cases impossible
  · rintro r ⟨_, unaccused⟩ _ ⟨⟩
    refine ⟨nofun, fun bug accused => ?_⟩
    rw [unaccused] at accused
    cases accused
  · rintro r calls bug _ functions formula _ ⟨⟩
    refine ⟨functions, ?_⟩
    rintro _ ⟨⟩
    exact formula

theorem startPaths_unaccused (started : startPaths S config check = .ok starts) : ∀ p ∈ starts, p.buggy = none := by
  have entry : Entry S fun p => p.buggy = none := standing_entry (Q := fun bug _ => bug = none)
  exact entry.startPaths entry (fun inv => inv) rfl started

theorem prepare_functions (prepares : prepare program config contract target check = .ok prepared) :
    ∀ p ∈ prepared.paths, p.calledFunctions = OrdSet.empty.insert prepared.subject.function.name := by
  have entry (fs : OrdSet String) : Entry prepared.subject fun p => p.calledFunctions = fs :=
    standing_entry (Q := fun _ functions => functions = fs)
  refine prepare_upholds prepares
    (standing_upholding (Q := fun _ functions => functions = OrdSet.empty.insert prepared.subject.function.name))
    (fun inv _ => inv) (fun _ inv => inv) (fun inv _ => inv) (fun _ _ => trivial) ?_
  exact (entry .empty).startPaths (entry _) (fun inv => inv ▸ rfl) rfl

/-- State variables and events are tracked under the positions that their names stand for, and the variables whose
use is asked about are parameters or state variables. -/
structure Tracks (S : Subject) (asked : Path.Brief) : Prop where
  vars : ∀ i ∈ asked.vars.toList, ∃ name sv, S.contract.stateVariable? name = some (i, sv)
  events : ∀ i ∈ asked.events.toList, ∃ name event, S.contract.event? name = some (i, event)
  checks : ∀ v ∈ asked.checks, ∃ w, S.Asks w ∧ w.id = v

theorem anchors_named {program : Program} (located : Located program S) {i : Nat} {v : Variable}
    (anchors : S.Anchors i v) : ∃ name sv, S.contract.stateVariable? name = some (i, sv) := by
  obtain ⟨found, _⟩ := anchors
  unfold Program.anchored? at found
  rw [located.same, located.contract] at found
  dsimp only at found
  split at found
  · split at found
    · obtain ⟨⟨j, sv⟩, named, same⟩ := Option.map_eq_some_iff.mp found
      cases same
      exact ⟨_, sv, named⟩
    · cases found
  · split at found
    · rename_i named
      split at found
      · cases found
        exact ⟨_, _, named⟩
      · cases found
    · cases found

theorem read_brief (p : Path) (c : Contract) (v : Variable) : (p.read c v).2.brief = p.brief := by
  have same := congrArg Path.brief (Machine.read_record p c v)
  exact same

theorem tracks_upholding {program : Program} (located : Located program S) :
    Upholding S (fun _ => True) (fun _ => True) (fun _ => True) (fun _ _ => True) fun r => Tracks S r.path.brief where
  terms := any_vocabulary
  value _ _ _ := trivial
  read {r v} inv known := read_brief r.path S.contract v ▸ inv
  assume inv _ _ := inv
  unsigned inv _ := inv
  refers inv _ := inv
  demand inv _ _ := inv
  writes {r i v} inv _ anchors := by
    refine ⟨fun j member => ?_, inv.events, inv.checks⟩
    rcases (OrdSet.mem_insertInto i j r.path.varsTracked.toList).mp member with rfl | old
    · exact anchors_named located anchors
    · exact inv.vars j old
  levels _ inv _ := inv
  events {r i name decl} inv _ found := by
    refine ⟨inv.vars, fun j member => ?_, inv.checks⟩
    rcases (OrdSet.mem_insertInto i j r.path.eventsTracked.toList).mp member with rfl | old
    · exact ⟨name, decl, found⟩
    · exact inv.events j old
  eventArgs _ inv _ := inv
  callArgs _ inv _ := inv
  checks {r v} inv _ asked := by
    refine ⟨inv.vars, inv.events, fun u member => ?_⟩
    have member : u ∈ insertNew v.id r.path.checkTracked := member
    unfold insertNew at member
    split at member
    · exact inv.checks u member
    · rcases mem_append.mp member with old | new
      · exact inv.checks u old
      · exact ⟨v, asked, (mem_singleton.mp new).symm⟩

theorem startPaths_tracks (started : startPaths S config check = .ok starts) : ∀ p ∈ starts, Tracks S p.brief := by
  have entry : Entry S fun p => Tracks S p.brief :=
    ⟨fun {p v} inv _ => read_brief p S.contract v ▸ inv, fun inv _ => inv, fun inv _ => inv, fun inv _ => inv,
      fun _ _ inv => inv⟩
  refine entry.startPaths entry (fun inv => inv) ?_ started
  exact ⟨nofun, nofun, nofun⟩

theorem prepare_tracks {program : Program}
    (prepares : prepare (some program) config contract target check = .ok prepared) :
    ∀ p ∈ prepared.paths, Tracks prepared.subject p.brief := by
  have located := subjectOf_located (prepare_ends prepares).1
  exact prepare_upholds prepares (tracks_upholding located) (fun inv _ => inv) (fun _ inv => inv)
    (fun inv _ => { inv with }) (fun _ _ => trivial) startPaths_tracks

theorem allPaths_last {before : Prepared} (prepares : allPaths S check starts before = .ok prepared) :
    (prepared.paths = before.paths ∧ prepared.expectedCalls = before.expectedCalls) ∨
      ∃ p ∈ starts, ∃ q, prepared.paths.getLast? = some q ∧
        onePath S check p = .ok (.ready prepared.expectedCalls, q) := by
  induction starts generalizing before with
  | nil =>
    cases prepares
    exact .inl ⟨rfl, rfl⟩
  | cons p rest ih =>
    unfold allPaths at prepares
    split at prepares
    · cases prepares
    · cases prepares
      exact .inl ⟨rfl, rfl⟩
    · rename_i expected q one
      rcases ih prepares with ⟨paths, calls⟩ | ⟨p', later, last⟩
      · refine .inr ⟨p, mem_cons_self .., q, ?_, calls ▸ one⟩
        rw [paths]
        exact List.getLast?_concat
      · exact .inr ⟨p', mem_cons_of_mem p later, last⟩

theorem prepare_last (prepares : prepare program config contract target check = .ok prepared) :
    (prepared.paths = [] ∧ prepared.expectedCalls = []) ∨
      ∃ starts, startPaths prepared.subject config check = .ok starts ∧ ∃ p ∈ starts, ∃ q,
        prepared.paths.getLast? = some q ∧
        onePath prepared.subject check p = .ok (.ready prepared.expectedCalls, q) := by
  obtain ⟨S, _, prepares⟩ := bind_eq_ok_iff.mp prepares
  obtain ⟨starts, started, prepares⟩ := bind_eq_ok_iff.mp prepares
  obtain ⟨rfl, _⟩ := allPaths_ends prepares
  exact (allPaths_last prepares).imp_right fun last => ⟨starts, started, last⟩

theorem prepare_callees (prepares : prepare program config contract target check = .ok prepared) :
    ∀ call ∈ prepared.expectedCalls, call.function ∈ check.callees := by
  rcases prepare_last prepares with ⟨_, none⟩ | ⟨starts, started, p, among, q, _, one⟩
  · intro call member
    rw [none] at member
    cases member
  · exact (onePath_formula (I := fun _ => True) (standing_upholding (Q := fun _ _ => True)) (fun _ _ => trivial) one
      trivial (startPaths_unaccused started p among)).1

end Prepare

def Contract.Undeclared (c : Contract) (fact : Fact) : Prop := ∃ name, fact = .emitted name ∧ c.event? name = none

namespace Prepare

open Resolve

theorem silent_codeTerms {receiver a b : Term} (built : codeTerms receiver = .ok (a, b)) :
    (mkImplies a b).Silent ∧ (mkImplies b a).Silent := by
  cases built
  exact ⟨silent_of_compound rfl, silent_of_compound rfl⟩

/-- Nothing is asserted but what has happened, and only events that are not declared are denied. -/
def Balanced (S : Subject) (p : Path) : Prop := p.Ledger S.contract (fun _ => False) S.contract.Undeclared

section

variable {S : Subject} {p q : Path} {check : Check} {program : Program} {v : Variable} {config : Config}

theorem balanced_denial {name : String} (balanced : Balanced S p) (none : S.contract.event? name = none) :
    Balanced S (p.assume (Fact.emitted name).denial) := by
  have watched : (Fact.emitted name).Watched := trivial
  refine (Path.Ledger.deny balanced watched).mono (fun _ asserted => asserted) fun fact denied => ?_
  rcases denied with undeclared | rfl
  · exact undeclared
  · exact ⟨name, rfl, none⟩

theorem balanced_assumed {t : Term} (balanced : Balanced S p) (assumed : S.Assumes t) : Balanced S (p.assume t) := by
  cases assumed with
  | inequation built => exact balanced.assume (silent_mkNe built)
  | order built => exact balanced.assume (silent_mkOrder built)
  | code built => exact balanced.assume (silent_codeTerms built).1
  | hash built => exact balanced.assume (silent_codeTerms built).2
  | undeclared none => exact balanced_denial balanced none

theorem asks_listed (located : Located program S) (asks : S.Asks v) : v ∈ program.variables := by
  cases asks with
  | param found => exact Program.mem_variables_of_parameter located.function found
  | state anchors =>
    obtain ⟨_, listed⟩ := anchors
    refine Program.mem_variables_of_state (mem_of_getElem? located.contract) ?_
    exact mem_map.mpr ⟨_, mem_of_getElem? listed, rfl⟩

/-! ### The entry -/

theorem seeds_tidy (located : Located program S) (tidy : ∀ v ∈ program.variables, v.id.Tidy) (seeded : S.Seeds v) :
    v.id.Tidy := by
  cases seeded with
  | param found => exact tidy v (asks_listed located (.param found))
  | @state name i sv found =>
    refine tidy _ (Program.mem_variables_of_state (mem_of_getElem? located.contract) ?_)
    exact mem_map.mpr ⟨sv, mem_of_getElem? (Contract.stateVariable?_listed found).1, rfl⟩
  | _ => decide

theorem entry_balanced (located : Located program S) (tidy : ∀ v ∈ program.variables, v.id.Tidy) :
    Entry S (Balanced S) where
  read balanced seeded := (balanced.read (seeds_tidy located tidy seeded)).1
  equation balanced built := balanced.assume (silent_mkEq built)
  inequation balanced built := balanced.assume (silent_mkNe built)
  order balanced built := balanced.assume (silent_mkOrder built)
  number _ _ balanced := { balanced with }

theorem entryPath_balanced (S : Subject) : Balanced S S.entryPath := by
  constructor
  · nofun
  · constructor
    · nofun
    · nofun
    · nofun
    · nofun
    · nofun

theorem startPaths_balanced (located : Located program S) (tidy : ∀ v ∈ program.variables, v.id.Tidy)
    {starts : List Path} (started : startPaths S config check = .ok starts) : ∀ p ∈ starts, Balanced S p :=
  (entry_balanced located tidy).startPaths (entry_balanced located tidy)
    (fun balanced => { balanced with }) (entryPath_balanced S) started

/-! ### The check -/

theorem knows_tidy (located : Located program S) (tidy : ∀ v ∈ program.variables, v.id.Tidy) (known : S.Knows v) :
    v.id.Tidy := by
  cases known with
  | asked asks => exact tidy v (asks_listed located asks)
  | sender => decide

theorem balanced_upholding {F : String → Prop} (located : Located program S)
    (tidy : ∀ v ∈ program.variables, v.id.Tidy) :
    Upholding S (fun _ => True) F (Term.Within Term.Uncalling)
      (fun expected => Term.Within (Spoken Term.Uncalling expected)) fun r => Balanced S r.path where
  terms := within_vocabulary (fun uncalled => uncalled.uncalling) uncalling_int
  value {r v t} inv known given := by
    have clear := (inv.read (knows_tidy located tidy known)).2
    rw [given, Value.all_term] at clear
    exact clear.plain.mono fun _ _ => Term.Plain.uncalling
  read inv known := (inv.read (knows_tidy located tidy known)).1
  assume inv assumed _ := balanced_assumed inv assumed
  unsigned inv _ := inv
  refers inv _ := inv
  demand inv _ _ := { inv with }
  writes inv _ _ := { inv with }
  levels _ inv _ := { inv with }
  events inv _ _ := { inv with }
  eventArgs _ inv _ := { inv with }
  callArgs _ inv _ := { inv with }
  checks inv _ _ := { inv with }

theorem results_balanced {fs : List String} (balanced : Balanced S p) (named : ∀ f ∈ fs, '.' ∉ f.toList) :
    Balanced S { p with returnsTracked := p.returnsTracked.insertAll fs } := by
  have member (f : String) : f ∈ (p.returnsTracked.insertAll fs).toList ↔ f ∈ p.returnsTracked.toList ∨ f ∈ fs :=
    OrdSet.mem_insertAll p.returnsTracked f fs
  refine ⟨balanced.accounted.mono (fun fact holds => holds.imp_left fun happened => ?_) fun _ denied => denied, ?_⟩
  · cases fact with
    | fnCalled f => exact ⟨(member f).mpr (.inl happened.1), happened.2⟩
    | _ => exact happened
  · refine ⟨balanced.sound.values, balanced.sound.links, balanced.sound.targets, balanced.sound.deferred,
      fun f tracked => ?_⟩
    rcases (member f).mp tracked with old | new
    · exact balanced.sound.results f old
    · exact named f new

theorem prepare_balanced {contract : String} {target : Target} {prepared : Prepared}
    (prepares : prepare (some program) config contract target check = .ok prepared)
    (tidy : ∀ v ∈ program.variables, v.id.Tidy) (named : ∀ f ∈ check.callReturns, '.' ∉ f.toList) :
    ∀ p ∈ prepared.paths, Balanced prepared.subject p := by
  have located := subjectOf_located (prepare_ends prepares).1
  exact prepare_upholds prepares (balanced_upholding located tidy) balanced_assumed
    (fun _ balanced => { balanced with }) results_balanced named (startPaths_balanced located tidy)

end

end Prepare

end TokenAudit
