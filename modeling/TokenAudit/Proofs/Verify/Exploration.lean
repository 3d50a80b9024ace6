import Mathlib.Data.List.Nodup
import TokenAudit.Proofs.Machine.Task
import TokenAudit.Verify.Explore

/-!
# Runs of the exploration

What a step makes of a path depends on the path and on what the solver says, and on nothing else (`Expands`).
-/

namespace TokenAudit

open List Search

/-- What the solver may say of a query: whether it leaves it possible, unless it fails. -/
def Solver.Says {σ : Type} (solver : Solver (StateM σ)) (ts : List Term) (said : Except SolverError Bool) : Prop :=
  ∃ w answer w', Returns (solver.checkSat ts) w answer w' ∧ said = answer.map (· != .unsat)

abbrev Saying := List Term → Except SolverError Bool → Prop

variable {said : Except SolverError Bool}

namespace Explore

section

variable (may : Saying)

def Heard (p : Path) (said : Except SolverError Bool) : Prop := may (p.constraints.extended p.required) said

/-- What may be heard of a path after a step; one of which nothing is required is not asked about. -/
def HeardAfter (p : Path) (said : Except SolverError Bool) : Prop :=
  if p.required = [] then said = .ok true else Heard may p said

/-- What taking a way makes of a path, and whether it goes on, unless the solver fails. -/
inductive Took : Successor → Path → Except SolverError Bool → Path → Prop
  | threw (constraint : Option Term) (p : Path) :
      Took (.throws constraint) p (.ok false) (((p.assumeEdge constraint).endAs .threw).assume Fact.threw.term)
  | finished (p : Path) : Took .finish p (.ok false) ((p.endAs .finished).assume Fact.threw.denial)
  | went (next : Location) {constraint : Option Term} {p : Path}
      (heard : ∀ t, constraint = some t → Heard may (p.assume t) (.ok true)) :
      Took (.goto next constraint) p (.ok true) (p.go (.goto next constraint))
  | dropped (next : Location) {t : Term} {p : Path} (heard : Heard may (p.assume t) (.ok false)) :
      Took (.goto next (some t)) p (.ok false) ((p.assume t).endAs .unsat)
  | failed (next : Location) {t : Term} {p : Path} {e : SolverError} (heard : Heard may (p.assume t) (.error e)) :
      Took (.goto next (some t)) p (.error e) (p.assume t)

/-- What the ways make of copies of a path, one after the other until the solver fails. -/
inductive Spreads (p : Path) : List Successor → List (Path × Bool) → Option SolverError → Prop
  | none : Spreads p [] [] none
  | took {way : Successor} {ways : List Successor} {id : Nat} {q : Path} {goesOn : Bool} {items : List (Path × Bool)}
      {failure : Option SolverError} (took : Took may way (p.fork id) (.ok goesOn) q)
      (later : Spreads p ways items failure) : Spreads p (way :: ways) ((q, goesOn) :: items) failure
  | failed {way : Successor} {ways : List Successor} {id : Nat} {q : Path} {e : SolverError} {ids : List Nat}
      (took : Took may way (p.fork id) (.error e) q) (untaken : ids.length = ways.length) :
      Spreads p (way :: ways) ((q, false) :: ids.map fun id => (p.fork id, false)) (some e)

/-- What the ways of a step make of a path.  Without a way it stays as it is, and if the solver fails, the path fails
and none of the ways is followed. -/
inductive Branches (p : Path) : List Successor → Option SolverError → List (Path × Bool) → Prop
  | stuck : Branches p [] none [(p, false)]
  | taken {way : Successor} {ways : List Successor} {items : List (Path × Bool)}
      (spreads : Spreads may p (way :: ways) items none) : Branches p (way :: ways) none items
  | halted {ways : List Successor} {e : SolverError} {first : Path × Bool} {items : List (Path × Bool)}
      (spreads : Spreads may p ways (first :: items) (some e)) :
      Branches p ways (some e) ((first.1.fail (.solver e), false) :: items.map fun item => (item.1, false))

def Expands (M : Machine) (p : Path) (items : List (Path × Bool)) : Prop :=
  match M.stepOn p with
  | (.error e, q) => items = [(q.fail e, false)]
  | (.ok ways, q) => ∃ said, HeardAfter may q said ∧ match said with
    | .error e => items = [(q.fail (.solver e), false)]
    | .ok false => items = [(q.endAs .unsat, false)]
    | .ok true => ∃ failure, Branches may q ways failure items

end

section

variable {may : Saying} {p q r : Path} {ways : List Successor} {way : Successor}
  {failure : Option SolverError} {items : List (Path × Bool)} {goesOn : Bool} {M : Machine}

/-- A copy of a path on one of the ways, or as it is if the way was not taken. -/
inductive Copied (may : Saying) (p : Path) (way : Successor) : Path × Bool → Prop
  | untaken (id : Nat) : Copied may p way (p.fork id, false)
  | took {said : Except SolverError Bool} {q : Path} {goesOn : Bool} (id : Nat) (took : Took may way (p.fork id) said q)
      (goes : goesOn = true → said = .ok true) : Copied may p way (q, goesOn)

theorem Spreads.copied (spreads : Spreads may p ways items failure) : List.Forall₂ (Copied may p) ways items := by
  induction spreads with
  | none => exact .nil
  | took took _ ih => exact .cons (.took _ took (congrArg _)) ih
  | @failed way ways id q e ids took untaken =>
    refine .cons (.took _ took nofun) (forall₂_iff_get.mpr ⟨by simp [untaken], fun k _ _ => ?_⟩)
    simpa using Copied.untaken _

inductive Expanded (may : Saying) (M : Machine) (p : Path) : Path → Bool → Prop
  | broken {e : PathError} {q : Path} (fails : M.stepOn p = (.error e, q)) : Expanded may M p (q.fail e) false
  | failed {ways : List Successor} {q : Path} (runs : Machine.Runs M.step p ways q) (e : SolverError) :
      Expanded may M p (q.fail (.solver e)) false
  | unmet {ways : List Successor} {q : Path} (runs : Machine.Runs M.step p ways q)
    (heard : HeardAfter may q (.ok false)) : Expanded may M p (q.endAs .unsat) false
  | stuck {q : Path} (runs : Machine.Runs M.step p [] q) : Expanded may M p q false
  | copied {ways : List Successor} {way : Successor} {q r : Path} {goesOn : Bool} (runs : Machine.Runs M.step p ways q)
      (member : way ∈ ways) (copied : Copied may q way (r, goesOn)) : Expanded may M p r goesOn
  | halted {ways : List Successor} {way : Successor} {q r : Path} {goesOn : Bool} (runs : Machine.Runs M.step p ways q)
      (member : way ∈ ways) (copied : Copied may q way (r, goesOn)) (e : SolverError) :
      Expanded may M p (r.fail (.solver e)) false

theorem Expands.expanded (expands : Expands may M p items) (member : (q, goesOn) ∈ items) :
    Expanded may M p q goesOn := by
  unfold Expands at expands
  split at expands
  · rename_i e r fails
    subst expands
    cases mem_singleton.mp member
    exact .broken fails
  · rename_i ways r steps
    obtain ⟨said, heard, expands⟩ := expands
    split at expands
    · subst expands
      cases mem_singleton.mp member
      exact .failed steps _
    · subst expands
      cases mem_singleton.mp member
      exact .unmet steps heard
    · obtain ⟨failure, branches⟩ := expands
      cases branches with
      | stuck =>
        cases mem_singleton.mp member
        exact .stuck steps
      | taken spreads =>
        obtain ⟨way, among, copied⟩ := exists_of_mem_right spreads.copied member
        exact .copied steps among copied
      | @halted _ e first items spreads =>
        rcases mem_cons.mp member with same | member
        · cases same
          obtain ⟨way, among, copied⟩ := exists_of_mem_right spreads.copied (mem_cons_self ..)
          exact .halted steps among copied e
        · obtain ⟨⟨q, was⟩, listed, same⟩ := mem_map.mp member
          cases same
          obtain ⟨way, among, copied⟩ := exists_of_mem_right spreads.copied (mem_cons_of_mem _ listed)
          refine .copied steps among ?_
          cases copied with
          | untaken id => exact .untaken id
          | took id took _ => exact .took id took nofun

theorem Took.status (took : Took may way p said q) (alive : said ≠ .ok false) : q.status = p.status := by
  cases took with
  | threw | finished | dropped => exact absurd rfl alive
  | @went next constraint => cases constraint <;> rfl
  | failed => rfl

theorem Took.ended (took : Took may way p (.ok false) q) : q.status.isTerminal = true := by
  cases took <;> rfl

theorem Expanded.goes (expanded : Expanded may M p q true) :
    ∃ ways r way next id, Machine.Runs M.step p ways r ∧ way ∈ ways ∧ way.next? = some next ∧
      q = (r.fork id).go way := by
  generalize yes : true = goesOn at expanded
  cases expanded with
  | copied runs member copied =>
    subst yes
    cases copied with
    | took id took goes =>
      cases goes rfl
      cases took with
      | went next heard => exact ⟨_, _, _, next, id, runs, member, rfl, rfl⟩
  | _ => cases yes

theorem Expanded.running (expanded : Expanded may M p q true) : q.status = p.status := by
  obtain ⟨ways, r, way, next, id, runs, _, goes, rfl⟩ := expanded.goes
  rw [Path.go_eq]
  exact (Machine.step_sameTask runs).status

end

end Explore

variable {paths : List Path} {i : Nat} {rest : List Nat}

def statusAt (paths : List Path) (i : Nat) : Option Status := (paths[i]?).map Path.status

theorem statusAt_lt {status : Status} (known : statusAt paths i = some status) : i < paths.length := by
  obtain ⟨p, found, _⟩ := Option.map_eq_some_iff.mp known
  exact (List.getElem?_eq_some_iff.mp found).1

theorem statusAt_set_ne {x : Nat} (apart : i ≠ x) (p : Path) : statusAt (paths.set i p) x = statusAt paths x := by
  rw [statusAt, getElem?_set_ne apart, statusAt]

theorem statusAt_set {p q : Path} (found : paths[i]? = some p) (same : q.status = p.status) :
    statusAt (paths.set i q) i = statusAt paths i := by
  have inRange := (List.getElem?_eq_some_iff.mp found).1
  simp only [statusAt, List.getElem?_set_self inRange, found, Option.map_some, same]

namespace Search

variable {s : Search} {i x n : Nat} {p q : Path} {goesOn : Bool} {first : Path × Bool} {later : List (Path × Bool)}
  {b : Budget}

structure Placed (s : Search) : Prop where
  distinct : s.pending.Nodup
  inRange : ∀ x ∈ s.pending, x < s.paths.length

structure WellFormed (s : Search) : Prop where
  distinct : s.pending.Nodup
  running : ∀ i ∈ s.pending, statusAt s.paths i = some .running

theorem WellFormed.placed (formed : s.WellFormed) : s.Placed :=
  ⟨formed.distinct, fun x among => statusAt_lt (formed.running x among)⟩

theorem placed_start (paths : List Path) : (start paths).Placed :=
  ⟨nodup_reverse.mpr nodup_range, fun _ among => mem_range.mp (mem_reverse.mp among)⟩

theorem pending_start {x : Nat} (found : paths[x]? = some p) : x ∈ (start paths).pending :=
  mem_reverse.mpr (mem_range.mpr (List.getElem?_eq_some_iff.mp found).1)

theorem wellFormed_start (running : ∀ p ∈ paths, p.status = .running) : (start paths).WellFormed := by
  refine ⟨(placed_start paths).distinct, fun i among => ?_⟩
  have inRange : i < paths.length := (placed_start paths).inRange i among
  show (paths[i]?).map Path.status = some .running
  rw [getElem?_eq_getElem inRange, Option.map_some, running _ (getElem_mem inRange)]

theorem Placed.pop (placed : s.Placed) (pending : s.pending = i :: rest) :
    Placed (s.awaiting rest) ∧ i ∉ rest := by
  obtain ⟨settled, distinct⟩ := nodup_cons.mp (pending ▸ placed.distinct)
  exact ⟨⟨distinct, fun x among => placed.inRange x (pending ▸ mem_cons_of_mem i among)⟩, settled⟩

theorem WellFormed.head (formed : s.WellFormed) (pending : s.pending = i :: rest) :
    ∃ p, s.paths[i]? = some p ∧ p.status = .running :=
  Option.map_eq_some_iff.mp (formed.running i (pending ▸ mem_cons_self ..))

theorem giveUp_other (settled : x ∉ s.pending) : (s.giveUp b)[x]? = s.paths[x]? := by
  unfold giveUp
  generalize s.paths = paths
  revert settled
  induction s.pending generalizing paths with
  | nil => intro _; rfl
  | cons i rest ih =>
    intro settled
    have apart : i ≠ x := fun same => settled (same ▸ mem_cons_self ..)
    rw [foldl_cons, ih _ fun among => settled (mem_cons_of_mem _ among)]
    exact getElem?_modify_ne _ _ apart

theorem giveUp_found (found : (s.giveUp b)[x]? = some q) :
    (∃ p, x ∈ s.pending ∧ s.paths[x]? = some p ∧ q = p.giveUp b) ∨ x ∉ s.pending ∧ s.paths[x]? = some q := by
  unfold giveUp at found
  generalize s.paths = paths at found ⊢
  generalize s.pending = pending at found ⊢
  induction pending generalizing paths with
  | nil => exact .inr ⟨not_mem_nil, found⟩
  | cons i rest ih =>
    by_cases here : i = x
    · subst here
      -- giving a path up again changes nothing
      rcases ih _ found with ⟨p, _, there, rfl⟩ | ⟨_, there⟩
      · rw [getElem?_modify_eq] at there
        obtain ⟨p', before, rfl⟩ := Option.map_eq_some_iff.mp there
        exact .inl ⟨p', mem_cons_self .., before, rfl⟩
      · rw [getElem?_modify_eq] at there
        obtain ⟨p', before, rfl⟩ := Option.map_eq_some_iff.mp there
        exact .inl ⟨p', mem_cons_self .., before, rfl⟩
    · rcases ih _ found with ⟨p, among, there, rfl⟩ | ⟨settled, there⟩
      · rw [getElem?_modify_ne _ _ here] at there
        exact .inl ⟨p, mem_cons_of_mem _ among, there, rfl⟩
      · rw [getElem?_modify_ne _ _ here] at there
        exact .inr ⟨not_mem_cons_of_ne_of_not_mem (Ne.symm here) settled, there⟩

/-- Where the ways of the path at place `i` are taken: there, and on `n` copies at the end. -/
def places (s : Search) (i n : Nat) : List Nat := i :: (range n).map (s.paths.length + ·)

def forked (s : Search) (i : Nat) (p : Path) (n : Nat) : List Path :=
  s.paths.set i p ++ (range n).map fun k => p.fork (s.nextId + k)

def sites (s : Search) (i : Nat) (first : Path × Bool) (later : List (Path × Bool)) : List ((Path × Bool) × Nat) :=
  (first, i) :: later.zipIdx s.paths.length

def replace (s : Search) (i : Nat) (first : Path × Bool) (later : List (Path × Bool)) : Search where
  paths := s.paths.set i first.1 ++ later.map Prod.fst
  pending := (((s.sites i first later).filter (·.1.2)).map Prod.snd).reverse ++ s.pending
  nextId := s.nextId + later.length

theorem put_eq_replace (s : Search) (i : Nat) (p : Path) : s.put i p = s.replace i (p, false) [] := by
  simp [put, replace, sites]

theorem replace_other (apart : x ≠ i) (old : x < s.paths.length) :
    (s.replace i first later).paths[x]? = s.paths[x]? := by
  unfold replace
  rw [getElem?_append_left (by simpa using old), getElem?_set_ne (Ne.symm apart)]

theorem mem_pending_replace :
    x ∈ (s.replace i first later).pending ↔ (∃ q, ((q, true), x) ∈ s.sites i first later) ∨ x ∈ s.pending := by
  simp [replace]

theorem nodup_sites (inRange : i < s.paths.length) : ((s.sites i first later).map Prod.snd).Nodup := by
  rw [sites, map_cons, zipIdx_map_snd]
  refine nodup_cons.mpr ⟨fun among => ?_, nodup_range'⟩
  have beyond := (mem_range'_1.mp among).1
  omega

theorem site_cases (site : ((q, goesOn), x) ∈ s.sites i first later) : x = i ∨ s.paths.length ≤ x := by
  rcases mem_cons.mp site with same | beyond
  · exact .inl (congrArg Prod.snd same)
  · exact .inr (le_snd_of_mem_zipIdx beyond)

theorem mem_of_site (site : ((q, goesOn), x) ∈ s.sites i first later) : (q, goesOn) ∈ first :: later := by
  rcases mem_cons.mp site with same | beyond
  · exact mem_cons.mpr (.inl (congrArg Prod.fst same))
  · exact mem_cons_of_mem _ (fst_mem_of_mem_zipIdx beyond)

theorem site_found (inRange : i < s.paths.length) (site : ((q, goesOn), x) ∈ s.sites i first later) :
    (s.replace i first later).paths[x]? = some q := by
  unfold replace
  rcases mem_cons.mp site with same | beyond
  · cases same
    rw [getElem?_append_left (by simpa using inRange), getElem?_set_self inRange]
  · obtain ⟨after, listed⟩ := mk_mem_zipIdx_iff_le_and_getElem?_sub.mp beyond
    rw [getElem?_append_right (by simpa using after), length_set, getElem?_map, listed, Option.map_some]

theorem pending_other (apart : x ≠ i) (old : x < s.paths.length) :
    x ∈ (s.replace i first later).pending ↔ x ∈ s.pending := by
  rw [mem_pending_replace]
  refine or_iff_right ?_
  rintro ⟨r, site⟩
  rcases site_cases site with same | beyond
  · exact apart same
  · omega

theorem pending_site (placed : s.Placed) (settled : i ∉ s.pending) (inRange : i < s.paths.length)
    (site : ((q, goesOn), x) ∈ s.sites i first later) : x ∈ (s.replace i first later).pending ↔ goesOn = true := by
  rw [mem_pending_replace]
  constructor
  · rintro (⟨r, other⟩ | before)
    · have same := inj_on_of_nodup_map (nodup_sites inRange) site other rfl
      cases same
      rfl
    · rcases site_cases site with rfl | beyond
      · exact absurd before settled
      · exact absurd (placed.inRange x before) (Nat.not_lt.mpr beyond)
  · rintro rfl
    exact .inl ⟨q, site⟩

theorem replace_found (placed : s.Placed) (settled : i ∉ s.pending) (inRange : i < s.paths.length)
    (found : (s.replace i first later).paths[x]? = some q) :
    (x ≠ i ∧ s.paths[x]? = some q ∧ (x ∈ (s.replace i first later).pending ↔ x ∈ s.pending)) ∨
      ∃ goesOn, ((q, goesOn), x) ∈ s.sites i first later ∧ (x ∈ (s.replace i first later).pending ↔ goesOn = true) := by
  have new (goesOn : Bool) (r : Path) (site : ((r, goesOn), x) ∈ s.sites i first later) :
      ∃ goesOn, ((q, goesOn), x) ∈ s.sites i first later ∧ (x ∈ (s.replace i first later).pending ↔ goesOn = true) := by
    cases (site_found inRange site).symm.trans found
    exact ⟨goesOn, site, pending_site placed settled inRange site⟩
  by_cases old : x < s.paths.length
  · by_cases here : x = i
    · subst here
      exact .inr (new first.2 first.1 (mem_cons_self ..))
    · exact .inl ⟨here, (replace_other here old).symm.trans found, pending_other here old⟩
  · have below := (List.getElem?_eq_some_iff.mp found).1
    simp only [replace, length_append, length_set, length_map] at below
    have listed : later[x - s.paths.length]? = some later[x - s.paths.length] := getElem?_eq_getElem (by omega)
    exact .inr (new _ _ (mem_cons_of_mem (first, i)
      (mk_mem_zipIdx_iff_le_and_getElem?_sub.mpr ⟨Nat.not_lt.mp old, listed⟩)))

theorem Placed.replace (placed : s.Placed) (settled : i ∉ s.pending) (inRange : i < s.paths.length) :
    (s.replace i first later).Placed := by
  constructor
  · refine nodup_append.mpr ⟨nodup_reverse.mpr ?_, placed.distinct, ?_⟩
    · exact (nodup_sites inRange).sublist (filter_sublist.map _)
    · rintro x fresh _ before rfl
      simp only [mem_reverse, mem_map, mem_filter] at fresh
      obtain ⟨⟨⟨q, goesOn⟩, _⟩, ⟨site, _⟩, rfl⟩ := fresh
      rcases site_cases site with rfl | beyond
      · exact settled before
      · exact absurd (placed.inRange _ before) (Nat.not_lt.mpr beyond)
  · intro x among
    simp only [Search.replace, length_append, length_set, length_map]
    rcases mem_pending_replace.mp among with ⟨q, site⟩ | before
    · rcases mem_cons.mp site with same | beyond
      · cases same
        omega
      · have below := snd_lt_of_mem_zipIdx beyond
        omega
    · have old := placed.inRange x before
      omega

end Search

namespace Explore

variable {σ : Type} {solver : Solver (StateM σ)} {w w' : σ} {M : Machine} {s t : Search} {i : Nat}
  {paths : List Path} {p q : Path} {way : Successor} {ways : List Successor} {left last : Nat} {final : List Path}
  {v : σ} {first : Path × Bool} {later : List (Path × Bool)}

theorem feasible_heard (asks : Returns (feasible solver p) w said w') : Heard solver.Says p said := by
  obtain ⟨answer, v, answers, ends⟩ := asks.of_bind
  refine ⟨w, answer, v, answers, ?_⟩
  cases answer <;> exact ends.of_pure.symm

theorem feasibleIfRequired_heard
    (asks : Returns (feasibleIfRequired solver p) w said w') : HeardAfter solver.Says p said := by
  unfold feasibleIfRequired at asks
  unfold HeardAfter
  split at asks
  · rename_i none
    rw [if_pos (isEmpty_iff.mp none)]
    exact asks.of_pure.symm
  · rename_i asked
    rw [if_neg fun none => asked (isEmpty_iff.mpr none)]
    exact feasible_heard asks

theorem take_took (takes : Returns (take solver way p) w (said, q) w') : Took solver.Says way p said q := by
  cases way with
  | throws constraint =>
    cases takes.of_pure
    exact .threw constraint p
  | finish =>
    cases takes.of_pure
    exact .finished p
  | goto next constraint =>
    cases constraint with
    | none =>
      cases takes.of_pure
      exact .went next nofun
    | some t =>
      obtain ⟨answer, v, asks, takes⟩ := takes.of_bind
      have heard := feasible_heard asks
      split at takes
      · cases takes.of_pure
        exact .went next fun _ same => Option.some.inj same ▸ heard
      · cases takes.of_pure
        exact .dropped next heard
      · cases takes.of_pure
        exact .failed next heard

def work (s : Search) (i : Nat) (ways : List Successor) : List (Nat × Successor) :=
  (s.places i (ways.length - 1)).zip ways

def going (items : List (Path × Bool)) (start : Nat) : List Nat := ((items.zipIdx start).filter (·.1.2)).map Prod.snd

theorem going_cons (q : Path) (goesOn : Bool) (items : List (Path × Bool)) (start : Nat) :
    going ((q, goesOn) :: items) start =
      if goesOn then start :: going items (start + 1) else going items (start + 1) := by
  cases goesOn <;> simp [going]

theorem takeAll_spreads {before : List Path} {ids : List Nat} (length : ids.length = ways.length)
    {result : Except SolverError (List Nat)}
    (takes : Returns (takeAll solver ((range' before.length ways.length).zip ways) (before ++ ids.map p.fork)) w
      (result, paths) w') :
    ∃ items failure, Spreads solver.Says p ways items failure ∧ paths = before ++ items.map Prod.fst ∧
      result = match failure with
        | none => .ok (going items before.length)
        | some e => .error e := by
  induction ways generalizing before ids w result paths w' with
  | nil =>
    cases length_eq_zero_iff.mp length
    cases takes.of_pure
    exact ⟨[], none, .none, by simp, rfl⟩
  | cons way ways ih =>
    obtain ⟨id, ids, rfl⟩ := exists_cons_of_length_eq_add_one length
    have length : ids.length = ways.length := Nat.succ.inj length
    have found : (before ++ (id :: ids).map p.fork)[before.length]? = some (p.fork id) := by simp
    have put (q : Path) :
        (before ++ (id :: ids).map p.fork).set before.length q = (before ++ [q]) ++ ids.map p.fork := by
      simp
    simp only [length_cons, range'_succ, zip_cons_cons, takeAll, found] at takes
    obtain ⟨⟨said, q⟩, v, taken, takes⟩ := takes.of_bind
    have took := take_took taken
    dsimp only at takes
    rw [put] at takes
    cases said with
    | error e =>
      cases takes.of_pure
      exact ⟨_, _, .failed took length, by simp, rfl⟩
    | ok goesOn =>
      obtain ⟨⟨others, paths'⟩, v', takes, ends⟩ := takes.of_bind
      have next : before.length + 1 = (before ++ [q]).length := by simp
      rw [next] at takes
      obtain ⟨items, failure, spreads, rfl, rfl⟩ := ih length takes
      cases ends.of_pure
      refine ⟨_, failure, .took took spreads, by simp, ?_⟩
      cases failure with
      | some e => rfl
      | none =>
        rw [going_cons, next]
        rfl

theorem returns_branch :
    Returns (branch solver s i p ways) w t w' ↔ ∃ result paths,
      Returns (takeAll solver (work s i ways) (s.forked i p (ways.length - 1))) w (result, paths) w' ∧
      t = match result with
        | .ok running => ⟨paths, running.reverse ++ s.pending, s.nextId + (ways.length - 1)⟩
        | .error e => ⟨paths.modify i (·.fail (.solver e)), s.pending, s.nextId + (ways.length - 1)⟩ := by
  unfold branch
  rw [returns_bind]
  constructor
  · rintro ⟨⟨result, paths⟩, v, takes, ends⟩
    refine ⟨result, paths, ?_⟩
    cases result with
    | error e | ok running =>
      obtain ⟨rfl, rfl⟩ := returns_pure.mp ends
      exact ⟨takes, rfl⟩
  · rintro ⟨result, paths, takes, rfl⟩
    refine ⟨(result, paths), w', takes, ?_⟩
    cases result with
    | error e | ok running => exact returns_pure.mpr ⟨rfl, rfl⟩

theorem replace_halted (inRange : i < s.paths.length) (e : SolverError) (items : List (Path × Bool)) {n : Nat}
    (length : items.length = n) :
    ⟨(s.paths.set i q ++ items.map Prod.fst).modify i (·.fail (.solver e)), s.pending, s.nextId + n⟩ =
      s.replace i (q.fail (.solver e), false) (items.map fun item => (item.1, false)) := by
  subst length
  have put : (s.paths.set i q ++ items.map Prod.fst).modify i (·.fail (.solver e)) =
      s.paths.set i (q.fail (.solver e)) ++ items.map Prod.fst := by
    rw [modify_eq_set_getElem?, getElem?_append_left (by simpa using inRange)]
    simp [inRange]
  have none : ((s.sites i (q.fail (.solver e), false) (items.map fun item => (item.1, false))).filter (·.1.2)) =
      [] := by
    refine filter_eq_nil_iff.mpr fun site among => ?_
    rcases mem_cons.mp among with rfl | among
    · simp
    · obtain ⟨item, _, same⟩ := mem_map.mp (fst_mem_of_mem_zipIdx among)
      simp [← same]
  simp [Search.replace, put, none, Function.comp_def]

theorem branch_branches (inRange : i < s.paths.length) (branches : Returns (branch solver s i p ways) w t w') :
    ∃ failure first later, Branches solver.Says p ways failure (first :: later) ∧ t = s.replace i first later ∧
      ∀ e, failure = some e → ∃ paths,
        Returns (takeAll solver (work s i ways) (s.forked i p (ways.length - 1))) w (.error e, paths) w' := by
  obtain ⟨result, paths, takes, rfl⟩ := returns_branch.mp branches
  cases ways with
  | nil =>
    cases takes.of_pure
    exact ⟨none, (p, false), [], .stuck, by simp [Search.replace, Search.sites, Search.forked], nofun⟩
  | cons way ways =>
    have all := takes
    have found : (s.forked i p ways.length)[i]? = some p := by
      unfold Search.forked
      rw [getElem?_append_left (by simpa using inRange), getElem?_set_self inRange]
    simp only [work, Search.places, length_cons, Nat.add_sub_cancel, zip_cons_cons, takeAll, found] at takes
    obtain ⟨⟨said, q⟩, v, taken, takes⟩ := takes.of_bind
    have took : Took solver.Says way (p.fork p.id) said q := take_took taken
    have put : (s.forked i p ways.length).set i q =
        s.paths.set i q ++ ((range ways.length).map (s.nextId + ·)).map p.fork := by
      simp [Search.forked, set_append_left, inRange]
    have length : ((range ways.length).map (s.nextId + ·)).length = ways.length := by simp
    rw [put] at takes
    cases said with
    | error e =>
      cases takes.of_pure
      have copies (ids : List Nat) : (ids.map fun id => (p.fork id, false)).map Prod.fst = ids.map p.fork := by simp
      refine ⟨some e, _, _, .halted (.failed took length), ?_, fun _ same => Option.some.inj same ▸ ⟨_, all⟩⟩
      rw [← copies]
      exact replace_halted inRange e _ (by simp)
    | ok goesOn =>
      obtain ⟨⟨others, paths'⟩, v', takesLater, ends⟩ := takes.of_bind
      obtain ⟨same, rfl⟩ := returns_pure.mp ends
      have places : (range ways.length).map (s.paths.length + ·) = range' (s.paths.set i q).length ways.length := by
        rw [range'_eq_map_range, length_set]
      rw [places] at takesLater
      obtain ⟨items, failure, spreads, rfl, rfl⟩ := takeAll_spreads length takesLater
      have counted : items.length = ways.length := spreads.copied.length_eq.symm
      cases failure with
      | some e =>
        cases same
        refine ⟨some e, _, _, .halted (.took took spreads), ?_, fun _ same => Option.some.inj same ▸ ⟨_, all⟩⟩
        exact replace_halted inRange e items counted
      | none =>
        cases same
        refine ⟨none, (q, goesOn), items, .taken (.took took spreads), ?_, nofun⟩
        cases goesOn <;> simp [Search.replace, Search.sites, going, counted, Except.map]

inductive Advanced (M : Machine) (solver : Solver (StateM σ)) (s : Search) (i : Nat) (p : Path) (w : σ) :
    Search → σ → Prop
  | broken {e : PathError} {q : Path} (fails : M.stepOn p = (.error e, q)) :
      Advanced M solver s i p w (s.put i (q.fail e)) w
  | failed {ways : List Successor} {q : Path} {e : SolverError} {w' : σ} (steps : M.stepOn p = (.ok ways, q))
      (asks : Returns (feasibleIfRequired solver q) w (.error e) w') :
      Advanced M solver s i p w (s.put i (q.fail (.solver e))) w'
  | unmet {ways : List Successor} {q : Path} {w' : σ} (steps : M.stepOn p = (.ok ways, q))
      (asks : Returns (feasibleIfRequired solver q) w (.ok false) w') :
      Advanced M solver s i p w (s.put i (q.endAs .unsat)) w'
  | branched {ways : List Successor} {q : Path} {t : Search} {v w' : σ} (steps : M.stepOn p = (.ok ways, q))
      (asks : Returns (feasibleIfRequired solver q) w (.ok true) v)
      (branches : Returns (branch solver s i q ways) v t w') : Advanced M solver s i p w t w'

theorem advance_advanced (found : s.paths[i]? = some p) (advances : Returns (advance M solver s i) w t w') :
    Advanced M solver s i p w t w' := by
  simp only [advance, found] at advances
  split at advances
  · rename_i e stepped
    have stepped : M.stepOn p = (.error e, (M.stepOn p).2) := Prod.ext stepped rfl
    obtain ⟨rfl, rfl⟩ := returns_pure.mp advances
    exact .broken stepped
  · rename_i ways stepped
    have stepped : M.stepOn p = (.ok ways, (M.stepOn p).2) := Prod.ext stepped rfl
    obtain ⟨answer, v, asks, advances⟩ := advances.of_bind
    split at advances
    · obtain ⟨rfl, rfl⟩ := returns_pure.mp advances
      exact .failed stepped asks
    · obtain ⟨rfl, rfl⟩ := returns_pure.mp advances
      exact .unmet stepped asks
    · exact .branched stepped asks advances

/-- A step replaces the path at its place by what the machine and the solver make of it. -/
theorem advance_expands (found : s.paths[i]? = some p) (advances : Returns (advance M solver s i) w t w') :
    ∃ first later, Expands solver.Says M p (first :: later) ∧ t = s.replace i first later := by
  have inRange := (List.getElem?_eq_some_iff.mp found).1
  unfold Expands
  cases advance_advanced found advances with
  | broken fails =>
    rw [fails]
    exact ⟨_, _, rfl, s.put_eq_replace i _⟩
  | failed steps asks | unmet steps asks =>
    rw [steps]
    exact ⟨_, _, ⟨_, feasibleIfRequired_heard asks, rfl⟩, s.put_eq_replace i _⟩
  | branched steps asks branches =>
    obtain ⟨failure, first, later, branches, same, _⟩ := branch_branches inRange branches
    rw [steps]
    exact ⟨first, later, ⟨_, feasibleIfRequired_heard asks, failure, branches⟩, same⟩

theorem wellFormed_replace (formed : s.WellFormed) (pending : s.pending = i :: rest)
    (found : s.paths[i]? = some p) (expands : Expands solver.Says M p (first :: later)) :
    (replace (s.awaiting rest) i first later).WellFormed := by
  obtain ⟨placed, settled⟩ := formed.placed.pop pending
  have inRange := (List.getElem?_eq_some_iff.mp found).1
  have placed' : (replace (s.awaiting rest) i first later).Placed := placed.replace settled inRange
  refine ⟨placed'.distinct, fun x goes => ?_⟩
  have there := List.getElem?_eq_getElem (placed'.inRange x goes)
  rw [statusAt, there, Option.map_some]
  rcases replace_found placed settled inRange there with ⟨_, old, same⟩ | ⟨goesOn, site, same⟩
  · have running := formed.running x (pending ▸ mem_cons_of_mem i (same.mp goes))
    rw [statusAt] at running
    rwa [show s.paths[x]? = _ from old] at running
  · cases same.mp goes
    obtain ⟨_, here, running⟩ := formed.head pending
    cases found.symm.trans here
    rw [(expands.expanded (mem_of_site site)).running, running]

variable {clock : Clock (StateM σ)} {started : Nat} {I : Search → Prop}

/-- What every step keeps holds when the search ends: with nothing pending, or out of budget. -/
theorem search_ends (preserved : ∀ {s t : Search} {i : Nat} {rest : List Nat} {w w' : σ}, s.pending = i :: rest → I s →
      Returns (advance M solver (s.awaiting rest) i) w t w' → I t)
    (holds : I s) (explores : Returns (search M solver clock started left s) w final w') :
    ∃ u : Search, I u ∧ (final = u.paths ∧ u.pending = [] ∨ ∃ b, final = u.giveUp b) := by
  induction left generalizing s w with
  | zero => exact ⟨s, holds, .inr ⟨_, explores.of_pure.symm⟩⟩
  | succ left ih =>
    rw [search] at explores
    split at explores
    · rename_i pending
      exact ⟨s, holds, .inl ⟨explores.of_pure.symm, pending⟩⟩
    · rename_i i rest pending
      obtain ⟨budget, v, within, explores⟩ := explores.of_bind
      cases budget with
      | some b => exact ⟨s, holds, .inr ⟨b, explores.of_pure.symm⟩⟩
      | none =>
        obtain ⟨t, v', advances, explores⟩ := explores.of_bind
        exact ih (preserved pending holds advances) explores

/-- What every expansion of a running path keeps holds when the search ends. -/
theorem search_keeps
    (preserved :
      ∀ {s : Search} {i : Nat} {rest : List Nat} {p : Path} {first : Path × Bool} {later : List (Path × Bool)},
      s.WellFormed → s.pending = i :: rest → s.paths[i]? = some p → I s → Expands solver.Says M p (first :: later) →
      I (replace (s.awaiting rest) i first later))
    (formed : s.WellFormed) (holds : I s) (explores : Returns (search M solver clock started left s) w final w') :
    ∃ u : Search, I u ∧ (final = u.paths ∧ u.pending = [] ∨ ∃ b, final = u.giveUp b) := by
  obtain ⟨u, ⟨_, holds⟩, ends⟩ :=
    search_ends (I := fun s => s.WellFormed ∧ I s) (fun {s t i rest _ _} pending holds advances => by
    obtain ⟨formed, holds⟩ := holds
    obtain ⟨p, found, _⟩ := formed.head pending
    obtain ⟨first, later, expands, rfl⟩ := advance_expands (s := s.awaiting rest) found advances
    exact ⟨wellFormed_replace formed pending found expands, preserved formed pending found holds expands⟩)
    ⟨formed, holds⟩ explores
  exact ⟨u, holds, ends⟩

theorem search_settled (explores : Returns (search M solver clock started left s) w final w') {x : Nat}
    (inRange : x < s.paths.length) (settled : x ∉ s.pending) : final[x]? = s.paths[x]? := by
  obtain ⟨u, ⟨_, settled, same⟩, ends⟩ := search_ends
    (I := fun t => x < t.paths.length ∧ x ∉ t.pending ∧ t.paths[x]? = s.paths[x]?)
    (fun {t t' i rest _ _} pending ⟨inRange, settled, same⟩ advances => by
      rw [pending, mem_cons, not_or] at settled
      cases found : t.paths[i]? with
      | none =>
        simp only [advance, found] at advances
        obtain ⟨rfl, _⟩ := returns_pure.mp advances
        exact ⟨inRange, settled.2, same⟩
      | some p =>
        obtain ⟨first, later, _, rfl⟩ := advance_expands (s := { t with pending := rest }) found advances
        have kept : (replace { t with pending := rest } i first later).paths[x]? = t.paths[x]? :=
          replace_other settled.1 inRange
        refine ⟨?_, fun among => ?_, kept.trans same⟩
        · rw [Search.replace, length_append, length_set]
          exact Nat.lt_add_right _ inRange
        · rcases mem_pending_replace.mp among with ⟨q, site⟩ | before
          · rcases site_cases site with here | beyond
            · exact settled.1 here
            · exact absurd inRange (Nat.not_lt.mpr beyond)
          · exact settled.2 before) ⟨inRange, settled, rfl⟩ explores
  rcases ends with ⟨rfl, _⟩ | ⟨b, rfl⟩
  · exact same
  · exact (giveUp_other settled).trans same

/-- The search passes through a state: so many steps left, the paths and the pending places, and the
world. -/
inductive Visits (M : Machine) (solver : Solver (StateM σ)) (clock : Clock (StateM σ)) (started : Nat) :
    Nat → Search → σ → Nat → Search → σ → Prop where
  | here (left : Nat) (s : Search) (w : σ) : Visits M solver clock started left s w left s w
  | next {left last i : Nat} {s t u : Search} {w₁ w₂ w₃ w₄ : σ} {rest : List Nat}
      (pending : s.pending = i :: rest) (within : Returns (exhausted M.config clock started s) w₁ none w₂)
      (advances : Returns (advance M solver (s.awaiting rest) i) w₂ t w₃)
      (later : Visits M solver clock started left t w₃ last u w₄) :
      Visits M solver clock started (left + 1) s w₁ last u w₄

theorem returns_search_succ {w₁ w₂ w₃ : σ} (pending : s.pending = i :: rest)
    (within : Returns (exhausted M.config clock started s) w₁ none w₂)
    (advances : Returns (advance M solver (s.awaiting rest) i) w₂ t w₃) :
    Returns (search M solver clock started (left + 1) s) w₁ final w' ↔
      Returns (search M solver clock started left t) w₃ final w' := by
  simp only [search, pending, returns_bind]
  constructor
  · rintro ⟨budget, v, checked, explores⟩
    obtain ⟨rfl, rfl⟩ := within.unique checked
    obtain ⟨t', v', advanced, explores⟩ := explores.of_bind
    obtain ⟨rfl, rfl⟩ := advances.unique advanced
    exact explores
  · intro explores
    exact ⟨none, w₂, within, returns_bind.mpr ⟨t, w₃, advances, explores⟩⟩

theorem Visits.search (visits : Visits M solver clock started left s w last t v) :
    Returns (search M solver clock started left s) w final w' ↔
      Returns (search M solver clock started last t) v final w' := by
  induction visits with
  | here left s w => exact Iff.rfl
  | next pending within advances later ih => exact (returns_search_succ pending within advances).trans ih

theorem Visits.wellFormed (visits : Visits M solver clock started left s w last t v) (formed : s.WellFormed) :
    t.WellFormed := by
  induction visits with
  | here left s w => exact formed
  | @next left last i s t u w₁ w₂ w₃ w₄ rest pending within advances later ih =>
    obtain ⟨p, found, _⟩ := formed.head pending
    obtain ⟨first, others, expands, rfl⟩ := advance_expands (s := s.awaiting rest) found advances
    exact ih (wellFormed_replace formed pending found expands)

end Explore

end TokenAudit
