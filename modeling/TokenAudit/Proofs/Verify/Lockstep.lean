import TokenAudit.Proofs.Verify.Completion
import TokenAudit.Proofs.Verify.Copies
import TokenAudit.Proofs.Verify.Unfolding

/-!
# Runs in lockstep

A truthful solver and a cautious one, which never calls impossible what is possible, explore the same paths, and the
cautious one beside them paths whose log excludes what is required of them.
-/

namespace TokenAudit

open List Search Explore Complete

def Solver.Within {σ : Type} (solver : Solver (StateM σ)) (may : Saying) : Prop :=
  ∀ ⦃ts said⦄, solver.Says ts said → may ts said

def Told (ts : List Term) (said : Except SolverError Bool) : Prop := ∃ b, said = .ok b ∧ (b = true ↔ Satisfiable ts)

def Spared (ts : List Term) (said : Except SolverError Bool) : Prop := ∃ b, said = .ok b ∧ (Satisfiable ts → b = true)

theorem Solver.Truthful.within {σ : Type} {solver : Solver (StateM σ)} (truthful : solver.Truthful) :
    solver.Within Told := by
  rintro ts _ ⟨w, answer, w', answers, rfl⟩
  rcases truthful.answer answers with ⟨possible, rfl⟩ | ⟨impossible, rfl⟩
  · exact ⟨true, rfl, by simp [possible]⟩
  · exact ⟨false, rfl, by simp [impossible]⟩

namespace Search

variable {s : Search} {i : Nat} {p q : Path} {rest : List Nat} {first : Path × Bool} {later : List (Path × Bool)}

def pathAt (s : Search) (x : Nat) : Option Path := (s.paths[x]?).map Path.unnumbered

def front (s : Search) : List Path := s.pending.filterMap s.pathAt

def AtRest (s : Search) (q : Path) : Prop := (q, false) ∈ s.contents

theorem atRest_iff : s.AtRest q ↔ ∃ x p, s.paths[x]? = some p ∧ x ∉ s.pending ∧ p.unnumbered = q := by
  simp only [AtRest, contents, item, mem_map, Prod.exists, mem_zipIdx_iff_getElem?, Prod.mk.injEq,
    decide_eq_false_iff_not]
  constructor
  · rintro ⟨p, x, found, same, settled⟩
    exact ⟨x, p, found, settled, same⟩
  · rintro ⟨x, p, found, settled, same⟩
    exact ⟨p, x, found, same, settled⟩

theorem atRest_of_empty (empty : s.pending = []) : s.AtRest q ↔ q ∈ s.paths.map Path.unnumbered := by
  simp [atRest_iff, empty, mem_iff_getElem?]

theorem front_cons (placed : s.Placed) (pending : s.pending = i :: rest) :
    ∃ p, s.paths[i]? = some p ∧ s.front = p.unnumbered :: rest.filterMap s.pathAt := by
  have inRange := placed.inRange i (pending ▸ mem_cons_self ..)
  have found : s.paths[i]? = some s.paths[i] := List.getElem?_eq_getElem inRange
  refine ⟨_, found, ?_⟩
  rw [front, pending]
  exact filterMap_cons_some (by rw [pathAt, found, Option.map_some])

theorem front_eq_nil (placed : s.Placed) (empty : s.front = []) : s.pending = [] := by
  cases pending : s.pending with
  | nil => rfl
  | cons i rest =>
    obtain ⟨p, _, front⟩ := front_cons placed pending
    rw [front] at empty
    cases empty

def running (items : List (Path × Bool)) : List Path := (items.filter Prod.snd).map Prod.fst

structure Replaces (s : Search) (p : Path) (items : List (Path × Bool)) (t : Search) : Prop where
  placed : t.Placed
  front : ∃ others, s.front = p :: others ∧ t.front = (running items).reverse ++ others
  settled : ∀ q, t.AtRest q ↔ s.AtRest q ∨ (q, false) ∈ items
  length : t.paths.length + 1 = s.paths.length + items.length

theorem replaces_replace (placed : s.Placed) (pending : s.pending = i :: rest) (found : s.paths[i]? = some p) :
    s.Replaces p.unnumbered (bare (first :: later)) (replace (s.awaiting rest) i first later) := by
  obtain ⟨popped, fresh⟩ := placed.pop pending
  have inRange := (List.getElem?_eq_some_iff.mp found).1
  have pops (x : Nat) : x ∈ s.pending ↔ x = i ∨ x ∈ rest := by rw [pending, mem_cons]
  obtain ⟨others, before, after⟩ := contents_replace first later popped fresh pops found
  refine ⟨popped.replace fresh inRange, ?_, fun q => ?_, ?_⟩
  · obtain ⟨_, here, front⟩ := front_cons placed pending
    cases found.symm.trans here
    refine ⟨_, front, ?_⟩
    generalize after_eq : replace (s.awaiting rest) i first later = t
    have kept : rest.filterMap t.pathAt = rest.filterMap s.pathAt := by
      refine filterMap_congr fun x among => ?_
      have away : x ≠ i := by
        rintro rfl
        exact fresh among
      rw [pathAt, ← after_eq, replace_other away (popped.inRange x among), pathAt]
    have new (sites' : List ((Path × Bool) × Nat)) (sub : sites' ⊆ sites (s.awaiting rest) i first later) :
        (sites'.map Prod.snd).filterMap t.pathAt = sites'.map fun site => site.1.1.unnumbered := by
      rw [filterMap_map, ← filterMap_eq_map]
      refine filterMap_congr fun ⟨⟨q, goesOn⟩, x⟩ among => ?_
      have made := site_found (s := s.awaiting rest) inRange (sub among)
      rw [after_eq] at made
      show (t.paths[x]?).map Path.unnumbered = _
      rw [made]
      rfl
    have made : first :: later = (sites (s.awaiting rest) i first later).map Prod.fst := by
      rw [sites, map_cons, zipIdx_map_fst]
    have goes : t.pending =
        (((sites (s.awaiting rest) i first later).filter (·.1.2)).map Prod.snd).reverse ++ rest := by
      rw [← after_eq]
      rfl
    rw [Search.front, goes, filterMap_append, filterMap_reverse, kept, new _ filter_sublist.subset, made,
      running, bare, map_map, filter_map, map_map]
    rfl
  · rw [AtRest, AtRest, after.mem_iff, before.mem_iff, mem_cons, or_comm]
    simp
  · simp only [replace, bare, length_append, length_set, length_map, length_cons]
    omega

end Search

namespace Explore

section

variable {may may' : Saying} {M : Machine} {p q : Path} {way : Successor}
  {ways : List Successor} {items : List (Path × Bool)} {said : Except SolverError Bool}

theorem HeardAfter.mono (within : ∀ ⦃ts said⦄, may ts said → may' ts said) (heard : HeardAfter may p said) :
    HeardAfter may' p said := by
  unfold HeardAfter at heard ⊢
  split
  · rwa [if_pos ‹_›] at heard
  · rw [if_neg ‹_›] at heard
    exact within heard

theorem HeardAfter.ok (steady : ∀ ts e, ¬ may ts (.error e)) (heard : HeardAfter may p said) : ∃ b, said = .ok b := by
  cases said with
  | ok b => exact ⟨b, rfl⟩
  | error e =>
    unfold HeardAfter at heard
    split at heard
    · cases heard
    · exact absurd heard (steady _ e)

theorem Took.mono (within : ∀ ⦃ts said⦄, may ts said → may' ts said) (took : Took may way p said q) :
    Took may' way p said q := by
  cases took with
  | threw => exact .threw _ _
  | finished => exact .finished _
  | went next heard => exact .went next fun t same => within (heard t same)
  | dropped next heard => exact .dropped next (within heard)
  | failed next heard => exact .failed next (within heard)

theorem Spreads.each (within : ∀ ⦃ts said⦄, may ts said → may' ts said) (steady : ∀ ts e, ¬ may' ts (.error e))
    {failure : Option SolverError} (spreads : Spreads may p ways items failure) :
    failure = .none ∧
      List.Forall₂ (fun way item => Took may' way p.unnumbered (.ok item.2) item.1) ways (bare items) := by
  induction spreads with
  | none => exact ⟨rfl, .nil⟩
  | took took _ ih => exact ⟨ih.1, .cons ((took.fork 0).mono within) ih.2⟩
  | failed took =>
    cases took with
    | failed next heard => exact absurd (within heard) (steady _ _)

inductive Develops (may : Saying) (M : Machine) (p : Path) :
    List (Path × Bool) → Prop
  | broken {e : PathError} {q : Path} (fails : M.stepOn p = (.error e, q)) : Develops may M p [(q.fail e, false)]
  | unmet {ways : List Successor} {q : Path} (steps : M.stepOn p = (.ok ways, q))
      (heard : HeardAfter may q (.ok false)) : Develops may M p [(q.endAs .unsat, false)]
  | stuck {q : Path} (steps : M.stepOn p = (.ok [], q)) (heard : HeardAfter may q (.ok true)) :
      Develops may M p [(q, false)]
  | taken {ways : List Successor} {q : Path} {items : List (Path × Bool)} (steps : M.stepOn p = (.ok ways, q))
      (some_way : ways ≠ []) (heard : HeardAfter may q (.ok true))
      (each : List.Forall₂ (fun way item => Took may way q (.ok item.2) item.1) ways items) : Develops may M p items

theorem Expands.develops (within : ∀ ⦃ts said⦄, may ts said → may' ts said) (steady : ∀ ts e, ¬ may' ts (.error e))
    (expands : Expands may M p items) : Develops may' M p.unnumbered (bare items) := by
  have step : M.stepOn p.unnumbered = ((M.stepOn p).1, (M.stepOn p).2.unnumbered) := M.stepOn_fork p 0
  unfold Expands at expands
  rcases stepped : M.stepOn p with ⟨e | ways, q⟩ <;> rw [stepped] at expands step
  · rw [expands]
    exact .broken step
  · obtain ⟨said, heard, expands⟩ := expands
    have heard : HeardAfter may' q.unnumbered said := heard.mono within
    obtain ⟨b, rfl⟩ := heard.ok steady
    cases b with
    | false =>
      rw [show items = _ from expands]
      exact .unmet step heard
    | true =>
      obtain ⟨failure, branches⟩ := expands
      cases branches with
      | stuck => exact .stuck step heard
      | taken spreads => exact .taken step (cons_ne_nil _ _) heard (spreads.each within steady).2
      | halted spreads => cases (spreads.each within steady).1

end

end Explore

theorem told_steady (ts : List Term) (e : SolverError) : ¬ Told ts (.error e) := nofun

theorem spared_steady (ts : List Term) (e : SolverError) : ¬ Spared ts (.error e) := nofun

namespace Path

variable {p q : Path}

theorem Admits.earlier {ts : List Term} (admits : q.Admits ts) (adds : p.Adds q) : p.Admits ts := by
  obtain ⟨E, satisfies, holds⟩ := admits
  exact ⟨E, adds.satisfies satisfies, holds⟩

def Unmet (p : Path) : Prop := ¬ p.Admits p.required

def Spare (p : Path) : Prop := p.Unmet ∨ ∃ cause, p.status = .failed cause

theorem Unmet.later (unmet : p.Unmet) (adds : p.Adds q) (same : q.required = p.required) : q.Unmet :=
  fun admits => unmet (same ▸ admits.earlier adds)

end Path

namespace Explore

variable {may : Saying} {M : Machine} {p q : Path}
  {items items' : List (Path × Bool)} {ways : List Successor} {way : Successor}

theorem Moves.unmet (moves : Moves p q) (unmet : p.Unmet) : q.Unmet := by
  have same (p q : Path) (move : Move p q) : Function.onFun Eq Path.required p q := by
    cases move <;> rfl
  exact unmet.later moves.adds (moves.lift same).symm

theorem stepOn_unmet (steps : M.stepOn p = (.ok ways, q)) (unmet : p.Unmet) : q.Unmet :=
  unmet.later (Machine.step_adds (a := ways) steps) (Machine.step_sameTask (a := ways) steps).required

theorem unmet_of_each (each : List.Forall₂ (fun way item => Took may way p (.ok item.2) item.1) ways items)
    (unmet : p.Unmet) : ∀ item ∈ items, item.1.Unmet := by
  intro item among
  obtain ⟨way, _, took⟩ := exists_of_mem_right each among
  exact Moves.unmet ((assumeEdge_moves p way.constraint?).trans took.moves) unmet

/-- Whatever a step makes of a path with an excluded requirement is spare, and excludes it if it goes on. -/
theorem Develops.unmet_later (develops : Develops may M p items) (unmet : p.Unmet) :
    ∀ item ∈ items, item.1.Spare ∧ (item.2 = true → item.1.Unmet) := by
  intro item among
  cases develops with
  | broken fails =>
    cases mem_singleton.mp among
    exact ⟨.inr ⟨_, rfl⟩, nofun⟩
  | unmet steps heard =>
    cases mem_singleton.mp among
    exact ⟨.inl ((endAs_moves _ _).unmet (stepOn_unmet steps unmet)), nofun⟩
  | stuck steps heard =>
    cases mem_singleton.mp among
    exact ⟨.inl (stepOn_unmet steps unmet), nofun⟩
  | taken steps some_way heard each =>
    have unmet := unmet_of_each each (stepOn_unmet steps unmet) item among
    exact ⟨.inl unmet, fun _ => unmet⟩

/-- The second list has all paths of the first in their order, and beside them only such whose requirement is
excluded. -/
inductive Embeds : List Path → List Path → Prop
  | nil : Embeds [] []
  | both (p : Path) {front front' : List Path} (rest : Embeds front front') : Embeds (p :: front) (p :: front')
  | extra {p : Path} {front front' : List Path} (unmet : p.Unmet) (rest : Embeds front front') :
      Embeds front (p :: front')

section

variable {front front' more more' : List Path}

theorem Embeds.append (first : Embeds front front') (second : Embeds more more') :
    Embeds (front ++ more) (front' ++ more') := by
  induction first with
  | nil => exact second
  | both p _ ih => exact .both p ih
  | extra unmet _ ih => exact .extra unmet ih

theorem Embeds.refl (front : List Path) : Embeds front front := by
  induction front with
  | nil => exact .nil
  | cons p _ ih => exact .both p ih

theorem Embeds.reverse (embeds : Embeds front front') : Embeds front.reverse front'.reverse := by
  induction embeds with
  | nil => exact .nil
  | both p _ ih =>
    rw [reverse_cons, reverse_cons]
    exact ih.append (.refl [p])
  | extra unmet _ ih =>
    rw [reverse_cons, ← append_nil (List.reverse _)]
    exact ih.append (.extra unmet .nil)

theorem embeds_nil (unmet : ∀ p ∈ front, p.Unmet) : Embeds [] front := by
  induction front with
  | nil => exact .nil
  | cons p rest ih =>
    obtain ⟨first, later⟩ := forall_mem_cons.mp unmet
    exact .extra first (ih later)

end

open Search (running)

structure Compared (items items' : List (Path × Bool)) : Prop where
  front : Embeds (running items) (running items')
  ended : ∀ q, (q, false) ∈ items' → (q, false) ∈ items ∨ q.Spare
  kept : ∀ q, (q, false) ∈ items → (q, false) ∈ items' ∨ q.status = .unsat
  fewer : items.length ≤ items'.length

theorem Compared.refl (items : List (Path × Bool)) : Compared items items :=
  ⟨.refl _, fun _ => .inl, fun _ => .inl, Nat.le_refl _⟩

theorem Compared.append {more more' : List (Path × Bool)} (first : Compared items items')
    (second : Compared more more') : Compared (items ++ more) (items' ++ more') where
  front := by
    simp only [running, filter_append, map_append]
    exact first.front.append second.front
  ended q among := by
    rcases mem_append.mp among with among | among
    · exact (first.ended q among).imp_left (mem_append_left _)
    · exact (second.ended q among).imp_left (mem_append_right _)
  kept q among := by
    rcases mem_append.mp among with among | among
    · exact (first.kept q among).imp_left (mem_append_left _)
    · exact (second.kept q among).imp_left (mem_append_right _)
  fewer := by
    rw [length_append, length_append]
    exact Nat.add_le_add first.fewer second.fewer

theorem compared_dropped (dropped : q.status = .unsat) (some_item : items' ≠ [])
    (unmet : ∀ item ∈ items', item.1.Unmet) : Compared [(q, false)] items' where
  front := embeds_nil fun p among => by
    obtain ⟨item, listed, rfl⟩ := mem_map.mp among
    exact unmet item (mem_filter.mp listed).1
  ended r among := .inr (.inl (unmet _ among))
  kept r among := by
    cases mem_singleton.mp among
    exact .inr dropped
  fewer := length_pos_of_ne_nil some_item

theorem Took.compared {b b' : Bool} {q' : Path} (told : Took Told way p (.ok b) q)
    (spared : Took Spared way p (.ok b') q') : Compared [(q, b)] [(q', b')] := by
  cases told with
  | threw | finished =>
    cases spared
    exact .refl _
  | went next heard =>
    cases spared with
    | went => exact .refl _
    | dropped _ heard' =>
      obtain ⟨_, ⟨⟩, told⟩ := heard _ rfl
      obtain ⟨_, ⟨⟩, spared⟩ := heard'
      exact absurd (spared (told.mp rfl)) nofun
  | dropped next heard =>
    cases spared with
    | dropped => exact .refl _
    | went =>
      obtain ⟨_, ⟨⟩, told⟩ := heard
      refine compared_dropped rfl (cons_ne_nil _ _) fun item among admits => ?_
      cases mem_singleton.mp among
      exact absurd (told.mpr (Path.satisfiable_extended.mpr admits)) nofun

theorem compared_each (told : List.Forall₂ (fun way item => Took Told way p (.ok item.2) item.1) ways items)
    (spared : List.Forall₂ (fun way item => Took Spared way p (.ok item.2) item.1) ways items') :
    Compared items items' := by
  induction told generalizing items' with
  | nil =>
    cases spared
    exact .refl _
  | cons first _ ih =>
    cases spared with
    | cons first' later' => exact (first.compared first').append (ih later')

theorem HeardAfter.unmet (heard : HeardAfter Told p (.ok false)) : p.Unmet := by
  unfold HeardAfter at heard
  split at heard
  · cases heard
  · obtain ⟨_, ⟨⟩, told⟩ := heard
    exact fun admits => absurd (told.mpr (Path.satisfiable_extended.mpr admits)) nofun

theorem HeardAfter.agree (told : HeardAfter Told p (.ok true)) : ¬ HeardAfter Spared p (.ok false) := by
  intro spared
  unfold HeardAfter at told spared
  split at told
  · rename_i none
    rw [if_pos none] at spared
    cases spared
  · rename_i asked
    rw [if_neg asked] at spared
    obtain ⟨_, ⟨⟩, told⟩ := told
    obtain ⟨_, ⟨⟩, spared⟩ := spared
    exact absurd (spared (told.mp rfl)) nofun

theorem Develops.compared (told : Develops Told M p items) (spared : Develops Spared M p items') :
    Compared items items' := by
  cases told with
  | broken fails =>
    cases spared with
    | broken fails' =>
      cases fails.symm.trans fails'
      exact .refl _
    | unmet steps' | stuck steps' | taken steps' => cases fails.symm.trans steps'
  | unmet steps heard =>
    have unmet := heard.unmet
    cases spared with
    | broken fails' => cases steps.symm.trans fails'
    | unmet steps' =>
      cases steps.symm.trans steps'
      exact .refl _
    | stuck steps' =>
      cases steps.symm.trans steps'
      refine compared_dropped rfl (cons_ne_nil _ _) fun item among => ?_
      cases mem_singleton.mp among
      exact unmet
    | taken steps' some_way _ each =>
      cases steps.symm.trans steps'
      refine compared_dropped rfl ?_ (unmet_of_each each unmet)
      rintro rfl
      cases each
      exact some_way rfl
  | stuck steps heard =>
    cases spared with
    | broken fails' => cases steps.symm.trans fails'
    | unmet steps' heard' =>
      cases steps.symm.trans steps'
      exact absurd heard' heard.agree
    | stuck steps' =>
      cases steps.symm.trans steps'
      exact .refl _
    | taken steps' some_way =>
      cases steps.symm.trans steps'
      exact absurd rfl some_way
  | taken steps some_way heard each =>
    cases spared with
    | broken fails' => cases steps.symm.trans fails'
    | unmet steps' heard' =>
      cases steps.symm.trans steps'
      exact absurd heard' heard.agree
    | stuck steps' =>
      cases steps.symm.trans steps'
      exact absurd rfl some_way
    | taken steps' _ _ each' =>
      cases steps.symm.trans steps'
      exact compared_each each each'

structure Lockstep (s s' : Search) : Prop where
  placed : s.Placed
  placed' : s'.Placed
  front : Embeds s.front s'.front
  ended : ∀ q, s'.AtRest q → s.AtRest q ∨ q.Spare
  kept : ∀ q, s.AtRest q → s'.AtRest q ∨ q.status = .unsat
  fewer : s.paths.length ≤ s'.paths.length

theorem lockstep_start (paths : List Path) : Lockstep (.start paths) (.start paths) :=
  ⟨placed_start paths, placed_start paths, .refl _, fun _ => .inl, fun _ => .inl, Nat.le_refl _⟩

section

variable {s s' t t' : Search} {front front' : List Path}

theorem Lockstep.extra (lockstep : Lockstep s s') (develops : Develops may M p items)
    (replaces : s'.Replaces p items t') (ahead : s'.front = p :: front') (embeds : Embeds s.front front')
    (unmet : p.Unmet) : Lockstep s t' := by
  have later := develops.unmet_later unmet
  obtain ⟨others, before, after⟩ := replaces.front
  cases before.symm.trans ahead
  refine ⟨lockstep.placed, replaces.placed, ?_, fun q settled => ?_, fun q settled => ?_, ?_⟩
  · have new : Embeds [] (running items) := embeds_nil fun q among => by
      obtain ⟨item, listed, rfl⟩ := mem_map.mp among
      obtain ⟨listed, goesOn⟩ := mem_filter.mp listed
      exact (later item listed).2 goesOn
    rw [after]
    exact new.reverse.append embeds
  · rcases (replaces.settled q).mp settled with settled | among
    · exact lockstep.ended q settled
    · exact .inr (later _ among).1
  · exact (lockstep.kept q settled).imp_left fun settled => (replaces.settled q).mpr (.inl settled)
  · have some_item : items ≠ [] := by
      rintro rfl
      cases develops with
      | taken _ some_way _ each =>
        cases each
        exact some_way rfl
    have length := replaces.length
    have counted := length_pos_of_ne_nil some_item
    have fewer := lockstep.fewer
    omega

theorem Lockstep.both (lockstep : Lockstep s s') (told : Develops Told M p items) (spared : Develops Spared M p items')
    (replaces : s.Replaces p items t) (replaces' : s'.Replaces p items' t') (ahead : s.front = p :: front)
    (ahead' : s'.front = p :: front') (embeds : Embeds front front') : Lockstep t t' := by
  have compared := told.compared spared
  obtain ⟨others, before, after⟩ := replaces.front
  cases before.symm.trans ahead
  obtain ⟨others', before', after'⟩ := replaces'.front
  cases before'.symm.trans ahead'
  refine ⟨replaces.placed, replaces'.placed, ?_, fun q settled => ?_, fun q settled => ?_, ?_⟩
  · rw [after, after']
    exact compared.front.reverse.append embeds
  · rw [replaces.settled]
    rcases (replaces'.settled q).mp settled with settled | among
    · exact (lockstep.ended q settled).imp_left .inl
    · exact (compared.ended q among).imp_left .inr
  · rw [replaces'.settled]
    rcases (replaces.settled q).mp settled with settled | among
    · exact (lockstep.kept q settled).imp_left .inl
    · exact (compared.kept q among).imp_left .inr
  · have length := replaces.length
    have length' := replaces'.length
    have fewer := lockstep.fewer
    have fewer_items := compared.fewer
    omega

end

/-- What the cautious search ends with beside what the truthful one ends with. -/
structure Covered (final final' : List Path) : Prop where
  ended : ∀ q ∈ final'.map Path.unnumbered, q ∈ final.map Path.unnumbered ∨ q.Spare
  kept : (∀ p ∈ final', ∀ b, p.status ≠ .failed (.budget b)) →
    ∀ q ∈ final.map Path.unnumbered, q ∈ final'.map Path.unnumbered ∨ q.status = .unsat
  none : final' = [] → final = []

section

variable {σ σ' : Type} {solver : Solver (StateM σ)} {solver' : Solver (StateM σ')} {clock : Clock (StateM σ)}
  {clock' : Clock (StateM σ')} {started started' left left' : Nat} {s s' : Search} {w v : σ} {w' v' : σ'}
  {final final' : List Path}

theorem giveUp_fails (placed : s.Placed) (goesOn : s.pending ≠ []) (b : Budget) :
    ∃ p ∈ s.giveUp b, p.status = .failed (.budget b) := by
  have length (places : List Nat) : ∀ paths : List Path,
      (places.foldl (fun paths i => paths.modify i (·.giveUp b)) paths).length = paths.length := by
    induction places with
    | nil => exact fun _ => rfl
    | cons i rest ih => exact fun paths => (ih _).trans (length_modify ..)
  obtain ⟨i, pending⟩ := exists_mem_of_ne_nil _ goesOn
  have inRange : i < (s.giveUp b).length := (length s.pending s.paths).symm ▸ placed.inRange i pending
  refine ⟨(s.giveUp b)[i], getElem_mem inRange, ?_⟩
  rcases giveUp_found (List.getElem?_eq_getElem inRange) with ⟨p, _, _, given⟩ | ⟨settled, _⟩
  · rw [given]
    rfl
  · exact absurd pending settled

section

variable (explores : Returns (search M solver clock started left s) w final v)

include explores

theorem mem_of_atRest (settled : s.AtRest q) : q ∈ final.map Path.unnumbered := by
  obtain ⟨x, p, found, idle, rfl⟩ := atRest_iff.mp settled
  have same := search_settled explores (List.getElem?_eq_some_iff.mp found).1 idle
  exact mem_map_of_mem (mem_of_getElem? (same.trans found))

theorem search_empty (empty : s.pending = []) : final = s.paths := by
  cases left with
  | zero =>
    rw [← explores.of_pure, giveUp, empty]
    rfl
  | succ left =>
    simp only [search, empty] at explores
    exact explores.of_pure.symm

theorem Lockstep.finished (lockstep : Lockstep s s') (empty : s'.pending = []) : Covered final s'.paths := by
  have none : s.front = [] := by
    have none' : s'.front = [] := by rw [Search.front, empty, filterMap_nil]
    have embeds := lockstep.front
    rw [none'] at embeds
    generalize s.front = front at embeds
    cases embeds
    rfl
  have final_eq := search_empty explores (front_eq_nil lockstep.placed none)
  constructor
  · intro q among
    have settled := lockstep.ended q ((atRest_of_empty empty).mpr among)
    exact settled.imp_left (mem_of_atRest explores)
  · intro _ q among
    rw [final_eq] at among
    have settled := (atRest_of_empty (front_eq_nil lockstep.placed none)).mpr among
    exact (lockstep.kept q settled).imp_left (atRest_of_empty empty).mp
  · intro none
    have fewer := lockstep.fewer
    rw [none, length_nil, Nat.le_zero, length_eq_zero_iff] at fewer
    rw [final_eq, fewer]

theorem Lockstep.givenUp (lockstep : Lockstep s s') (b : Budget) : Covered final (s'.giveUp b) := by
  by_cases empty : s'.pending = []
  · have same : s'.giveUp b = s'.paths := by
      rw [giveUp, empty]
      rfl
    rw [same]
    exact lockstep.finished explores empty
  · constructor
    · intro q among
      obtain ⟨p, listed, rfl⟩ := mem_map.mp among
      obtain ⟨x, found⟩ := mem_iff_getElem?.mp listed
      rcases giveUp_found found with ⟨r, _, _, rfl⟩ | ⟨ended, found⟩
      · exact .inr (.inr ⟨_, rfl⟩)
      · have settled : s'.AtRest p.unnumbered := atRest_iff.mpr ⟨x, p, found, ended, rfl⟩
        exact (lockstep.ended _ settled).imp_left (mem_of_atRest explores)
    · intro unfailed
      obtain ⟨p, among, failed⟩ := giveUp_fails lockstep.placed' empty b
      exact absurd failed (unfailed p among b)
    · intro none
      obtain ⟨p, among, _⟩ := giveUp_fails lockstep.placed' empty b
      rw [none] at among
      cases among

end

theorem not_exhausted_before {config : Config} {b : Budget} (fewer : s.paths.length ≤ s'.paths.length)
    (within : Returns (exhausted config clock' started' s') w' none v')
    (out : Returns (exhausted config clock started s) w (some b) v) : ∃ ms, b = .time ms := by
  have few : ¬ config.maxPaths < s'.paths.length := by
    intro many
    rw [exhausted, if_pos many] at within
    cases within.of_pure
  rw [exhausted, if_neg (by omega)] at out
  cases limit : config.timeBudgetMs with
  | none =>
    rw [limit] at out
    cases out.of_pure
  | some ms =>
    rw [limit] at out
    obtain ⟨now, u, _, ends⟩ := out.of_bind
    have same := ends.of_pure
    split at same
    · exact ⟨ms, (Option.some.inj same).symm⟩
    · cases same

theorem advance_develops (within : solver.Within may)
    (steady : ∀ ts e, ¬ may ts (.error e)) (placed : s.Placed) {i : Nat} {rest : List Nat}
    (pending : s.pending = i :: rest) {t : Search}
    (advances : Returns (advance M solver (s.awaiting rest) i) w t v) :
    ∃ p items, Develops may M p items ∧ s.Replaces p items t := by
  obtain ⟨p, found, _⟩ := front_cons placed pending
  obtain ⟨first, later, expands, rfl⟩ := advance_expands (s := s.awaiting rest) found advances
  exact ⟨_, _, expands.develops within steady, replaces_replace placed pending found⟩

/-- The truthful search, with no fewer steps left and in time, ends with all that the cautious one ends with but
spare paths, and if the latter gives up no path, then conversely but for dropped ones. -/
theorem search_lockstep (told : solver.Within Told) (spared : solver'.Within Spared) (lockstep : Lockstep s s')
    (enough : left' ≤ left) (explores : Returns (search M solver clock started left s) w final v)
    (inTime : ∀ p ∈ final, ∀ ms, p.status ≠ .failed (.budget (.time ms)))
    (explores' : Returns (search M solver' clock' started' left' s') w' final' v') : Covered final final' := by
  induction left' generalizing left s s' w w' with
  | zero =>
    rw [← explores'.of_pure]
    exact lockstep.givenUp explores _
  | succ left' ih =>
    rw [search] at explores'
    split at explores'
    · rename_i empty
      rw [← explores'.of_pure]
      exact lockstep.finished explores empty
    rename_i i' rest' pending'
    obtain ⟨budget', u', checked', explores'⟩ := explores'.of_bind
    cases budget' with
    | some b =>
      rw [← explores'.of_pure]
      exact lockstep.givenUp explores b
    | none =>
      obtain ⟨t', _, advances', explores'⟩ := explores'.of_bind
      obtain ⟨p, items', expands', replaces'⟩ :=
        advance_develops spared spared_steady lockstep.placed' pending' advances'
      obtain ⟨others', ahead', _⟩ := replaces'.front
      have embeds := lockstep.front
      rw [ahead'] at embeds
      generalize ahead : s.front = front at embeds
      cases embeds with
      | extra unmet embeds =>
        exact ih (lockstep.extra expands' replaces' ahead' (ahead ▸ embeds) unmet) (by omega) explores explores'
      | @both _ front _ embeds =>
        obtain ⟨left, rfl⟩ : ∃ n, left = n + 1 := ⟨left - 1, by omega⟩
        rw [search] at explores
        split at explores
        · rename_i empty
          rw [Search.front, empty] at ahead
          cases ahead
        rename_i i rest pending
        obtain ⟨budget, u, checked, explores⟩ := explores.of_bind
        cases budget with
        | some b =>
          -- only the clock can have stopped the truthful search here
          obtain ⟨ms, rfl⟩ := not_exhausted_before lockstep.fewer checked' checked
          obtain ⟨q, among, failed⟩ := giveUp_fails lockstep.placed (by simp [pending]) (.time ms)
          rw [explores.of_pure] at among
          exact absurd failed (inTime q among ms)
        | none =>
          obtain ⟨t, _, advances, explores⟩ := explores.of_bind
          obtain ⟨q, items, expands, replaces⟩ := advance_develops told told_steady lockstep.placed pending advances
          obtain ⟨others, ahead_q, _⟩ := replaces.front
          cases ahead.symm.trans ahead_q
          exact ih (lockstep.both expands expands' replaces replaces' ahead ahead' embeds) (by omega) explores explores'

end

end Explore

section

variable {σ σ' : Type} {solver : Solver (StateM σ)} {solver' : Solver (StateM σ')} {c : Contract}
  {tracking : Tracking} {expected : List CallOn} {explored explored' completed completed' : List Path} {w v : σ}
  {w' v' : σ'} {p q : Path}

theorem explore_covered {clock : Clock (StateM σ)} {clock' : Clock (StateM σ')} {config : Config} {prepared : Prepared}
    (told : solver.Within Told) (spared : solver'.Within Spared)
    (explores : Returns (explore solver clock config prepared) w explored v)
    (inTime : ∀ p ∈ explored, ∀ ms, p.status ≠ .failed (.budget (.time ms)))
    (explores' : Returns (explore solver' clock' config prepared) w' explored' v') :
    Explore.Covered explored explored' := by
  obtain ⟨started, _, _, explores⟩ := explores.of_bind
  obtain ⟨started', _, _, explores'⟩ := explores'.of_bind
  exact search_lockstep told spared (lockstep_start _) (Nat.le_refl _) explores inTime explores'

def Path.Concluded (p : Path) : Prop := p.status = .finished ∨ p.status = .threw

theorem exists_fork_mem (copied : p.unnumbered ∈ explored.map Path.unnumbered) : ∃ id, p.fork id ∈ explored := by
  obtain ⟨p', among, same⟩ := mem_map.mp copied
  have forked : p' = p.fork p'.id := show p'.unnumbered.fork p'.id = p.unnumbered.fork p'.id by rw [same]
  exact ⟨p'.id, forked ▸ among⟩

variable (completes : Returns (complete solver c tracking expected explored) w (.ok completed) v)

include completes

theorem complete_member (member : p ∈ explored) : ∃ q ∈ completed, Settled solver c tracking expected p q :=
  exists_of_mem_right (complete_settled completes).flip member

theorem complete_unfinished (member : p ∈ explored) (unfinished : p.status ≠ .finished) : p ∈ completed := by
  obtain ⟨q, listed, settled⟩ := complete_member completes member
  cases settled with
  | kept _ => exact listed
  | closed finished _ _ => exact absurd finished unfinished

theorem complete_copy {id : Nat} (member : p.fork id ∈ explored) (finished : p.status = .finished)
    (closes : close c tracking expected p = .ok q) :
    ∃ applies u u', Returns (feasibleIfRequired solver (q.fork id)) u (.ok applies) u' ∧
      (applies = true → q.fork id ∈ completed) := by
  obtain ⟨r, listed, settled⟩ := complete_member completes member
  cases settled with
  | kept unfinished => exact absurd finished unfinished
  | @closed r applies u u' _ closes' asks =>
    rw [close_fork, closes] at closes'
    cases closes'
    exact ⟨applies, u, u', asks, fun applies => by simpa [applies] using listed⟩

theorem complete_finished (member : q ∈ completed) (finished : q.status = .finished) :
    ∃ p ∈ explored, p.status = .finished ∧ close c tracking expected p = .ok q ∧
      ∃ u u', Returns (feasibleIfRequired solver q) u (.ok true) u' := by
  obtain ⟨p, among, settled⟩ := exists_of_mem_right (complete_settled completes) member
  exact ⟨p, among, settled.of_finished finished⟩

theorem complete_threw (member : q ∈ completed) (threw : q.status = .threw) : q ∈ explored := by
  obtain ⟨p, among, settled⟩ := exists_of_mem_right (complete_settled completes) member
  exact settled.of_threw threw ▸ among

variable (completes' : Returns (complete solver' c tracking expected explored') w' (.ok completed') v')
  (told : solver.Within Told) (covered : Explore.Covered explored explored')

include completes' told covered

/-- The cautious run concludes only copies of paths of the truthful one, and such as exclude what is required. -/
theorem completed_covered (member : q ∈ completed') (concluded : q.Concluded) :
    (∃ id, q.fork id ∈ completed) ∨ q.Unmet := by
  have copies {p : Path} (among : p ∈ explored') (unfailed : ∀ cause, p.status ≠ .failed cause) :
      (∃ id, p.fork id ∈ explored) ∨ p.Unmet := by
    rcases covered.ended _ (mem_map_of_mem among) with copied | unmet | ⟨cause, failed⟩
    · exact .inl (exists_fork_mem copied)
    · exact .inr unmet
    · exact absurd failed (unfailed cause)
  rcases concluded with finished | threw
  · obtain ⟨p, among, was_finished, closes, _⟩ := complete_finished completes' member finished
    rcases copies among (by simp [was_finished]) with ⟨id, listed⟩ | unmet
    · obtain ⟨applies, u, u', asks, kept⟩ := complete_copy completes listed was_finished closes
      have heard := (feasibleIfRequired_heard asks).mono told
      cases applies with
      | true => exact .inl ⟨id, kept rfl⟩
      | false => exact .inr heard.unmet
    · exact .inr (unmet.later (close_adds closes) (close_task closes).required)
  · rcases copies (complete_threw completes' member threw) (by simp [threw]) with ⟨id, listed⟩ | unmet
    · exact .inl ⟨id, complete_unfinished completes listed (show q.status ≠ .finished by simp [threw])⟩
    · exact .inr unmet

theorem completed_kept (spared : solver'.Within Spared) (unspent : ∀ p ∈ explored', ∀ b, p.status ≠ .failed (.budget b))
    (member : q ∈ completed) (concluded : q.Concluded) : ∃ id, q.fork id ∈ completed' := by
  have copies {p : Path} (among : p ∈ explored) (kept : p.status ≠ .unsat) : ∃ id, p.fork id ∈ explored' := by
    rcases covered.kept unspent _ (mem_map_of_mem among) with copied | dropped
    · exact exists_fork_mem copied
    · exact absurd dropped kept
  rcases concluded with finished | threw
  · obtain ⟨p, among, was_finished, closes, _, _, asks⟩ := complete_finished completes member finished
    obtain ⟨id, listed⟩ := copies among (by simp [was_finished])
    obtain ⟨applies, u, u', asks', kept⟩ := complete_copy completes' listed was_finished closes
    have heard := (feasibleIfRequired_heard asks).mono told
    have heard' := (feasibleIfRequired_heard asks').mono spared
    cases applies with
    | true => exact ⟨id, kept rfl⟩
    | false => exact absurd heard' heard.agree
  · obtain ⟨id, listed⟩ := copies (complete_threw completes member threw) (by simp [threw])
    exact ⟨id, complete_unfinished completes' listed (show q.status ≠ .finished by simp [threw])⟩

end

end TokenAudit
