import Mathlib.Data.Multiset.AddSub
import TokenAudit.Proofs.Machine.Renumbering
import TokenAudit.Proofs.Verify.Verdict

/-!
# Paths unfold on their own

What a step makes of a path does not depend on its number or on the other paths of a search (`Expands.unnumbered`,
`contents_replace`), and if the answers of the solver are fixed, nothing else does either (`Expands.unique`).
-/

namespace TokenAudit

open List

def Path.unnumbered (p : Path) : Path := p.fork 0

/-- The answer of the solver, an error included, depends only on the assertions. -/
def Solver.AnswersBy {σ : Type} (solver : Solver (StateM σ)) (answer : List Term → Except SolverError SatResult) :
    Prop :=
  ∀ ts, Follows (solver.checkSat ts) (answer ts)

namespace Explore

section

variable {may : Saying} {M : Machine} {p q q' : Path} {way : Successor}
  {ways : List Successor} {items items' : List (Path × Bool)} {failure failure' : Option SolverError}
  {said said' : Except SolverError Bool}

def bare (items : List (Path × Bool)) : List (Path × Bool) := items.map fun item => (item.1.unnumbered, item.2)

theorem bare_bare (items : List (Path × Bool)) : bare (bare items) = bare items := by
  simp [bare, Path.unnumbered, Path.fork]

theorem bare_copies (p : Path) (ids : List Nat) :
    bare (ids.map fun id => (p.fork id, false)) = List.replicate ids.length (p.unnumbered, false) := by
  rw [bare, map_map, ← map_const']
  rfl

theorem bare_halted (first : Path × Bool) (items : List (Path × Bool)) (e : PathError) :
    bare ((first.1.fail e, false) :: items.map fun item => (item.1, false)) =
      (first.1.unnumbered.fail e, false) :: (bare items).map fun item => (item.1, false) := by
  rw [bare, bare, map_cons, map_map, map_map]
  rfl

theorem Took.fork (took : Took may way p said q) (id : Nat) : Took may way (p.fork id) said (q.fork id) := by
  cases took with
  | threw constraint => cases constraint <;> exact .threw _ _
  | finished => exact .finished _
  | @went next constraint _ heard => cases constraint <;> exact .went next heard
  | dropped next heard => exact .dropped next heard
  | failed next heard => exact .failed next heard

theorem Spreads.unnumbered (spreads : Spreads may p ways items failure) :
    Spreads may p.unnumbered ways (bare items) failure := by
  induction spreads with
  | none => exact .none
  | took took _ ih => exact .took (took.fork 0 : Took may _ (p.unnumbered.fork 0) _ _) ih
  | @failed way ways id q e ids took untaken =>
    have copies : bare ((q, false) :: ids.map fun id => (p.fork id, false)) =
        (q.unnumbered, false) :: (ids.map fun _ => 0).map fun id => (p.unnumbered.fork id, false) := by
      rw [bare, map_cons, map_map, map_map]
      rfl
    rw [copies]
    exact .failed (took.fork 0 : Took may _ (p.unnumbered.fork 0) _ _) (by rw [length_map, untaken])

theorem Expands.unnumbered (expands : Expands may M p items) : Expands may M p.unnumbered (bare items) := by
  have step : M.stepOn p.unnumbered = ((M.stepOn p).1, (M.stepOn p).2.unnumbered) := M.stepOn_fork p 0
  unfold Expands at expands ⊢
  rw [step]
  split at expands
  · rename_i e q fails
    simp only [fails]
    subst expands
    rfl
  · rename_i ways q steps
    simp only [steps]
    obtain ⟨said, heard, expands⟩ := expands
    refine ⟨said, heard, ?_⟩
    split at expands
    · subst expands
      rfl
    · subst expands
      rfl
    · obtain ⟨failure, branches⟩ := expands
      refine ⟨failure, ?_⟩
      cases branches with
      | stuck => exact .stuck
      | taken spreads => exact .taken spreads.unnumbered
      | @halted _ e first items spreads =>
        rw [bare_halted]
        exact .halted spreads.unnumbered

theorem Expands.ne_nil (expands : Expands may M p items) : items ≠ [] := by
  unfold Expands at expands
  split at expands
  · exact expands ▸ cons_ne_nil _ _
  · obtain ⟨said, _, expands⟩ := expands
    split at expands
    · exact expands ▸ cons_ne_nil _ _
    · exact expands ▸ cons_ne_nil _ _
    · obtain ⟨failure, branches⟩ := expands
      cases branches with
      | stuck | halted => exact cons_ne_nil _ _
      | taken spreads => exact ne_nil_of_length_pos (spreads.copied.length_eq ▸ Nat.succ_pos _)

def Fixed (may : Saying) : Prop := ∀ ⦃ts a b⦄, may ts a → may ts b → a = b

theorem Took.heard {next : Location} {t : Term} (took : Took may (.goto next (some t)) p said q) :
    Heard may (p.assume t) said := by
  cases took with
  | went _ heard => exact heard t rfl
  | dropped _ heard | failed _ heard => exact heard

theorem Took.unique (fixed : Fixed may) (first : Took may way p said q) (second : Took may way p said' q') :
    said = said' ∧ q = q' := by
  cases way with
  | throws constraint | finish =>
    cases first
    cases second
    exact ⟨rfl, rfl⟩
  | goto next constraint =>
    cases constraint with
    | none =>
      cases first
      cases second
      exact ⟨rfl, rfl⟩
    | some t =>
      obtain rfl := fixed first.heard second.heard
      cases first <;> cases second <;> exact ⟨rfl, rfl⟩

theorem Spreads.unique (fixed : Fixed may) (first : Spreads may p ways items failure)
    (second : Spreads may p ways items' failure') : bare items = bare items' ∧ failure = failure' := by
  induction first generalizing items' failure' with
  | none =>
    cases second
    exact ⟨rfl, rfl⟩
  | took took later ih =>
    cases second with
    | took took' later' =>
      obtain ⟨said, same⟩ := (took.fork 0).unique fixed (took'.fork 0)
      cases said
      obtain ⟨rest, rfl⟩ := ih later'
      exact ⟨cons_eq_cons.mpr ⟨congrArg (·, _) same, rest⟩, rfl⟩
    | failed took' => cases ((took.fork 0).unique fixed (took'.fork 0)).1
  | failed took untaken =>
    cases second with
    | took took' later' => cases ((took.fork 0).unique fixed (took'.fork 0)).1
    | failed took' untaken' =>
      obtain ⟨said, same⟩ := (took.fork 0).unique fixed (took'.fork 0)
      cases said
      refine ⟨cons_eq_cons.mpr ⟨congrArg (·, _) same, ?_⟩, rfl⟩
      rw [← bare, ← bare, bare_copies, bare_copies, untaken, untaken']

theorem Branches.unique (fixed : Fixed may) (first : Branches may p ways failure items)
    (second : Branches may p ways failure' items') : bare items = bare items' := by
  cases first with
  | stuck =>
    cases second with
    | stuck => rfl
    | halted spreads => cases spreads
  | taken spreads =>
    cases second with
    | taken spreads' => exact (spreads.unique fixed spreads').1
    | halted spreads' => cases (spreads.unique fixed spreads').2
  | halted spreads =>
    cases second with
    | stuck => cases spreads
    | taken spreads' => cases (spreads.unique fixed spreads').2
    | halted spreads' =>
      obtain ⟨same, failed⟩ := spreads.unique fixed spreads'
      cases failed
      obtain ⟨head, rest⟩ := List.cons.inj same
      have head : Path.unnumbered _ = Path.unnumbered _ := congrArg Prod.fst head
      have rest : bare _ = bare _ := rest
      rw [bare_halted, bare_halted, head, rest]

theorem Expands.unique (fixed : Fixed may) (first : Expands may M p items) (second : Expands may M p items') :
    bare items = bare items' := by
  unfold Expands at first second
  rcases stepped : M.stepOn p with ⟨e | ways, q⟩ <;> rw [stepped] at first second
  · rw [first, second]
  · obtain ⟨said, heard, first⟩ := first
    obtain ⟨said', heard', second⟩ := second
    have same : said = said' := by
      unfold HeardAfter at heard heard'
      by_cases none : q.required = []
      · rw [if_pos none] at heard heard'
        rw [heard, heard']
      · rw [if_neg none] at heard heard'
        exact fixed heard heard'
    subst same
    split at first
    · rw [first, second]
    · rw [first, second]
    · obtain ⟨_, first⟩ := first
      obtain ⟨_, second⟩ := second
      exact first.unique fixed second

end

end Explore

theorem Solver.AnswersBy.fixed {σ : Type} {solver : Solver (StateM σ)}
    {answer : List Term → Except SolverError SatResult} (answers : solver.AnswersBy answer) :
    Explore.Fixed solver.Says := by
  rintro ts _ _ ⟨w, a, v, given, rfl⟩ ⟨w', a', v', given', rfl⟩
  rw [(answers ts).result given, (answers ts).result given']

namespace Search

variable {s : Search} {i : Nat} {rest : List Nat} {p : Path} {first : Path × Bool} {later : List (Path × Bool)}

def item (s : Search) (site : Path × Nat) : Path × Bool := (site.1.unnumbered, decide (site.2 ∈ s.pending))

def contents (s : Search) : List (Path × Bool) := s.paths.zipIdx.map s.item

theorem contents_paths (s : Search) : s.contents.map Prod.fst = s.paths.map Path.unnumbered := by
  conv_rhs => rw [← zipIdx_map_fst 0 s.paths]
  rw [contents, map_map, map_map]
  rfl

theorem length_contents (s : Search) : s.contents.length = s.paths.length := by
  simp [contents]

theorem contents_settled (settled : s.pending = []) : ∀ item ∈ s.contents, item.2 = false := by
  simp [contents, item, settled]

theorem contents_replace (first : Path × Bool) (later : List (Path × Bool)) (placed : Placed (s.awaiting rest))
    (settled : i ∉ rest) (pops : ∀ x, x ∈ s.pending ↔ x = i ∨ x ∈ rest) (found : s.paths[i]? = some p) :
    ∃ others, s.contents.Perm ((p.unnumbered, true) :: others) ∧
      (replace (s.awaiting rest) i first later).contents.Perm (Explore.bare (first :: later) ++ others) := by
  have inRange := (List.getElem?_eq_some_iff.mp found).1
  obtain ⟨before, after, split, length⟩ : ∃ before after, s.paths = before ++ p :: after ∧ before.length = i := by
    refine ⟨s.paths.take i, s.paths.drop (i + 1), ?_, by simp; omega⟩
    rw [← (List.getElem?_eq_some_iff.mp found).2, getElem_cons_drop, take_append_drop]
  have whole : s.paths.length = i + 1 + after.length := by
    rw [split, length_append, length_cons]
    omega
  generalize after_eq : replace (s.awaiting rest) i first later = t
  have paths : t.paths = before ++ first.1 :: (after ++ later.map Prod.fst) := by
    simp [← after_eq, replace, split, ← length]
  -- what was there before and after the place is pending as it was
  have kept {paths : List Path} {k : Nat} (away : ∀ x, k ≤ x → x < paths.length + k → x ≠ i ∧ x < s.paths.length) :
      (paths.zipIdx k).map t.item = (paths.zipIdx k).map s.item := by
    refine map_congr_left fun site among => Prod.ext rfl (decide_eq_decide.mpr ?_)
    obtain ⟨q, x⟩ := site
    obtain ⟨apart, old⟩ := away x (le_snd_of_mem_zipIdx among) (snd_lt_of_mem_zipIdx among)
    rw [pops, ← after_eq, pending_other (s := s.awaiting rest) apart old]
    exact (or_iff_right apart).symm
  have new {q : Path} {goesOn : Bool} {x : Nat}
      (site : ((q, goesOn), x) ∈ sites (s.awaiting rest) i first later) :
      t.item (q, x) = (q.unnumbered, goesOn) := by
    have pending := pending_site placed settled inRange site
    rw [after_eq] at pending
    cases goesOn <;> simpa [item] using pending
  have copies : ((later.map Prod.fst).zipIdx s.paths.length).map t.item = Explore.bare later := by
    conv_rhs => rw [← zipIdx_map_fst s.paths.length later, Explore.bare, map_map]
    rw [zipIdx_map, map_map]
    exact map_congr_left fun site among => new (mem_cons_of_mem _ among)
  refine ⟨before.zipIdx.map s.item ++ (after.zipIdx (i + 1)).map s.item, ?_, ?_⟩
  · have here : s.item (p, i) = (p.unnumbered, true) :=
      Prod.ext rfl (decide_eq_true ((pops i).mpr (.inl rfl)))
    rw [contents, split, zipIdx_append, map_append, Nat.zero_add, length, zipIdx_cons, map_cons, here]
    exact perm_middle
  · rw [contents, paths, zipIdx_append, zipIdx_cons, zipIdx_append, map_append, map_cons,
      map_append, Nat.zero_add, length, ← whole, copies, kept fun x _ _ => by omega, kept fun x _ _ => by omega,
      new (mem_cons_self ..)]
    refine perm_middle.trans (.cons _ ?_)
    rw [← append_assoc]
    exact perm_append_comm

end Search

/-- A step from the path does not come to an end. -/
def Machine.Endless (M : Machine) (p : Path) : Prop := (M.stepOn p).1 = .error .endless

theorem Machine.endless_unnumbered {M : Machine} {p : Path} : M.Endless p.unnumbered ↔ M.Endless p := by
  rw [Endless, show M.stepOn p.unnumbered = _ from M.stepOn_fork p 0]
  rfl

namespace Explore

/-- Developing the paths that go on, and what they become, takes `n` steps that all come to an end and leaves `ends`. -/
inductive Unfolds (may : Saying) (M : Machine) :
    List (Path × Bool) → Nat → Multiset Path → Prop
  | nil : Unfolds may M [] 0 0
  | ended {p : Path} {rest : List (Path × Bool)} {n : Nat} {ends : Multiset Path}
      (others : Unfolds may M rest n ends) : Unfolds may M ((p, false) :: rest) n (p ::ₘ ends)
  | goesOn {p : Path} {items rest : List (Path × Bool)} {m n : Nat} {ends ends' : Multiset Path}
      (returns : ¬ M.Endless p) (expands : Expands may M p items) (own : Unfolds may M (bare items) m ends)
      (others : Unfolds may M rest n ends') :
      Unfolds may M ((p, true) :: rest) (m + 1 + n) (ends + ends')

variable {may : Saying} {M : Machine} {p : Path}
  {items items' made rest : List (Path × Bool)} {m n : Nat} {ends ends' : Multiset Path}

theorem Unfolds.unique (fixed : Fixed may) (first : Unfolds may M items m ends) (second : Unfolds may M items n ends') :
    m = n ∧ ends = ends' := by
  induction first generalizing n ends' with
  | nil =>
    cases second
    exact ⟨rfl, rfl⟩
  | ended others ih =>
    cases second with
    | ended others' =>
      obtain ⟨rfl, rfl⟩ := ih others'
      exact ⟨rfl, rfl⟩
  | goesOn _ expands own others ihOwn ih =>
    cases second with
    | goesOn _ expands' own' others' =>
      rw [← expands.unique fixed expands'] at own'
      obtain ⟨rfl, rfl⟩ := ihOwn own'
      obtain ⟨rfl, rfl⟩ := ih others'
      exact ⟨rfl, rfl⟩

theorem Unfolds.append (first : Unfolds may M items m ends) (second : Unfolds may M items' n ends') :
    Unfolds may M (items ++ items') (m + n) (ends + ends') := by
  induction first with
  | nil => simpa using second
  | ended others ih =>
    rw [Multiset.cons_add]
    exact .ended ih
  | goesOn returns expands own others _ ih =>
    have all := Unfolds.goesOn returns expands own ih
    rwa [← Nat.add_assoc, ← Multiset.add_assoc] at all

theorem Unfolds.split (items : List (Path × Bool)) (unfolds : Unfolds may M (items ++ items') n ends) :
    ∃ m₁ m₂ ends₁ ends₂, Unfolds may M items m₁ ends₁ ∧ Unfolds may M items' m₂ ends₂ ∧
      n = m₁ + m₂ ∧ ends = ends₁ + ends₂ := by
  induction items generalizing n ends with
  | nil => exact ⟨0, n, 0, ends, .nil, unfolds, by simp, by simp⟩
  | cons item rest ih =>
    cases unfolds with
    | ended others =>
      obtain ⟨m₁, m₂, ends₁, ends₂, before, after, rfl, rfl⟩ := ih others
      exact ⟨m₁, m₂, _, ends₂, .ended before, after, rfl, (Multiset.cons_add ..).symm⟩
    | goesOn returns expands own others =>
      obtain ⟨m₁, m₂, ends₁, ends₂, before, after, rfl, rfl⟩ := ih others
      exact ⟨_, m₂, _, ends₂, .goesOn returns expands own before, after, (Nat.add_assoc ..).symm,
        (Multiset.add_assoc ..).symm⟩

theorem Unfolds.perm (unfolds : Unfolds may M items n ends) (perm : items.Perm items') :
    Unfolds may M items' n ends := by
  induction perm generalizing n ends with
  | nil => exact unfolds
  | cons item _ ih =>
    cases unfolds with
    | ended others => exact .ended (ih others)
    | goesOn returns expands own others => exact .goesOn returns expands own (ih others)
  | swap a b rest =>
    obtain ⟨_, _, ends₁, _, first, others, rfl, rfl⟩ := Unfolds.split [b] unfolds
    obtain ⟨_, _, ends₂, _, second, last, rfl, rfl⟩ := Unfolds.split [a] others
    have swapped := second.append (first.append last)
    rwa [Nat.add_left_comm, ← Multiset.add_assoc, Multiset.add_comm ends₂, Multiset.add_assoc] at swapped
  | trans _ _ ih₁ ih₂ => exact ih₂ (ih₁ unfolds)

theorem Unfolds.length_le (unfolds : Unfolds may M items n ends) : items.length ≤ Multiset.card ends := by
  induction unfolds with
  | nil => simp
  | ended others ih => simpa using ih
  | @goesOn p items rest m n ends ends' _ expands own others ihOwn ih =>
    have some_end := length_pos_of_ne_nil expands.ne_nil
    simp only [bare, length_map] at ihOwn
    simp only [length_cons, Multiset.card_add]
    omega

theorem Unfolds.returns (unfolds : Unfolds may M items n ends) (among : (p, true) ∈ items) : ¬ M.Endless p := by
  induction unfolds with
  | nil => cases among
  | ended others ih =>
    rcases mem_cons.mp among with same | later
    · cases same
    · exact ih later
  | goesOn returns expands own others _ ih =>
    rcases mem_cons.mp among with same | later
    · cases same
      exact returns
    · exact ih later

theorem unfolds_ended (settled : ∀ item ∈ items, item.2 = false) :
    Unfolds may M items 0 (items.map Prod.fst : List Path) := by
  induction items with
  | nil => exact .nil
  | cons item rest ih =>
    obtain ⟨p, goesOn⟩ := item
    have ended : goesOn = false := settled _ (mem_cons_self ..)
    subst ended
    exact .ended (ih fun item among => settled item (mem_cons_of_mem _ among))

theorem unfolds_step (fixed : Fixed may) (returns : ¬ M.Endless p) (expands : Expands may M p made)
    (before : items.Perm ((p, true) :: rest)) (after : items'.Perm (bare made ++ rest)) :
    Unfolds may M items n ends ↔ ∃ k, n = k + 1 ∧ Unfolds may M items' k ends := by
  constructor
  · intro unfolds
    cases unfolds.perm before with
    | @goesOn _ _ _ m k _ _ _ expands' own others =>
      rw [expands'.unique fixed expands] at own
      exact ⟨m + k, by omega, (own.append others).perm after.symm⟩
  · rintro ⟨k, rfl, unfolds⟩
    obtain ⟨m, k, _, _, own, others, rfl, rfl⟩ := Unfolds.split _ (unfolds.perm after)
    have whole := Unfolds.goesOn returns expands own others
    have same : m + 1 + k = m + k + 1 := by omega
    rw [same] at whole
    exact whole.perm before.symm

end Explore

end TokenAudit
