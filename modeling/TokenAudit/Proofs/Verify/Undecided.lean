import TokenAudit.Proofs.Verify.Lockstep
import TokenAudit.Proofs.Verify.Trigger

/-!
# Undecided queries

A violation that rests on a query being possible is found only where a truthful solver finds it (`Warranted`).
-/

namespace TokenAudit

open List

namespace Solver

section

variable {σ σ' : Type} {solver : Solver (StateM σ)} {solver' : Solver (StateM σ')}

/-- On every query the solver answers as the other one does or leaves it undecided, and it gives the same models. -/
structure Echoes (solver' : Solver (StateM σ')) (solver : Solver (StateM σ)) : Prop where
  answer : ∀ ts w v, ∃ a w', Returns (solver'.checkSat ts) w a w' ∧
    (a = .ok .unknown ∨ ∃ v', Returns (solver.checkSat ts) v a v')
  model : ∀ ts terms w v, ∃ a w' v', Returns (solver'.model ts terms) w a w' ∧
    Returns (solver.model ts terms) v a v'

def Confirms (solver : Solver (StateM σ)) (p : Path) (extra : List Term) : Prop :=
  p.Admits extra → ∀ w a w', Returns (solver.checkSat (p.constraints.extended extra)) w a w' → a = .ok .sat

def Knows (oracle : Solver Id) : Prop :=
  ∀ ts, Satisfiable ts ∧ (oracle.checkSat ts).run = .ok .sat ∨ ¬ Satisfiable ts ∧ (oracle.checkSat ts).run = .ok .unsat

/-- The solver never fails, finds possible only what is so and gives the models of the fixed one. -/
structure Heeds (solver : Solver (StateM σ)) (oracle : Solver Id) : Prop where
  knows : oracle.Knows
  honest : ∀ ⦃ts w answer w'⦄, Returns (solver.checkSat ts) w answer w' →
    ∃ result, answer = .ok result ∧ (result = .sat → Satisfiable ts)
  model : ∀ ts terms, Follows (solver.model ts terms) (oracle.model ts terms).run

def frozen (solver : Solver (StateM σ)) (v : σ) : Solver Id where
  checkSat ts := pure ((solver.checkSat ts).run v).1
  model ts terms := pure ((solver.model ts terms).run v).1

theorem Truthful.knows_frozen (truthful : solver.Truthful) (v : σ) : (solver.frozen v).Knows := by
  intro ts
  obtain ⟨v', ⟨possible, sat⟩ | ⟨impossible, unsat⟩⟩ := truthful ts v
  · exact .inl ⟨possible, congrArg Prod.fst sat⟩
  · exact .inr ⟨impossible, congrArg Prod.fst unsat⟩

section

variable (echoes : solver'.Echoes solver)

include echoes

theorem Echoes.decided (truthful : solver.Truthful) (v : σ) {ts : List Term}
    {w w' : σ'} {answer : Except SolverError SatResult} (answers : Returns (solver'.checkSat ts) w answer w') :
    answer = .ok .unknown ∨ Satisfiable ts ∧ answer = .ok .sat ∨ ¬ Satisfiable ts ∧ answer = .ok .unsat := by
  obtain ⟨a, _, gives, meaning⟩ := echoes.answer ts w v
  obtain ⟨rfl, _⟩ := answers.unique gives
  refine meaning.imp_right fun ⟨_, told⟩ => truthful.answer told

theorem Echoes.within (truthful : solver.Truthful) (v : σ) : solver'.Within Spared := by
  rintro ts _ ⟨w, answer, w', answers, rfl⟩
  rcases echoes.decided truthful v answers with rfl | ⟨_, rfl⟩ | ⟨impossible, rfl⟩
  · exact ⟨_, rfl, fun _ => rfl⟩
  · exact ⟨_, rfl, fun _ => rfl⟩
  · exact ⟨_, rfl, fun possible => absurd possible impossible⟩

theorem Echoes.heeds (truthful : solver.Truthful) (v : σ) : solver'.Heeds (solver.frozen v) where
  knows := truthful.knows_frozen v
  honest ts w answer w' answers := by
    rcases echoes.decided truthful v answers with rfl | ⟨possible, rfl⟩ | ⟨_, rfl⟩
    · exact ⟨_, rfl, nofun⟩
    · exact ⟨_, rfl, fun _ => possible⟩
    · exact ⟨_, rfl, nofun⟩
  model ts terms w := by
    obtain ⟨a, w', v', gives, same⟩ := echoes.model ts terms w v
    have same : (solver.model ts terms).run v = (a, v') := same
    refine ⟨w', ?_⟩
    show Returns (solver'.model ts terms) w ((solver.model ts terms).run v).1 w'
    rw [same]
    exact gives

theorem Echoes.consults (truthful : solver.Truthful) (w : σ') (v : σ) : solver.Consults (solver.frozen v) [] where
  sat ts _ u := by
    obtain ⟨u', ⟨possible, sat⟩ | ⟨impossible, unsat⟩⟩ := truthful ts u
    · rcases truthful.knows_frozen v ts with ⟨_, same⟩ | ⟨impossible, _⟩
      · exact ⟨u', same ▸ sat⟩
      · exact absurd possible impossible
    · rcases truthful.knows_frozen v ts with ⟨possible, _⟩ | ⟨_, same⟩
      · exact absurd possible impossible
      · exact ⟨u', same ▸ unsat⟩
  model ts terms _ u := by
    obtain ⟨a, _, u', gives, here⟩ := echoes.model ts terms w u
    obtain ⟨b, _, v', again, there⟩ := echoes.model ts terms w v
    obtain ⟨rfl, _⟩ := gives.unique again
    have there : (solver.model ts terms).run v = (a, v') := there
    refine ⟨u', ?_⟩
    show Returns (solver.model ts terms) u ((solver.model ts terms).run v).1 u'
    rw [there]
    exact here

end

end

end Solver

namespace Judge

open Resolve

variable {σ : Type} {solver : Solver (StateM σ)} {oracle : Solver Id} {S : Subject} {p q : Path} {w w' : σ}
  {extra : List Term} {result : Except VerifyError Finding} {level i : Nat} {ordered : Term} {op : ThrowOp}
  {v : ReturnCheck} {finding : Finding}

theorem satisfiable_knows (knows : oracle.Knows) (p : Path) (extra : List Term) :
    ∃ b, (satisfiable oracle p extra).run = .ok b ∧ (b = true ↔ p.Admits extra) := by
  have asks {result : SatResult} (answers : (oracle.checkSat (p.constraints.extended extra)).run = .ok result) :
      (satisfiable oracle p extra).run = .ok (result == .sat) := by
    have answers : oracle.checkSat (p.constraints.extended extra) = pure (.ok result) := answers
    unfold satisfiable
    rw [answers]
    rfl
  rw [← Path.satisfiable_extended]
  rcases knows (p.constraints.extended extra) with ⟨possible, answers⟩ | ⟨impossible, answers⟩
  · exact ⟨true, asks answers, by simp [possible]⟩
  · exact ⟨false, asks answers, by simp [impossible]⟩

theorem satisfiable_heeds (heeds : solver.Heeds oracle) {result : Except VerifyError Bool}
    (asks : Returns (satisfiable solver p extra) w result w') : ∃ b, result = .ok b ∧ (b = true → p.Admits extra) := by
  obtain ⟨answer, v, answers, ends⟩ := asks.of_bind
  obtain ⟨found, rfl, possible⟩ := heeds.honest answers
  refine ⟨_, ends.of_pure.symm, fun sat => ?_⟩
  exact Path.satisfiable_extended.mp (possible (beq_iff_eq.mp sat))

theorem satisfiable_confirmed (heeds : solver.Heeds oracle) (confirms : solver.Confirms p extra)
    {result : Except VerifyError Bool} (asks : Returns (satisfiable solver p extra) w result w') :
    result = (satisfiable oracle p extra).run := by
  obtain ⟨b, same, possible⟩ := satisfiable_knows heeds.knows p extra
  obtain ⟨b', rfl, honest⟩ := satisfiable_heeds heeds asks
  rw [same]
  cases b with
  | false =>
    cases b' with
    | false => rfl
    | true => exact absurd (possible.mpr (honest rfl)) nofun
  | true =>
    obtain ⟨answer, v, answers, ends⟩ := asks.of_bind
    cases confirms (possible.mp rfl) _ _ _ answers
    exact ends.of_pure.symm

theorem violatedWhen_warranted (heeds : solver.Heeds oracle)
    (looks : Returns (violatedWhen solver p extra) w (.ok .violated, q) w') :
    (violatedWhen oracle p extra).run.1 = .ok .violated ∧ p.Admits extra := by
  obtain ⟨answer, v, asks, ends⟩ := looks.of_bind
  obtain ⟨found, rfl, honest⟩ := satisfiable_heeds heeds asks
  cases found with
  | false => cases ends.of_pure
  | true =>
    obtain ⟨b, same, possible⟩ := satisfiable_knows heeds.knows p extra
    cases possible.mpr (honest rfl)
    refine ⟨?_, honest rfl⟩
    show (satisfiable oracle p extra).run.map violatedIf = _
    rw [same]
    rfl

/-- A violation that the look finds on the path is found by the fixed look too, and the path is possible. -/
def Warranted (look : Path → StateM σ Looked) (fixed : Path → Id Looked) : Prop :=
  ∀ ⦃p w q w'⦄, Returns (look p) w (.ok .violated, q) w' → (fixed p).run.1 = .ok .violated ∧ p.Admits []

section

variable (heeds : solver.Heeds oracle)

include heeds

theorem lookBuggy_warranted : Warranted (lookBuggy solver) (lookBuggy oracle) := by
  intro p w q w' looks
  unfold lookBuggy at looks ⊢
  cases accused : p.buggy with
  | none =>
    rw [accused] at looks
    cases looks.of_pure
  | some b =>
    rw [accused] at looks
    exact (violatedWhen_warranted heeds looks).imp_right fun admits => admits.mono (nil_subset _)

theorem lookEmit_warranted (v : EmitCheck) : Warranted (lookEmit solver v) (lookEmit oracle v) := by
  intro p w q w' looks
  unfold lookEmit at looks ⊢
  cases within : v.within with
  | none =>
    rw [within] at looks
    exact lookBuggy_warranted heeds looks
  | some f =>
    rw [within] at looks
    dsimp only at looks ⊢
    split at looks
    · rename_i called
      rw [if_pos called]
      exact lookBuggy_warranted heeds looks
    · cases looks.of_pure

theorem lookAssign_warranted (v : AssignCheck) : Warranted (lookAssign solver S v) (lookAssign oracle S v) := by
  intro p w q w' looks
  unfold lookAssign at looks ⊢
  rcases resolves : (assignBug S v).run (.start p) with ⟨result, r⟩
  rw [resolves] at looks
  cases result with
  | error e => cases looks.of_pure
  | ok bug =>
    have adds := ((assignBug_registers S v) resolves).path.adds
    exact (violatedWhen_warranted heeds looks).imp_right fun admits =>
      (admits.mono (nil_subset _)).earlier adds

theorem keyOutOfOrder_warranted {name : String} {left : Nat}
    (asks : Returns (keyOutOfOrder solver p name level ordered left i) w (.ok .violated) w') :
    (keyOutOfOrder oracle p name level ordered left i).run = .ok .violated ∧ p.Admits [] := by
  induction left generalizing i w with
  | zero => cases asks.of_pure
  | succ left ih =>
    unfold keyOutOfOrder at asks ⊢
    dsimp only at asks ⊢
    split at asks
    · cases asks.of_pure
    · rename_i wrong built
      obtain ⟨answer, v, asked, asks⟩ := asks.of_bind
      obtain ⟨found, rfl, honest⟩ := satisfiable_heeds heeds asked
      obtain ⟨b, same, possible⟩ := satisfiable_knows heeds.knows p [wrong]
      have same : satisfiable oracle p [wrong] = pure (.ok b) := same
      rw [same]
      -- a key that is left undecided is passed over; the fixed solver may stop at it
      have found_here (admits : p.Admits [wrong]) : b = true ∧ p.Admits [] :=
        ⟨possible.mpr admits, admits.mono (nil_subset _)⟩
      cases found with
      | true =>
        obtain ⟨rfl, admits⟩ := found_here (honest rfl)
        exact ⟨rfl, admits⟩
      | false =>
        obtain ⟨later, admits⟩ := ih asks
        cases b with
        | true => exact ⟨rfl, admits⟩
        | false => exact ⟨later, admits⟩

theorem lookWriteOrder_warranted {v : Variable}
    (looks : Returns (lookWriteOrder solver i v level ordered p) w (.ok .violated) w') :
    (lookWriteOrder oracle i v level ordered p).run = .ok .violated ∧ p.Admits [] := by
  unfold lookWriteOrder at looks ⊢
  split at looks
  · cases looks.of_pure
  · rename_i written
    rw [if_neg written]
    obtain ⟨answer, u, gives, looks⟩ := looks.of_bind
    have same := (heeds.model _ _).result gives
    have same : oracle.model p.constraints.terms [ordered.derived "length" .int] = pure answer := same.symm
    dsimp only at looks ⊢
    rw [same]
    cases answer with
    | error e => cases looks.of_pure
    | ok model =>
      dsimp only at looks
      split at looks
      · cases looks.of_pure
      · rename_i n length
        obtain ⟨same, admits⟩ := keyOutOfOrder_warranted heeds looks
        refine ⟨?_, admits⟩
        simpa only [pure_bind, length] using same

theorem lookOrder_warranted (v : OrderCheck) : Warranted (lookOrder solver S v) (lookOrder oracle S v) := by
  intro p w q w' looks
  unfold lookOrder at looks ⊢
  rcases resolves : (ordering S v.orderedBy).run (.start p) with ⟨result, r⟩
  rw [resolves] at looks
  cases result with
  | error e => cases looks.of_pure
  | ok ordered =>
    have adds := (ordering_registers S v.orderedBy resolves).path.adds
    cases target : v.target with
    | event name arg =>
      rw [target] at looks
      dsimp only at looks ⊢
      split at looks
      · cases looks.of_pure
      · cases looks.of_pure
      · exact (violatedWhen_warranted heeds looks).imp_right fun admits => (admits.mono (nil_subset _)).earlier adds
    | written state level =>
      rw [target] at looks
      dsimp only at looks ⊢
      split at looks
      · cases looks.of_pure
      · obtain ⟨found, u, asks, ends⟩ := looks.of_bind
        cases ends.of_pure
        exact (lookWriteOrder_warranted heeds asks).imp_right fun admits => admits.earlier adds

end

theorem ifFinished_warranted {look : Path → StateM σ Looked} {fixed : Path → Id Looked}
    (warranted : Warranted look fixed) : Warranted (ifFinished look) (ifFinished fixed) := by
  intro p w q w' looks
  unfold ifFinished at looks ⊢
  split at looks
  · rename_i finished
    rw [if_pos finished]
    exact warranted looks
  · cases looks.of_pure

theorem ifFinished_violated {look : Path → StateM σ Looked}
    (looks : Returns (ifFinished look p) w (.ok .violated, q) w') :
    p.status = .finished ∧ Returns (look p) w (.ok .violated, q) w' := by
  unfold ifFinished at looks
  split at looks
  · rename_i finished
    exact ⟨finished, looks⟩
  · cases looks.of_pure

theorem found_same {found : Except VerifyError Finding}
    (looks : Returns (pure (found, p) : StateM σ Looked) w (result, q) w') : q = p :=
  (congrArg Prod.snd looks.of_pure).symm

theorem violatedWhen_same (looks : Returns (violatedWhen solver p extra) w (result, q) w') : q = p := by
  obtain ⟨_, _, _, ends⟩ := looks.of_bind
  exact found_same ends

theorem lookThrow_same (looks : Returns (lookThrow solver op p) w (result, q) w') : q = p := by
  unfold lookThrow at looks
  split at looks
  · exact violatedWhen_same looks
  · obtain ⟨possible, _, _, looks⟩ := looks.of_bind
    rcases possible with e | _ | _
    · exact found_same looks
    · exact found_same looks
    · obtain ⟨_, _, _, ends⟩ := looks.of_bind
      exact found_same ends
  · exact found_same looks

theorem lookBuggy_same (looks : Returns (lookBuggy solver p) w (result, q) w') : q = p := by
  unfold lookBuggy at looks
  split at looks
  · exact violatedWhen_same looks
  · exact found_same looks

theorem lookEmit_same {v : EmitCheck} (looks : Returns (lookEmit solver v p) w (result, q) w') : q = p := by
  unfold lookEmit at looks
  split at looks
  · split at looks
    · exact lookBuggy_same looks
    · exact found_same looks
  · exact lookBuggy_same looks

/-- A violation of a check of a throw is warranted where what is required is possible; a throw counts against the
path only if the solver would have found it possible elsewhere. -/
theorem lookThrow_warranted (heeds : solver.Heeds oracle) (unaccused : p.status = .finished → p.buggy = none)
    (confirms : op = .passes → p.status = .threw → solver.Confirms p (p.required.map Term.mkNot))
    (looks : Returns (lookThrow solver op p) w (.ok .violated, q) w') :
    (lookThrow oracle op p).run.1 = .ok .violated ∧ p.Admits p.required := by
  unfold lookThrow at looks ⊢
  split at looks
  · rename_i finished
    obtain ⟨found, admits⟩ := violatedWhen_warranted heeds looks
    rw [unaccused finished] at admits
    exact ⟨found, admits⟩
  · rename_i threw
    obtain ⟨answer, v, asks, looks⟩ := looks.of_bind
    obtain ⟨found, rfl, honest⟩ := satisfiable_heeds heeds asks
    cases found with
    | false => cases looks.of_pure
    | true =>
      obtain ⟨b, same, possible⟩ := satisfiable_knows heeds.knows p p.required
      cases possible.mpr (honest rfl)
      have same : satisfiable oracle p p.required = pure (.ok true) := same
      obtain ⟨elsewhere, u, asks, ends⟩ := looks.of_bind
      have known := satisfiable_confirmed heeds (confirms rfl threw) asks
      refine ⟨?_, honest rfl⟩
      rw [same]
      have found := congrArg Prod.fst ends.of_pure
      rw [known] at found
      exact found
  · cases looks.of_pure

section

variable (looks : Returns (lookReturn solver S v p) w (.ok finding, q) w')

include looks

/-- The finding is told by the match itself, or by the answer to whether it is possible. -/
theorem lookReturn_cases :
    ∃ found r b, Resolves (returnMatch S v) (.start p) found r ∧ r.path = q ∧ returnFinding v b = finding ∧
      (found = none ∧ b = false ∨ found = some (.bool b) ∨
        ∃ t, found = some t ∧ (∀ b, t ≠ .bool b) ∧ Returns (satisfiable solver q [t]) w (.ok b) w') := by
  unfold lookReturn at looks
  rcases resolves : (returnMatch S v).run (.start p) with ⟨result, r⟩
  rw [resolves] at looks
  cases result with
  | error e => cases looks.of_pure
  | ok found =>
    cases found with
    | none =>
      cases looks.of_pure
      exact ⟨_, r, false, resolves, rfl, rfl, .inl ⟨rfl, rfl⟩⟩
    | some t =>
      cases t with
      | bool b =>
        cases looks.of_pure
        exact ⟨_, r, b, resolves, rfl, rfl, .inr (.inl rfl)⟩
      | _ =>
        obtain ⟨answer, _, asks, ends⟩ := looks.of_bind
        obtain ⟨same, rfl⟩ := returns_pure.mp ends
        cases answer with
        | error e => cases same
        | ok b =>
          cases same
          exact ⟨_, r, b, resolves, rfl, rfl, .inr (.inr ⟨_, rfl, nofun, asks⟩)⟩

theorem lookReturn_left : p.Adds q ∧ p.status = q.status ∧ p.required = q.required := by
  obtain ⟨_, r, _, resolves, rfl, _⟩ := lookReturn_cases looks
  have registrations := (returnMatch_registers (K := (· ≠ .condition)) nofun S v resolves).path
  refine ⟨registrations.adds, ?_, ?_⟩
  · exact registrations.lift fun _ _ => Registration.status
  · exact registrations.lift fun _ _ =>
      Registration.required fun demands => demands rfl

theorem lookReturn_confirmed (heeds : solver.Heeds oracle) (confirms : ∀ t, solver.Confirms q [t]) :
    (lookReturn oracle S v p).run.1 = .ok finding := by
  obtain ⟨found, r, b, resolves, rfl, rfl, told⟩ := lookReturn_cases looks
  have resolves : (returnMatch S v).run (.start p) = (.ok found, r) := resolves
  unfold lookReturn
  rw [resolves]
  rcases told with ⟨rfl, rfl⟩ | rfl | ⟨t, rfl, open_, asks⟩
  · rfl
  · rfl
  · have known : satisfiable oracle r.path [t] = pure (.ok b) := (satisfiable_confirmed heeds (confirms t) asks).symm
    cases t with
    | bool c => exact absurd rfl (open_ c)
    | _ =>
      dsimp only
      rw [known]
      rfl

end

variable {look : Path → StateM σ Looked} {paths final : List Path}

theorem scan_cons_cases {rest : List Path} {result : Except VerifyError (List Finding)}
    (scans : Returns (scan look (p :: rest)) w (result, final) w') :
    ∃ found q v, Returns (look p) w (found, q) v ∧
      ((∃ e, found = .error e ∧ result = .error e ∧ final = q :: rest) ∨
        (found = .ok .violated ∧ result = .ok [.violated] ∧ final = q :: rest) ∨
        ∃ finding others rest', found = .ok finding ∧ Returns (scan look rest) v (others, rest') w' ∧
          result = others.map (finding :: ·) ∧ final = q :: rest') := by
  obtain ⟨⟨found, q⟩, v, looks, scans⟩ := scans.of_bind
  refine ⟨found, q, v, looks, ?_⟩
  have goesOn {finding : Finding} (continues : Returns (do
      let later ← scan look rest
      pure (later.1.map (finding :: ·), q :: later.2)) v (result, final) w') :
      ∃ others rest', Returns (scan look rest) v (others, rest') w' ∧ result = others.map (finding :: ·) ∧
        final = q :: rest' := by
    obtain ⟨⟨others, rest'⟩, _, later, ends⟩ := continues.of_bind
    obtain ⟨same, rfl⟩ := returns_pure.mp ends
    cases same
    exact ⟨others, rest', later, rfl, rfl⟩
  rcases found with e | finding
  · cases scans.of_pure
    exact .inl ⟨e, rfl, rfl, rfl⟩
  · cases finding with
    | violated =>
      cases scans.of_pure
      exact .inr (.inl ⟨rfl, rfl, rfl⟩)
    | holds | silent =>
      obtain ⟨others, rest', later⟩ := goesOn scans
      exact .inr (.inr ⟨_, others, rest', rfl, later⟩)

theorem scan_final {result : Except VerifyError (List Finding)}
    (scans : Returns (scan look paths) w (result, final) w') :
    List.Forall₂ (fun p q => q = p ∨ ∃ v found v', Returns (look p) v (found, q) v') paths final := by
  have unseen (paths : List Path) :
      List.Forall₂ (fun p q => q = p ∨ ∃ v found v', Returns (look p) v (found, q) v') paths paths :=
    forall₂_same.mpr fun p _ => .inl rfl
  induction paths generalizing w w' result final with
  | nil =>
    cases scans.of_pure
    exact .nil
  | cons p rest ih =>
    obtain ⟨found, q, v, looks, ⟨e, _, _, rfl⟩ | ⟨_, _, rfl⟩ | ⟨_, _, rest', _, later, _, rfl⟩⟩ := scan_cons_cases scans
    · exact .cons (.inr ⟨_, _, _, looks⟩) (unseen rest)
    · exact .cons (.inr ⟨_, _, _, looks⟩) (unseen rest)
    · exact .cons (.inr ⟨_, _, _, looks⟩) (ih later)

def Found (look : Path → StateM σ Looked) (final : List Path) (p : Path) (finding : Finding) : Prop :=
  ∃ q ∈ final, ∃ v v', Returns (look p) v (.ok finding, q) v'

theorem scan_found {findings : List Finding} (scans : Returns (scan look paths) w (.ok findings, final) w') :
    (∀ finding ∈ findings, ∃ p ∈ paths, Found look final p finding) ∧
    (.violated ∉ findings → ∀ p ∈ paths, ∃ finding ∈ findings, Found look final p finding) := by
  induction paths generalizing w w' findings final with
  | nil =>
    cases scans.of_pure
    simp
  | cons p rest ih =>
    obtain ⟨found, q, v, looks, ⟨e, _, failed, _⟩ | ⟨rfl, violated, rfl⟩ |
      ⟨finding, others, rest', rfl, later, same, rfl⟩⟩ := scan_cons_cases scans
    · cases failed
    · cases violated
      have here : Found look (q :: rest) p .violated := ⟨q, mem_cons_self .., _, _, looks⟩
      simp [here]
    · cases others with
      | error e => cases same
      | ok others =>
        cases same
        obtain ⟨sources, all⟩ := ih later
        have here : Found look (q :: rest') p finding := ⟨q, mem_cons_self .., _, _, looks⟩
        have there {p : Path} {finding : Finding} : Found look rest' p finding → Found look (q :: rest') p finding :=
          fun ⟨q', left, found⟩ => ⟨q', mem_cons_of_mem _ left, found⟩
        constructor
        · intro finding' among
          rcases mem_cons.mp among with rfl | among
          · exact ⟨p, mem_cons_self .., here⟩
          · obtain ⟨p', listed, found⟩ := sources finding' among
            exact ⟨p', mem_cons_of_mem _ listed, there found⟩
        · intro unviolated p' among
          rcases mem_cons.mp among with rfl | among
          · exact ⟨finding, mem_cons_self .., here⟩
          · obtain ⟨finding', listed, found⟩ := all (fun more => unviolated (mem_cons_of_mem _ more)) p' among
            exact ⟨finding', mem_cons_of_mem _ listed, there found⟩

end Judge

end TokenAudit
