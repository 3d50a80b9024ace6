import TokenAudit.Proofs.Solver.Truthful
import TokenAudit.Proofs.Verify.Exclusive

/-!
# Verdicts as functions of the paths

A solver that answers by a fixed function gives the verdict that the function gives, whatever it was asked before.
-/

namespace TokenAudit

open List Judge

variable {σ : Type} {solver : Solver (StateM σ)} {oracle : Solver Id}

def Follows {σ α : Type} (x : StateM σ α) (a : α) : Prop := ∀ w, ∃ w', Returns x w a w'

section

variable {σ α β : Type} {x : StateM σ α}

theorem follows_pure (a : α) : Follows (pure a : StateM σ α) a := by
  intro w
  exact ⟨w, rfl⟩

theorem Follows.result {a b : α} {w w' : σ} (follows : Follows x a) (returns : Returns x w b w') : b = a := by
  obtain ⟨v, gives⟩ := follows w
  exact (returns.unique gives).1

end

/-- On questions that contain the log, the solver answers as the fixed one does. -/
structure Solver.Consults {σ : Type} (solver : Solver (StateM σ)) (oracle : Solver Id) (log : List Term) : Prop where
  sat : ∀ ts, log ⊆ ts → Follows (solver.checkSat ts) (oracle.checkSat ts).run
  model : ∀ ts terms, log ⊆ ts → Follows (solver.model ts terms) (oracle.model ts terms).run

theorem Solver.Consults.mono {log log' : List Term} (consults : solver.Consults oracle log) (fewer : log ⊆ log') :
    solver.Consults oracle log' where
  sat ts within := consults.sat ts (List.Subset.trans fewer within)
  model ts terms within := consults.model ts terms (List.Subset.trans fewer within)

namespace Judge

open Resolve

variable {paths : List Path}

section

variable {m : Type → Type} [Monad m]

def lookFor (solver : Solver m) (S : Subject) : Check → Path → m Looked
  | .throws v => lookThrow solver v.op
  | .emits v => ifFinished (lookEmit solver v)
  | .calls _ => ifFinished (lookBuggy solver)
  | .assigns v => ifFinished (lookAssign solver S v)
  | .returns v => ifFinished (lookReturn solver S v)
  | .orders v => ifFinished (lookOrder solver S v)

def concludes (check : Check) (paths : List Path) (findings : List Finding) : Bool :=
  match check with
  | .throws v => noneViolated findings && (v.op = .throws || paths.any fun p => p.status = .finished)
  | .returns v => noneViolated findings && (!v.atLeastOne || findings.contains .holds)
  | _ => noneViolated findings

/-- The paths are scanned, and a conclusion is drawn from the findings, unless a result is checked on no path. -/
theorem judge_scans (solver : Solver m) (S : Subject) {check : Check}
    (returning : (∃ v, check = .returns v) → paths ≠ []) : judge solver S check paths = (do
      let scanned ← scan (lookFor solver S check) paths
      pure (scanned.1.map (concludes check scanned.2), scanned.2)) := by
  cases check with
  | returns v =>
    cases paths with
    | nil => exact absurd rfl (returning ⟨v, rfl⟩)
    | cons p rest => rfl
  | _ => rfl

end

section

variable {σ α : Type} {p : Path}

theorem resolved_subset {x : ResolveM α} (registers : Registers (fun _ => True) x) {a : α} {r : Resolution}
    (resolves : Resolves x (.start p) a r) : p.constraints.terms ⊆ r.path.constraints.terms :=
  (registers resolves).path.adds.subset_terms

theorem assignBug_registers (S : Subject) (v : AssignCheck) : Registers (fun _ => True) (assignBug S v) :=
  .of_keeps fun r => (advances_upholding r).setting.assignBug v fun _ _ => trivial

theorem returnMatch_registers {K : Interest → Prop} (results : K .results) (S : Subject) (v : ReturnCheck) :
    Registers K (returnMatch S v) := by
  refine .bind (selector_registers S _ fun _ => results) fun expected => .bind registers_get fun r => ?_
  split
  · exact .bind (sorted_registers _) fun _ => registers_pure _
  · exact registers_pure _

theorem ordering_registers (S : Subject) (s : Selector) : Registers (fun _ => True) (ordering S s) :=
  .bind (selector_registers S _ fun _ => trivial) fun _ => required_registers _ _

abbrev renumbered (ren : Nat → Nat) (p : Path) : Path := p.fork (ren p.id)

/-- On a renumbered path the resolution gives what it gives on the path. -/
def Mirrored (I : Path → Prop) (ren : Nat → Nat) (Q : α → Prop) (x : ResolveM α) : Prop :=
  ∀ ⦃p⦄, I p → ∃ result r, (x.run (.start p) : Except VerifyError α × Resolution) = (result, r) ∧
    x.run (.start (renumbered ren p)) = (result, { r with path := renumbered ren r.path }) ∧
    ∀ a, result = .ok a → I r.path ∧ Q a

theorem registers_mirrored {log : List Term} {Q : α → Prop} {x : ResolveM α} (any : ∀ a, Q a)
    (registers : Registers (fun _ => True) x) : Mirrored (log ⊆ ·.constraints.terms) id Q x := by
  intro p within
  refine ⟨_, _, rfl, rfl, fun a gives => ⟨?_, any a⟩⟩
  exact List.Subset.trans within (resolved_subset registers (Prod.ext gives rfl))

theorem stateVariable_blind {S : Subject} (s : Selector) (r r' : Resolution) :
    (outcome (stateVariable S s) r').1 = (outcome (stateVariable S s) r).1 := by
  cases s with
  | stateVar anchor keys =>
    cases known : S.program.anchored? S.id.contract anchor with
    | none =>
      simp only [stateVariable, anchored, known]
      rfl
    | some i =>
      simp only [stateVariable, anchored, known, pure_bind]
      cases S.contract.stateVariables[i]? <;> rfl
  | _ => rfl

variable {m m' : Type → Type} [Monad m] [Monad m']

/-- Of the computations that `R α g` relates, the second one gives `g a` where the first one gives `a`.  It relates the
questions that the looks ask one solver about paths with the property `I`, and the other one about these paths under
other numbers: whether conditions `C` are possible, and for values `V`. -/
structure Mirrors (S : Subject) (I : Path → Prop) (ren : Nat → Nat) (V C : Term → Prop)
    (R : ∀ α : Type, (α → α) → m α → m' α → Prop) (solver : Solver m) (solver' : Solver m') : Prop where
  value {α : Type} {g : α → α} (a : α) : R α g (pure a) (pure (g a))
  seq {α β : Type} {h : α → α} {g : β → β} {x : m α} {y : m' α} {f : α → m β} {f' : α → m' β} (first : R α h x y)
    (next : ∀ a, R β g (f a) (f' (h a))) : R β g (x >>= f) (y >>= f')
  terms : Vocabulary V fun _ => C
  required {p : Path} (inv : I p) : ∀ t ∈ p.required, C t
  buggy {p : Path} (inv : I p) : ∀ b ∈ p.buggy, C b
  sat {p : Path} {extra : List Term} (inv : I p) (fair : ∀ t ∈ extra, C t) :
    R _ id (solver.checkSat (p.constraints.extended extra)) (solver'.checkSat (p.constraints.extended extra))
  model {p : Path} {t : Term} (inv : I p) (good : V t) :
    R _ id (solver.model p.constraints.terms [t]) (solver'.model p.constraints.terms [t])
  assigned (v : AssignCheck) : Mirrored I ren C (assignBug S v)
  returned (v : ReturnCheck) : Mirrored I ren (fun found => ∀ t ∈ found, C t) (returnMatch S v)
  ordered (s : Selector) : Mirrored I ren V (ordering S s)

/-- What the second look finds on the renumbered path is what the first one finds on the path. -/
abbrev Seen (R : ∀ α : Type, (α → α) → m α → m' α → Prop) (ren : Nat → Nat) (look : Path → m Looked)
    (look' : Path → m' Looked) (p : Path) : Prop :=
  R _ (Prod.map id (renumbered ren)) (look p) (look' (renumbered ren p))

namespace Mirrors

variable {S : Subject} {I : Path → Prop} {ren : Nat → Nat} {V C : Term → Prop}
  {R : ∀ α : Type, (α → α) → m α → m' α → Prop} {solver : Solver m} {solver' : Solver m'}
  (L : Mirrors S I ren V C R solver solver') {ordered : Term} {look' : Path → m' Looked}
  {extra : List Term}

include L

theorem satisfiable (inv : I p) (fair : ∀ t ∈ extra, C t) :
    R _ id (satisfiable solver p extra) (satisfiable solver' (renumbered ren p) extra) := by
  refine L.seq (L.sat inv fair) fun answer => ?_
  cases answer with
  | error e | ok result => exact L.value _

theorem violatedWhen (inv : I p) (fair : ∀ t ∈ extra, C t) :
    Seen R ren (violatedWhen solver · extra) (violatedWhen solver' · extra) p :=
  L.seq (L.satisfiable inv fair) fun _ => L.value _

theorem lookThrow (inv : I p) (op : ThrowOp) : Seen R ren (lookThrow solver op) (lookThrow solver' op) p := by
  have unread : (renumbered ren p).status = p.status := rfl
  unfold Seen Judge.lookThrow
  rw [unread]
  cases op with
  | throws =>
    cases status : p.status with
    | finished =>
      refine L.violatedWhen inv ?_
      cases accused : p.buggy with
      | none => exact L.required inv
      | some b => exact forall_mem_singleton.mpr (L.buggy inv b accused)
    | _ => exact L.value _
  | passes =>
    cases p.status with
    | threw =>
      have negations : ∀ t ∈ p.required.map Term.mkNot, C t := by
        intro t member
        obtain ⟨u, among, rfl⟩ := mem_map.mp member
        exact @Vocabulary.not _ _ L.terms [] _ (L.required inv u among)
      refine L.seq (L.satisfiable inv (L.required inv)) fun possible => ?_
      rcases possible with e | _ | _
      · exact L.value _
      · exact L.value _
      · exact L.seq (L.satisfiable inv negations) fun _ => L.value _
    | _ => exact L.value _

theorem lookBuggy (inv : I p) : Seen R ren (lookBuggy solver) (lookBuggy solver') p := by
  have unread : (renumbered ren p).buggy = p.buggy := rfl
  unfold Seen Judge.lookBuggy
  rw [unread]
  cases accused : p.buggy with
  | none => exact L.value _
  | some b => exact L.violatedWhen inv (forall_mem_singleton.mpr (L.buggy inv b accused))

theorem lookEmit (inv : I p) (v : EmitCheck) : Seen R ren (lookEmit solver v) (lookEmit solver' v) p := by
  have unread : (renumbered ren p).calledFunctions = p.calledFunctions := rfl
  unfold Seen Judge.lookEmit
  rw [unread]
  cases v.within with
  | none => exact L.lookBuggy inv
  | some f =>
    dsimp only
    split
    · exact L.lookBuggy inv
    · exact L.value _

theorem lookAssign (inv : I p) (v : AssignCheck) :
    Seen R ren (lookAssign solver S v) (lookAssign solver' S v) p := by
  obtain ⟨result, r, here, there, good⟩ := L.assigned v inv
  unfold Seen Judge.lookAssign
  rw [here, there]
  cases result with
  | error e => exact L.value _
  | ok bug =>
    obtain ⟨inv, fair⟩ := good bug rfl
    exact L.violatedWhen inv (forall_mem_singleton.mpr fair)

theorem lookReturn (inv : I p) (v : ReturnCheck) :
    Seen R ren (lookReturn solver S v) (lookReturn solver' S v) p := by
  obtain ⟨result, r, here, there, good⟩ := L.returned v inv
  unfold Seen Judge.lookReturn
  rw [here, there]
  cases result with
  | error e => exact L.value _
  | ok found =>
    obtain ⟨inv, fair⟩ := good found rfl
    cases found with
    | none => exact L.value _
    | some t =>
      cases t with
      | bool b => exact L.value _
      | _ =>
        exact L.seq (L.satisfiable inv (forall_mem_singleton.mpr (fair _ rfl))) fun _ => L.value _

theorem keyOutOfOrder (inv : I p) (good : V ordered) (name : String) (level left i : Nat) :
    R _ id (keyOutOfOrder solver p name level ordered left i)
      (keyOutOfOrder solver' (renumbered ren p) name level ordered left i) := by
  induction left generalizing i with
  | zero => exact L.value _
  | succ left ih =>
    unfold Judge.keyOutOfOrder
    dsimp only
    split
    · exact L.value _
    · rename_i wrong built
      obtain ⟨expected, selects, differs⟩ := bind_eq_ok_iff.mp built
      have fair := L.terms.mismatch good selects differs trivial
      refine L.seq (L.satisfiable inv (forall_mem_singleton.mpr fair)) fun possible => ?_
      rcases possible with e | _ | _
      · exact L.value _
      · exact ih _
      · exact L.value _

theorem eventMismatches {event : String} {arg : Nat} {sort : SmtSort} (good : V ordered) {ks : List Nat}
    {ts : List Term} (built : eventMismatches event arg sort ordered ks = .ok ts) : ∀ t ∈ ts, C t := by
  induction ks generalizing ts with
  | nil =>
    cases built
    exact forall_mem_nil _
  | cons k rest ih =>
    obtain ⟨expected, selects, built⟩ := bind_eq_ok_iff.mp built
    obtain ⟨wrong, differs, built⟩ := bind_eq_ok_iff.mp built
    obtain ⟨others, later, built⟩ := bind_eq_ok_iff.mp built
    cases built
    have fair := L.terms.mismatch good selects differs trivial
    exact forall_mem_cons.mpr ⟨fair, ih later⟩

theorem eventOrderBug (good : V ordered) {event : String} {arg : Nat} {bug : Term}
    (built : eventOrderBug S event arg ordered p = .ok (some bug)) : C bug := by
  unfold Judge.eventOrderBug at built
  split at built
  · cases built
  · dsimp only at built
    split at built
    · cases built
    · split at built
      · cases built
      · rename_i wrong mismatches
        cases built
        exact @Vocabulary.junction _ _ L.terms [] .any _ (L.eventMismatches good mismatches)

theorem lookWriteOrder (inv : I p) (good : V ordered) (i : Nat) (v : Variable) (level : Nat) :
    R _ id (lookWriteOrder solver i v level ordered p)
      (lookWriteOrder solver' i v level ordered (renumbered ren p)) := by
  have unread : (renumbered ren p).varsWritten = p.varsWritten ∧ (renumbered ren p).writeCounts = p.writeCounts :=
    ⟨rfl, rfl⟩
  unfold Judge.lookWriteOrder
  rw [unread.1, unread.2]
  split
  · exact L.value _
  · refine L.seq (L.model inv (L.terms.size ordered "length")) fun answer => ?_
    cases answer with
    | error e => exact L.value _
    | ok model =>
      dsimp only [id]
      split
      · exact L.value _
      · exact L.keyOutOfOrder inv good _ _ _ _

theorem lookOrder (inv : I p) (v : OrderCheck) : Seen R ren (lookOrder solver S v) (lookOrder solver' S v) p := by
  obtain ⟨result, r, here, there, good⟩ := L.ordered v.orderedBy inv
  unfold Seen Judge.lookOrder
  rw [here, there]
  cases result with
  | error e => exact L.value _
  | ok ordered =>
    obtain ⟨inv, good⟩ := good ordered rfl
    cases v.target with
    | event name arg =>
      have unread : Judge.eventOrderBug S name arg ordered (renumbered ren r.path) =
        Judge.eventOrderBug S name arg ordered r.path := rfl
      dsimp only
      rw [unread]
      split
      · exact L.value _
      · exact L.value _
      · rename_i bug built
        exact L.violatedWhen inv (forall_mem_singleton.mpr (L.eventOrderBug good built))
    | written state level =>
      have same : ((stateVariable S state).run { r with path := renumbered ren r.path }).1 =
        ((stateVariable S state).run r).1 := stateVariable_blind state r _
      dsimp only
      rw [same]
      split
      · exact L.value _
      · exact L.seq (L.lookWriteOrder inv good _ _ level) fun _ => L.value _

theorem ifFinished {look : Path → m Looked}
    (looks : Seen R ren look look' p) : Seen R ren (ifFinished look) (ifFinished look') p := by
  have unread : (renumbered ren p).status = p.status := rfl
  unfold Seen Judge.ifFinished
  rw [unread]
  split
  · exact looks
  · exact L.value _

theorem lookFor (inv : I p) (check : Check) : Seen R ren (lookFor solver S check) (lookFor solver' S check) p := by
  cases check with
  | throws v => exact L.lookThrow inv v.op
  | emits v => exact L.ifFinished (L.lookEmit inv v)
  | calls v => exact L.ifFinished (L.lookBuggy inv)
  | assigns v => exact L.ifFinished (L.lookAssign inv v)
  | returns v => exact L.ifFinished (L.lookReturn inv v)
  | orders v => exact L.ifFinished (L.lookOrder inv v)

theorem scan {look : Path → m Looked}
    (looks : ∀ p ∈ paths, R _ id (look p) (look' p)) : R _ id (scan look paths) (scan look' paths) := by
  induction paths with
  | nil => exact L.value _
  | cons p rest ih =>
    obtain ⟨here, later⟩ := forall_mem_cons.mp looks
    refine L.seq here fun looked => ?_
    obtain ⟨result, q⟩ := looked
    rcases result with e | finding
    · exact L.value _
    · cases finding with
      | violated => exact L.value _
      | holds | silent => exact L.seq (ih later) fun _ => L.value _

end Mirrors

theorem Mirrors.judge {S : Subject} {I : Path → Prop} {V C : Term → Prop}
    {R : ∀ α : Type, (α → α) → m α → m' α → Prop} {solver : Solver m} {solver' : Solver m'}
    (L : Mirrors S I id V C R solver solver') (check : Check) (inv : ∀ p ∈ paths, I p) :
    R _ id (TokenAudit.judge solver S check paths) (TokenAudit.judge solver' S check paths) := by
  by_cases returning : (∃ v, check = .returns v) → paths ≠ []
  · rw [judge_scans solver S returning, judge_scans solver' S returning]
    exact L.seq (L.scan fun p member => L.lookFor (inv p member) check) fun _ => L.value _
  · simp only [Classical.not_imp, not_not] at returning
    obtain ⟨⟨v, rfl⟩, rfl⟩ := returning
    exact L.value _

variable {solver : Solver (StateM σ)} {oracle : Solver Id} {log : List Term}

theorem consults_mirrors (consults : solver.Consults oracle log) (S : Subject) :
    Mirrors S (log ⊆ ·.constraints.terms) id (fun _ => True) (fun _ => True) (fun _ g x y => Follows y (g x.run)) oracle
      solver where
  value a := follows_pure _
  seq first next w := by
    obtain ⟨v, gives⟩ := first w
    obtain ⟨w', ends⟩ := next _ v
    exact ⟨w', returns_bind.mpr ⟨_, v, gives, ends⟩⟩
  terms := any_vocabulary
  required _ _ _ := trivial
  buggy _ _ _ := trivial
  sat within _ := consults.sat _ (List.Subset.trans within (subset_append_left _ _))
  model within _ := consults.model _ _ within
  assigned v := registers_mirrored (fun _ => trivial) (assignBug_registers S v)
  returned v := registers_mirrored (fun _ _ _ => trivial) (returnMatch_registers trivial S v)
  ordered s := registers_mirrored (fun _ => trivial) (ordering_registers S s)

theorem lookFor_follows (consults : solver.Consults oracle p.constraints.terms) (S : Subject) (check : Check) :
    Follows (lookFor solver S check p) (lookFor oracle S check p).run :=
  (consults_mirrors consults S).lookFor (List.Subset.refl _) check

end

section

variable {look : Path → Id Looked}

theorem scan_cons (p : Path) (rest : List Path) :
    (scan look (p :: rest)).run.1 = match (look p).run.1 with
      | .error e => .error e
      | .ok .violated => .ok [.violated]
      | .ok finding => (scan look rest).run.1.map (finding :: ·) := by
  rw [scan]
  rcases look p with ⟨result, q⟩
  rcases result with e | finding
  · rfl
  · cases finding <;> rfl

theorem scan_insert {p : Path} {finding : Finding} (found : (look p).run.1 = .ok finding)
    (unviolated : finding ≠ .violated) {conclude : List Finding → Bool}
    (passes : ∀ earlier later, conclude (earlier ++ finding :: later) = conclude (earlier ++ later))
    (before after : List Path) :
    (scan look (before ++ p :: after)).run.1.map conclude = (scan look (before ++ after)).run.1.map conclude := by
  induction before generalizing conclude with
  | nil =>
    rw [nil_append, nil_append, scan_cons, found]
    have skipped (fs : List Finding) : conclude (finding :: fs) = conclude fs := passes [] fs
    cases finding with
    | violated => exact absurd rfl unviolated
    | _ =>
      cases (scan look after).run.1 with
      | error e => rfl
      | ok findings => exact congrArg Except.ok (skipped findings)
  | cons q rest ih =>
    rw [cons_append, cons_append, scan_cons, scan_cons]
    rcases (look q).run.1 with e | first
    · rfl
    · -- what is found on the first path becomes part of the conclusion
      have others : (scan look (rest ++ p :: after)).run.1.map (fun fs => conclude (first :: fs)) =
          (scan look (rest ++ after)).run.1.map (fun fs => conclude (first :: fs)) :=
        ih fun earlier later => passes (first :: earlier) later
      have fuse (found : Except VerifyError (List Finding)) :
          (found.map (first :: ·)).map conclude = found.map fun fs => conclude (first :: fs) := by
        cases found <;> rfl
      cases first with
      | violated => rfl
      | _ => exact (fuse _).trans (others.trans (fuse _).symm)

end

end Judge

theorem judge_follows (consults : solver.Consults oracle []) (S : Subject) (check : Check) (paths : List Path) :
    Follows (judge solver S check paths) (judge oracle S check paths).run :=
  (consults_mirrors consults S).judge check fun _ _ => nil_subset _

end TokenAudit
