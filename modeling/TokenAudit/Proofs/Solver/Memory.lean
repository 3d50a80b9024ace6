import Mathlib.Data.List.Forall2
import TokenAudit.Proofs.Term.Meaning
import TokenAudit.Proofs.World
import TokenAudit.Solver.Dialogue

/-!
# Remembered answers

A session remembers the answer to a satisfiability query under the text of its assertions, which leaves the sorts of
the symbols out.
-/

namespace TokenAudit

open List Script

namespace Dialogue

variable {σ α β : Type} {s s' : Session} {w w' : σ} {a : α} {x : StateT Session (StateM σ) α} {t : Session} {v : σ}
  {assertions : List Term}

/-- The computation takes a session and its world to another, with the result `a`. -/
def Gives (x : StateT Session (StateM σ) α) (s : Session) (w : σ) (a : α) (s' : Session) (w' : σ) : Prop :=
  Returns (x.run s) w (a, s') w'

theorem gives_pure (a : α) : Gives (pure a) s w a s w := rfl

theorem gives_get : Gives get s w s s w := rfl

theorem gives_modify (f : Session → Session) : Gives (modify f) s w ⟨⟩ (f s) w := rfl

theorem gives_of_returns {x : StateM σ α} (returns : Returns x w a w') : Gives (liftM x) s w a s w' := by
  unfold Gives
  rw [StateT.run_monadLift]
  exact returns_bind.mpr ⟨a, w', returns, rfl⟩

theorem Gives.bind {f : α → StateT Session (StateM σ) β} {b : β} (first : Gives x s w a t v)
    (next : Gives (f a) t v b s' w') : Gives (x >>= f) s w b s' w' := by
  unfold Gives
  rw [StateT.run_bind]
  exact returns_bind.mpr ⟨(a, t), v, first, next⟩

theorem Gives.unique {b : α} (first : Gives x s w a t v) (second : Gives x s w b s' w') : a = b :=
  congrArg Prod.fst (Returns.unique first second).1

variable {channel : Channel (StateM σ)} {live : σ → Prop} {answer : String → Option (List String)}

/-- The process behind the channel is a function of the text of a query: it prints the lines of an answer,
or ends. -/
structure Answers (channel : Channel (StateM σ)) (live : σ → Prop) (answer : String → Option (List String)) :
    Prop where
  opens : ∀ arguments w, ∃ v w', Returns (channel.start arguments) w (.ok ()) v ∧
    Returns (channel.send greeting) v (.ok ()) w' ∧ live w'
  answers : ∀ text w, live w → ∃ v w', Returns (channel.send text) w (.ok ()) v ∧
    Returns (channel.receive isEnd) v (.ok (answer text)) w' ∧ ((answer text).isSome = true → live w')

def linesRead : Option (List String) → Except SolverError (List String)
  | none => .error .closed
  | some lines => .ok ((lines.map trimmed).filter fun l => !l.isEmpty)

def ownAnswer (answer : String → Option (List String)) (assertions : List Term) : Except SolverError SatResult :=
  match ofTerms assertions [] with
  | .error e => .error e
  | .ok script => ((linesRead (answer (queryText script []))).bind readAnswer).map Prod.fst

def Ready (live : σ → Prop) (s : Session) (w : σ) : Prop := s.running = true → live w

theorem ensureRunning_gives (process : Answers channel live answer) (timeoutMs : Option Nat)
    (ready : Ready live s w) :
    ∃ w', Gives (ensureRunning channel timeoutMs) s w (.ok ()) { s with running := true } w' ∧ live w' := by
  cases running : s.running with
  | true =>
    have same : { s with running := true } = s := by rw [← running]
    refine ⟨w, gives_get.bind ?_, ready running⟩
    rw [if_pos running, same]
    exact gives_pure _
  | false =>
    obtain ⟨v, w', starts, greets, alive⟩ := process.opens (arguments timeoutMs) w
    refine ⟨w', gives_get.bind ?_, alive⟩
    rw [if_neg (by rw [running]; exact Bool.false_ne_true)]
    exact (gives_of_returns starts).bind ((gives_of_returns greets).bind ((gives_modify _).bind (gives_pure _)))

theorem exchange_gives (process : Answers channel live answer) (timeoutMs : Option Nat) (text : String)
    (ready : Ready live s w) :
    ∃ s' w', Gives (exchange channel timeoutMs text) s w (linesRead (answer text)) s' w' ∧ Ready live s' w' ∧
      s'.remembered = s.remembered := by
  obtain ⟨u, opens, alive⟩ := ensureRunning_gives process timeoutMs ready
  obtain ⟨v, w', sends, receives, stays⟩ := process.answers text u alive
  have receives := gives_of_returns (s := { s with running := true }) receives
  cases reply : answer text with
  | none =>
    rw [reply] at receives
    refine ⟨{ s with running := false }, w', ?_, nofun, rfl⟩
    exact opens.bind ((gives_of_returns sends).bind (receives.bind ((gives_modify _).bind (gives_pure _))))
  | some lines =>
    rw [reply] at receives stays
    refine ⟨{ s with running := true, queries := s.queries + 1 }, w', ?_, fun _ => stays rfl, rfl⟩
    exact opens.bind ((gives_of_returns sends).bind (receives.bind ((gives_modify _).bind (gives_pure _))))

theorem query_gives (process : Answers channel live answer) (timeoutMs : Option Nat) (assertions : List Term)
    (ready : Ready live s w) :
    ∃ result s' w', Gives (query channel timeoutMs assertions []) s w result s' w' ∧
      result.map Prod.fst = ownAnswer answer assertions ∧ Ready live s' w' ∧ s'.remembered = s.remembered := by
  unfold query ownAnswer
  cases ofTerms assertions [] with
  | error e => exact ⟨.error e, s, w, gives_pure _, rfl, ready, rfl⟩
  | ok script =>
    obtain ⟨s', w', exchanges, ready, same⟩ := exchange_gives process timeoutMs (queryText script []) ready
    exact ⟨_, s', w', exchanges.bind (gives_pure _), rfl, ready, same⟩

def remember (memory : Table String SatResult) (assertions : List Term) :
    Except SolverError SatResult → Table String SatResult
  | .ok result => memory.insert (rememberedText assertions) result
  | .error _ => memory

theorem checkSat_recalls (channel : Channel (StateM σ)) (timeoutMs : Option Nat) {result : SatResult}
    (known : s.remembered.get? (rememberedText assertions) = some result) :
    Gives (checkSat channel timeoutMs assertions) s w (.ok result) s w := by
  refine gives_get.bind ?_
  rw [known]
  exact gives_pure _

theorem checkSat_asks (process : Answers channel live answer) (timeoutMs : Option Nat)
    (unknown : s.remembered.get? (rememberedText assertions) = none) (ready : Ready live s w) :
    ∃ s' w', Gives (checkSat channel timeoutMs assertions) s w (ownAnswer answer assertions) s' w' ∧
      Ready live s' w' ∧ s'.remembered = remember s.remembered assertions (ownAnswer answer assertions) := by
  obtain ⟨result, t, w', asks, own, ready, same⟩ := query_gives process timeoutMs assertions ready
  rw [← own, ← same]
  cases result with
  | error e =>
    refine ⟨t, w', gives_get.bind ?_, ready, rfl⟩
    rw [unknown]
    exact asks.bind (gives_pure _)
  | ok found =>
    refine ⟨{ t with remembered := t.remembered.insert (rememberedText assertions) found.1 }, w',
      gives_get.bind ?_, ready, rfl⟩
    rw [unknown]
    exact asks.bind ((gives_modify _).bind (gives_pure _))

def Alone (channel : Channel (StateM σ)) (timeoutMs : Option Nat) (assertions : List Term)
    (result : Except SolverError SatResult) : Prop :=
  ∀ w, ∃ s w', Gives (checkSat channel timeoutMs assertions) .initial w result s w'

theorem alone_iff [Nonempty σ] (process : Answers channel live answer) (timeoutMs : Option Nat)
    (assertions : List Term) (result : Except SolverError SatResult) :
    Alone channel timeoutMs assertions result ↔ result = ownAnswer answer assertions := by
  have asks (w : σ) := checkSat_asks (s := .initial) (w := w) process timeoutMs
    (Table.get?_empty (rememberedText assertions)) (fun up => nomatch up)
  constructor
  · intro alone
    obtain ⟨w⟩ := ‹Nonempty σ›
    obtain ⟨_, _, gives⟩ := alone w
    obtain ⟨_, _, owns, _⟩ := asks w
    exact gives.unique owns
  · rintro rfl w
    obtain ⟨s, w', owns, _⟩ := asks w
    exact ⟨s, w', owns⟩

def results (own : List Term → Except SolverError SatResult) :
    Table String SatResult → List (List Term) → List (Except SolverError SatResult)
  | _, [] => []
  | memory, assertions :: rest =>
    match memory.get? (rememberedText assertions) with
    | some result => .ok result :: results own memory rest
    | none => own assertions :: results own (remember memory assertions (own assertions)) rest

theorem checkAll_gives (process : Answers channel live answer) (timeoutMs : Option Nat)
    (calls : List (List Term)) (ready : Ready live s w) :
    ∃ s' w', Gives (calls.mapM (checkSat channel timeoutMs)) s w
      (results (ownAnswer answer) s.remembered calls) s' w' := by
  induction calls generalizing s w with
  | nil => exact ⟨s, w, gives_pure _⟩
  | cons assertions rest ih =>
    rw [mapM_cons]
    cases known : s.remembered.get? (rememberedText assertions) with
    | some result =>
      obtain ⟨s', w', later⟩ := ih ready
      refine ⟨s', w', ?_⟩
      rw [results, known]
      exact (checkSat_recalls channel timeoutMs known).bind (later.bind (gives_pure _))
    | none =>
      obtain ⟨t, v, asks, ready, learns⟩ := checkSat_asks process timeoutMs known ready
      obtain ⟨s', w', later⟩ := ih ready
      refine ⟨s', w', ?_⟩
      rw [results, known]
      rw [learns] at later
      exact asks.bind (later.bind (gives_pure _))

def Agree (own : List Term → Except SolverError SatResult) (first second : List Term) : Prop :=
  rememberedText first = rememberedText second → ∀ result, .ok result = own first → .ok result = own second

theorem remember_agrees_iff {own : List Term → Except SolverError SatResult} {memory : Table String SatResult}
    (unknown : memory.get? (rememberedText assertions) = none) (other : List Term) :
    (∀ result, (remember memory assertions (own assertions)).get? (rememberedText other) = some result →
        .ok result = own other) ↔
      (∀ result, memory.get? (rememberedText other) = some result → .ok result = own other) ∧
        Agree own assertions other := by
  unfold Agree
  cases own assertions with
  | error e => simp [remember]
  | ok found =>
    by_cases same : rememberedText assertions = rememberedText other
    · rw [same] at unknown
      simp [remember, same, unknown]
    · simp [remember, same]

theorem results_own_iff (own : List Term → Except SolverError SatResult) (memory : Table String SatResult)
    (calls : List (List Term)) :
    List.Forall₂ (fun assertions result => result = own assertions) calls (results own memory calls) ↔
      (∀ assertions ∈ calls, ∀ result, memory.get? (rememberedText assertions) = some result →
        .ok result = own assertions) ∧ calls.Pairwise (Agree own) := by
  induction calls generalizing memory with
  | nil => simp [results]
  | cons assertions rest ih =>
    rw [results, pairwise_cons, forall_mem_cons]
    cases known : memory.get? (rememberedText assertions) with
    | some found =>
      rw [forall₂_cons, ih memory]
      constructor
      · rintro ⟨here, later, agree⟩
        refine ⟨⟨?_, later⟩, ?_, agree⟩
        · rintro result ⟨⟩
          exact here
        · intro other member same result owns
          rw [owns.trans here.symm]
          exact later other member found (same ▸ known)
      · rintro ⟨⟨here, later⟩, _, agree⟩
        exact ⟨here found rfl, later, agree⟩
    | none =>
      rw [forall₂_cons, ih]
      simp only [remember_agrees_iff known, forall_and]
      constructor
      · rintro ⟨_, ⟨later, heads⟩, agree⟩
        exact ⟨⟨by simp, later⟩, heads, agree⟩
      · rintro ⟨⟨_, later⟩, heads, agree⟩
        exact ⟨trivial, ⟨later, heads⟩, agree⟩

theorem ownAnswer_congr (answer : String → Option (List String)) {first second : List Term}
    (same : ofTerms first [] = ofTerms second []) : ownAnswer answer first = ownAnswer answer second := by
  unfold ownAnswer
  rw [same]

/-- Before a process that answers every text in one way, a sequence of calls gives each the result it has on a
session of its own exactly when calls with one text agree. -/
theorem calls_transparent_iff (process : Answers channel live answer) (timeoutMs : Option Nat)
    (calls : List (List Term)) (w : σ) :
    ∃ results s w', Gives (calls.mapM (checkSat channel timeoutMs)) .initial w results s w' ∧
      (List.Forall₂ (Alone channel timeoutMs) calls results ↔
        calls.Pairwise fun first second => rememberedText first = rememberedText second →
          ∀ result, Alone channel timeoutMs first (.ok result) → Alone channel timeoutMs second (.ok result)) ∧
      ((calls.Pairwise fun first second => rememberedText first = rememberedText second →
          ofTerms first [] = ofTerms second []) →
        List.Forall₂ (Alone channel timeoutMs) calls results) := by
  obtain ⟨s, w', gives⟩ := checkAll_gives process timeoutMs calls (s := .initial) fun up => nomatch up
  have : Nonempty σ := ⟨w⟩
  have own : Alone channel timeoutMs = fun assertions result => result = ownAnswer answer assertions :=
    funext₂ fun _ _ => propext (alone_iff process timeoutMs _ _)
  have transparent : List.Forall₂ (Alone channel timeoutMs) calls (results (ownAnswer answer) .empty calls) ↔
      calls.Pairwise (Agree (ownAnswer answer)) := by
    rw [own, results_own_iff]
    simp
  refine ⟨_, s, w', gives, ?_, fun scripts => transparent.mpr (scripts.imp ?_)⟩
  · rw [own] at transparent ⊢
    exact transparent
  · intro first second same texts result owns
    rw [← ownAnswer_congr answer (same texts)]
    exact owns

def functionChannel (answer : String → Option (List String)) : Channel (StateM String) where
  start _ := pure (.ok ())
  send text := do
    set text
    pure (.ok ())
  receive _ := do return .ok (answer (← get))

theorem functionChannel_answers (answer : String → Option (List String)) :
    Answers (functionChannel answer) (fun _ => True) answer where
  opens _ w := ⟨w, greeting, rfl, rfl, trivial⟩
  answers text _ _ := ⟨text, text, rfl, rfl, fun _ => trivial⟩

def distinct (s : SmtSort) : List Term :=
  [.not (.eq (.var "p0" s) (.var "p1" s)), .not (.eq (.var "p1" s) (.var "p2" s)),
    .not (.eq (.var "p0" s) (.var "p2" s))]

def distinctScript (s : SmtSort) : Script :=
  ⟨["p0", "p1", "p2"].map fun name => declaration (name, s), (distinct s).map assertion⟩

def pigeonhole (text : String) : Option (List String) :=
  some [if text = queryText (distinctScript .bool) [] then "unsat" else "sat"]

theorem ownAnswer_distinct_bool : ownAnswer pigeonhole (distinct .bool) = .ok .unsat := by
  have script : ofTerms (distinct .bool) [] = .ok (distinctScript .bool) := rfl
  have answered : pigeonhole (queryText (distinctScript .bool) []) = some ["unsat"] :=
    congrArg (fun line => some [line]) (if_pos rfl)
  rw [ownAnswer, script]
  dsimp only
  rw [answered]
  rfl

theorem repeated_calls_transparent :
    Answers (functionChannel pigeonhole) (fun _ => True) pigeonhole ∧
      ∃ results s w', Gives ([distinct .bool, [], distinct .bool].mapM
          (checkSat (functionChannel pigeonhole) none)) .initial "" results s w' ∧
        List.Forall₂ (Alone (functionChannel pigeonhole) none) [distinct .bool, [], distinct .bool] results := by
  have process := functionChannel_answers pigeonhole
  obtain ⟨results, s, w', gives, _, transparent⟩ :=
    calls_transparent_iff process none [distinct .bool, [], distinct .bool] ""
  refine ⟨process, results, s, w', gives, transparent ?_⟩
  decide

/-- Three booleans are never distinct, but once three integers were asked about the answer is that they can
be. -/
theorem sorts_forgotten :
    (∃ s w', Gives ([distinct .int, distinct .bool].mapM (checkSat (functionChannel pigeonhole) none))
        .initial "" [.ok .sat, .ok .sat] s w') ∧
      Alone (functionChannel pigeonhole) none (distinct .bool) (.ok .unsat) ∧
      (∃ E : Env, ∀ t ∈ distinct .int, (t.eval E).toBool) ∧
      ¬ ∃ E : Env, ∀ t ∈ distinct .bool, (t.eval E).toBool := by
  refine ⟨⟨_, _, rfl⟩, ?_, ?_, ?_⟩
  · exact (alone_iff (functionChannel_answers _) none _ _).mpr ownAnswer_distinct_bool.symm
  · refine ⟨{ (default : Env) with symbol := fun name s => match s with
      | .int => if name = "p0" then (0 : Int) else if name = "p1" then (1 : Int) else (2 : Int)
      | s => s.someValue }, ?_⟩
    simp [distinct, Term.eval, Datum.ofCarrier]
  · rintro ⟨E, holds⟩
    simp only [distinct, forall_mem_cons, Term.eval, Datum.ofCarrier, Datum.toBool_bool,
      Bool.not_eq_true'] at holds
    have apart (a b : Bool) (differ : decide (Datum.bool a = .bool b) = false) : a ≠ b :=
      fun same => of_decide_eq_false differ (congrArg Datum.bool same)
    have equal : ∀ a b c : Bool, a ≠ b → b ≠ c → ¬ a ≠ c := by decide
    exact equal _ _ _ (apart _ _ holds.1) (apart _ _ holds.2.1) (apart _ _ holds.2.2.1)

end Dialogue

end TokenAudit
