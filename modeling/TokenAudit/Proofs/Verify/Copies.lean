import TokenAudit.Proofs.Machine.Renumbering
import TokenAudit.Proofs.Verify.Verdict

/-!
# Judging copies

Neither the selectors of a check nor its looks read the number of a path.  What is found on a copy is what is found
on the path.
-/

namespace TokenAudit

def Resolution.fork (r : Resolution) (id : Nat) : Resolution := { r with path := r.path.fork id }

namespace Resolve

variable {α : Type} {Q : α → Prop} {S : Subject}

/-- The second computation has the outcome on every copy of a path that the first one has on the path. -/
def Blind (Q : α → Prop) (x y : ResolveM α) : Prop :=
  ∀ (r : Resolution) (id : Nat), outcome y (r.fork id) = ((outcome x r).1, (outcome x r).2.fork id) ∧
    ∀ a, (outcome x r).1 = .ok a → Q a

theorem blind_modify {g : Resolution → Resolution} (commutes : ∀ r id, g (r.fork id) = (g r).fork id) :
    Blind (fun _ => True) (modify g) (modify g) := by
  intro r id
  refine ⟨?_, fun _ _ => trivial⟩
  show ((.ok ⟨⟩, g (r.fork id)) : Except VerifyError PUnit × Resolution) = (.ok ⟨⟩, (g r).fork id)
  rw [commutes]

theorem blind_get {f : Resolution → ResolveM α} (same : ∀ r id, f (r.fork id) = f r) (next : ∀ r, Blind Q (f r) (f r)) :
    Blind Q (get >>= f) (get >>= f) := by
  intro r id
  rw [outcome_get_bind, same]
  exact next r r id

theorem blind_read (v : Variable) : Blind (fun _ => True) (read S v) (read S v) := by
  intro r id
  refine ⟨?_, fun _ _ => trivial⟩
  have reads (r : Resolution) : outcome (read S v) r =
      outcome (single (r.path.read S.contract v).1) { r with path := (r.path.read S.contract v).2 } := rfl
  have unread : (r.fork id).path = r.path.fork id := rfl
  rw [reads, reads, unread, Machine.read_fork]
  cases (r.path.read S.contract v).1 with
  | term t | tuple items => rfl

theorem blinding : Composes fun _ => Blind where
  ok good _ _ := ⟨rfl, fun _ given => Except.ok.inj given ▸ good⟩
  fail _ _ _ := ⟨rfl, fun _ impossible => nomatch impossible⟩
  seq {_ _ _ _ x _ _ _} first next r id := by
    obtain ⟨same, given⟩ := first r id
    rw [outcome_bind, outcome_bind, same]
    cases result : outcome x r with
    | mk value r' =>
      cases value with
      | error e => exact ⟨rfl, fun _ impossible => nomatch impossible⟩
      | ok a => exact next a (given a (by rw [result])) r' id

theorem blindness :
    Resolving S (fun _ => True) (fun _ => True) (fun _ => True) (fun _ _ => True) id fun _ => Blind where
  toComposes := blinding
  terms := any_vocabulary
  read _ := blind_read _
  note _ := blind_modify fun _ _ => rfl
  refer _ := blind_modify fun _ _ => rfl
  elementOf := blinding.ofElement any_vocabulary
  writes _ _ := blind_modify fun _ _ => rfl
  checks _ _ := blind_get (fun _ _ => rfl) fun _ _ _ => ⟨rfl, fun _ _ => trivial⟩

end Resolve

namespace Judge

open Resolve

variable {S : Subject} {oracle : Solver Id}

def Alike (look : Path → Id Looked) : Prop :=
  ∀ p id, (look (p.fork id)).run = ((look p).run.1, (look p).run.2.fork id)

theorem blind_returnMatch (v : ReturnCheck) : Self (fun _ => Blind) (fun _ => True) (returnMatch S v) := by
  refine blinding.seq (blindness.selector _ fun _ _ => trivial) fun expected _ =>
    blind_get (fun _ _ => rfl) fun r => ?_
  split
  · exact blinding.seq (blinding.ofSorted fun _ _ => trivial) fun _ _ => blinding.ok trivial
  · exact blinding.ok trivial

theorem blind_mirrored {α : Type} {Q Q' : α → Prop} {x : ResolveM α} (any : ∀ a, Q' a) (blind : Blind Q x x)
    (id : Nat) : Mirrored (fun _ => True) (fun _ => id) Q' x :=
  fun p _ => ⟨_, _, rfl, (blind (.start p) id).1, fun a _ => ⟨trivial, any a⟩⟩

theorem copies_mirror (oracle : Solver Id) (S : Subject) (id : Nat) :
    Mirrors S (fun _ => True) (fun _ => id) (fun _ => True) (fun _ => True) (fun _ g x y => y.run = g x.run) oracle
      oracle where
  value _ := rfl
  seq {_ _ _ _ _ _ _ f'} first next := (congrArg (fun a => (f' a).run) first).trans (next _)
  terms := any_vocabulary
  required _ _ _ := trivial
  buggy _ _ _ := trivial
  sat _ _ := rfl
  model _ _ := rfl
  assigned v := blind_mirrored (fun _ => trivial) (blindness.assignBug v fun _ _ => trivial) id
  returned v := blind_mirrored (fun _ _ _ => trivial) (blind_returnMatch v) id
  ordered _ := blind_mirrored (fun _ => trivial)
    (blinding.seq (blindness.selector _ fun _ _ => trivial) fun _ given => blinding.ofRequired _ given) id

theorem lookFor_alike (S : Subject) (check : Check) : Alike (lookFor oracle S check) :=
  fun _ id => (copies_mirror oracle S id).lookFor trivial check

end Judge

namespace Complete

variable {c : Contract} {tracking : Tracking} {id : Nat} {α : Type}

theorem denyUnless_fork (happened : Bool) (fact : Fact) (p : Path) :
    denyUnless happened fact (p.fork id) = (denyUnless happened fact p).fork id := by
  cases happened <;> rfl

theorem bind_fork {x y : Except PathError Path} {next : Path → Except PathError Path}
    (first : x = y.map (Path.fork · id)) (later : ∀ q, next (q.fork id) = (next q).map (Path.fork · id)) :
    (x >>= next) = (y >>= next).map (Path.fork · id) := by
  subst first
  cases y with
  | error e => rfl
  | ok q => exact later q

theorem assume_fork (t : Except PathError Term) (p : Path) :
    (do pure ((p.fork id).assume (← t))) = (do pure (p.assume (← t))).map (Path.fork · id) := by
  cases t <;> rfl

theorem closeVariable_fork (p : Path) (i : Nat) :
    closeVariable c tracking (p.fork id) i = (closeVariable c tracking p i).map (Path.fork · id) := by
  unfold closeVariable
  cases c.stateVariables[i]? with
  | none => rfl
  | some sv =>
    have unread : (p.fork id).varsWritten.contains i = p.varsWritten.contains i := rfl
    dsimp only
    rw [denyUnless_fork]
    cases tracking.writeCount with
    | false =>
      refine bind_fork rfl fun q => ?_
      rw [Machine.read_fork]
      cases (q.read c (.ofState sv.name sv.type)).1 with
      | tuple items => rfl
      | term now => exact assume_fork _ _
    | true =>
      simp only [if_true, ← bind_assoc]
      refine bind_fork (assume_fork _ _) fun q => ?_
      rw [Machine.read_fork]
      cases (q.read c (.ofState sv.name sv.type)).1 with
      | tuple items => rfl
      | term now => exact assume_fork _ _

theorem foldlM_fork {f : Path → α → Except PathError Path}
    (each : ∀ p a, f (p.fork id) a = (f p a).map (Path.fork · id)) (as : List α) (p : Path) :
    as.foldlM f (p.fork id) = (as.foldlM f p).map (Path.fork · id) := by
  induction as generalizing p with
  | nil => rfl
  | cons a rest ih =>
    exact bind_fork (each p a) ih

theorem foldl_fork {f : Path → α → Path} (each : ∀ p a, f (p.fork id) a = (f p a).fork id) (as : List α) (p : Path) :
    as.foldl f (p.fork id) = (as.foldl f p).fork id := by
  induction as generalizing p with
  | nil => rfl
  | cons a rest ih => rw [List.foldl_cons, List.foldl_cons, each, ih]

theorem closeEvent_fork (p : Path) (i : Nat) : closeEvent c (p.fork id) i = (closeEvent c p i).fork id := by
  unfold closeEvent
  cases c.events[i]? with
  | none => rfl
  | some e => exact denyUnless_fork _ _ p

theorem close_fork (expected : List CallOn) (p : Path) :
    close c tracking expected (p.fork id) = (close c tracking expected p).map (Path.fork · id) := by
  have unread (p : Path) : (p.fork id).eventsTracked = p.eventsTracked ∧
      (p.fork id).returnsTracked = p.returnsTracked ∧ (p.fork id).checkTracked = p.checkTracked := ⟨rfl, rfl, rfl⟩
  refine bind_fork (foldlM_fork closeVariable_fork p.varsTracked.toList p) fun q => congrArg Except.ok ?_
  rw [(unread q).1, foldl_fork closeEvent_fork]
  generalize q.eventsTracked.toList.foldl (closeEvent c) q = q
  rw [foldl_fork fun p call => denyUnless_fork _ _ p]
  generalize expected.foldl closeCall q = q
  rw [(unread q).2.1, foldl_fork fun p f => denyUnless_fork _ _ p]
  generalize q.returnsTracked.toList.foldl closeReturn q = q
  rw [(unread q).2.2, foldl_fork fun p v => denyUnless_fork _ _ p]
  generalize q.checkTracked.foldl closeChecked q = q
  exact foldl_fork (fun _ _ => rfl) q.deferred { q with deferred := [] }

end Complete

end TokenAudit
