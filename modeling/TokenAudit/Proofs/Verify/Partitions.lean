import TokenAudit.Proofs.Verify.Moments

/-!
# Assumed lengths of arrays

A check is prepared once for each assumed length of the array parameters.
-/

namespace TokenAudit

open List Resolution Prepare

namespace Path

variable {p q : Path}

def unsized (p : Path) : Path := { p with id := 0, arrayLength := none, constraints := .empty }

theorem unsized_pinInitial (p : Path) (c : Contract) (v : Variable) (value : Value) :
    (p.pinInitial c v value).unsized = p.unsized := by
  unfold pinInitial
  split
  · split
    · split <;> rfl
    · rfl
  · rfl

theorem symbolBase_unsized (same : p.unsized = q.unsized) (v : VarId) : p.symbolBase v = q.symbolBase v :=
  show p.unsized.symbolBase v = q.unsized.symbolBase v from congrArg (symbolBase · v) same

theorem read_unsized (same : p.unsized = q.unsized) (c : Contract) (v : Variable) :
    (p.read c v).1 = (q.read c v).1 ∧ (p.read c v).2.unsized = (q.read c v).2.unsized := by
  have bindings : p.bindings = q.bindings := 
    show p.unsized.bindings = q.unsized.bindings from congrArg Path.bindings same
  unfold read
  rw [bindings, symbolBase_unsized same]
  split
  · exact ⟨rfl, same⟩
  · refine ⟨rfl, ?_⟩
    have bound (r : Path) (value : Value) : (r.bind v.id value).unsized = r.unsized.bind v.id value := rfl
    rw [bound, bound, unsized_pinInitial, unsized_pinInitial, same]

end Path

def Resolution.unsized (r : Resolution) : Resolution := { r with path := r.path.unsized }

theorem Resolution.notes_unsized {r s : Resolution} (same : r.unsized = s.unsized) :
    r.unsignedTerms = s.unsignedTerms ∧ r.returnsOf = s.returnsOf :=
  ⟨(mk.inj same).2.1, (mk.inj same).2.2⟩

variable {e : Option Nat → Option Nat}

namespace Resolve

variable {α : Type} {Q : α → Prop} {S : Subject} {lacking : Prop}

/-- On paths that differ only in their number and the lengths, the computations have the same outcome, but that the
second one may be lacking an element. -/
def Corresponds (lacking : Prop) (Q : α → Prop) (x y : ResolveM α) : Prop :=
  ∀ ⦃r s : Resolution⦄, r.unsized = s.unsized →
    ((outcome x r).1 = (outcome y s).1 ∧ (outcome x r).2.unsized = (outcome y s).2.unsized ∧
      ∀ a, (outcome x r).1 = .ok a → Q a) ∨ lacking ∧ (outcome y s).1 = .error (.unsupported .arrayOperand)

theorem corresponding : Composes fun _ => Corresponds lacking where
  ok good _ _ same := .inl ⟨rfl, same, fun _ given => Except.ok.inj given ▸ good⟩
  fail _ _ _ same := .inl ⟨rfl, same, fun _ impossible => nomatch impossible⟩
  seq {_ _ _ _ x y _ _} first next r s same := by
    rw [outcome_bind, outcome_bind]
    rcases first same with ⟨result, states, given⟩ | ⟨lacks, failed⟩
    · cases left : outcome x r with
      | mk value r' =>
        cases right : outcome y s with
        | mk value' s' =>
          rw [left, right] at result states
          cases result
          cases value with
          | error e => exact .inl ⟨rfl, states, fun _ impossible => nomatch impossible⟩
          | ok a => exact next a (given a (by rw [left])) states
    · cases right : outcome y s with
      | mk value' s' =>
        rw [right] at failed
        cases failed
        exact .inr ⟨lacks, rfl⟩

theorem corresponds_modify {g h : Resolution → Resolution}
    (moves : ∀ r s : Resolution, r.unsized = s.unsized → (g r).unsized = (h s).unsized) :
    Corresponds lacking (fun _ => True) (modify g) (modify h) :=
  fun r s same => .inl ⟨rfl, moves r s same, fun _ _ => trivial⟩

theorem corresponds_same {g : Resolution → Resolution}
    (blind : ∀ r : Resolution, (g r).unsized = (g r.unsized).unsized) :
    Corresponds lacking (fun _ => True) (modify g) (modify g) :=
  corresponds_modify fun r s same => by rw [blind r, same, ← blind s]

theorem corresponds_get {f g : Resolution → ResolveM α} (next : ∀ r s : Resolution, r.unsized = s.unsized →
    Corresponds lacking Q (f r) (g s)) : Corresponds lacking Q (get >>= f) (get >>= g) := by
  intro r s same
  exact next r s same same

theorem corresponds_read (v : Variable) : Corresponds lacking (fun _ => True) (read S v) (read S v) := by
  intro r s same
  obtain ⟨value, path⟩ := Path.read_unsized (congrArg path same) S.contract v
  have reads (r : Resolution) : outcome (read S v) r =
      outcome (single (r.path.read S.contract v).1) { r with path := (r.path.read S.contract v).2 } := rfl
  have states : ({ r with path := (r.path.read S.contract v).2 } : Resolution).unsized =
      ({ s with path := (s.path.read S.contract v).2 } : Resolution).unsized :=
    (mk.injEq ..).mpr ⟨path, notes_unsized (r := r) (s := s) same⟩
  rw [reads, reads, value]
  cases (s.path.read S.contract v).1 with
  | term t => exact corresponding.ok trivial states
  | tuple items => exact corresponding.fail _ states

theorem correspondence (lacks : ∀ o, e o = o ∨ lacking ∧ e o = none) :
    Preparing S (fun _ => True) (fun _ => True) (fun _ => True) (fun _ _ => True) e (fun _ => Corresponds lacking)
      (Corresponds lacking fun _ => True) where
  toComposes := corresponding
  terms := any_vocabulary
  read _ := corresponds_read _
  note _ := corresponds_same fun _ => rfl
  refer _ := corresponds_same fun _ => rfl
  elementOf {t} opts good := by
    rcases lacks opts.element with same | ⟨lacks, none⟩
    · have unmoved : opts.under e = opts := by rw [Reading.under, same]
      rw [unmoved]
      exact corresponding.ofElement any_vocabulary opts good
    · refine fun r s _ => .inr ⟨lacks, ?_⟩
      have failing : elementOf (opts.under e) t = throw (.unsupported .arrayOperand) := by
        rw [elementOf, Reading.under, none]
      rw [failing]
      rfl
  writes _ _ := corresponds_same fun _ => rfl
  checks _ _ := corresponds_get fun r s same => by
    rw [Path.symbolBase_unsized (congrArg path same)]
    exact corresponding.seq (corresponds_same fun _ => rfl) fun _ _ => corresponding.ok trivial
  assume _ _ := corresponds_same fun _ => rfl
  demandAll _ _ := corresponds_same fun _ => rfl
  levels _ _ _ := corresponds_same fun _ => rfl
  events _ _ := corresponds_same fun _ => rfl
  eventArgs _ _ := corresponds_same fun _ => rfl
  callArgs _ _ _ := corresponds_same fun _ => rfl
  through := corresponding.seq
  abort := corresponding.fail
  vacuous := corresponding.ok trivial
  silent := corresponding.ok trivial
  results _ := corresponds_get fun r s same => by
    rw [(notes_unsized same).2]
    exact corresponding.seq (corresponds_same fun _ => rfl) fun _ _ => corresponding.ok trivial

end Resolve

namespace Prepare

open Resolve

variable {S : Subject} {check : Check} {base p q : Path} {lacking : Prop}

theorem assumeUnsignedTerms_corresponds (ts : List Term) :
    Corresponds lacking (fun _ => True) (assumeUnsignedTerms ts) (assumeUnsignedTerms ts) := by
  induction ts with
  | nil => exact corresponding.ok trivial
  | cons t rest ih =>
    exact corresponding.seq (corresponding.ofSorted fun _ _ => trivial) fun _ _ =>
      corresponding.seq (corresponds_same fun _ => rfl) fun _ _ => ih

theorem readied_corresponds (lacks : ∀ o, e o = o ∨ lacking ∧ e o = none) (element : reading q = (reading p).under e) :
    Corresponds lacking (fun _ => True) (readied S check p) (readied S check q) := by
  have accuses : Accuses (fun _ _ => True) check.callees (Corresponds lacking fun _ => True) :=
    fun _ _ => corresponding.seq (corresponds_same fun _ => rfl) fun _ _ => corresponding.ok trivial
  unfold readied
  rw [element]
  refine corresponding.seq ((correspondence lacks).setup _ check.permits_all (fun _ _ => trivial) accuses) fun _ _ =>
    corresponds_get fun r s same => ?_
  obtain ⟨unsigned, returns⟩ := notes_unsized same
  rw [unsigned, returns]
  exact corresponding.seq (assumeUnsignedTerms_corresponds _) fun _ _ =>
    corresponding.seq (corresponds_same fun _ => rfl) fun _ _ => corresponding.ok trivial

theorem assumeLengths_corresponds (n m : Nat) (arrays : List Variable) :
    Corresponds False (fun _ => True) (assumeLengths S n arrays) (assumeLengths S m arrays) := by
  induction arrays with
  | nil => exact corresponding.ok trivial
  | cons v rest ih =>
    refine corresponding.seq (corresponds_read v) fun array _ => ?_
    exact corresponding.seq (x := assume _) (y := assume _) (corresponds_modify fun _ _ same => same) fun _ _ => ih

theorem withLength_corresponds (base : Path) (i j n m : Nat) :
    (∃ e, withLength S base i n = .error e ∧ withLength S base j m = .error e) ∨
      ∃ p q, withLength S base i n = .ok p ∧ withLength S base j m = .ok q ∧ p.unsized = q.unsized := by
  have same : (start (withSize base i n)).unsized = (start (withSize base j m)).unsized := rfl
  have sized (i n : Nat) : withLength S base i n =
      (outcome (assumeLengths S n (arrayParams S.function)) (.start (withSize base i n))).1.map fun _ =>
        (outcome (assumeLengths S n (arrayParams S.function)) (.start (withSize base i n))).2.path := rfl
  obtain ⟨result, states, _⟩ := (assumeLengths_corresponds n m (arrayParams S.function) same).resolve_right (·.1)
  rw [sized, sized, ← result]
  cases (outcome (assumeLengths S n (arrayParams S.function)) (.start (withSize base i n))).1 with
  | error e => exact .inl ⟨e, rfl, rfl⟩
  | ok u => exact .inr ⟨_, _, rfl, rfl, congrArg path states⟩

theorem withLength_arrayLength {i n : Nat} (built : withLength S base i n = .ok p) : p.arrayLength = some n := by
  obtain ⟨r, resolves, rfl⟩ := withLength_ends built
  refine Eq.symm ((assumeLengths_registers (K := fun _ => True) S n _ resolves).path.lift
    (R := Function.onFun Eq Path.arrayLength) fun p _ registration => ?_)
  cases registration with
  | read c v => exact (congrArg Path.arrayLength (Machine.read_sameTask p c v)).symm
  | _ => rfl

def outlookFor (S : Subject) (check : Check) (base : Path) (id length : Nat) : Except VerifyError Outlook := do
  (onePath S check (← withLength S base id length)).map Prod.fst

theorem map_fst_onePath (S : Subject) (check : Check) (p : Path) :
    (onePath S check p).map Prod.fst = (outcome (readied S check p) (.start p)).1 := by
  rw [onePath_eq]
  cases (outcome (readied S check p) (.start p)).1 <;> rfl

theorem outlookFor_of_sized {i n : Nat} (sized : withLength S base i n = .ok p) :
    outlookFor S check base i n = (onePath S check p).map Prod.fst := by
  rw [outlookFor, sized]
  rfl

theorem outlookFor_corresponds (S : Subject) (check : Check) (base : Path) (i j n : Nat) :
    outlookFor S check base j n = outlookFor S check base i n ∧
      (outlookFor S check base j 0 = outlookFor S check base i n ∨
        outlookFor S check base j 0 = .error (.unsupported .arrayOperand)) := by
  have compare (m : Nat) (e : Option Nat → Option Nat) (lacking : Prop) (lacks : ∀ o, e o = o ∨ lacking ∧ e o = none)
      (element : ∀ p q : Path, p.arrayLength = some n → q.arrayLength = some m → reading q = (reading p).under e) :
      outlookFor S check base j m = outlookFor S check base i n ∨
        lacking ∧ outlookFor S check base j m = .error (.unsupported .arrayOperand) := by
    rcases withLength_corresponds base i j n m with ⟨e, left, right⟩ | ⟨p, q, left, right, same⟩
    · rw [outlookFor, outlookFor, left, right]
      exact .inl rfl
    · have reads := element p q (withLength_arrayLength left) (withLength_arrayLength right)
      have states : (start p).unsized = (start q).unsized :=
        congrArg (fun p => mk p [] .empty) same
      rw [outlookFor_of_sized left, outlookFor_of_sized right, map_fst_onePath, map_fst_onePath]
      exact (readied_corresponds lacks reads states).imp_left fun same => same.1.symm
  constructor
  · refine (compare n id False (fun _ => .inl rfl) fun p q left right => ?_).resolve_right (·.1)
    rw [reading, reading, left, right]
    rfl
  · refine (compare 0 (fun _ => none) True (fun _ => .inr ⟨trivial, rfl⟩) fun p q _ right => ?_).imp_right (·.2)
    rw [reading, right]
    rfl

/-- Whether the check holds without a look, read off the outlooks for the lengths in turn. -/
def outlookOver (o : Nat → Except VerifyError Outlook) : List Nat → Except VerifyError Bool
  | [] => .ok false
  | n :: rest =>
    match o n with
    | .error e => .error e
    | .ok .vacuous => .ok true
    | .ok (.ready _) => outlookOver o rest

def forLengths (S : Subject) (check : Check) (base : Path) (lengths : List Nat) : Except VerifyError Prepared := do
  allPaths S check (← lengths.zipIdx.mapM fun (length, i) => withLength S base i length)
    ⟨S, check.tracking, [], [], false⟩

theorem vacuous_forLengths (S : Subject) (check : Check) (base : Path) (lengths : List Nat) :
    (forLengths S check base lengths).map Prepared.vacuous = outlookOver (outlookFor S check base 0) lengths := by
  unfold forLengths
  cases first : withLength S base 0 0 with
  | error e =>
    have fails (i n : Nat) : withLength S base i n = .error e := by
      rcases withLength_corresponds base 0 i 0 n with ⟨_, left, right⟩ | ⟨_, _, left, _⟩
      · rw [right, Except.error.inj (left.symm.trans first)]
      · cases left.symm.trans first
    cases lengths with
    | nil => rfl
    | cons n rest =>
      rw [zipIdx_cons, mapM_cons, outlookOver, outlookFor]
      dsimp only
      rw [fails]
      rfl
  | ok p₀ =>
    -- the paths are numbered from any number on, and some may be ready already
    suffices built : ∀ (lengths : List Nat) (k : Nat), ∃ starts,
        ((lengths.zipIdx k).mapM fun (length, i) => withLength S base i length) = .ok starts ∧
          ∀ before : Prepared, before.vacuous = false →
            (allPaths S check starts before).map Prepared.vacuous = outlookOver (outlookFor S check base 0) lengths by
      obtain ⟨starts, built, counted⟩ := built lengths 0
      rw [built]
      exact counted _ rfl
    intro lengths
    induction lengths with
    | nil => exact fun k => ⟨[], rfl, fun before fresh => congrArg Except.ok fresh⟩
    | cons n rest ih =>
      intro k
      obtain ⟨starts, built, counted⟩ := ih (k + 1)
      rcases withLength_corresponds base 0 k 0 n with ⟨_, left, _⟩ | ⟨_, p, _, sized, _⟩
      · cases left.symm.trans first
      refine ⟨p :: starts, ?_, fun before fresh => ?_⟩
      · rw [zipIdx_cons, mapM_cons]
        dsimp only
        rw [sized, built]
        rfl
      · rw [allPaths, outlookOver, ← (outlookFor_corresponds S check base 0 k n).1,
          outlookFor_of_sized sized]
        rcases onePath S check p with e | ⟨outlook, q⟩
        · rfl
        · cases outlook with
          | vacuous => rfl
          | ready expected => exact counted _ fresh

section

variable {o : Nat → Except VerifyError Outlook} {lengths : List Nat}

theorem outlookOver_positive (short : ∀ n, o 0 = o n ∨ o 0 = .error (.unsupported .arrayOperand))
    (prepares : ∃ b, outlookOver o lengths = .ok b) : ∃ b, outlookOver o (lengths.filter (0 < ·)) = .ok b := by
  induction lengths with
  | nil => exact prepares
  | cons n rest ih =>
    obtain ⟨b, prepares⟩ := prepares
    rw [outlookOver] at prepares
    cases here : o n with
    | error e =>
      rw [here] at prepares
      cases prepares
    | ok outlook =>
      rcases Nat.eq_zero_or_pos n with rfl | positive
      · rw [filter_cons_of_neg (by decide)]
        cases outlook with
        | ready expected =>
          rw [here] at prepares
          exact ih ⟨b, prepares⟩
        | vacuous =>
          cases rest.filter (0 < ·) with
          | nil => exact ⟨false, rfl⟩
          | cons m others =>
            have same : o m = .ok .vacuous := by
              rcases short m with same | lacks
              · rw [← same, here]
              · cases here.symm.trans lacks
            exact ⟨true, by rw [outlookOver, same]⟩
      · rw [filter_cons_of_pos (by simpa), outlookOver, here]
        cases outlook with
        | vacuous => exact ⟨true, rfl⟩
        | ready expected =>
          rw [here] at prepares
          exact ih ⟨b, prepares⟩

theorem outlookOver_of_forall (ready : ∀ n, ∃ outlook, o n = .ok outlook) (lengths : List Nat) :
    ∃ b, outlookOver o lengths = .ok b := by
  induction lengths with
  | nil => exact ⟨false, rfl⟩
  | cons n rest ih =>
    obtain ⟨outlook, here⟩ := ready n
    rw [outlookOver, here]
    cases outlook with
    | vacuous => exact ⟨true, rfl⟩
    | ready expected => exact ih

theorem outlookOver_of_takeWhile {f : Nat → Bool} (vacuous : outlookOver o (lengths.takeWhile f) = .ok true) :
    outlookOver o lengths = .ok true := by
  induction lengths with
  | nil => exact vacuous
  | cons n rest ih =>
    rw [takeWhile_cons] at vacuous
    split at vacuous
    · rw [outlookOver] at vacuous ⊢
      split
      · simp_all
      · rfl
      · simp_all
    · cases vacuous

theorem outlookOver_failing {e : VerifyError} (fails : o 0 = .error e)
    (positive : ∃ b, outlookOver o (lengths.filter (0 < ·)) = .ok b) :
    outlookOver o lengths = .error e ∨
      ∃ b, outlookOver o lengths = .ok b ∧ (0 ∈ lengths → outlookOver o (lengths.takeWhile (0 < ·)) = .ok true) := by
  induction lengths with
  | nil => exact .inr ⟨false, rfl, fun none => nomatch none⟩
  | cons n rest ih =>
    rcases Nat.eq_zero_or_pos n with rfl | here
    · exact .inl (by rw [outlookOver, fails])
    · rw [filter_cons_of_pos (by simpa), outlookOver] at positive
      rw [takeWhile_cons_of_pos (by simpa), outlookOver, outlookOver]
      cases outlook : o n with
      | error e =>
        rw [outlook] at positive
        obtain ⟨b, impossible⟩ := positive
        cases impossible
      | ok found =>
        cases found with
        | vacuous => exact .inr ⟨true, rfl, fun _ => rfl⟩
        | ready expected =>
          rw [outlook] at positive
          refine (ih positive).imp_right fun ⟨b, rests, initial⟩ => ⟨b, rests, fun member => initial ?_⟩
          exact (mem_cons.mp member).resolve_left (Nat.ne_of_lt here)

/-- The check is prepared for all lengths just if it is for the positive ones, and for empty arrays too unless it holds
without a look before them; with a positive length nothing but an element of empty arrays is missing. -/
theorem outlookOver_iff (short : ∀ n, o 0 = o n ∨ o 0 = .error (.unsupported .arrayOperand)) :
    ((∃ b, outlookOver o lengths = .ok b) ↔ (∃ b, outlookOver o (lengths.filter (0 < ·)) = .ok b) ∧
      (0 ∈ lengths → (∃ b, outlookOver o [0] = .ok b) ∨ outlookOver o (lengths.takeWhile (0 < ·)) = .ok true)) ∧
    ((∃ n ∈ lengths, 0 < n) → (∃ b, outlookOver o (lengths.filter (0 < ·)) = .ok b) →
      ∀ e, outlookOver o lengths = .error e → e = .unsupported .arrayOperand) := by
  have alone : (∃ b, outlookOver o [0] = .ok b) ↔ ∃ outlook, o 0 = .ok outlook := by
    rw [outlookOver]
    rcases o 0 with e | (_ | _) <;> simp [outlookOver]
  have every {outlook : Outlook} (ready : o 0 = .ok outlook) (lengths : List Nat) :
      ∃ b, outlookOver o lengths = .ok b := by
    refine outlookOver_of_forall (fun n => ⟨outlook, ?_⟩) lengths
    rcases short n with same | lacks
    · rw [← same, ready]
    · cases ready.symm.trans lacks
  rw [alone]
  cases zero : o 0 with
  | ok outlook =>
    refine ⟨⟨fun _ => ⟨every zero _, fun _ => .inl ⟨outlook, rfl⟩⟩, fun _ => every zero _⟩, fun _ _ e fails => ?_⟩
    obtain ⟨b, prepares⟩ := every zero lengths
    cases prepares.symm.trans fails
  | error e₀ =>
    refine ⟨⟨fun prepares => ?_, fun ⟨positive, within⟩ => ?_⟩, fun ⟨n, member, above⟩ positive e fails => ?_⟩
    · have positive := outlookOver_positive short prepares
      obtain ⟨b, prepares⟩ := prepares
      rcases outlookOver_failing zero positive with fails | ⟨_, _, initial⟩
      · cases fails.symm.trans prepares
      · exact ⟨positive, fun member => .inr (initial member)⟩
    · by_cases member : 0 ∈ lengths
      · exact ⟨true, outlookOver_of_takeWhile ((within member).resolve_left fun ⟨_, impossible⟩ => by cases impossible)⟩
      · rw [filter_eq_self.mpr fun n among => by
          simpa using Nat.pos_of_ne_zero fun zero => member (zero ▸ among)] at positive
        exact positive
    · have lacks : e₀ = .unsupported .arrayOperand := by
        cases first : lengths.filter (0 < ·) with
        | nil => exact absurd (mem_filter.mpr ⟨member, by simpa⟩) (first ▸ not_mem_nil)
        | cons m others =>
          obtain ⟨b, positive⟩ := positive
          rw [first, outlookOver] at positive
          rcases short m with same | lacks
          · rw [← same, zero] at positive
            cases positive
          · exact Except.error.inj (zero.symm.trans lacks)
      rcases outlookOver_failing zero positive with failed | ⟨_, prepares, _⟩
      · rw [← lacks, Except.error.inj (failed.symm.trans fails)]
      · cases prepares.symm.trans fails

end

theorem forSubject_lengths (S : Subject) (config : Config) (check : Check) :
    (∃ result, ∀ lengths, forSubject S { config with arrayLengths := lengths } check = result) ∨
      ∃ base, ∀ lengths, forSubject S { config with arrayLengths := lengths } check =
        forLengths S check base lengths := by
  unfold forSubject startPaths
  cases (((basePath S).run (.start S.entryPath) : Id _) : Except VerifyError Unit × Resolution) with
  | mk result r =>
    cases result with
    | error e => exact .inl ⟨_, fun _ => rfl⟩
    | ok u =>
      dsimp only
      by_cases arrays : (arrayParams S.function).isEmpty
      · exact .inl ⟨_, fun _ => by rw [if_pos arrays]⟩
      · simp only [if_neg arrays]
        cases check with
        | throws v => exact .inl ⟨forLengths S (.throws v) r.path config.throwArrayLengths, fun _ => rfl⟩
        | _ => exact .inr ⟨r.path, fun _ => rfl⟩

end Prepare

/-- A check can be prepared just if it can for the positive lengths of arrays, and for empty arrays as well unless it
already holds without a look for the lengths before them. -/
theorem empty_arrays_disable_iff (program : Option Program) (config : Config) (contract : String) (target : Target)
    (check : Check) :
    let prepared lengths := prepare program { config with arrayLengths := lengths } contract target check
    ((∃ result, prepare program config contract target check = .ok result) ↔
      (∃ result, prepared (config.arrayLengths.filter (0 < ·)) = .ok result) ∧
        (0 ∈ config.arrayLengths → (∃ result, prepared [0] = .ok result) ∨
          ∃ result, prepared (config.arrayLengths.takeWhile (0 < ·)) = .ok result ∧ result.vacuous = true)) ∧
    ((∃ n ∈ config.arrayLengths, 0 < n) → (∃ result, prepared (config.arrayLengths.filter (0 < ·)) = .ok result) →
      ∀ e, prepare program config contract target check = .error e → e = .unsupported .arrayOperand) := by
  intro prepared
  have given : prepare program config contract target check = prepared config.arrayLengths := rfl
  rw [given]
  suffices known : (∃ result, ∀ lengths, prepared lengths = result) ∨ ∃ o : Nat → Except VerifyError Outlook,
      (∀ n, o 0 = o n ∨ o 0 = .error (.unsupported .arrayOperand)) ∧
        ∀ lengths, (prepared lengths).map Prepared.vacuous = outlookOver o lengths by
    rcases known with ⟨result, same⟩ | ⟨o, short, counted⟩
    · simp only [same]
      refine ⟨⟨fun prepares => ⟨prepares, fun _ => .inl prepares⟩, And.left⟩, fun _ ⟨_, prepares⟩ e fails => ?_⟩
      cases prepares.symm.trans fails
    · have told (lengths : List Nat) (b : Bool) : outlookOver o lengths = .ok b ↔
          ∃ result, prepared lengths = .ok result ∧ result.vacuous = b := by
        rw [← counted]
        cases prepared lengths <;> simp [Except.map]
      have some_iff (lengths : List Nat) : (∃ result, prepared lengths = .ok result) ↔
          ∃ b, outlookOver o lengths = .ok b := by
        rw [← counted]
        cases prepared lengths <;> simp [Except.map]
      have error_iff (lengths : List Nat) (e : VerifyError) : prepared lengths = .error e ↔
          outlookOver o lengths = .error e := by
        rw [← counted]
        cases prepared lengths <;> simp [Except.map]
      simp only [some_iff, error_iff, ← told]
      exact outlookOver_iff short
  have bound (lengths : List Nat) : prepared lengths = (subjectOf program contract target).bind fun S =>
    forSubject S { config with arrayLengths := lengths } check := rfl
  cases found : subjectOf program contract target with
  | error e => exact .inl ⟨.error e, fun lengths => by rw [bound, found, Except.bind]⟩
  | ok S =>
    simp only [bound, found, Except.bind]
    rcases forSubject_lengths S config check with same | ⟨base, sized⟩
    · exact .inl same
    · refine .inr ⟨outlookFor S check base 0, fun n =>
        (outlookFor_corresponds S check base 0 0 n).2, fun lengths => ?_⟩
      rw [sized, vacuous_forLengths]

namespace Batch

def program : Program :=
  { contracts := [{
      name := "Token"
      stateVariables := [⟨"total", .uint256, .publicAccess, none⟩]
      events := [⟨"Batch", []⟩]
      functions := [{
        name := "batch"
        params := [⟨"amounts", .array .uint256 none⟩]
        nodes := [default] }] }] }

def announced (s : Selector) : Check :=
  .emits ⟨"Batch", some (.written (.stateVar "total" []) .unspecified), [],
    some (.comparison s (.constant (.int 0)) .gt), none, false, []⟩

def prepared (s : Selector) (lengths : List Nat) : Except VerifyError Prepared :=
  prepare (some program) { arrayLengths := lengths } "Token" (.named "batch" none) (announced s)

def Ready (s : Selector) (lengths : List Nat) : Prop := ∃ result, prepared s lengths = .ok result

theorem ready_of_isOk {s : Selector} {lengths : List Nat} (given : (prepared s lengths).isOk = true) :
    Ready s lengths := by
  unfold Ready
  cases outcome : prepared s lengths with
  | ok result => exact ⟨result, rfl⟩
  | error e =>
    rw [outcome] at given
    cases given

end Batch

open Batch in
/-- A condition on the number of amounts is prepared for empty arrays too.  One on the amounts is not, and fails for
that reason. -/
theorem amounts_counted : (Ready (.arrLength (.funcParam 0)) [1, 2] ∧ Ready (.arrLength (.funcParam 0)) [0] ∧
      Ready (.arrLength (.funcParam 0)) [0, 1, 2]) ∧
    ∃ e, prepared (.funcParam 0) [0, 1, 2] = .error e ∧ e = .unsupported .arrayOperand := by
  have positive : Ready (.arrLength (.funcParam 0)) [1, 2] := ready_of_isOk (by decide +kernel)
  have empty : Ready (.arrLength (.funcParam 0)) [0] := ready_of_isOk (by decide +kernel)
  refine ⟨⟨positive, empty, ?_⟩, ?_⟩
  · exact (empty_arrays_disable_iff (some program) { arrayLengths := [0, 1, 2] } "Token" (.named "batch" none)
      (announced (.arrLength (.funcParam 0)))).1.mpr ⟨positive, fun _ => .inl empty⟩
  · cases result : prepared (.funcParam 0) [0, 1, 2] with
    | ok found =>
      have failing : (prepared (.funcParam 0) [0, 1, 2]).isOk = false := by decide +kernel
      rw [result] at failing
      cases failing
    | error e =>
      exact ⟨e, rfl, (empty_arrays_disable_iff (some program) { arrayLengths := [0, 1, 2] } "Token"
        (.named "batch" none)
        (announced (.funcParam 0))).2 ⟨1, by decide, by decide⟩ (ready_of_isOk (by decide +kernel)) e result⟩

open Batch in
/-- The check holds without a look for one amount and for two, and cannot be prepared if arrays may be empty too. -/
theorem empty_batch_refused : (∃ result, prepared (.funcParam 0) [1, 2] = .ok result ∧ result.vacuous = true) ∧
    prepared (.funcParam 0) [0, 1, 2] = .error (.unsupported .arrayOperand) := by
  have vacuous : (prepared (.funcParam 0) [1, 2]).toOption.map Prepared.vacuous = some true := by decide +kernel
  obtain ⟨result, prepares, holds⟩ := Option.map_eq_some_iff.mp vacuous
  exact ⟨⟨result, ok_of_toOption prepares, holds⟩, rfl⟩

end TokenAudit
