import TokenAudit.Proofs.Machine.Exclusion
import TokenAudit.Proofs.Program.Names

/-!
# The log of a path and its notes

What the notes of a path say has happened is asserted (`Told`), and where names have no hash nothing else is (`Ledger`).
-/

namespace TokenAudit

open List TokenAudit.Fact TokenAudit.Path Contract Machine Term

variable {name : String} {i : Nat} {c : Contract} {facts : List Fact} {sv : StateVariable} {event : EventDecl}

theorem found_listed {α : Type} {named : α → String} {all : List α} {a : α}
    (found : (match all.findIdx? (named · == name) with
      | some i => (all[i]?).map (i, ·)
      | none => none) = some (i, a)) : all[i]? = some a ∧ named a = name := by
  split at found
  · rename_i k first
    obtain ⟨b, listed, same⟩ := Option.map_eq_some_iff.mp found
    cases same
    obtain ⟨_, here, _⟩ := List.findIdx?_eq_some_iff_getElem.mp first
    obtain ⟨_, rfl⟩ := List.getElem?_eq_some_iff.mp listed
    exact ⟨listed, beq_iff_eq.mp here⟩
  · cases found

theorem Contract.stateVariable?_listed (found : c.stateVariable? name = some (i, sv)) :
    c.stateVariables[i]? = some sv ∧ sv.name = name :=
  found_listed found

theorem Contract.event?_listed (found : c.event? name = some (i, event)) :
    c.events[i]? = some event ∧ event.name = name :=
  found_listed found

instance : Std.LawfulEqOrd CallOn where
  eq_of_compare {a b} same := by
    obtain ⟨receiver, function⟩ := Ordering.then_eq_eq.mp same
    cases a
    cases b
    rw [CallOn.mk.injEq]
    exact ⟨Std.LawfulEqOrd.eq_of_compare receiver, Std.LawfulEqOrd.eq_of_compare function⟩
  compare_self {a} := by
    show (compare a.receiver a.receiver).then (compare a.function a.function) = .eq
    simp

namespace Path

def Happened (c : Contract) (p : Path) : Fact → Prop
  | .written name => ∃ i sv, c.stateVariable? name = some (i, sv) ∧ i ∈ p.varsWritten.toList
  | .emitted name => ∃ i event, c.event? name = some (i, event) ∧ i ∈ p.eventsEmitted.toList
  | .called receiver function => ⟨receiver, function⟩ ∈ p.calledOn.toList
  | .fnCalled function => function ∈ p.returnsTracked.toList ∧ 0 < p.callCounts.getD function 0
  | .usedInCheck name => ∃ v ∈ p.usedInCheck, p.symbolBase v = name
  | _ => False

/-- What the values of a path are made of, and what waits to be assumed or bound. -/
structure Holdings where
  values : Table VarId Value
  links : Table VarId IndexLink
  stack : List Frame
  deferred : List Term
  results : OrdSet String

def holdings (p : Path) : Holdings := ⟨p.bindings, p.links, p.stack, p.deferred, p.returnsTracked⟩

structure Records (c : Contract) (facts : List Fact) (p q : Path) : Prop where
  log : q.constraints.terms = p.constraints.terms ++ facts.map term
  happened : ∀ fact, q.Happened c fact ↔ p.Happened c fact ∨ fact ∈ facts
  holdings : q.holdings = p.holdings

variable {c : Contract} {p q : Path}

theorem records_nothing (p : Path) : Records c [] p p :=
  ⟨by rw [map_nil, append_nil], fun fact => by simp, rfl⟩

theorem terms_assume_fact (p : Path) (fact : Fact) :
    (p.assume fact.term).constraints.terms = p.constraints.terms ++ [fact.term] := by
  rw [assume, ConstraintLog.terms_push, if_neg (by simp [term])]

theorem named_insert {α : Type} {find : String → Option (Nat × α)} {other : String} {a : α}
    (found : find name = some (i, a)) (unique : ∀ {a'}, find other = some (i, a') → other = name) (s : OrdSet Nat) :
    (∃ j b, find other = some (j, b) ∧ j ∈ (s.insert i).toList) ↔
      (∃ j b, find other = some (j, b) ∧ j ∈ s.toList) ∨ other = name := by
  constructor
  · rintro ⟨j, b, there, member⟩
    rcases (OrdSet.mem_insertInto i j s.toList).mp member with rfl | old
    · exact .inr (unique there)
    · exact .inl ⟨j, b, there, old⟩
  · rintro (⟨j, b, there, old⟩ | rfl)
    · exact ⟨j, b, there, (OrdSet.mem_insertInto i j s.toList).mpr (.inr old)⟩
    · exact ⟨i, a, found, (OrdSet.mem_insertInto i i s.toList).mpr (.inl rfl)⟩

theorem noteWrite_log (p : Path) (i : Nat) (name : String) (count : Bool) : ∃ written counts log,
    p.noteWrite i name count = { p with varsWritten := written, writeCounts := counts, constraints := log } := by
  unfold noteWrite
  repeat' split
  all_goals exact ⟨_, _, _, rfl⟩

theorem noteEmission_log (p : Path) (i : Nat) (name : String) : ∃ emitted counts log,
    (noteEmission p i name).2 =
      { p with eventsEmitted := emitted, emitCounts := counts, constraints := log } := by
  unfold noteEmission
  split
  · exact ⟨_, _, _, rfl⟩
  · exact ⟨_, _, _, rfl⟩

theorem noteWrite_records (p : Path) (found : c.stateVariable? name = some (i, sv)) (count : Bool) :
    Records c (if p.varsWritten.contains i then [] else [.written name]) p (p.noteWrite i name count) := by
  have counts {r : Path} {facts : List Fact} (records : Records c facts p r) :
      Records c facts p (if count then { r with writeCounts := r.writeCounts.update i 0 (· + 1) } else r) := by
    split
    · exact { records with }
    · exact records
  refine counts ?_
  split
  · exact records_nothing p
  · refine ⟨terms_assume_fact _ _, fun fact => ?_, rfl⟩
    cases fact with
    | written other =>
      have unique {sv' : StateVariable} (there : c.stateVariable? other = some (i, sv')) : other = name := by
        have same := (stateVariable?_listed there).1.symm.trans (stateVariable?_listed found).1
        cases same
        exact (stateVariable?_listed there).2.symm.trans (stateVariable?_listed found).2
      rw [mem_singleton, written.injEq]
      exact named_insert found unique p.varsWritten
    | _ => simp [Happened, assume, symbolBase]

theorem noteEmission_records (p : Path) (found : c.event? name = some (i, event)) :
    Records c (if p.eventsEmitted.contains i then [] else [.emitted name]) p (noteEmission p i name).2 := by
  have counts {r : Path} {facts : List Fact} (records : Records c facts p r) (counts : Table Nat Nat) :
      Records c facts p { r with emitCounts := counts } :=
    { records with }
  refine counts ?_ _
  split
  · exact records_nothing p
  · refine ⟨terms_assume_fact _ _, fun fact => ?_, rfl⟩
    cases fact with
    | emitted other =>
      have unique {event' : EventDecl} (there : c.event? other = some (i, event')) : other = name := by
        have same := (event?_listed there).1.symm.trans (event?_listed found).1
        cases same
        exact (event?_listed there).2.symm.trans (event?_listed found).2
      rw [mem_singleton, emitted.injEq]
      exact named_insert found unique p.eventsEmitted
    | _ => simp [Happened, assume, symbolBase]

theorem markUsed_records (p : Path) (v : VarId) :
    Records c (if v ∈ p.checkTracked ∧ v ∉ p.usedInCheck then [.usedInCheck (p.symbolBase v)] else []) p
      (p.markUsed v) := by
  unfold markUsed
  split
  · refine ⟨terms_assume_fact _ _, fun fact => ?_, rfl⟩
    cases fact with
    | usedInCheck name =>
      rw [mem_singleton, usedInCheck.injEq]
      show (∃ u ∈ p.usedInCheck ++ [v], p.symbolBase u = name) ↔ (∃ u ∈ p.usedInCheck, p.symbolBase u = name) ∨ _
      simp only [mem_append, mem_singleton, or_and_right, exists_or, exists_eq_left, eq_comm (a := name)]
    | _ => simp [Happened, assume]
  · exact records_nothing p

theorem noteCall_log (p : Path) (receiver name : String) : ∃ log, (noteCall p receiver name).2 = { p with
    calledOn := p.calledOn.insert ⟨receiver, name⟩
    calledFunctions := p.calledFunctions.insert name
    callCounts := p.callCounts.insert name (p.callCounts.getD name 0 + 1)
    constraints := log } := by
  unfold noteCall
  dsimp only
  split
  · exact ⟨_, rfl⟩
  · exact ⟨_, rfl⟩

theorem counts_insert (counts : Table String Nat) (name other : String) :
    0 < (counts.insert name (counts.getD name 0 + 1)).getD other 0 ↔ 0 < counts.getD other 0 ∨ other = name := by
  rw [Table.getD, Table.get?_insert]
  by_cases same : name = other
  · simp [same]
  · rw [if_neg same]
    exact ⟨.inl, fun either => either.resolve_right (Ne.symm same)⟩

theorem noteCall_records (p : Path) (receiver name : String) :
    Records c (.called receiver name :: if p.returnsTracked.contains name then [.fnCalled name] else []) p
      (noteCall p receiver name).2 := by
  have tracked : p.returnsTracked.contains name = true ↔ name ∈ p.returnsTracked.toList := decide_eq_true_iff
  obtain ⟨log, noted⟩ := noteCall_log p receiver name
  refine ⟨?_, fun fact => ?_, by rw [noted]; rfl⟩
  · unfold noteCall
    split
    · rename_i asked
      have asked : p.returnsTracked.contains name = true := asked
      simp [asked, assume, term]
    · rename_i unasked
      have unasked : ¬ p.returnsTracked.contains name = true := unasked
      simp [unasked, assume, term]
  · rw [noted]
    cases fact with
    | called receiver' name' =>
      show _ ∈ OrdSet.insertInto _ _ ↔ ⟨receiver', name'⟩ ∈ p.calledOn.toList ∨ _
      rw [OrdSet.mem_insertInto, or_comm, CallOn.mk.injEq, mem_cons]
      split <;> simp
    | fnCalled name' =>
      show name' ∈ p.returnsTracked.toList ∧ 0 < (p.callCounts.insert name _).getD name' 0 ↔
        (name' ∈ p.returnsTracked.toList ∧ 0 < p.callCounts.getD name' 0) ∨ _
      rw [counts_insert, and_or_left]
      refine or_congr_right ?_
      split
      · rename_i asked
        simp only [mem_cons, reduceCtorEq, fnCalled.injEq, not_mem_nil, or_false, false_or]
        exact ⟨And.right, fun same => ⟨same ▸ tracked.mp asked, same⟩⟩
      · rename_i unasked
        simp only [mem_cons, reduceCtorEq, not_mem_nil, or_false, iff_false]
        rintro ⟨member, same⟩
        exact unasked (tracked.mpr (same ▸ member))
    | _ =>
      refine ⟨.inl, fun either => either.resolve_right ?_⟩
      split <;> simp

structure Brief where
  vars : OrdSet Nat
  events : OrdSet Nat
  checks : List VarId
  results : OrdSet String
  entryName : String

def brief (p : Path) : Brief := ⟨p.varsTracked, p.eventsTracked, p.checkTracked, p.returnsTracked, p.entryName⟩

/-- The path is asked what it was asked, and what has happened is asserted.  A variable is noted as used only where
that is asked, and a function with a count of calls is noted as called. -/
structure Told (c : Contract) (b : Brief) (p : Path) : Prop where
  asked : p.brief = b
  asserted : ∀ fact, p.Happened c fact → fact.term ∈ p.constraints.terms
  used : ∀ v ∈ p.usedInCheck, v ∈ b.checks
  counted : ∀ f, 0 < p.callCounts.getD f 0 → f ∈ p.calledFunctions.toList

variable {b : Brief}

theorem Told.of_record (told : Told c b p) (same : q.record = p.record) (adds : p.Adds q) : Told c b q := by
  have notes : p.record.brief = b ∧ (∀ v ∈ p.record.usedInCheck, v ∈ b.checks) ∧
      ∀ f, 0 < p.record.callCounts.getD f 0 → f ∈ p.record.calledFunctions.toList :=
    ⟨told.asked, told.used, told.counted⟩
  rw [← same] at notes
  refine ⟨notes.1, fun fact holds => adds.subset_terms (told.asserted fact ?_), notes.2.1, notes.2.2⟩
  have holds : q.record.Happened c fact := holds
  rw [same] at holds
  exact holds

theorem Told.assume (told : Told c b p) (t : Term) : Told c b (p.assume t) := told.of_record rfl (adds_of_push t rfl)

theorem Told.records (told : Told c b p) (records : Records c facts p q)
    (asked : q.brief = p.brief) (used : ∀ v ∈ q.usedInCheck, v ∈ b.checks)
    (counted : ∀ f, 0 < q.callCounts.getD f 0 → f ∈ q.calledFunctions.toList) : Told c b q := by
  refine ⟨asked.trans told.asked, fun fact holds => ?_, used, counted⟩
  rw [records.log]
  rcases (records.happened fact).mp holds with before | noted
  · exact mem_append_left _ (told.asserted fact before)
  · exact mem_append_right _ (mem_map_of_mem noted)

end Path

namespace Machine

open Upkeep

variable {M : Machine} {b : Path.Brief}

theorem upkeep_told : Upkeep M (Path.Told M.contract b) Any Any Any Any where
  terms := by constructor <;> intros <;> trivial
  pinned _ _ _ := trivial
  value _ _ := Value.all_true _
  assume told _ := told.assume _
  bind told _ _ := told.of_record rfl (adds_of_same rfl)
  redefine told _ := ⟨{ told with }, Value.all_true _⟩
  read {p v} told _ := by
    have adds : p.Adds (p.read M.contract v).2 :=
      (path_read_changes (K := fun _ => False) p M.contract v).lift fun _ _ => Change.adds
    exact ⟨told.of_record (read_record p M.contract v) adds, Value.all_true _⟩
  sender := trivial
  depend _ _ told := { told with }
  mark operand told _ := by
    refine marked_of (fun p v told => ?_) operand told
    have asked : (p.markUsed v).brief = p.brief := by
      unfold markUsed
      split <;> rfl
    refine told.records (markUsed_records _ v) asked ?_ ?_
    · unfold markUsed
      split
      · rename_i new
        intro u member
        rcases mem_append.mp member with old | here
        · exact told.used u old
        · have tracked : v ∈ p.brief.checks := new.1
          rw [mem_singleton.mp here, ← told.asked]
          exact tracked
      · exact told.used
    · unfold markUsed
      split <;> exact told.counted
  noteWrite {p i name _} told found count _ := by
    obtain ⟨written, counts, log, noted⟩ := noteWrite_log p i name count
    have records := noteWrite_records p found count
    rw [noted] at records ⊢
    exact told.records records rfl told.used told.counted
  noteEmission {p i name _} told found _ := by
    obtain ⟨emitted, counts, log, noted⟩ := noteEmission_log p i name
    have records := noteEmission_records p found
    rw [noted] at records ⊢
    exact told.records records rfl told.used told.counted
  defer told _ _ := { told with }
  root _ _ told _ := { told with }
  result _ told _ _ := { told with }

theorem noteCall_told {p : Path} (told : p.Told M.contract b) (receiver name : String) :
    (noteCall p receiver name).2.Told M.contract b := by
  obtain ⟨log, noted⟩ := noteCall_log p receiver name
  have records := noteCall_records (c := M.contract) p receiver name
  rw [noted] at records ⊢
  refine told.records records rfl told.used fun f counted => ?_
  refine (OrdSet.mem_insertInto name f p.calledFunctions.toList).mpr ?_
  rcases (counts_insert p.callCounts name f).mp counted with before | rfl
  · exact .inr (told.counted f before)
  · exact .inl rfl

theorem hosts_told : Hosts M (Path.Told M.contract b) Any Any Any where
  leaves := ⟨fun _ told => { told with },
    fun told _ => { told with }⟩
  count told := { told with }
  declares _ _ _ := trivial
  admits _ _ _ loc := by
    refine allows_any (fun _ _ told => { told with })
      (fun _ _ _ _ _ p receiver told => noteCall_told told receiver _) fun _ f _ _ =>
      ⟨fun {p} told => ⟨told.asked, told.asserted, told.used, fun g counted => ?_⟩,
        fun told => { told with }⟩
    exact (OrdSet.mem_insertInto f.name g p.calledFunctions.toList).mpr (.inr (told.counted g counted))

theorem step_told : Keeps (Path.Told M.contract b) (fun _ => True) M.step :=
  (upkeep_told.keeps_step hosts_told).imp fun _ _ => trivial

end Machine

/-- Every entry that is about a watched fact asserts one of `A` or denies one of `D`. -/
def Accounted (A D : Fact → Prop) (terms : List Term) : Prop :=
  ∀ t ∈ terms, t.Silent ∨ ∃ fact : Fact, fact.Watched ∧ (A fact ∧ t = fact.term ∨ D fact ∧ t = fact.denial)

namespace Accounted

variable {A D A' D' : Fact → Prop} {terms : List Term} {fact : Fact}

section

variable (accounted : Accounted A D terms)

include accounted

theorem asserted (watched : fact.Watched) (member : fact.term ∈ terms) : A fact := by
  rcases accounted _ member with silent | ⟨other, watched', ⟨holds, same⟩ | ⟨_, same⟩⟩
  · exact absurd silent (not_silent_term (sort_of_watched watched))
  · exact term_inj watched watched' same ▸ holds
  · exact absurd same (term_ne_denial fact other)

theorem denied (watched : fact.Watched) (member : fact.denial ∈ terms) : D fact := by
  rcases accounted _ member with silent | ⟨other, watched', ⟨_, same⟩ | ⟨holds, same⟩⟩
  · exact absurd silent (not_silent_denial (sort_of_watched watched))
  · exact absurd same.symm (term_ne_denial other fact)
  · exact denial_inj watched watched' same ▸ holds

theorem exclusive (apart : ∀ fact, A fact → ¬ D fact) (boolean : fact.sort = .bool)
    (asserted : fact.term ∈ terms) : fact.denial ∉ terms := by
  intro denied
  rcases accounted _ asserted with silent | ⟨held, watched, ⟨holds, same⟩ | ⟨_, same⟩⟩
  · exact not_silent_term boolean silent
  · rcases accounted _ denied with silent | ⟨other, watched', ⟨_, same'⟩ | ⟨fails, same'⟩⟩
    · exact not_silent_denial boolean silent
    · exact term_ne_denial other fact same'.symm
    · have one : held = other := term_inj watched watched' (same.symm.trans (not.inj same'))
      exact apart held holds (one ▸ fails)
  · exact term_ne_denial fact held same

theorem mono (asserts : ∀ fact, A fact → A' fact) (denies : ∀ fact, D fact → D' fact) : Accounted A' D' terms := by
  intro t member
  refine (accounted t member).imp_right fun ⟨fact, watched, about⟩ => ⟨fact, watched, ?_⟩
  exact about.imp (And.imp_left (asserts fact)) (And.imp_left (denies fact))

end

theorem push {log : ConstraintLog} {t : Term} (accounted : Accounted A D log.terms) (silent : t.Silent) :
    Accounted A D (log.push t).terms := by
  intro u member
  rw [ConstraintLog.terms_push] at member
  split at member
  · exact accounted u member
  · rcases mem_append.mp member with old | new
    · exact accounted u old
    · exact .inl (mem_singleton.mp new ▸ silent)

end Accounted

/-- The values of a path are clear, its links and targets are tidy variables, and nothing that it puts off is about a
fact. -/
structure Path.Holdings.Sound (h : Holdings) : Prop where
  values : ∀ {v x}, h.values.get? v = some x → x.All Term.Clear
  links : ∀ {v link}, h.links.get? v = some link →
    link.base.Tidy ∧ link.baseValue.Clear ∧ link.key.Clear
  targets : ∀ frame ∈ h.stack, ∀ t ∈ frame.target, t.id.Tidy
  deferred : ∀ t ∈ h.deferred, t.Silent
  results : ∀ f ∈ h.results.toList, '.' ∉ f.toList

/-- The log asserts what has happened and what `A` says, denies what `D` says, and is otherwise about values. -/
structure Path.Ledger (c : Contract) (A D : Fact → Prop) (p : Path) : Prop where
  accounted : Accounted (fun fact => p.Happened c fact ∨ A fact) D p.constraints.terms
  sound : p.holdings.Sound

namespace Path

variable {c : Contract} {A D : Fact → Prop} {p q : Path} {fact : Fact}

theorem Holdings.Sound.insert {h : Holdings} (sound : h.Sound) (v : VarId) {x : Value}
    (clear : x.All Term.Clear) : ({ h with values := h.values.insert v x } : Holdings).Sound := by
  refine ⟨fun {w y} bound => ?_, sound.links, sound.targets, sound.deferred, sound.results⟩
  rcases Table.of_get?_insert bound with rfl | earlier
  · exact clear
  · exact sound.values earlier

section

variable (ledger : p.Ledger c A D)

include ledger

theorem Ledger.assume {t : Term} (silent : t.Silent) : (p.assume t).Ledger c A D :=
  ⟨ledger.accounted.push silent, ledger.sound⟩

theorem Ledger.mono {A' D' : Fact → Prop} (asserts : ∀ fact, A fact → A' fact)
    (denies : ∀ fact, D fact → D' fact) : p.Ledger c A' D' :=
  ⟨ledger.accounted.mono (fun fact => Or.imp_right (asserts fact)) denies, ledger.sound⟩

theorem Ledger.assert (watched : fact.Watched) :
    (p.assume fact.term).Ledger c (fun other => A other ∨ other = fact) D := by
  refine ⟨?_, ledger.sound⟩
  intro t member
  rw [terms_assume_fact] at member
  rcases mem_append.mp member with old | new
  · exact (ledger.mono (fun _ => .inl) fun _ denied => denied).accounted t old
  · exact .inr ⟨fact, watched, .inl ⟨.inr (.inr rfl), mem_singleton.mp new⟩⟩

theorem Ledger.deny (watched : fact.Watched) :
    (p.assume fact.denial).Ledger c A fun other => D other ∨ other = fact := by
  refine ⟨?_, ledger.sound⟩
  intro t member
  rw [Path.assume, ConstraintLog.terms_push] at member
  rcases mem_append.mp member with old | new
  · exact (ledger.mono (fun _ asserted => asserted) fun _ => .inl).accounted t old
  · exact .inr ⟨fact, watched, .inr ⟨.inr rfl, mem_singleton.mp new⟩⟩

theorem Ledger.read {v : Variable} (tidy : v.id.Tidy) :
    (p.read c v).2.Ledger c A D ∧ (p.read c v).1.All Term.Clear := by
  unfold Path.read
  split
  · rename_i x bound
    exact ⟨ledger, ledger.sound.values bound⟩
  · have fresh : (symbolFor (p.symbolBase v.id) v.type).All Term.Clear :=
      symbolFor_clear _ (p.hash_notMem_symbolBase tidy)
    refine ⟨?_, fresh⟩
    dsimp only
    rcases pinInitial_cases p c v (symbolFor (p.symbolBase v.id) v.type) with same |
      ⟨_, _, t, _, built, pinned⟩
    · rw [same]
      exact ⟨ledger.accounted, ledger.sound.insert v.id fresh⟩
    · rw [pinned]
      exact ⟨ledger.accounted.push (silent_mkEq built), ledger.sound.insert v.id fresh⟩

theorem Ledger.records (records : Records c facts p q) (watched : ∀ fact ∈ facts, fact.Watched) : q.Ledger c A D := by
  refine ⟨?_, records.holdings ▸ ledger.sound⟩
  rw [records.log]
  intro t member
  rcases mem_append.mp member with old | new
  · refine (ledger.accounted.mono (fun fact holds => ?_) fun _ denied => denied) t old
    exact holds.imp_left fun happened => (records.happened fact).mpr (.inl happened)
  · obtain ⟨fact, noted, rfl⟩ := mem_map.mp new
    exact .inr ⟨fact, watched fact noted, .inl ⟨.inl ((records.happened fact).mpr (.inr noted)), rfl⟩⟩

theorem Ledger.withStack {stack : List Frame}
    (targets : ∀ frame ∈ stack, ∀ t ∈ frame.target, t.id.Tidy) : ({ p with stack := stack } : Path).Ledger c A D :=
  ⟨ledger.accounted, ⟨ledger.sound.values, ledger.sound.links, targets, ledger.sound.deferred, ledger.sound.results⟩⟩

end

end Path

namespace Machine

open Upkeep

variable {M : Machine} {A D : Fact → Prop}

theorem termsClosed_clear : TermsClosed Term.Clear (Term.Within Term.Plain) where
  constant c := by cases c <;> exact ⟨by constructor, trivial⟩
  derived t suffix unhashed := ⟨.var (plain_derived _ unhashed), trivial⟩
  fit {s t t'} clear fits := by
    refine ⟨clear.plain.fit fits, ?_⟩
    unfold fit at fits
    dsimp only at fits
    split at fits
    · cases fits
      exact coerce_wellSorted s clear.sorted
    · cases fits
  not clear predicate :=
    ⟨clear.plain.mkNot, (mkNot_denotes (E := default) ⟨clear.sorted, predicate⟩).hasSort.1⟩
  truthy clear built :=
    ⟨clear.plain.truthy built, ((truthy_yields (E := default) clear.sorted).denotes _ built).hasSort.1⟩
  operator left right built :=
    ⟨left.plain.binaryTerm right.plain built, binaryTerm_wellSorted left.sorted right.sorted built⟩
  select array key built := ⟨array.plain.mkSelect key.plain built,
    ((mkSelect_yields (E := default) array.sorted key.sorted).denotes _ built).hasSort.1⟩
  store array key value built := ⟨array.plain.mkStore key.plain value.plain built,
    ((mkStore_yields (E := default) array.sorted key.sorted value.sorted).denotes _ built).hasSort.1⟩
  condition clear _ := clear.plain
  negation clear _ := clear.plain.mkNot
  equation left right built := left.plain.mkEq right.plain built
  inequation left right built := left.plain.mkNe right.plain built
  order left right built := left.plain.mkOrder right.plain built
  implication left right left' right' built built' :=
    (left.plain.mkEq right.plain built).mkImplies (left'.plain.mkEq right'.plain built')

theorem upkeep_ledger : Upkeep M (Path.Ledger M.contract A D) Term.Clear Term.Silent VarId.Tidy
    (fun v => v.id.Tidy) where
  terms := termsClosed_clear.mono fun _ => Term.Within.silent
  pinned _ _ built := silent_mkEq built
  value ledger bound := ledger.sound.values bound
  assume ledger silent := ledger.assume silent
  bind ledger _ good := ⟨ledger.accounted, ledger.sound.insert _ good⟩
  redefine {p v} ledger tidy := by
    have plain := p.hash_notMem_symbolBase tidy
    have fresh : (p.redefine v).1.All Term.Clear := symbolFor_clear _ (by simp [plain])
    exact ⟨⟨ledger.accounted, ledger.sound.insert v.id fresh⟩, fresh⟩
  read ledger tidy := ledger.read tidy
  sender := by decide
  depend _ _ ledger := { ledger with }
  mark operand ledger _ := by
    refine marked_of (fun _ v ledger => ledger.records (markUsed_records _ v) fun fact noted => ?_) operand ledger
    split at noted
    · exact mem_singleton.mp noted ▸ trivial
    · cases noted
  noteWrite ledger found count _ := ledger.records (noteWrite_records _ found count) fun fact noted => by
    split at noted
    · cases noted
    · exact mem_singleton.mp noted ▸ trivial
  noteEmission ledger found _ := ledger.records (noteEmission_records _ found) fun fact noted => by
    split at noted
    · cases noted
    · exact mem_singleton.mp noted ▸ trivial
  defer ledger silent _ := by
    refine ⟨ledger.accounted, ⟨ledger.sound.values, ledger.sound.links, ledger.sound.targets, ?_, ledger.sound.results⟩⟩
    exact forall_mem_append.mpr ⟨ledger.sound.deferred, forall_mem_singleton.mpr silent⟩
  root _ _ ledger _ := { ledger with }
  result _ ledger _ _ := { ledger with }

theorem noteCall_ledger {p : Path} (ledger : p.Ledger M.contract A D) (receiver : String) (named : '.' ∉ name.toList) :
    (noteCall p receiver name).2.Ledger M.contract A D := by
  refine ledger.records (noteCall_records p receiver name) fun fact noted => ?_
  rcases mem_cons.mp noted with rfl | noted
  · exact named
  · split at noted
    · exact mem_singleton.mp noted ▸ named
    · cases noted

theorem relinks_ledger (target : VarId) {base : VarId} (tidy : base.Tidy) :
    Relinks (Path.Ledger M.contract A D) (fun _ => Path.Ledger M.contract A D) Term.Clear target base where
  link ledger array_clear key_clear := by
    refine ⟨ledger.accounted, ⟨ledger.sound.values, fun {v link} found => ?_, ledger.sound.targets,
      ledger.sound.deferred, ledger.sound.results⟩⟩
    rcases Table.of_get?_insert found with rfl | earlier
    · exact ⟨tidy, array_clear, key_clear⟩
    · exact ledger.sound.links earlier
  unlink ledger := ⟨ledger.accounted, ⟨ledger.sound.values, fun found => ledger.sound.links (Table.of_get?_erase found),
    ledger.sound.targets, ledger.sound.deferred, ledger.sound.results⟩⟩
  keys ledger found := (ledger.sound.links found).2.2

theorem hosts_ledger (tidy : ∀ v ∈ M.program.variables, v.id.Tidy)
    (named : ∀ f ∈ M.program.calledNames, '.' ∉ f.toList) :
    Hosts M (Path.Ledger M.contract A D) Term.Clear VarId.Tidy fun v => v.id.Tidy where
  leaves := by
    refine ⟨fun _ ledger => { ledger with }, fun {p frame rest} ledger stack => ?_⟩
    exact ledger.withStack fun frame later =>
      ledger.sound.targets frame (show frame ∈ p.stack from stack ▸ mem_cons_of_mem _ later)
  count ledger := { ledger with }
  declares {f n v} known listed declared := by
    obtain ⟨id, known⟩ := known
    refine tidy v (Program.mem_variables_of_node known listed (mem_append_left _ ?_))
    rw [declared]
    exact mem_singleton.mpr rfl
  admits {f n i} known listed among loc := by
    obtain ⟨id, known⟩ := known
    have free (t : Variable) (bound : i.bound? = some t) : t.id.Tidy := by
      refine tidy t (Program.mem_variables_of_instruction known listed among (mem_append_left _ ?_))
      rw [bound]
      exact mem_singleton.mpr rfl
    have seen (v : Variable) (sees : v ∈ i.sees) : v.id.Tidy :=
      tidy v (Program.mem_variables_of_instruction known listed among (mem_append_right _ sees))
    constructor
    · exact seen
    · exact free
    · intro _ p v link ledger _ found
      exact ledger.sound.links found
    · intro values _ p frame rest target ledger stack waits
      have pending : frame ∈ p.stack := stack ▸ mem_cons_self ..
      exact ledger.sound.targets frame pending target waits
    · rintro target base key rfl
      exact relinks_ledger target.id (seen base (by simp [Instruction.sees, Function.readVariables]))
    · rintro destination callee arguments target rfl p receiver ledger
      exact noteCall_ledger ledger receiver (named _ (Program.mem_calledNames known listed among rfl))
    · intro callee g calls entered
      refine ⟨⟨fun ledger => { ledger with }, fun {p} ledger => ledger.withStack ?_⟩, ?_⟩
      · rintro frame member t waits
        rcases mem_cons.mp member with rfl | later
        · refine free t ?_
          cases i with
          | internalCall function arguments target => exact waits
          | libraryCall library function arguments target => exact waits
          | _ => cases calls
        · exact ledger.sound.targets frame later t waits
      · intro k v param
        exact tidy v (Program.mem_variables_of_parameter entered param)

/-- Every step accounts for what it assumes, also one that fails, and leads on under conditions on values. -/
theorem step_ledger (tidy : ∀ v ∈ M.program.variables, v.id.Tidy)
    (named : ∀ f ∈ M.program.calledNames, '.' ∉ f.toList) :
    Keeps (Path.Ledger M.contract A D) (FairWays Term.Silent) M.step :=
  upkeep_ledger.keeps_step (hosts_ledger tidy named)

end Machine

end TokenAudit
