import TokenAudit.Proofs.Machine.Courses

/-!
# Sorts of the terms on a path

A path is sorted when all it asserts and all it is to assert are well-sorted predicates and all values it holds are
well-sorted.
-/

namespace TokenAudit

open List Term

def Term.Assertable (t : Term) : Prop := t.HasSort .bool

structure Path.Sorted (p : Path) : Prop where
  constraints : ∀ t ∈ p.constraints.terms, t.Assertable
  required : ∀ t ∈ p.required, t.Assertable
  deferred : ∀ t ∈ p.deferred, t.Assertable
  buggy : ∀ t, p.buggy = some t → t.Assertable
  bindings : ∀ {v x}, p.bindings.get? v = some x → x.All Term.WellSorted
  returned : ∀ slot, p.returned = some slot → slot.All Term.WellSorted
  links : ∀ {v link}, p.links.get? v = some link → link.baseValue.WellSorted ∧ link.key.WellSorted

namespace Term

variable {a b t : Term}

theorem Assertable.mkNot (assertable : t.Assertable) : (mkNot t).Assertable :=
  (mkNot_denotes (E := default) assertable).hasSort

theorem Assertable.mkImplies (hypothesis : a.Assertable) (conclusion : b.Assertable) : (mkImplies a b).Assertable :=
  (mkImplies_denotes (E := default) hypothesis conclusion).hasSort

theorem assertable_mkJunction (j : Junction) {ts : List Term} (parts : ∀ t ∈ ts, t.Assertable) :
    (mkJunction j ts).Assertable :=
  (mkJunction_denotes (E := default) j ((allPredicates_iff ts).mpr parts)).hasSort

theorem assertable_mkEq (left : a.WellSorted) (right : b.WellSorted) (built : mkEq a b = .ok t) : t.Assertable :=
  ((mkEq_yields (E := default) left right).denotes _ built).hasSort

theorem assertable_mkNe (left : a.WellSorted) (right : b.WellSorted) (built : mkNe a b = .ok t) : t.Assertable :=
  ((mkNe_yields (E := default) left right).denotes _ built).hasSort

theorem assertable_mkOrder {op : OrderOp} (left : a.WellSorted) (right : b.WellSorted)
    (built : mkOrder op a b = .ok t) : t.Assertable :=
  ((mkOrder_yields (E := default) op left right).denotes _ built).hasSort

theorem wellSorted_mkSelect (array : a.WellSorted) (key : b.WellSorted) (built : mkSelect a b = .ok t) :
    t.WellSorted :=
  ((mkSelect_yields (E := default) array key).denotes _ built).hasSort.1

theorem wellSorted_int (i : Int) : (int i).WellSorted := trivial

theorem wellSorted_constant (c : Constant) : c.term.WellSorted := by
  cases c <;> trivial

theorem wellSorted_fact (fact : Fact) : fact.term.WellSorted := trivial

end Term

mutual

theorem symbolFor_sorted : ∀ (name : String) (type : ContractType), (symbolFor name type).All Term.WellSorted
  | name, .tuple items => by
    rw [symbolFor]
    exact .tuple (symbolsFor_sorted name 0 items)
  | _, .named _ => .term trivial
  | _, .mapping _ _ => .term trivial
  | _, .array _ _ => .term trivial

theorem symbolsFor_sorted : ∀ (name : String) (i : Nat) (items : List ContractType),
    ∀ x ∈ symbolsFor name i items, x.All Term.WellSorted
  | _, _, [] => by simp [symbolsFor]
  | name, i, t :: rest => by
    rw [symbolsFor]
    exact forall_mem_cons.mpr ⟨symbolFor_sorted _ t, symbolsFor_sorted name (i + 1) rest⟩

end

theorem Machine.termsClosed_sorted : Machine.TermsClosed Term.WellSorted Term.Assertable where
  constant := wellSorted_constant
  derived _ _ _ := trivial
  fit {s t t'} good fits := by
    unfold fit at fits
    dsimp only at fits
    split at fits
    · cases fits
      exact coerce_wellSorted s good
    · cases fits
  not good predicate := (Term.Assertable.mkNot ⟨good, predicate⟩).1
  truthy good built := ((truthy_yields (E := default) good).denotes _ built).hasSort.1
  operator := binaryTerm_wellSorted
  select := wellSorted_mkSelect
  store array key value built :=
    ((mkStore_yields (E := default) array key value).denotes _ built).hasSort.1
  condition good predicate := ⟨good, predicate⟩
  negation good predicate := Term.Assertable.mkNot ⟨good, predicate⟩
  equation := assertable_mkEq
  inequation := assertable_mkNe
  order := assertable_mkOrder
  implication left right left' right' built built' :=
    (assertable_mkEq left right built).mkImplies (assertable_mkEq left' right' built')

namespace Path

variable {p q : Path}

structure Terms where
  constraints : ConstraintLog
  required : List Term
  deferred : List Term
  buggy : Option Term
  bindings : Table VarId Value
  returned : Option Returned
  links : Table VarId IndexLink

def terms (p : Path) : Terms := ⟨p.constraints, p.required, p.deferred, p.buggy, p.bindings, p.returned, p.links⟩

namespace Sorted

theorem of_terms (sorted : p.Sorted) (same : q.terms = p.terms) : q.Sorted := by
  unfold terms at same
  simp only [Terms.mk.injEq] at same
  obtain ⟨constraints, required, deferred, buggy, bindings, returned, links⟩ := same
  constructor
  · exact constraints ▸ sorted.constraints
  · exact required ▸ sorted.required
  · exact deferred ▸ sorted.deferred
  · exact buggy ▸ sorted.buggy
  · rw [bindings]
    exact sorted.bindings
  · exact returned ▸ sorted.returned
  · rw [links]
    exact sorted.links

theorem start (id : Nat) (entry : FnId) (node : Nat) (name : String) : (Path.start id entry node name).Sorted := by
  constructor
  · exact fun _ none => nomatch none
  · exact fun _ none => nomatch none
  · exact fun _ none => nomatch none
  · exact fun _ none => nomatch none
  · exact fun none => nomatch none
  · exact fun _ none => nomatch none
  · exact fun none => nomatch none

section

variable (sorted : p.Sorted) (c : Contract) {x : Value}

include sorted

theorem assume {t : Term} (assertable : t.Assertable) : (p.assume t).Sorted := by
  refine ⟨fun u member => ?_, sorted.required, sorted.deferred, sorted.buggy, sorted.bindings, sorted.returned,
    sorted.links⟩
  rw [Path.assume, ConstraintLog.terms_push] at member
  split at member
  · exact sorted.constraints u member
  · rcases mem_append.mp member with old | new
    · exact sorted.constraints u old
    · exact mem_singleton.mp new ▸ assertable

theorem assumeFact {f : Fact} (predicate : f.sort = .bool) : (p.assume f.term).Sorted :=
  sorted.assume ⟨trivial, predicate⟩

theorem deny {f : Fact} (predicate : f.sort = .bool) : (p.assume f.denial).Sorted :=
  sorted.assume (Term.Assertable.mkNot ⟨trivial, predicate⟩)

theorem bind {v : VarId} (good : x.All Term.WellSorted) : (p.bind v x).Sorted := by
  refine ⟨sorted.constraints, sorted.required, sorted.deferred, sorted.buggy, fun {u y} bound => ?_, sorted.returned,
    sorted.links⟩
  rcases Table.of_get?_insert bound with rfl | earlier
  · exact good
  · exact sorted.bindings earlier

theorem redefine (v : Variable) : (p.redefine v).2.Sorted ∧ (p.redefine v).1.All Term.WellSorted := by
  have fresh : (p.redefine v).1.All Term.WellSorted := symbolFor_sorted _ _
  exact ⟨(sorted.bind fresh).of_terms rfl, fresh⟩

theorem pinInitial (v : Variable) (good : x.All Term.WellSorted) : (p.pinInitial c v x).Sorted := by
  unfold Path.pinInitial
  split
  · split
    · split
      · rename_i built
        exact sorted.assume (assertable_mkEq (Value.all_term.mp good) (wellSorted_constant _) built)
      · exact sorted
    · exact sorted
  · exact sorted

theorem read (v : Variable) : (p.read c v).2.Sorted ∧ (p.read c v).1.All Term.WellSorted := by
  unfold Path.read
  split
  · rename_i x bound
    exact ⟨sorted, sorted.bindings bound⟩
  · have fresh := symbolFor_sorted (p.symbolBase v.id) v.type
    exact ⟨(sorted.pinInitial c v fresh).bind fresh, fresh⟩

theorem assumeUnsigned (type : ContractType) (good : x.All Term.WellSorted) : (p.assumeUnsigned x type).Sorted := by
  rcases Machine.assumeUnsigned_cases p x type with same | ⟨_, _, rfl, built, same⟩ <;> rw [same]
  · exact sorted
  · exact sorted.assume (assertable_mkOrder (Value.all_term.mp good) (wellSorted_int 0) built)

theorem readUnsigned (v : Variable) : (p.readUnsigned c v).Sorted :=
  (sorted.read c v).1.assumeUnsigned v.type (sorted.read c v).2

theorem seed (program : Program) (c : Contract) (f : Function) (entry : FnId) : (p.seed program c f entry).Sorted := by
  have all (vars : List Variable) : ∀ {p : Path}, p.Sorted → (vars.foldl (Path.readUnsigned c) p).Sorted := by
    induction vars with
    | nil => exact fun sorted => sorted
    | cons v rest ih => exact fun sorted => ih (sorted.readUnsigned c v)
  exact ((((all _ sorted).read c _).1).read c _).1.readUnsigned c _

end

end Sorted

end Path

namespace Machine

open Upkeep

variable {M : Machine} {p : Path}

theorem upkeep_sorted : Upkeep M Path.Sorted Term.WellSorted Term.Assertable (fun _ => True) fun _ => True where
  terms := termsClosed_sorted
  pinned _ value built := assertable_mkEq (wellSorted_fact _) value built
  value sorted bound := sorted.bindings bound
  assume sorted assertable := sorted.assume assertable
  bind sorted _ good := sorted.bind good
  redefine sorted _ := sorted.redefine _
  read sorted _ := sorted.read M.contract _
  sender := trivial
  depend _ _ sorted := sorted.of_terms rfl
  mark operand sorted _ := by
    refine marked_of (fun p v sorted => ?_) operand sorted
    have noted : ({ p with usedInCheck := p.usedInCheck ++ [v] } : Path).Sorted := sorted.of_terms rfl
    unfold Path.markUsed
    split
    · exact noted.assumeFact rfl
    · exact sorted
  noteWrite {p i name _} sorted _ count _ := by
    have noted : ({ p with varsWritten := p.varsWritten.insert i } : Path).Sorted := sorted.of_terms rfl
    have asserted := noted.assumeFact (f := .written name) rfl
    unfold Path.noteWrite
    dsimp only
    split
    · split
      · exact sorted.of_terms rfl
      · exact asserted.of_terms rfl
    · split
      · exact sorted
      · exact asserted
  noteEmission {p i name _} sorted _ _ := by
    have noted : ({ p with eventsEmitted := p.eventsEmitted.insert i } : Path).Sorted := sorted.of_terms rfl
    unfold noteEmission
    split
    · exact sorted.of_terms rfl
    · exact (noted.assumeFact rfl).of_terms rfl
  defer sorted assertable _ := by
    refine ⟨sorted.constraints, sorted.required, ?_, sorted.buggy, sorted.bindings, sorted.returned, sorted.links⟩
    exact forall_mem_append.mpr ⟨sorted.deferred, forall_mem_singleton.mpr assertable⟩
  root _ _ sorted _ := sorted.of_terms rfl
  result slot sorted good _ := by
    refine ⟨sorted.constraints, sorted.required, sorted.deferred, sorted.buggy, sorted.bindings, ?_, sorted.links⟩
    intro other same
    cases same
    exact good

theorem noteCall_sorted (sorted : p.Sorted) (receiver name : String) : (noteCall p receiver name).2.Sorted := by
  have called := sorted.assumeFact (f := .called receiver name) rfl
  unfold noteCall
  dsimp only
  split
  · refine Path.Sorted.assumeFact ?_ rfl
    exact called.of_terms rfl
  · exact called.of_terms rfl

theorem relinks_sorted (target base : VarId) :
    Relinks Path.Sorted (fun _ => Path.Sorted) Term.WellSorted target base where
  link sorted array_sorted key_sorted := by
    refine ⟨sorted.constraints, sorted.required, sorted.deferred, sorted.buggy, sorted.bindings, sorted.returned,
      fun {v link} found => ?_⟩
    rcases Table.of_get?_insert found with rfl | earlier
    · exact ⟨array_sorted, key_sorted⟩
    · exact sorted.links earlier
  unlink sorted :=
    ⟨sorted.constraints, sorted.required, sorted.deferred, sorted.buggy, sorted.bindings, sorted.returned,
    fun found => sorted.links (Table.of_get?_erase found)⟩
  keys sorted found := (sorted.links found).2

theorem hosts_sorted : Hosts M Path.Sorted Term.WellSorted (fun _ => True) fun _ => True where
  leaves := ⟨fun _ sorted => sorted.of_terms rfl, fun sorted _ => sorted.of_terms rfl⟩
  count sorted := sorted.of_terms rfl
  declares _ _ _ := trivial
  admits _ _ _ _ :=
    { seen := fun _ _ => trivial
      free := fun _ _ => trivial
      linked := fun _ _ _ _ sorted _ found => ⟨trivial, sorted.links found⟩
      awaits := fun _ _ _ _ _ _ _ _ _ => trivial
      relinks := fun target base _ _ => relinks_sorted target.id base.id
      notes := fun _ _ _ _ _ _ receiver sorted => noteCall_sorted sorted receiver _
      enters := fun _ _ _ _ =>
        ⟨⟨fun sorted => sorted.of_terms rfl, fun sorted => sorted.of_terms rfl⟩, fun _ _ _ => trivial⟩ }

theorem step_sorted : Keeps Path.Sorted (FairWays Term.Assertable) M.step := upkeep_sorted.keeps_step hosts_sorted

theorem performedIn_sorted (sorted : p.Sorted) {d : Performed} (performed : d ∈ M.performedIn p) :
    d.before.Sorted ∧ d.after.Sorted := by
  obtain ⟨before, id, f, n, known, listed, among⟩ := performedIn_keeps upkeep_sorted hosts_sorted sorted d performed
  obtain ⟨loc, f', n', u, q, _, _, _, _, performs⟩ := performedIn_cases performed
  obtain ⟨_, at_loc, result, runs⟩ := performedFrom_runs performs
  have admits := (hosts_sorted).admits ⟨id, known⟩ listed among at_loc
  exact ⟨before, ((upkeep_sorted.keeps_exec admits).ends before runs).1⟩

end Machine

end TokenAudit
