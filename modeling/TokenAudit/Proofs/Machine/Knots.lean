import TokenAudit.Proofs.Machine.Passages
import TokenAudit.Proofs.Machine.Rebinding
import TokenAudit.Proofs.Machine.References
import TokenAudit.Proofs.Machine.Tally

/-!
# Knots in the links

A write through a reference and an index both follow the links of the path, from a variable to its base, up to a
variable without a link.
-/

namespace TokenAudit

open List

open Machine

def Path.Grounded (p : Path) : Prop := ∀ v, ∃ root up, Reaches p.links root v up

/-- The instruction linked its target to a base from which the links led to the target. -/
def Performed.Ties (d : Performed) : Prop :=
  ∃ target base key link, d.instruction = .index target base key ∧ d.after.links.get? target.id = some link ∧
    link.base = base.id ∧ Leads d.before.links base.id target.id

namespace Machine

section

variable {links links' : Table VarId IndexLink} {link : IndexLink} {root t v w : VarId} {up : List IndexLink}

theorem Reaches.leads (reaches : Reaches links root v up) (leads : Leads links v w) :
    ∃ up', Reaches links root w up' ∧ up'.length ≤ up.length := by
  induction leads with
  | refl => exact ⟨up, reaches, Nat.le_refl _⟩
  | tail _ next ih =>
    obtain ⟨_, reaches', shorter⟩ := ih
    obtain ⟨link, linked, rfl⟩ := next
    cases reaches' with
    | root free =>
      rw [free] at linked
      cases linked
    | step linked' above =>
      cases linked.symm.trans linked'
      exact ⟨_, above, Nat.le_of_succ_le shorter⟩

theorem Reaches.not_back (reaches : Reaches links root t up) (linked : links.get? t = some link) :
    ¬ Leads links link.base t := by
  intro back
  cases reaches with
  | root free =>
    rw [free] at linked
    cases linked
  | step linked' above =>
    cases linked.symm.trans linked'
    obtain ⟨up', again, shorter⟩ := above.leads back
    rw [again.unique (.step linked above), length_cons] at shorter
    omega

section

variable (same : ∀ v, v ≠ t → links'.get? v = links.get? v)

include same

theorem Leads.relinked (leads : Leads links v t) : Leads links' v t := by
  induction leads using Relation.ReflTransGen.head_induction_on with
  | refl => exact .refl
  | @head v _ next _ ih =>
    by_cases here : v = t
    · rw [here]
      exact .refl
    · obtain ⟨link, linked, base⟩ := next
      exact .head ⟨link, (same v here).trans linked, base⟩ ih

theorem Leads.of_relinked (leads : Leads links' v w) (apart : ¬ Leads links v t) : Leads links v w := by
  induction leads with
  | refl => exact .refl
  | tail _ next ih =>
    obtain ⟨link, linked, base⟩ := next
    exact ih.tail ⟨link, (same _ fun here => apart (here ▸ ih)).symm.trans linked, base⟩

theorem Reaches.relinked (reaches : Reaches links root v up)
    (apart : ¬ Leads links v t) : Reaches links' root v up := by
  induction reaches with
  | root free => exact .root ((same root fun here => apart (here ▸ .refl)).trans free)
  | @step v link up linked above ih =>
    refine .step ((same v fun here => apart (here ▸ .refl)).trans linked) (ih fun back => apart ?_)
    exact .head ⟨link, linked, rfl⟩ back

theorem reaches_of_relinked (ends : ∀ v, ∃ root up, Reaches links root v up)
    (apart : ∀ link, links'.get? t = some link → ¬ Leads links link.base t) (v : VarId) :
    ∃ root up, Reaches links' root v up := by
  have atTarget : ∃ root up, Reaches links' root t up := by
    cases linked : links'.get? t with
    | none => exact ⟨t, [], .root linked⟩
    | some link =>
      obtain ⟨root, up, above⟩ := ends link.base
      exact ⟨root, link :: up, .step linked (above.relinked same (apart link linked))⟩
  obtain ⟨root, up, reaches⟩ := ends v
  induction reaches with
  | root free =>
    by_cases here : root = t
    · exact here ▸ atTarget
    · exact ⟨root, [], .root ((same root here).trans free)⟩
  | @step v link _ linked _ ih =>
    by_cases here : v = t
    · exact here ▸ atTarget
    · obtain ⟨root', up', above⟩ := ih
      exact ⟨root', link :: up', .step ((same v here).trans linked) above⟩

end

end

variable {M : Machine} {p q start : Path} {loc : Location} {i : Instruction} {d : Performed} {legs : List Leg}
  {instructions : List Instruction}

/-- Binds a variable and, along a chain of links, every variable behind it. -/
def writeUp : List IndexLink → VarId → Term → List Term → StepM (List Term)
  | [], v, value, keys => do
    modify (·.bind v (.term value))
    pure keys
  | link :: up, v, value, keys => do
    modify (·.bind v (.term value))
    let outer ← sorted (Term.mkStore link.baseValue link.key value)
    writeUp up link.base outer (link.key :: keys)

section

variable {root v : VarId} {up : List IndexLink} {fuel : Nat}

theorem writeBack_eq_writeUp {value : Term} {keys : List Term} (reaches : Reaches p.links root v up)
    (enough : up.length ≤ fuel) :
    outcome (writeBack fuel v value keys) p = outcome (writeUp up v value keys) p := by
  induction up generalizing fuel v value keys p with
  | nil =>
    cases reaches with
    | root free =>
      cases fuel with
      | zero => rfl
      | succ fuel =>
        have free : (p.bind root (.term value)).links.get? root = none := free
        rw [writeBack, outcome_modify_bind, outcome_get_bind, free]
        rfl
  | cons link up ih =>
    cases reaches with
    | step linked above =>
      cases fuel with
      | zero => cases enough
      | succ fuel =>
        have linked : (p.bind v (.term value)).links.get? v = some link := linked
        rw [writeBack, outcome_modify_bind, outcome_get_bind, linked]
        cases built : Term.mkStore link.baseValue link.key value with
        | error e =>
          simp only [writeUp, built]
          rfl
        | ok outer =>
          simp only [writeUp, built]
          exact ih above (Nat.le_of_succ_le_succ enough)

end

/-- The links are as they were, except that the instruction may have linked `t`, its target, to its base. -/
def Relinked (links : Table VarId IndexLink) (t : VarId) (i : Instruction) (links' : Table VarId IndexLink) : Prop :=
  (∀ v, v ≠ t → links'.get? v = links.get? v) ∧
    ∀ link, links'.get? t = some link →
      links.get? t = some link ∨ ∃ target base key, i = .index target base key ∧ link.base = base.id

theorem exec_relinked (loc : Location) (p : Path) {t : VarId}
    (targeted : ∀ target base key, i = .index target base key → target.id = t) :
    Relinked p.links t i (outcome (M.exec loc i) p).2.links := by
  have admits : Upkeep.Admits M (fun q => Relinked p.links t i q.links) Any Any Any loc i := {
    seen := fun _ _ => trivial
    free := fun _ _ => trivial
    linked := fun _ _ _ _ _ _ _ => ⟨trivial, trivial, trivial⟩
    awaits := fun _ _ _ _ _ _ _ _ _ => trivial
    relinks := fun target base key indexes => by
      have here := targeted target base key indexes
      subst here
      refine ⟨fun inv _ _ => ⟨fun v apart => ?_, fun link linked => .inr ⟨target, base, key, indexes, ?_⟩⟩,
        fun inv => ⟨fun v apart => ?_, fun link linked => ?_⟩, fun _ _ => trivial⟩
      · rw [Table.get?_insert, if_neg apart.symm, inv.1 v apart]
      · rw [Table.get?_insert, if_pos rfl] at linked
        cases linked
        rfl
      · rw [Table.get?_erase, if_neg apart.symm, inv.1 v apart]
      · rw [Table.get?_erase, if_pos rfl] at linked
        cases linked
    notes := fun _ callee _ _ _ q receiver inv => by
      obtain ⟨log, noted⟩ := Path.noteCall_log q receiver callee.name
      rw [noted]
      exact inv
    enters := fun _ _ _ _ => ⟨⟨fun inv => inv, fun inv => inv⟩, fun _ _ _ => trivial⟩ }
  have upkeep := upkeep_standing (M := M) fun standing => Relinked p.links t i standing.links
  exact (upkeep.keeps_exec admits ⟨fun _ _ => rfl, fun _ => .inl⟩).1

/-- After an instruction, succeed or fail, the links still come to an end unless it tied a knot. -/
theorem exec_grounded_iff (loc : Location) (i : Instruction) (grounded : p.Grounded) :
    (outcome (M.exec loc i) p).2.Grounded ↔ ¬ Performed.Ties ⟨p, i, (outcome (M.exec loc i) p).2⟩ := by
  constructor
  · rintro grounded' ⟨target, base, key, link, rfl, linked, based, back⟩
    obtain ⟨same, -⟩ := exec_relinked (i := .index target base key) loc p fun _ _ _ same => by
      cases same
      rfl
    obtain ⟨root, up, reaches⟩ := grounded' target.id
    exact reaches.not_back linked (based ▸ back.relinked same)
  · intro untied
    obtain ⟨t, targeted⟩ : ∃ t, ∀ target base key, i = .index target base key → target.id = t := by
      cases i with
      | index target base key =>
        refine ⟨target.id, fun _ _ _ same => ?_⟩
        cases same
        rfl
      | _ => exact ⟨Variable.sender.id, fun _ _ _ impossible => nomatch impossible⟩
    obtain ⟨same, fresh⟩ := exec_relinked loc p targeted
    refine reaches_of_relinked same grounded fun link linked back => ?_
    rcases fresh link linked with old | ⟨target, base, key, rfl, based⟩
    · obtain ⟨root, up, reaches⟩ := grounded t
      exact reaches.not_back old back
    · have here := targeted target base key rfl
      subst here
      exact untied ⟨target, base, key, link, rfl, linked, based, based ▸ back⟩

/-- The instructions that are tried in turn: those that are performed, and one that fails. -/
def triedFrom (M : Machine) : Location → List Instruction → Path → List Performed
  | _, [], _ => []
  | loc, i :: rest, p =>
    ⟨p, i, (outcome (M.exec loc i) p).2⟩ ::
      match outcome (M.exec loc i) p with
      | (.ok none, q) => M.triedFrom loc.next rest q
      | _ => []

def triedIn (M : Machine) (p : Path) : List Performed :=
  match p.location with
  | none => []
  | some loc =>
    match (M.program.function? loc.function).bind (·.node? loc.node) with
    | none => []
    | some n =>
      if n.kind == .throw then []
      else
        match outcome (declareAt n loc.offset) (counted p) with
        | (.ok _, q) => M.triedFrom loc (n.instructions.drop loc.offset) q
        | _ => []

def triedOn (M : Machine) (legs : List Leg) : List Performed := legs.flatMap fun leg => M.triedIn leg.before

theorem triedFrom_runs (tried : d ∈ M.triedFrom loc instructions p) :
    ∃ loc', d.after = (outcome (M.exec loc' d.instruction) d.before).2 := by
  induction instructions generalizing loc p with
  | nil => cases tried
  | cons i rest ih =>
    rcases mem_cons.mp tried with rfl | later
    · exact ⟨loc, rfl⟩
    · split at later
      · exact ih later
      · cases later

theorem triedIn_runs (tried : d ∈ M.triedIn p) : ∃ loc, d.after = (outcome (M.exec loc d.instruction) d.before).2 := by
  unfold triedIn at tried
  repeat' split at tried
  all_goals first | exact triedFrom_runs tried | cases tried

theorem execAll_grounded (grounded : p.Grounded) (untied : ∀ d ∈ M.triedFrom loc instructions p, ¬ d.Ties) :
    (outcome (M.execAll loc instructions) p).2.Grounded ∧
      ∀ d ∈ M.triedFrom loc instructions p, d.before.Grounded ∧ d.after.Grounded := by
  induction instructions generalizing loc p with
  | nil => exact ⟨grounded, forall_mem_nil _⟩
  | cons i rest ih =>
    obtain ⟨first, later⟩ := forall_mem_cons.mp untied
    have after := (exec_grounded_iff loc i grounded).mpr first
    rw [execAll, outcome_bind, triedFrom, forall_mem_cons]
    rcases ran : outcome (M.exec loc i) p with ⟨result, q⟩
    rw [ran] at after later
    obtain e | _ | ways := result
    · exact ⟨after, ⟨grounded, after⟩, forall_mem_nil _⟩
    · obtain ⟨whole, each⟩ := ih after later
      exact ⟨whole, ⟨grounded, after⟩, each⟩
    · exact ⟨after, ⟨grounded, after⟩, forall_mem_nil _⟩

theorem step_grounded (grounded : p.Grounded) (untied : ∀ d ∈ M.triedIn p, ¬ d.Ties) :
    (M.stepOn p).2.Grounded ∧ ∀ d ∈ M.triedIn p, d.before.Grounded ∧ d.after.Grounded := by
  have upkeep := upkeep_standing (M := M) fun standing => ∀ v, ∃ root up, Reaches standing.links root v up
  show (outcome M.step p).2.Grounded ∧ _
  unfold step triedIn at *
  rw [outcome_get_bind]
  cases located : p.location with
  | none => exact ⟨grounded, forall_mem_nil _⟩
  | some loc =>
    simp only [located] at untied ⊢
    cases known : M.program.function? loc.function with
    | none => exact ⟨grounded, forall_mem_nil _⟩
    | some f =>
      simp only [known, Option.bind_some] at untied ⊢
      cases found : f.node? loc.node with
      | none => exact ⟨grounded, forall_mem_nil _⟩
      | some n =>
        simp only [found] at untied ⊢
        by_cases throws : n.kind = .throw
        · rw [runNode_throws throws, if_pos (by simpa using throws)]
          exact ⟨grounded, forall_mem_nil _⟩
        · rw [if_neg (by simpa using throws)] at untied ⊢
          rw [runNode_outcome throws, body, bind_assoc, outcome_bind]
          have opens : Keeps Path.Grounded Any (declareAt n loc.offset) :=
            upkeep.operates.declared fun _ _ _ _ => trivial
          have opened := (opens (w := counted p) grounded).1
          generalize outcome (declareAt n loc.offset) (counted p) = ran at opened untied ⊢
          obtain ⟨_ | u, o⟩ := ran
          · exact ⟨opened, forall_mem_nil _⟩
          · obtain ⟨whole, each⟩ := execAll_grounded opened untied
            refine ⟨?_, each⟩
            have leaves : Keeps Path.Grounded _ (M.leave loc.function f n) :=
              upkeep.operates.leave trivial ⟨fun _ inv => inv, fun inv _ => inv⟩ _ _ _
            dsimp only
            rw [outcome_bind]
            generalize outcome (M.execAll loc (n.instructions.drop loc.offset)) o = ran at whole ⊢
            obtain ⟨_ | _ | ways, s⟩ := ran
            · exact whole
            · exact (leaves whole).1
            · exact whole

theorem go_grounded (grounded : p.Grounded) (way : Successor) : (p.go way).Grounded := by
  rw [Path.go_eq]
  exact grounded

theorem Route.grounded (fresh : start.links = .empty) (route : M.Route start legs p)
    (untied : ∀ d ∈ M.triedOn legs, ¬ d.Ties) :
    p.Grounded ∧ ∀ d ∈ M.triedOn legs, d.before.Grounded ∧ d.after.Grounded := by
  induction route with
  | here => exact ⟨fun v => ⟨v, [], .root (by rw [fresh]; rfl)⟩, fun _ none => nomatch none⟩
  | copied _ id ih => exact ih untied
  | @stopped legs p q _ _ steps ih =>
    simp only [triedOn, flatMap_append, flatMap_singleton, forall_mem_append] at untied ⊢
    obtain ⟨grounded, each⟩ := ih untied.1
    obtain ⟨grounded', each'⟩ := step_grounded grounded untied.2
    rw [steps] at grounded'
    exact ⟨grounded', each, each'⟩
  | @took legs p q _ way _ steps _ ih =>
    simp only [triedOn, flatMap_append, flatMap_singleton, forall_mem_append] at untied ⊢
    obtain ⟨grounded, each⟩ := ih untied.1
    obtain ⟨grounded', each'⟩ := step_grounded grounded untied.2
    rw [steps] at grounded'
    exact ⟨go_grounded grounded' way, each, each'⟩

end Machine

/-- From every variable the links lead up to one without a link, and the keys that are collected and the values that
are written back on the way are those of the whole chain, whatever the bound of the walk above the number of links. -/
def Path.WalksEnd (p : Path) : Prop :=
  ∀ v, ∃ root up, Reaches p.links root v up ∧ ∀ fuel, p.links.entries.length ≤ fuel →
    linkKeys p.links fuel v = some (up.map IndexLink.key) ∧
      ∀ value keys, outcome (writeBack fuel v value keys) p = outcome (writeUp up v value keys) p

theorem Path.walksEnd_iff {p : Path} : p.WalksEnd ↔ p.Grounded := by
  refine forall_congr' fun v => ⟨fun ⟨root, up, reaches, _⟩ => ⟨root, up, reaches⟩, ?_⟩
  rintro ⟨root, up, reaches⟩
  refine ⟨root, up, reaches, fun fuel enough => ?_⟩
  have enough := Nat.le_trans reaches.length_le enough
  exact ⟨reaches.linkKeys enough, fun value keys => writeBack_eq_writeUp reaches enough⟩

/-- The walks along the links end before and after every instruction of a run exactly as long as no index links
its target to a base from which the links lead back to it. -/
theorem Machine.walks_end_iff_untied {M : Machine} {start p : Path} {legs : List Leg} (fresh : start.links = .empty)
    (route : M.Route start legs p) :
    ((∀ d ∈ M.triedOn legs, d.before.WalksEnd ∧ d.after.WalksEnd) ↔ ∀ d ∈ M.triedOn legs, ¬ d.Ties) ∧
      ((∀ d ∈ M.triedOn legs, ¬ d.Ties) → p.WalksEnd) := by
  simp only [Path.walksEnd_iff]
  refine ⟨⟨fun grounded d tried => ?_, fun untied => (route.grounded fresh untied).2⟩,
    fun untied => (route.grounded fresh untied).1⟩
  obtain ⟨leg, _, tried'⟩ := mem_flatMap.mp tried
  obtain ⟨loc, after⟩ := triedIn_runs tried'
  obtain ⟨before, grounded⟩ := grounded d tried
  rw [after, exec_grounded_iff loc _ before, ← after] at grounded
  exact grounded

def rows : Variable := ⟨"rows", .localIn "f", .array (.array .uint256 none) none⟩

def row : Variable := ⟨"row", .localIn "f", .array .uint256 none⟩

def cell : Variable := ⟨"cell", .localIn "f", .uint256⟩

def straight (instructions : List Instruction) : Machine where
  program := ⟨[{ functions := [{
    name := "f", nodes := [{ instructions := instructions }] }] }]⟩
  contract := default
  contractId := 0
  tracking := {}
  config := {}

def descent : Machine :=
  straight [.index row rows (.const (.int 1)), .index cell row (.const (.int 2)), .assignment cell (.const (.int 3))]

def straightStart : Path := .start 0 ⟨0, 0⟩ 0 "f"

theorem descent_walks_end : straightStart.links = .empty ∧
    ∃ legs p, descent.Route straightStart legs p ∧ p.links.entries.length = 2 ∧ p.WalksEnd := by
  have route : descent.Route straightStart _ _ := .stopped .here rfl
  refine ⟨rfl, _, _, route, rfl, (Machine.walks_end_iff_untied rfl route).2 ?_⟩
  refine forall_mem_cons.mpr ⟨?_, forall_mem_cons.mpr ⟨?_, forall_mem_cons.mpr ⟨?_, ?_⟩⟩⟩
  · rintro ⟨target, base, key, link, ⟨⟩, linked, based, leads⟩
    obtain same | ⟨_, ⟨_, ⟨⟩, _⟩, _⟩ := leads.cases_head
    exact absurd same (by decide)
  · rintro ⟨target, base, key, link, ⟨⟩, linked, based, leads⟩
    obtain same | ⟨_, ⟨_, ⟨⟩, rfl⟩, leads⟩ := leads.cases_head
    · exact absurd same (by decide)
    · obtain same | ⟨_, ⟨_, ⟨⟩, _⟩, _⟩ := leads.cases_head
      exact absurd same (by decide)
  · rintro ⟨target, base, key, link, ⟨⟩, _⟩
  · exact fun _ none => nomatch none

def grid : Variable := ⟨"grid", .state, .array (.array .uint256 none) none⟩

/-- An array that is indexed into itself is its own base: its links have no end.  Where the array is a state variable,
the index walks them, and no bound on the walk is enough. -/
theorem knot_walk_never_ends :
    (straight [.index rows rows (.const (.int 0))]).program.fault? = none ∧
      (∃ legs p, (straight [.index rows rows (.const (.int 0))]).Route straightStart legs p ∧ ¬ p.Grounded) ∧
    (straight [.index grid grid (.const (.int 0))]).program.fault? = none ∧
      ∃ p, (straight [.index grid grid (.const (.int 0))]).stepOn straightStart = (.error .endless, p) ∧
        ∀ fuel, linkKeys p.links fuel grid.id = none := by
  have knotted {links : Table VarId IndexLink} {v : VarId} (own : (links.get? v).map (·.base) = some v) :
      ¬ ∃ root up, Reaches links root v up := by
    rintro ⟨root, up, reaches⟩
    obtain ⟨link, linked, base⟩ := Option.map_eq_some_iff.mp own
    exact reaches.not_back linked (base ▸ .refl)
  have route : (straight [.index rows rows (.const (.int 0))]).Route straightStart _ _ := .stopped .here rfl
  refine ⟨rfl, ⟨_, _, route, fun grounded => knotted (by rfl) (grounded rows.id)⟩, rfl, _, rfl, fun fuel => ?_⟩
  exact Option.eq_none_iff_forall_ne_some.mpr fun keys walked => knotted (by rfl) (reaches_of_linkKeys walked)

end TokenAudit
