import TokenAudit.Proofs.Machine.Steps

/-!
# The functions a walk enters

The machine looks a call up in the contract it runs, wherever the instruction stands; the analysis of a program looks
it up in the contract of the function that holds it.
-/

namespace TokenAudit

open List

structure Call where
  caller : FnId
  instruction : Instruction
  callee : FnId

namespace Machine

variable {M : Machine} {loc : Location} {p q : Path} {c : Call} {known : List FnId} {way : Successor}

/-- The calls made when instructions are run from `loc` on, the one that enters a function included. -/
def callsFrom (M : Machine) : Location → List Instruction → Path → List Call
  | _, [], _ => []
  | loc, i :: rest, p =>
    let here := (M.callee? i).toList.map (Call.mk loc.function i)
    match (M.exec loc i).run p with
    | (.ok none, q) => here ++ M.callsFrom loc.next rest q
    | _ => here

def callsAt (M : Machine) (loc : Location) (n : Node) (p : Path) : List Call :=
  if n.kind == .throw then []
  else
    match (declareAt n loc.offset).run (counted p) with
    | (.ok _, q) => M.callsFrom loc (n.instructions.drop loc.offset) q
    | _ => []

def running? (M : Machine) (p : Path) : Option Function :=
  p.location.bind fun loc => M.program.function? loc.function

def callsIn (M : Machine) (p : Path) : List Call :=
  match p.location with
  | none => []
  | some loc =>
    match (M.program.function? loc.function).bind (·.node? loc.node) with
    | none => []
    | some n => M.callsAt loc n p

def callsOn (M : Machine) (beyond : Bool) (n : Nat) (choices : List Nat) (p : Path) : List Call :=
  (M.walk beyond n choices p).1.flatMap fun s => M.callsIn s.before

/-- An internal call of a function that is not of the contract that the machine runs. -/
def Astray (M : Machine) (c : Call) : Prop :=
  c.caller.contract ≠ M.contractId ∧ ∃ name arguments target, c.instruction = .internalCall name arguments target

theorem callsFrom_origin {instructions : List Instruction} (called : c ∈ M.callsFrom loc instructions p) :
    c.caller = loc.function ∧ c.instruction ∈ instructions ∧ M.callee? c.instruction = some c.callee := by
  induction instructions generalizing loc p with
  | nil => cases called
  | cons i rest ih =>
    have here : c ∈ (M.callee? i).toList.map (Call.mk loc.function i) →
        c.caller = loc.function ∧ c.instruction ∈ i :: rest ∧ M.callee? c.instruction = some c.callee := by
      intro among
      obtain ⟨callee, resolved, rfl⟩ := mem_map.mp among
      exact ⟨rfl, mem_cons_self .., Option.mem_toList.mp resolved⟩
    rw [callsFrom] at called
    split at called
    · rcases mem_append.mp called with among | later
      · exact here among
      · obtain ⟨caller, among, resolved⟩ := ih later
        exact ⟨caller, mem_cons_of_mem _ among, resolved⟩
    · exact here called

theorem mem_callsFrom {before : List Instruction} {i : Instruction} {callee : FnId} (rest : List Instruction)
    (passes : Runs (M.execAll loc before) p none q) (calls : M.callee? i = some callee) :
    ⟨loc.function, i, callee⟩ ∈ M.callsFrom loc (before ++ i :: rest) p := by
  induction before generalizing loc p with
  | nil =>
    have here : ⟨loc.function, i, callee⟩ ∈ (M.callee? i).toList.map (Call.mk loc.function i) := by
      rw [calls]
      exact mem_singleton.mpr rfl
    rw [nil_append, callsFrom]
    split
    · exact mem_append_left _ here
    · exact here
  | cons j before ih =>
    obtain ⟨result, r, executes, passes⟩ := passes.of_bind
    cases result with
    | some ways => cases (runs_pure.mp passes).1
    | none =>
      have executes : (M.exec loc j).run p = (.ok none, r) := executes
      rw [cons_append, callsFrom, executes]
      exact mem_append_right _ (ih passes)

theorem mem_callsIn {f : Function} {n : Node} {u : Unit} (located : p.location = some loc)
    (known : M.program.function? loc.function = some f) (found : f.node? loc.node = some n) (passable : n.kind ≠ .throw)
    (declares : Runs (declareAt n loc.offset) (counted p) u q)
    (called : c ∈ M.callsFrom loc (n.instructions.drop loc.offset) q) : c ∈ M.callsIn p := by
  have declares : (declareAt n loc.offset).run (counted p) = (.ok u, q) := declares
  unfold callsIn
  rw [located]
  dsimp only
  rw [known, Option.bind_some, found]
  dsimp only
  unfold callsAt
  rw [if_neg (by simpa using passable), declares]
  exact called

theorem callsIn_origin (called : c ∈ M.callsIn p) :
    ∃ loc f, p.location = some loc ∧ M.program.function? loc.function = some f ∧ c.caller = loc.function ∧
      c.instruction ∈ f.instructions ∧ M.callee? c.instruction = some c.callee := by
  unfold callsIn at called
  split at called
  · cases called
  · rename_i loc located
    split at called
    · cases called
    · rename_i n found
      obtain ⟨f, known, found⟩ := Option.bind_eq_some_iff.mp found
      unfold callsAt at called
      split at called
      · cases called
      · split at called
        · obtain ⟨caller, among, resolved⟩ := callsFrom_origin called
          refine ⟨loc, f, located, known, caller, ?_, resolved⟩
          exact mem_flatMap.mpr ⟨n, mem_of_getElem? found, mem_of_mem_drop among⟩
        · cases called

/-- The path stands in a function of `known`, and so does everything it still returns to. -/
structure Within (known : List FnId) (p : Path) : Prop where
  located : ∀ loc, p.location = some loc → loc.function ∈ known
  pending : ∀ frame ∈ p.stack, frame.returnTo.function ∈ known

theorem Changes.stack {K : Part → Prop} (changes : Changes K p q) : q.stack = p.stack := by
  induction changes with
  | refl => rfl
  | tail _ last ih =>
    rw [← ih]
    cases last <;> rfl

theorem within_go (leads : ∀ loc, way.next? = some loc → loc.function ∈ known)
    (pending : ∀ frame ∈ p.stack, frame.returnTo.function ∈ known) : Within known (p.go way) := by
  refine ⟨leads, ?_⟩
  rw [Path.go_eq]
  exact pending

theorem step_within {ways : List Successor} (within : Within known p) (runs : Runs M.step p ways q) (among : way ∈ ways)
    (calls : ∀ c ∈ M.callsIn p, c.callee ∈ known) : Within known (q.go way) := by
  obtain ⟨loc, f, n, located, found, node, runs⟩ := step_cases runs
  have here : loc.function ∈ known := within.located loc located
  rcases runNode_cases runs with ⟨_, rfl, rfl⟩ | ⟨u, r, passable, declares, ends⟩
  · rw [mem_singleton.mp among]
    exact within_go (fun _ none => nomatch none) within.pending
  have before : r.stack = p.stack := (declareAt_changes (K := fun _ => False) M _ _ declares).stack
  rcases ends with executes | ⟨s, executes, left⟩
  · obtain ⟨passed, i, rest, s, split, passes, executed⟩ := execAll_ends executes
    have before : s.stack = p.stack := (execAll_changes passes).stack.trans before
    cases executed with
    | checked cond changes =>
      refine within_go ?_ (changes.stack.trans before ▸ within.pending)
      rcases mem_cons.mp among with rfl | among
      · rintro _ ⟨⟩
        exact here
      · rw [mem_singleton.mp among]
        exact fun _ none => nomatch none
    | reverted changes =>
      rw [mem_singleton.mp among]
      exact within_go (fun _ none => nomatch none) (changes.stack.trans before ▸ within.pending)
    | @entered q callee g target resolved entered changes =>
      rw [mem_singleton.mp among]
      refine within_go ?_ ?_
      · rintro _ ⟨⟩
        have listed := mem_callsFrom rest passes resolved
        rw [← split] at listed
        exact calls _ (mem_callsIn located found node passable declares listed)
      · intro frame member
        rcases mem_cons.mp member with rfl | old
        · exact here
        · exact within.pending frame (before ▸ changes.stack ▸ old)
  · have before : s.stack = p.stack := (execAll_changes executes).stack.trans before
    cases left with
    | forked cond whenTrue whenFalse counts changes =>
      refine within_go ?_ (changes.stack.trans before ▸ within.pending)
      rcases mem_append.mp among with among | among
      · obtain ⟨_, _, rfl⟩ := mem_map.mp among
        rintro _ ⟨⟩
        exact here
      · obtain ⟨_, _, rfl⟩ := mem_map.mp among
        rintro _ ⟨⟩
        exact here
    | fannedOut _ _ =>
      obtain ⟨_, _, rfl⟩ := mem_map.mp among
      refine within_go ?_ (before ▸ within.pending)
      rintro _ ⟨⟩
      exact here
    | passedOn son =>
      rw [mem_singleton.mp among]
      refine within_go ?_ (before ▸ within.pending)
      rintro _ ⟨⟩
      exact here
    | @returned frame rest stack =>
      rw [before] at stack
      rw [mem_singleton.mp among]
      refine within_go ?_ fun other member => within.pending other (stack ▸ mem_cons_of_mem _ member)
      rintro _ ⟨⟩
      exact within.pending frame (stack ▸ mem_cons_self ..)
    | finished =>
      rw [mem_singleton.mp among]
      exact within_go (fun _ none => nomatch none) (before ▸ within.pending)

theorem mem_callees (called : c ∈ M.callsIn p) (resolved : ¬ M.Astray c) : c.callee ∈ M.program.callees c.caller := by
  obtain ⟨loc, f, _, known, caller, among, calls⟩ := callsIn_origin called
  refine mem_filterMap.mpr ⟨c.instruction, ?_, ?_⟩
  · rw [Program.instructionsOf, caller, known]
    exact among
  · by_cases home : c.caller.contract = M.contractId
    · rw [home]
      exact calls
    · cases kind : c.instruction with
      | internalCall name arguments target => exact absurd ⟨home, name, arguments, target, kind⟩ resolved
      | libraryCall library name arguments target =>
        rw [kind] at calls
        exact calls
      | _ =>
        rw [kind] at calls
        cases calls

theorem calls_known (closed : ∀ caller ∈ known, ∀ id ∈ M.program.callees caller, id ∈ known) (within : Within known p)
    (astray : ∀ c ∈ M.callsIn p, c.caller ∈ known → M.Astray c → c.callee ∈ known) :
    ∀ c ∈ M.callsIn p, c.callee ∈ known := by
  intro c called
  obtain ⟨loc, _, located, _, caller, _⟩ := callsIn_origin called
  have from_known : c.caller ∈ known := caller ▸ within.located loc located
  by_cases resolved : M.Astray c
  · exact astray c called from_known resolved
  · exact closed c.caller from_known _ (mem_callees called resolved)

theorem walk_succ (beyond : Bool) (n : Nat) (choices : List Nat) (p : Path) :
    ∃ stride : Stride, stride.before = p ∧
      ((M.walk beyond (n + 1) choices p).1 = [stride] ∨
        ∃ ways q way, Runs M.step p ways q ∧ way ∈ ways ∧
          (M.walk beyond (n + 1) choices p).1 = stride :: (M.walk beyond n choices.tail (q.go way)).1) := by
  rw [walk]
  cases steps : M.stepOn p with
  | mk result q =>
    refine ⟨⟨p, q, result⟩, rfl, ?_⟩
    cases result with
    | error e => exact .inl rfl
    | ok ways =>
      dsimp only
      split
      · exact .inl rfl
      · rename_i way chosen
        split
        · exact .inl rfl
        · exact .inr ⟨ways, q, way, steps, mem_of_getElem? chosen, rfl⟩

theorem walk_within (closed : ∀ caller ∈ known, ∀ id ∈ M.program.callees caller, id ∈ known) (beyond : Bool) (n : Nat)
    (choices : List Nat) (within : Within known p)
    (astray : ∀ c ∈ M.callsOn beyond n choices p, c.caller ∈ known → M.Astray c → c.callee ∈ known) :
    (∀ c ∈ M.callsOn beyond n choices p, c.callee ∈ known) ∧
      ∀ s ∈ (M.walk beyond n choices p).1, Within known s.before := by
  induction n generalizing choices p with
  | zero => exact ⟨fun _ none => (nomatch none), fun _ none => (nomatch none)⟩
  | succ n ih =>
    unfold callsOn at astray ⊢
    obtain ⟨stride, rfl, strides | ⟨ways, q, way, runs, among, strides⟩⟩ := walk_succ beyond n choices p
    · rw [strides, flatMap_singleton] at astray ⊢
      refine ⟨calls_known closed within astray, fun s member => ?_⟩
      rw [mem_singleton.mp member]
      exact within
    · rw [strides] at astray ⊢
      have here := calls_known closed within fun c called => astray c (mem_append_left _ called)
      have later := ih choices.tail (step_within within runs among here)
        fun c called => astray c (mem_append_right _ called)
      refine ⟨fun c called => ?_, fun s member => ?_⟩
      · rcases mem_append.mp called with first | rest
        · exact here c first
        · exact later.1 c rest
      · rcases mem_cons.mp member with rfl | rest
        · exact within
        · exact later.2 s rest

/-- A walk from an entry function enters a function that the analysis does not know exactly when a call of a known
function goes astray and leads to such a function. -/
theorem enters_unknown_iff_astray {entry : FnId} {p : Path} (home : M.contractId = entry.contract)
    (located : ∀ loc, p.location = some loc → loc.function = entry) (idle : p.stack = []) (beyond : Bool)
    (n : Nat) (choices : List Nat) :
    ((∃ c ∈ M.callsOn beyond n choices p, c.callee ∉ M.program.reachable entry) ↔
        ∃ c ∈ M.callsOn beyond n choices p, c.caller ∈ M.program.reachable entry ∧
          c.caller.contract ≠ entry.contract ∧
          (∃ name arguments target, c.instruction = .internalCall name arguments target) ∧
          c.callee ∉ M.program.reachable entry) ∧
      ((∀ c ∈ M.callsOn beyond n choices p, c.callee ∈ M.program.reachable entry) →
        ∀ s ∈ (M.walk beyond n choices p).1, ∀ f, M.running? s.before = some f →
          M.program.Accounts entry f) := by
  obtain ⟨root, closed⟩ := M.program.reachable_closed entry
  have within : Within (M.program.reachable entry) p := by
    refine ⟨fun loc at_loc => ?_, ?_⟩
    · rw [located loc at_loc]
      exact root
    · rw [idle]
      exact fun _ none => nomatch none
  refine ⟨⟨?_, ?_⟩, ?_⟩
  · rintro ⟨c, called, unknown⟩
    by_contra none
    refine unknown ((walk_within closed beyond n choices within ?_).1 c called)
    intro d made from_known astray
    by_contra outside
    exact none ⟨d, made, from_known, home ▸ astray.1, astray.2, outside⟩
  · rintro ⟨c, called, _, _, _, unknown⟩
    exact ⟨c, called, unknown⟩
  · intro inside s member f running
    have stays := (walk_within closed beyond n choices within fun c called _ _ => inside c called).2 s member
    obtain ⟨loc, at_loc, known⟩ := Option.bind_eq_some_iff.mp running
    exact Program.accounts_of_reachable (stays.located loc at_loc) known

def straightLine (name : String) (instructions : List Instruction) : Function :=
  { name, nodes := [{ instructions }] }

def lending (inner : Instruction) : Program where
  contracts := [
    {
      name := "Token"
      functions := [
        straightLine "f" [.libraryCall "Lib" "g" [] none], straightLine "helper" [.eventCall "Taken" []]] },
    {
      name := "Lib"
      functions := [straightLine "g" [inner], straightLine "helper" [.eventCall "Lent" []]] }]

def lendingMachine (inner : Instruction) : Machine := ⟨lending inner, default, 0, default, default⟩

def chainMachine : Machine := lendingMachine (.libraryCall "Lib" "helper" [] none)

def strayMachine : Machine := lendingMachine (.internalCall "helper" [] none)

theorem library_chain_accounted :
    (chainMachine.callsOn false 5 [] (.start 0 ⟨0, 0⟩ 0 "f")).map Call.callee = [⟨1, 0⟩, ⟨1, 1⟩] ∧
      ∀ s ∈ (chainMachine.walk false 5 [] (.start 0 ⟨0, 0⟩ 0 "f")).1, ∀ f,
        chainMachine.running? s.before = some f → chainMachine.program.Accounts ⟨0, 0⟩ f := by
  refine ⟨by decide, (enters_unknown_iff_astray rfl ?_ rfl false 5 []).2 (by decide)⟩
  rintro _ ⟨⟩
  rfl

/-- The library calls its helper, the token's helper is entered, and the event of that one is not counted. -/
theorem astray_call_enters_unknown :
    strayMachine.program.fault? = none ∧
      (strayMachine.callsOn false 5 [] (.start 0 ⟨0, 0⟩ 0 "f")).map Call.callee = [⟨1, 0⟩, ⟨0, 1⟩] ∧
      strayMachine.program.reachable ⟨0, 0⟩ = [⟨0, 0⟩, ⟨1, 0⟩, ⟨1, 1⟩] ∧
      (strayMachine.program.eventsEmitted ⟨0, 0⟩).toList = ["Lent"] := by
  decide

end Machine

end TokenAudit
