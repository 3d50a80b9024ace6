import TokenAudit.Proofs.Machine.Changes
import TokenAudit.Proofs.Program.Names

/-!
# The symbols of different variables

Which names a path gives to parameters, to state and environment variables, and to all others.
-/

namespace TokenAudit

open List VarId TokenAudit.Path

def isLetter (c : Char) : Bool := c.isAlpha || c == '_' || c == '$'

def isIdentifier (name : String) : Bool :=
  match name.toList with
  | [] => false
  | c :: rest => isLetter c && rest.all fun d => isLetter d || d.isDigit

def environmentNames : List String := ["msg.sender", "msg.value", "this"]

/-- The variable and its function are named by identifiers; one of the call environment may have a name of its own. -/
def VarId.Spelled (v : VarId) : Prop :=
  (isIdentifier v.name = true ∨ v.scope = .builtin ∧ v.name ∈ environmentNames) ∧
    ∀ f ∈ v.scope.function?, isIdentifier f = true

instance (v : VarId) : Decidable v.Spelled :=
  inferInstanceAs (Decidable ((isIdentifier v.name = true ∨ v.scope = .builtin ∧ v.name ∈ environmentNames) ∧
    ∀ f ∈ v.scope.function?, isIdentifier f = true))

def marks : List Char := ['.', '!', '|', '\\']

variable {name : String}

theorem notMem_of_outside (identifier : isIdentifier name = true) {c : Char}
    (outside : isLetter c = false ∧ c.isDigit = false) : c ∉ name.toList := by
  unfold isIdentifier at identifier
  split at identifier
  · cases identifier
  · rename_i first rest spelled
    rw [spelled]
    intro among
    simp only [Bool.and_eq_true, all_eq_true, Bool.or_eq_true] at identifier
    rcases mem_cons.mp among with rfl | later
    · rw [outside.1] at identifier
      cases identifier.1
    · rcases identifier.2 c later with letter | digit
      · rw [outside.1] at letter
        cases letter
      · rw [outside.2] at digit
        cases digit

theorem notMem_of_identifier (identifier : isIdentifier name = true) {c : Char} (mark : c ∈ marks) :
    c ∉ name.toList := by
  refine notMem_of_outside identifier ?_
  simp only [marks, mem_cons, not_mem_nil, or_false] at mark
  rcases mark with rfl | rfl | rfl | rfl <;> decide

theorem notMem_toString {c : Char} (mark : c ∈ marks) (n : Nat) : c ∉ (toString n).toList := by
  intro digit
  have digit : c ∈ Nat.toDigits 10 n := by simpa using digit
  have isDigit := Nat.isDigit_of_mem_toDigits (by decide) (by decide) digit
  simp only [marks, mem_cons, not_mem_nil, or_false] at mark
  rcases mark with rfl | rfl | rfl | rfl <;> cases isDigit

inductive Origin where
  | place (index : Nat)
  | bare (name : String)
  | owned (function name : String)
  deriving DecidableEq

def Origin.text : Origin → String
  | .place index => "p" ++ toString index
  | .bare name => name
  | .owned function name => function ++ "." ++ name

def VarId.origin (entry : String) (v : VarId) : Origin :=
  match v.scope with
  | .param function index => if function = entry then .place index else .owned function v.name
  | .localIn function => .owned function v.name
  | .temporary function => .owned function v.name
  | .reference function => .owned function v.name
  | .state => .bare v.name
  | .builtin => .bare v.name

theorem Path.symbolBase_eq (p : Path) (v : VarId) : p.symbolBase v = (v.origin p.entryName).text := by
  unfold symbolBase origin
  cases scope : v.scope with
  | param function index =>
    dsimp only
    split <;> rfl
  | _ => rfl

namespace VarId

variable {entry : String} {v w : VarId}

theorem origin_place {i : Nat} : v.origin entry = .place i ↔ v.scope = .param entry i := by
  unfold origin
  cases v.scope with
  | param function index =>
    by_cases own : function = entry <;> simp [own]
  | _ => simp

theorem origin_bare : v.origin entry = .bare name ↔ v.scope.function? = none ∧ v.name = name := by
  unfold origin
  cases v.scope with
  | param function index =>
    by_cases own : function = entry <;> simp [own, Scope.function?]
  | _ => simp [Scope.function?]

theorem origin_owned {function : String} : v.origin entry = .owned function name ↔
    v.scope.function? = some function ∧ v.name = name ∧ ∀ i, v.scope ≠ .param entry i := by
  unfold origin
  cases v.scope with
  | param f index =>
    by_cases own : f = entry
    · simp [own]
    · simp [own, Scope.function?]
  | _ => simp [Scope.function?]

theorem Spelled.dotted (spelled : v.Spelled) (dot : '.' ∈ v.name.toList) :
    v.scope = .builtin ∧ v.name ∈ environmentNames :=
  spelled.1.resolve_left fun identifier => notMem_of_identifier identifier (by decide) dot

end VarId

/-- The ways in which two variables come to the same symbol when `entry` is the function under check. -/
inductive Clash (entry : String) : VarId → VarId → Prop
  | parameter (a b : String) (i : Nat) : Clash entry ⟨a, .param entry i⟩ ⟨b, .param entry i⟩
  /-- A state or environment variable named like a place among the parameters of the entry function. -/
  | place (a : String) (i : Nat) {w : VarId} (unowned : w.scope.function? = none) (named : w.name = "p" ++ toString i) :
      Clash entry ⟨a, .param entry i⟩ w
  | unowned {v w : VarId} (first : v.scope.function? = none) (second : w.scope.function? = none)
      (named : v.name = w.name) : Clash entry v w
  /-- Two variables of a function that differ in kind, or in the place if they are parameters. -/
  | owned {v w : VarId} {f : String} (first : v.scope.function? = some f) (second : w.scope.function? = some f)
      (inner : ∀ i, v.scope ≠ .param entry i) (inner' : ∀ i, w.scope ≠ .param entry i) (named : v.name = w.name) :
      Clash entry v w
  /-- An environment variable named like a variable of a function: `sender` in a function `msg`. -/
  | environment {v w : VarId} {f : String} (first : v.scope.function? = some f) (inner : ∀ i, v.scope ≠ .param entry i)
      (second : w.scope = .builtin) (named : w.name = f ++ "." ++ v.name) : Clash entry v w

def Clashing (entry : String) (v w : VarId) : Prop := Clash entry v w ∨ Clash entry w v

namespace VarId

variable {entry : String} {v w : VarId}

theorem Spelled.marks_notMem_text (spelled : v.Spelled) {c : Char} (mark : c ∈ marks) (undotted : c ≠ '.') :
    c ∉ (v.origin entry).text.toList := by
  have named : c ∉ v.name.toList := by
    rcases spelled.1 with identifier | ⟨_, listed⟩
    · exact notMem_of_identifier identifier mark
    · simp only [environmentNames, marks, mem_cons, not_mem_nil, or_false] at listed mark
      rcases listed with same | same | same <;> rw [same] <;>
        rcases mark with rfl | rfl | rfl | rfl <;> first | exact absurd rfl undotted | decide
  cases origin : v.origin entry with
  | place i =>
    have letter : c ≠ 'p' := by
      rintro rfl
      revert mark
      decide
    simpa [Origin.text, letter] using notMem_toString mark i
  | bare name =>
    obtain ⟨_, rfl⟩ := origin_bare.mp origin
    exact named
  | owned function name =>
    obtain ⟨owner, rfl, _⟩ := origin_owned.mp origin
    have owned := notMem_of_identifier (spelled.2 function owner) mark
    simp [Origin.text, named, owned, undotted]

theorem Spelled.cut (spelled : v.Spelled) (spelled' : w.Spelled) {f g a b : String}
    (owned : v.origin entry = .owned f a) (owned' : w.origin entry = .owned g b)
    (same : f ++ "." ++ a = g ++ "." ++ b) : f = g ∧ a = b := by
  obtain ⟨owner, rfl, _⟩ := origin_owned.mp owned
  obtain ⟨owner', rfl, _⟩ := origin_owned.mp owned'
  have undotted {u : VarId} (spelled : u.Spelled) {h : String} (owner : u.scope.function? = some h) :
      '.' ∉ u.name.toList := by
    intro dot
    rw [(spelled.dotted dot).1] at owner
    cases owner
  have cuts : f.toList ++ '.' :: v.name.toList = g.toList ++ '.' :: w.name.toList := by
    simpa using congrArg String.toList same
  obtain ⟨functions, names⟩ := Fact.cut_unique (undotted spelled owner) (undotted spelled' owner') cuts
  exact ⟨String.toList_injective functions, String.toList_injective names⟩

theorem text_place_ne_owned (i : Nat) (f a : String) : (Origin.place i).text ≠ (Origin.owned f a).text := by
  intro same
  have dot : '.' ∈ (Origin.place i).text.toList := by
    rw [same]
    simp [Origin.text]
  have digit : '.' ∈ (toString i).toList := by simpa [Origin.text] using dot
  exact notMem_toString (by decide) i digit

theorem clashing_of_text (spelled : v.Spelled) (spelled' : w.Spelled)
    (same : (v.origin entry).text = (w.origin entry).text) : Clashing entry v w := by
  obtain ⟨a, scope⟩ := v
  obtain ⟨b, scope'⟩ := w
  have environment {u u' : VarId} (spelled : u'.Spelled) {f c d : String} (owned : u.origin entry = .owned f c)
      (bare : u'.origin entry = .bare d) (same : f ++ "." ++ c = d) : Clash entry u u' := by
    obtain ⟨owner, rfl, inner⟩ := origin_owned.mp owned
    obtain ⟨_, rfl⟩ := origin_bare.mp bare
    have dot : '.' ∈ u'.name.toList := by
      rw [← same]
      simp
    exact .environment owner inner (spelled.dotted dot).1 same.symm
  cases origin : origin entry ⟨a, scope⟩ with
  | place i =>
    obtain rfl : scope = .param entry i := origin_place.mp origin
    cases origin' : VarId.origin entry ⟨b, scope'⟩ with
    | place j =>
      obtain rfl : scope' = .param entry j := origin_place.mp origin'
      rw [origin, origin'] at same
      obtain rfl : i = j := Fact.digits_inj (by simpa [Origin.text] using congrArg String.toList same)
      exact .inl (.parameter a b i)
    | bare name =>
      obtain ⟨unowned, rfl⟩ := origin_bare.mp origin'
      rw [origin, origin'] at same
      exact .inl (.place a i unowned same.symm)
    | owned f c =>
      rw [origin, origin'] at same
      exact absurd same (text_place_ne_owned i f c)
  | bare name =>
    obtain ⟨unowned, rfl⟩ := origin_bare.mp origin
    cases origin' : VarId.origin entry ⟨b, scope'⟩ with
    | place j =>
      obtain rfl : scope' = .param entry j := origin_place.mp origin'
      rw [origin, origin'] at same
      exact .inr (.place b j unowned same)
    | bare name' =>
      obtain ⟨unowned', rfl⟩ := origin_bare.mp origin'
      rw [origin, origin'] at same
      exact .inl (.unowned unowned unowned' same)
    | owned f c =>
      rw [origin, origin'] at same
      exact .inr (environment spelled origin' origin same.symm)
  | owned f c =>
    cases origin' : VarId.origin entry ⟨b, scope'⟩ with
    | place j =>
      rw [origin, origin'] at same
      exact absurd same.symm (text_place_ne_owned j f c)
    | bare name' =>
      rw [origin, origin'] at same
      exact .inl (environment spelled' origin origin' same)
    | owned g d =>
      rw [origin, origin'] at same
      obtain ⟨rfl, rfl⟩ := spelled.cut spelled' origin origin' same
      obtain ⟨owner, rfl, inner⟩ := origin_owned.mp origin
      obtain ⟨owner', named, inner'⟩ := origin_owned.mp origin'
      exact .inl (.owned owner owner' inner inner' named.symm)

end VarId

theorem Clash.text_eq {entry : String} {v w : VarId} (clash : Clash entry v w) :
    (v.origin entry).text = (w.origin entry).text := by
  cases clash with
  | parameter a b i => simp [origin]
  | place a i unowned named =>
    rw [origin_place.mpr rfl, origin_bare.mpr ⟨unowned, named⟩]
    rfl
  | unowned first second named =>
    rw [origin_bare.mpr ⟨first, named⟩, origin_bare.mpr ⟨second, rfl⟩]
  | owned first second inner inner' named =>
    rw [origin_owned.mpr ⟨first, named, inner⟩, origin_owned.mpr ⟨second, rfl, inner'⟩]
  | environment first inner second named =>
    have unowned : w.scope.function? = none := by
      rw [second]
      rfl
    rw [origin_owned.mpr ⟨first, rfl, inner⟩, origin_bare.mpr ⟨unowned, named⟩]
    rfl

inductive Request where
  | current (v : Variable)
  | fresh (v : Variable)

def Request.asked : Request → Variable
  | .current v => v
  | .fresh v => v

def Request.serve (c : Contract) (p : Path) : Request → Value × Path
  | .current v => p.read c v
  | .fresh v => p.redefine v

/-- A symbol of the variable: the first one, or that of a later definition. -/
def VarId.Symbol (entry : String) (v : VarId) (s : String) : Prop :=
  s = (v.origin entry).text ∨ ∃ n, s = (v.origin entry).text ++ "!" ++ toString (n + 1)

namespace Path

variable {c : Contract} {p : Path} {v : VarId} (id : Nat)

def served (c : Contract) (p : Path) (requests : List Request) : Path :=
  requests.foldl (fun p r => (r.serve c p).2) p

def Gives (c : Contract) (p : Path) (v : VarId) (s : String) : Prop :=
  ∃ (requests : List Request) (r : Request), r.asked.id = v ∧
    ∃ sort, (r.serve c (p.served c requests)).1 = .term (.var s sort)

def Made (entry : String) (v : VarId) (value : Value) : Prop :=
  ∃ s type, v.Symbol entry s ∧ value = symbolFor s type

def Handing (entry : String) (p : Path) : Prop :=
  p.entryName = entry ∧ ∀ v value, p.bindings.get? v = some value → Made entry v value

theorem Handing.serve {entry : String} (handing : p.Handing entry) (r : Request) :
    Made entry r.asked.id (r.serve c p).1 ∧ (r.serve c p).2.Handing entry := by
  obtain ⟨named, bound⟩ := handing
  have keeps {v : VarId} {value : Value} (made : Made entry v value) {q : Path} (same : q.entryName = entry)
      (binds : q.bindings = p.bindings.insert v value) : q.Handing entry := by
    refine ⟨same, fun u found held => ?_⟩
    rw [binds, Table.get?_insert] at held
    split at held
    · rename_i hit
      cases held
      exact hit ▸ made
    · exact bound u found held
  cases r with
  | current v =>
    show Made entry v.id (p.read c v).1 ∧ (p.read c v).2.Handing entry
    unfold read
    cases held : p.bindings.get? v.id with
    | some value => exact ⟨bound v.id value held, named, bound⟩
    | none =>
      have made : Made entry v.id (symbolFor (p.symbolBase v.id) v.type) :=
        ⟨_, v.type, .inl (named ▸ p.symbolBase_eq v.id), rfl⟩
      obtain ⟨log, pinned⟩ := Machine.pinInitial_log p c v (symbolFor (p.symbolBase v.id) v.type)
      dsimp only
      rw [pinned]
      exact ⟨made, keeps made named rfl⟩
  | fresh v =>
    have made : Made entry v.id (p.redefine v).1 := by
      refine ⟨_, v.type, .inr ⟨p.versions.getD v.id 0, rfl⟩, ?_⟩
      rw [redefine, p.symbolBase_eq, named]
    exact ⟨made, keeps made named rfl⟩

theorem Handing.served {entry : String} (handing : p.Handing entry) (requests : List Request) :
    (p.served c requests).Handing entry := by
  induction requests generalizing p with
  | nil => exact handing
  | cons r rest ih => exact ih (handing.serve r).2

theorem handing_start (entry : FnId) (node : Nat) (name : String) : (start id entry node name).Handing name :=
  ⟨rfl, nofun⟩

theorem versions_served (v : Variable) (n : Nat) (none : p.versions.getD v.id 0 = 0) :
    (p.served c (List.replicate n (.fresh v))).versions.getD v.id 0 = n := by
  have counts (n k : Nat) {p : Path} (count : p.versions.getD v.id 0 = k) :
      (p.served c (List.replicate n (.fresh v))).versions.getD v.id 0 = k + n := by
    induction n generalizing p k with
    | zero => exact count
    | succ n ih =>
      have next : ((Request.fresh v).serve c p).2.versions.getD v.id 0 = k + 1 := by
        simp [Request.serve, redefine, Table.getD, ← count]
      rw [replicate_succ, served, foldl_cons, ← served, ih (k + 1) next]
      omega
  rw [counts n 0 none, Nat.zero_add]

/-- A path that starts gives a variable exactly the symbols that are made of its own names. -/
theorem gives_iff (entry : FnId) (node : Nat) (name : String) {s : String} :
    (start id entry node name).Gives c v s ↔ v.Symbol name s := by
  have handing := handing_start id entry node name
  constructor
  · rintro ⟨requests, r, rfl, sort, given⟩
    obtain ⟨⟨t, type, symbol, made⟩, _⟩ := (handing.served requests).serve r (c := c)
    obtain ⟨sort', var⟩ := symbolFor_term (made.symm.trans given)
    cases var
    exact symbol
  · let x : Variable := ⟨v.name, v.scope, .named "bool"⟩
    rintro (rfl | ⟨n, rfl⟩)
    · refine ⟨[], .current x, rfl, .bool, ?_⟩
      show symbolFor ((start id entry node name).symbolBase v) _ = _
      rw [symbolBase_eq]
      rfl
    · refine ⟨List.replicate n (.fresh x), .fresh x, rfl, .bool, ?_⟩
      have count := versions_served (c := c) (p := start id entry node name) x n rfl
      have named := (handing.served (c := c) (List.replicate n (.fresh x))).1
      show symbolFor (symbolBase _ v ++ "!" ++ toString (_ + 1)) _ = _
      rw [symbolBase_eq, named, count]
      rfl

end Path

section

variable {entry : String} {v w : VarId} {s t : String}

theorem VarId.Spelled.marks_notMem_symbol (spelled : v.Spelled) (symbol : v.Symbol entry s) {c : Char}
    (bar : c = '|' ∨ c = '\\') : c ∉ s.toList := by
  have mark : c ∈ marks := by rcases bar with rfl | rfl <;> decide
  have undotted : c ≠ '.' ∧ c ≠ '!' := by rcases bar with rfl | rfl <;> decide
  have text : c ∉ (v.origin entry).text.toList := spelled.marks_notMem_text mark undotted.1
  rcases symbol with rfl | ⟨n, rfl⟩
  · exact text
  · have digits := notMem_toString mark (n + 1)
    simp only [String.toList_append, mem_append, not_or]
    exact ⟨⟨text, by simp [undotted.2]⟩, digits⟩

theorem quoteSymbol_inj (clean : ∀ c, c = '|' ∨ c = '\\' → c ∉ s.toList ∧ c ∉ t.toList)
    (same : quoteSymbol s = quoteSymbol t) : s = t := by
  have kept {s : String} (clean : ∀ c, c = '|' ∨ c = '\\' → c ∉ s.toList) :
      (s.toList.map fun c => if c == '|' || c == '\\' then '_' else c) = s.toList := by
    refine map_congr_left (fun c among => ?_) |>.trans (map_id _)
    obtain ⟨bar, slash⟩ := not_or.mp fun bad => clean c bad among
    simp [bar, slash]
  unfold quoteSymbol at same
  rw [kept fun c bar => (clean c bar).1, kept fun c bar => (clean c bar).2] at same
  apply String.toList_injective
  simpa using congrArg String.toList same

theorem VarId.Spelled.symbol_shared_iff (spelled : v.Spelled) (spelled' : w.Spelled) :
    (∃ s, v.Symbol entry s ∧ w.Symbol entry s) ↔ (v.origin entry).text = (w.origin entry).text := by
  have unmarked {u : VarId} (spelled : u.Spelled) : '!' ∉ (u.origin entry).text.toList :=
    spelled.marks_notMem_text (by decide) (by decide)
  have marked (text : String) (n : Nat) : '!' ∈ (text ++ "!" ++ toString (n + 1)).toList := by simp
  constructor
  · rintro ⟨s, rfl | ⟨n, rfl⟩, same | ⟨m, same⟩⟩
    · exact same
    · exact absurd (same ▸ marked _ m) (unmarked spelled)
    · exact absurd (same ▸ marked _ n) (unmarked spelled')
    · have cuts : (v.origin entry).text.toList ++ '!' :: (toString (n + 1)).toList =
          (w.origin entry).text.toList ++ '!' :: (toString (m + 1)).toList := by
        simpa using congrArg String.toList same
      have digits (n : Nat) : '!' ∉ (toString n).toList := notMem_toString (by decide) n
      exact String.toList_injective (Fact.cut_unique (digits _) (digits _) cuts).1
  · intro same
    exact ⟨_, .inl rfl, .inl same⟩

end

/-- Whatever values two sorts of symbols have in two environments that agree on division by zero, they have them in
one. -/
def Unrelated (first second : String → Prop) : Prop :=
  ∀ E E' : Env, E.arith = E'.arith → ∃ F : Env,
    (∀ t : Term, t.Within (fun s _ => first s) → t.eval F = t.eval E) ∧
      ∀ t : Term, t.Within (fun s _ => second s) → t.eval F = t.eval E'

open Classical in
theorem unrelated_iff {first second : String → Prop} : Unrelated first second ↔ ∀ s, first s → ¬ second s := by
  constructor
  · intro unrelated s one other
    let world (b : Bool) : Env :=
      { (default : Env) with symbol := fun _ sort => if sorted : sort = .bool then sorted ▸ b else sort.someValue }
    obtain ⟨F, yes, no⟩ := unrelated (world true) (world false) rfl
    have clash := (yes (.var s .bool) (.var one)).symm.trans (no (.var s .bool) (.var other))
    simp [Term.eval, world, Datum.ofCarrier] at clash
  · intro apart E E' arith
    refine ⟨{ E with symbol := fun s sort => if second s then E'.symbol s sort else E.symbol s sort }, ?_, ?_⟩
    · intro t within
      exact within.eval_eq (fun s sort one => if_neg (apart s one)) rfl
    · intro t within
      exact within.eval_eq (fun s sort other => if_pos other) arith

/-- Two different variables, named by identifiers, come to one symbol on a path exactly when they clash, and
exactly then some constraint on one of them constrains the other. -/
theorem symbols_shared_iff_clashing (c : Contract) (id : Nat) (entry : FnId) (node : Nat) (name : String)
    {v w : VarId} (spelled : v.Spelled) (spelled' : w.Spelled) : let p := start id entry node name
    ((∃ s, p.Gives c v s ∧ p.Gives c w s) ↔ Clashing name v w) ∧
      ((∃ s t, p.Gives c v s ∧ p.Gives c w t ∧ quoteSymbol s = quoteSymbol t) ↔ Clashing name v w) ∧
      (Unrelated (p.Gives c v) (p.Gives c w) ↔ ¬ Clashing name v w) := by
  intro p
  have gives {u : VarId} {s : String} : p.Gives c u s ↔ u.Symbol name s := gives_iff id entry node name
  have shared : (∃ s, p.Gives c v s ∧ p.Gives c w s) ↔ Clashing name v w := by
    simp only [gives]
    rw [spelled.symbol_shared_iff spelled']
    constructor
    · exact clashing_of_text spelled spelled'
    · rintro (clash | clash)
      · exact clash.text_eq
      · exact clash.text_eq.symm
  refine ⟨shared, ?_, ?_⟩
  · rw [← shared]
    constructor
    · rintro ⟨s, t, one, other, same⟩
      have clean (c : Char) (bar : c = '|' ∨ c = '\\') : c ∉ s.toList ∧ c ∉ t.toList :=
        ⟨spelled.marks_notMem_symbol (gives.mp one) bar, spelled'.marks_notMem_symbol (gives.mp other) bar⟩
      obtain rfl := quoteSymbol_inj clean same
      exact ⟨s, one, other⟩
    · rintro ⟨s, one, other⟩
      exact ⟨s, s, one, other, rfl⟩
  · rw [unrelated_iff, ← shared, not_exists]
    simp only [not_and]

namespace Mint

def path : Path := .start 0 ⟨0, 0⟩ 0 "mint"

def amount : VarId := ⟨"amount", .param "mint" 0⟩

def localFee : VarId := ⟨"fee", .localIn "mint"⟩

def stateFee : VarId := ⟨"fee", .state⟩

theorem fees_apart : ¬ Clashing "mint" localFee stateFee := by
  rintro (clash | clash)
  · cases clash with
    | unowned first => cases first
    | owned first second | environment first inner second => cases second
  · cases clash with
    | unowned first second => cases second
    | owned first | environment first => cases first

end Mint

/-- A local variable and a state variable of one name have symbols of their own. -/
theorem local_and_state_apart : Mint.localFee.Spelled ∧ Mint.stateFee.Spelled ∧
    (¬ ∃ s, Mint.path.Gives default Mint.localFee s ∧ Mint.path.Gives default Mint.stateFee s) ∧
      Unrelated (Mint.path.Gives default Mint.localFee) (Mint.path.Gives default Mint.stateFee) := by
  have spelled : Mint.localFee.Spelled := by decide
  have spelled' : Mint.stateFee.Spelled := by decide
  obtain ⟨shared, _, unrelated⟩ := symbols_shared_iff_clashing default 0 ⟨0, 0⟩ 0 "mint" spelled spelled'
  exact ⟨spelled, spelled', fun both => Mint.fees_apart (shared.mp both), unrelated.mpr Mint.fees_apart⟩

/-- A state variable with the name `p0` is taken for the first parameter of the function under check. -/
theorem parameter_taken_for_state : Mint.amount ≠ ⟨"p0", .state⟩ ∧ Mint.amount.Spelled ∧
    VarId.Spelled ⟨"p0", .state⟩ ∧
      (∃ s, Mint.path.Gives default Mint.amount s ∧ Mint.path.Gives default ⟨"p0", .state⟩ s) ∧
      ¬ Unrelated (Mint.path.Gives default Mint.amount) (Mint.path.Gives default ⟨"p0", .state⟩) := by
  have first : Mint.path.Gives default Mint.amount "p0" :=
    ⟨[], .current ⟨"amount", .param "mint" 0, .named "int256"⟩, rfl, .int, by decide⟩
  have second : Mint.path.Gives default ⟨"p0", .state⟩ "p0" :=
    ⟨[], .current ⟨"p0", .state, .named "int256"⟩, rfl, .int, by decide⟩
  exact ⟨by decide, by decide, by decide, ⟨"p0", first, second⟩,
    fun unrelated => unrelated_iff.mp unrelated "p0" first second⟩

end TokenAudit
