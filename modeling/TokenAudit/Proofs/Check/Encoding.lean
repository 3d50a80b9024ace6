import TokenAudit.Proofs.Json.Members
import TokenAudit.Proofs.Number.Decimal

/-!
# Written checks

A check that was read can be written and read again: text that reads as an integer never stays text.
-/

namespace TokenAudit

open List Selector

open Json

variable {α : Type} {ms : Members} {n : String} (fuel : Nat)

def Constant.Proper : Constant → Prop
  | .str s => Number.readLiteral s = none
  | _ => True

theorem Constant.ofLiteral?_literalJson {c : Constant} (proper : c.Proper) :
    ofLiteral? c.literalJson.normal = some c := by
  cases c with
  | bool b => rfl
  | int i =>
    rw [literalJson]
    split
    · rfl
    · simp only [normal, ofLiteral?, Number.readLiteral_toString]
  | str s =>
    have proper : Number.readLiteral s = none := proper
    simp [literalJson, ofLiteral?, proper]

theorem Constant.yields_ofLiteral? : Yields (fun _ => True) ofLiteral? Constant.Proper := by
  intro j _ c decoded
  cases j with
  | bool b | int i =>
    cases decoded
    trivial
  | str s =>
    rw [ofLiteral?] at decoded
    cases reads : Number.readLiteral s with
    | none =>
      rw [reads] at decoded
      cases decoded
      exact reads
    | some i =>
      rw [reads] at decoded
      cases decoded
      trivial
  | _ => cases decoded

theorem choice_normal {standing : Standing} {table : List (String × α)} {fields : α → List String} {s : String} {a : α}
    (found : find? table s = some a) (distinct : ((("type", str s) :: ms).map Prod.fst).Nodup) :
    choice standing "type" table fields (.obj (normalMembers [] (("type", .str s) :: ms))) =
      some (a, normalMembers [] (("type", .str s) :: ms)) := by
  have apart : ∀ n ∈ ms.map Prod.fst, n ∉ ["type"] := by
    intro n among same
    rw [mem_singleton] at same
    exact (nodup_cons.mp distinct).1 (same ▸ among)
  rw [choice, tagged, required_normal distinct, required, requiredAs_cons_mem (mem_singleton_self _) apart]
  simp [normal, tagOf, found]

theorem depth_of_normal {v : Json} {fuel : Nat} (distinct : (ms.map Prod.fst).Nodup) (among : (n, v) ∈ ms)
    (enough : (obj (normalMembers [] ms)).depth < fuel + 1) : v.normal.depth < fuel := by
  have among : (n, v.normal) ∈ normalMembers [] ms :=
    (normalMembers_perm distinct).mem_iff.mpr (mem_map_of_mem among)
  exact Nat.lt_of_lt_of_le (depth_member among) (Nat.le_of_lt_succ enough)

namespace Selector

variable {s : Selector}

mutual

def constants : Selector → List Constant
  | .stateVar _ keys => allConstants keys
  | .constant value => [value]
  | .arrLength array => constants array
  | _ => []

def allConstants : List Selector → List Constant
  | [] => []
  | s :: rest => constants s ++ allConstants rest

end

def Proper (s : Selector) : Prop := ∀ c ∈ s.constants, c.Proper

theorem allConstants_iff {keys : List Selector} : (∀ c ∈ allConstants keys, c.Proper) ↔ ∀ s ∈ keys, s.Proper := by
  induction keys with
  | nil => simp [allConstants]
  | cons s rest ih => simp [allConstants, or_imp, forall_and, ih, Proper]

mutual

theorem decode?_toJson (s : Selector) (proper : s.Proper) (standing : Standing) (fuel : Nat)
    (enough : s.toJson.normal.depth < fuel) : decode? fuel standing s.toJson.normal = some s := by
  cases fuel with
  | zero => omega
  | succ fuel =>
    cases s with
    | funcParam index | eventParam index | callParam index =>
      simp only [toJson, normal, decode?]
      rw [choice_normal rfl (by simp)]
      simp [required, nat?, ofNat]
    | stateVar anchor keys =>
      simp only [toJson, normal] at enough ⊢
      have deep : (arr (allToJson keys)).normal.depth < fuel :=
        depth_of_normal (n := "keys") (by simp) (by simp) enough
      have decoded := decodeItems_toJson keys (allConstants_iff.mp proper) fuel fun j among =>
        Nat.lt_trans (depth_item among) deep
      rw [decode?, choice_normal rfl (by simp)]
      simp [required, lenient, normal, string?, nullable?, list?, decoded]
    | constant value =>
      have decoded := Constant.ofLiteral?_literalJson (proper value (mem_singleton_self value))
      simp only [toJson, normal, decode?]
      rw [choice_normal rfl (by simp)]
      simp [required, decoded]
    | msgSender | noneValue =>
      simp only [toJson, normal, decode?]
      rfl
    | arrLength array =>
      simp only [toJson, normal] at enough ⊢
      have deep : array.toJson.normal.depth < fuel := depth_of_normal (n := "value") (by simp) (by simp) enough
      have decoded := decode?_toJson array proper .nested fuel deep
      rw [decode?, choice_normal rfl (by simp)]
      simp [required, decoded]
    | callReturn function =>
      simp only [toJson, normal, decode?]
      rw [choice_normal rfl (by simp)]
      simp [required, string?]

theorem decodeItems_toJson (keys : List Selector) (proper : ∀ s ∈ keys, s.Proper) (fuel : Nat)
    (enough : ∀ j ∈ normalItems (allToJson keys), j.depth < fuel) :
    decodeItems (keyOf? (decode? fuel .nested)) (normalItems (allToJson keys)) = some keys := by
  cases keys with
  | nil => rfl
  | cons s rest =>
    simp only [allToJson, normalItems, mem_cons, forall_eq_or_imp] at enough proper ⊢
    have first := decode?_toJson s proper.1 .nested fuel enough.1
    have later := decodeItems_toJson rest proper.2 fuel enough.2
    simp [decodeItems, keyOf?, first, later]

end

theorem nested?_toJson (proper : s.Proper) : nested? s.toJson.normal = some s :=
  decode?_toJson s proper .nested _ (Nat.lt_succ_self _)

theorem proper_of_nil (none : s.constants = []) : s.Proper := by
  intro c among
  rw [none] at among
  cases among

theorem yields_keyOf? {decode : Json → Option Selector} (yields : Yields (fun _ => True) decode Proper) :
    Yields (fun _ => True) (keyOf? decode) Proper := by
  intro j held s decoded
  unfold keyOf? at decoded
  split at decoded
  · rename_i made
    cases decoded
    exact yields held made
  · split at decoded
    · cases decoded
      exact proper_of_nil rfl
    · cases decoded
  · cases decoded

theorem yields_decode? (standing : Standing) : Yields (fun _ => True) (decode? fuel standing) Proper := by
  induction fuel generalizing standing with
  | zero =>
    intro j _ s decoded
    cases decoded
  | succ fuel ih =>
    intro j _ s decoded
    obtain ⟨⟨tag, ms⟩, _, decoded⟩ := bind_eq_some.mp decoded
    have held : ∀ m ∈ ms, True := fun _ _ => trivial
    cases tag <;> simp only [bind_eq_some] at decoded
    case funcParam | eventParam | callParam | callReturn =>
      obtain ⟨place, _, ⟨⟩⟩ := decoded
      exact proper_of_nil rfl
    case msgSender | noneValue =>
      cases decoded
      exact proper_of_nil rfl
    case stateVar =>
      obtain ⟨anchor, _, keys, listed, ⟨⟩⟩ := decoded
      have proper : ∀ s ∈ keys, s.Proper :=
        ((yields_keyOf? (ih .nested)).list hereditary_true).lenient held (fun _ absent => by cases absent) listed
      exact allConstants_iff.mpr proper
    case constant =>
      obtain ⟨value, valued, ⟨⟩⟩ := decoded
      have proper : value.Proper := Constant.yields_ofLiteral?.required held valued
      intro c among
      cases mem_singleton.mp among
      exact proper
    case arrLength =>
      obtain ⟨array, nested, ⟨⟩⟩ := decoded
      have proper : array.Proper := (ih .nested).required held nested
      exact proper

theorem yields_nested? : Yields (fun _ => True) nested? Proper :=
  fun _ held _ decoded => yields_decode? _ .nested held decoded

end Selector

theorem CompOp.find?_name (op : CompOp) : find? names op.name = some op := by
  cases op <;> rfl

theorem Junction.find?_name (op : Junction) : find? names op.name = some op := by
  cases op <;> rfl

theorem ChangeType.find?_name (change : ChangeType) : find? names change.name = some change := by
  cases change <;> rfl

theorem ThrowOp.find?_name (op : ThrowOp) : find? names op.name = some op := by
  cases op <;> rfl

namespace Condition

mutual

def constants : Condition → List Constant
  | .comparison left right _ => left.constants ++ right.constants
  | .logic parts _ => allConstants parts
  | .written value _ => value.constants
  | .usedInCheck value => value.constants

def allConstants : List Condition → List Constant
  | [] => []
  | c :: rest => constants c ++ allConstants rest

end

def Proper (c : Condition) : Prop := ∀ k ∈ c.constants, k.Proper

theorem allConstants_iff {parts : List Condition} :
    (∀ k ∈ allConstants parts, k.Proper) ↔ ∀ c ∈ parts, c.Proper := by
  induction parts with
  | nil => simp [allConstants]
  | cons c rest ih => simp [allConstants, or_imp, forall_and, ih, Proper]

theorem proper_comparison {left right : Selector} {op : CompOp} :
    (comparison left right op).Proper ↔ left.Proper ∧ right.Proper := by
  simp [Proper, Selector.Proper, constants, or_imp, forall_and]

mutual

theorem decode?_toJson (c : Condition) (proper : c.Proper) (standing : Standing) (fuel : Nat)
    (enough : c.toJson.normal.depth < fuel) : decode? fuel standing c.toJson.normal = some c := by
  cases fuel with
  | zero => omega
  | succ fuel =>
    cases c with
    | comparison left right op =>
      obtain ⟨first, second⟩ := proper_comparison.mp proper
      simp only [toJson, normal, decode?]
      rw [choice_normal rfl (by simp)]
      simp [required,
        nested?_toJson first, nested?_toJson second, oneOf, CompOp.find?_name]
    | logic parts op =>
      simp only [toJson, normal] at enough ⊢
      have deep : (arr (allToJson parts)).normal.depth < fuel :=
        depth_of_normal (n := "cond") (by simp) (by simp) enough
      have decoded := decodeItems_toJson parts (allConstants_iff.mp proper) fuel fun j among =>
        Nat.lt_trans (depth_item among) deep
      rw [decode?, choice_normal rfl (by simp)]
      simp [required, lenient, normal, nullable?, list?, decoded, oneOf, Junction.find?_name]
    | written value change =>
      simp only [toJson, normal, decode?]
      rw [choice_normal rfl (by simp)]
      simp [required, lenient, nested?_toJson proper, nullable?, oneOf,
        ChangeType.find?_name]
    | usedInCheck value =>
      simp only [toJson, normal, decode?]
      rw [choice_normal rfl (by simp)]
      simp [required, nested?_toJson proper]

theorem decodeItems_toJson (parts : List Condition) (proper : ∀ c ∈ parts, c.Proper) (fuel : Nat)
    (enough : ∀ j ∈ normalItems (allToJson parts), j.depth < fuel) :
    decodeItems (decode? fuel .nested) (normalItems (allToJson parts)) = some parts := by
  cases parts with
  | nil => rfl
  | cons c rest =>
    simp only [allToJson, normalItems, mem_cons, forall_eq_or_imp] at enough proper ⊢
    have first := decode?_toJson c proper.1 .nested fuel enough.1
    have later := decodeItems_toJson rest proper.2 fuel enough.2
    simp [decodeItems, first, later]

end

theorem nested?_toJson {c : Condition} (proper : c.Proper) : nested? c.toJson.normal = some c :=
  decode?_toJson c proper .nested _ (Nat.lt_succ_self _)

theorem yields_decode? (standing : Standing) : Yields (fun _ => True) (decode? fuel standing) Proper := by
  induction fuel generalizing standing with
  | zero =>
    intro j _ c decoded
    cases decoded
  | succ fuel ih =>
    intro j _ c decoded
    obtain ⟨⟨tag, ms⟩, _, decoded⟩ := bind_eq_some.mp decoded
    have held : ∀ m ∈ ms, True := fun _ _ => trivial
    cases tag <;> simp only [bind_eq_some] at decoded
    case comparison =>
      obtain ⟨left, first, right, second, op, _, ⟨⟩⟩ := decoded
      exact proper_comparison.mpr
        ⟨yields_nested?.required held first, yields_nested?.required held second⟩
    case logic =>
      obtain ⟨parts, listed, op, _, ⟨⟩⟩ := decoded
      exact allConstants_iff.mpr (((ih .nested).list hereditary_true).required held listed)
    case written =>
      obtain ⟨value, valued, change, _, ⟨⟩⟩ := decoded
      exact yields_nested?.required held valued
    case usedInCheck =>
      obtain ⟨value, valued, ⟨⟩⟩ := decoded
      exact yields_nested?.required held valued

theorem yields_nested? : Yields (fun _ => True) nested? Proper :=
  fun _ held _ decoded => yields_decode? _ .nested held decoded

end Condition

theorem Selector.normal_ne_null (s : Selector) : s.toJson.normal ≠ .null := by
  cases s <;> simp [toJson]

theorem Condition.normal_ne_null (c : Condition) : c.toJson.normal ≠ .null := by
  cases c <;> simp [toJson]

theorem nullable?_condition {o : Option Condition} (proper : ∀ c ∈ o, c.Proper) :
    nullable? Condition.nested? (ofOption Condition.toJson o).normal = some o := by
  rw [normal_ofOption]
  exact nullable?_ofOption (fun c _ => c.normal_ne_null) fun c present => Condition.nested?_toJson (proper c present)

theorem nullable?_selector {o : Option Selector} (proper : ∀ s ∈ o, s.Proper) :
    nullable? nested? (ofOption toJson o).normal = some o := by
  rw [normal_ofOption]
  exact nullable?_ofOption (fun s _ => s.normal_ne_null) fun s present => nested?_toJson (proper s present)

theorem nullable?_text (o : Option String) : nullable? string? (ofOption .str o).normal = some o := by
  cases o <;> rfl

theorem list?_texts (texts : List String) : list? string? (arr (texts.map .str)).normal = some texts := by
  rw [normal_arr, map_map]
  exact list?_map fun _ _ => rfl

theorem nullable?_arr (decode : Json → Option α) (items : List Json) :
    nullable? decode (arr items).normal = (decode (arr items).normal).map some :=
  rfl

namespace ArgCheck

def Proper (a : ArgCheck) : Prop := (∀ s ∈ a.value, s.Proper) ∧ ∀ c ∈ a.cond, c.Proper

theorem ofJson?_toJson {a : ArgCheck} (proper : a.Proper) : ofJson? a.toJson.normal = some a := by
  simp [toJson, ofJson?, record?, Json.optional, nullable?_selector proper.1, nullable?_condition proper.2, nat?,
    Json.ofNat]

theorem list?_toJson {args : List ArgCheck} (proper : ∀ a ∈ args, a.Proper) :
    list? ofJson? (arr (args.map toJson)).normal = some args := by
  rw [normal_arr, map_map]
  exact list?_map fun a among => ofJson?_toJson (proper a among)

theorem yields_ofJson? : Yields (fun _ => True) ofJson? Proper := by
  intro j _ a decoded
  simp only [ofJson?, bind_eq_some] at decoded
  obtain ⟨ms, _, index, _, value, valued, cond, limited, ⟨⟩⟩ := decoded
  have held : ∀ m ∈ ms, True := fun _ _ => trivial
  exact ⟨yields_nested?.optional held valued, Condition.yields_nested?.optional held limited⟩

end ArgCheck

namespace OrderTarget

def Proper : OrderTarget → Prop
  | .event _ _ => True
  | .written state _ => state.Proper

theorem ofJson?_toJson {t : OrderTarget} (proper : t.Proper) : ofJson? t.toJson.normal = some t := by
  cases t with
  | event name arg =>
    simp [toJson, ofJson?, members?, eventOf?, required, string?, nat?, ofNat]
  | written state level =>
    -- without an event the members are not taken for an event argument
    simp [toJson, ofJson?, members?, eventOf?, writtenOf?, required, nat?, ofNat, nested?_toJson proper]

theorem yields_ofJson? : Yields (fun _ => True) ofJson? Proper := by
  intro j _ t decoded
  obtain ⟨ms, _, decoded⟩ := Option.bind_eq_some_iff.mp decoded
  simp only [eventOf?, writtenOf?, bind_eq_some, Option.or_eq_some_iff] at decoded
  obtain ⟨name, _, arg, _, ⟨⟩⟩ | ⟨_, state, selected, level, _, ⟨⟩⟩ := decoded
  · trivial
  · have proper : state.Proper := yields_nested?.required (fun _ _ => trivial) selected
    exact proper

end OrderTarget

namespace Check

variable {c : Check} {ms' : Members}

def Proper : Check → Prop
  | .throws c => c.cond.Proper
  | .returns c => c.expected.Proper ∧ ∀ d ∈ c.cond, d.Proper
  | .emits c => (∀ d ∈ c.stateCond, d.Proper) ∧ (∀ d ∈ c.cond, d.Proper) ∧ ∀ a ∈ c.args, a.Proper
  | .assigns c => c.state.Proper ∧ c.value.Proper
  | .calls c => c.receiver.Proper ∧ ∀ a ∈ c.args, a.Proper
  | .orders c => c.target.Proper ∧ c.orderedBy.Proper

def written (c : Check) : Members := ("type", .str c.kind) :: c.members

theorem nodup_written (c : Check) : (c.written.map Prod.fst).Nodup := by
  cases c <;> simp [written, members]

def tag : Check → Kind
  | .throws _ => .throws
  | .returns _ => .returns
  | .emits _ => .emits
  | .assigns _ => .assigns
  | .calls _ => .calls
  | .orders _ => .orders

theorem ofMembers?_written (proper : c.Proper) : ofMembers? (normalMembers [] c.written) c.tag = some c := by
  cases c with
  | throws c =>
    have cond := Condition.nested?_toJson proper
    simp [written, members, tag, ofMembers?, required, lenient, nullable?, oneOf, ThrowOp.find?_name, cond]
  | returns c =>
    have expected := nested?_toJson proper.1
    have cond := nullable?_condition proper.2
    simp [written, members, tag, ofMembers?, required, Json.optional, bool?, expected, cond]
  | emits c =>
    have stateCond := nullable?_condition proper.1
    have cond := nullable?_condition proper.2.1
    have args := ArgCheck.list?_toJson proper.2.2
    simp [written, members, tag, ofMembers?, required, Json.optional, lenient, stateCond, cond, nullable?_text,
      nullable?_arr, list?_texts, args, string?, bool?]
  | assigns c =>
    have state := nested?_toJson proper.1
    have value := nested?_toJson proper.2
    simp [written, members, tag, ofMembers?, required, Json.optional, string?, state, value, nullable?_text]
  | calls c =>
    have receiver := nested?_toJson proper.1
    have args := ArgCheck.list?_toJson proper.2
    simp [written, members, tag, ofMembers?, required, lenient, receiver, nullable?_arr, list?_texts, args, string?]
  | orders c =>
    have target := OrderTarget.ofJson?_toJson proper.1
    have orderedBy := nested?_toJson proper.2
    simp [written, members, tag, ofMembers?, required, target, orderedBy]

theorem yields_ofMembers? {kind : Kind} (decoded : ofMembers? ms kind = some c) : c.Proper := by
  have held : ∀ m ∈ ms, True := fun _ _ => trivial
  have args : Yields (fun _ => True) (list? ArgCheck.ofJson?) fun as => ∀ a ∈ as, a.Proper :=
    ArgCheck.yields_ofJson?.list hereditary_true
  cases kind <;> simp only [ofMembers?, bind_eq_some] at decoded
  case throws =>
    obtain ⟨cond, limited, op, _, ⟨⟩⟩ := decoded
    exact Condition.yields_nested?.required held limited
  case returns =>
    obtain ⟨expected, selected, cond, limited, atLeastOne, _, ⟨⟩⟩ := decoded
    exact ⟨yields_nested?.required held selected, Condition.yields_nested?.optional held limited⟩
  case emits =>
    obtain ⟨event, _, stateCond, stated, alternatives, _, cond, limited, within, _, needsStateCond, _,
      arguments, listed, ⟨⟩⟩ := decoded
    exact ⟨Condition.yields_nested?.optional held stated, Condition.yields_nested?.optional held limited,
      args.lenient held (fun _ absent => by cases absent) listed⟩
  case assigns =>
    obtain ⟨state, first, value, second, op, _, event, _, ⟨⟩⟩ := decoded
    exact ⟨yields_nested?.required held first, yields_nested?.required held second⟩
  case calls =>
    obtain ⟨callee, _, receiver, selected, cond, _, arguments, listed, alternatives, _, ⟨⟩⟩ := decoded
    exact ⟨yields_nested?.required held selected,
      args.lenient held (fun _ absent => by cases absent) listed⟩
  case orders =>
    obtain ⟨target, aimed, orderedBy, selected, ⟨⟩⟩ := decoded
    exact ⟨OrderTarget.yields_ofJson?.required held aimed, yields_nested?.required held selected⟩

theorem hasMember_iff : hasMember n ms = true ↔ n ∈ ms.map Prod.fst := by
  simp [hasMember]

def kindNames : List String := kinds.map Prod.fst

def ofFlat (ms : Members) : Except CheckError Check :=
  let kind := ((find? ms "type").bind string?).getD ""
  match find? kinds kind with
  | none => .error (.unknownKind kind)
  | some k =>
    match ofMembers? ms k with
    | some c => .ok c
    | none => .error .notDecodable

theorem ofMembers?_perm (perm : ms.Perm ms') (kind : Kind) : ofMembers? ms kind = ofMembers? ms' kind := by
  cases kind <;>
    simp only [ofMembers?, required_perm perm, lenient_perm perm, optional_perm perm, defaulted_perm perm]

theorem wrapped?_eq_none (plain : ∀ n ∈ ms.map Prod.fst, n ∉ kindNames) : wrapped? ms = none := by
  refine List.findSome?_eq_none_iff.mpr fun k among => ?_
  rw [Option.map_eq_none_iff, Json.find?_eq_none]
  intro named
  exact plain k.1 named (mem_map_of_mem among)

theorem decode_of_flat {flat : Members} (flattens : flatMembers ms = .ok flat) : decode (.obj ms) = ofFlat flat := by
  rw [decode, flattens]
  rfl

theorem proper_of_ofFlat (decoded : ofFlat ms = .ok c) : c.Proper := by
  unfold ofFlat at decoded
  dsimp only at decoded
  split at decoded
  · cases decoded
  · split at decoded
    · rename_i made
      cases decoded
      exact yields_ofMembers? made
    · cases decoded

theorem proper_of_ofJson {j : Json} (decoded : ofJson j = .ok c) : c.Proper := by
  unfold ofJson at decoded
  cases shape : j.normal with
  | obj ms =>
    rw [shape] at decoded
    cases flattens : flatMembers ms with
    | error e =>
      rw [decode, flattens] at decoded
      cases decoded
    | ok flat => exact proper_of_ofFlat (decode_of_flat flattens ▸ decoded)
  | _ =>
    rw [shape] at decoded
    cases decoded

theorem ofFlat_perm (perm : ms.Perm ms') (distinct : (ms.map Prod.fst).Nodup) : ofFlat ms = ofFlat ms' := by
  have distinct' : (ms'.map Prod.fst).Nodup := (perm.map Prod.fst).nodup distinct
  have typed : find? ms "type" = find? ms' "type" := by
    cases held : find? ms "type" with
    | none =>
      rw [Json.find?_eq_none] at held
      exact (find?_eq_none.mpr fun named => held ((perm.map Prod.fst).mem_iff.mpr named)).symm
    | some v => exact (find?_of_mem distinct' (perm.mem_iff.mp (mem_of_find? held))).symm
  simp only [ofFlat, typed, ofMembers?_perm perm]

section

variable {ms : Members} {k x : String}

theorem ofJson_flat (typed : "type" ∈ ms.map Prod.fst) (plain : ∀ n ∈ ms.map Prod.fst, n ∉ kindNames) :
    ofJson (.obj ms) = ofFlat (normalMembers [] ms) := by
  have plain : wrapped? (normalMembers [] ms) = none :=
    wrapped?_eq_none fun n named => plain n ((fst_normalMembers ms).mp named)
  have typed : hasMember "type" (normalMembers [] ms) = true := hasMember_iff.mpr ((fst_normalMembers ms).mpr typed)
  apply decode_of_flat
  simp [flatMembers, plain, typed]

theorem ofJson_held (other : x ∉ kindNames) (untyped : x ≠ "type") (typed : "type" ∈ ms.map Prod.fst) :
    ofJson (.obj [(x, .obj ms)]) = ofFlat (normalMembers [] ms) := by
  have plain : wrapped? [(x, .obj (normalMembers [] ms))] = none :=
    wrapped?_eq_none fun n named => (mem_singleton.mp named) ▸ other
  have outer : hasMember "type" [(x, .obj (normalMembers [] ms))] = false := by simpa [hasMember] using untyped
  have inner : hasMember "type" (normalMembers [] ms) = true := hasMember_iff.mpr ((fst_normalMembers ms).mpr typed)
  apply decode_of_flat
  show flatMembers [(x, .obj (normalMembers [] ms))] = _
  simp [flatMembers, plain, outer, inner]

theorem wrapped?_kind (known : k ∈ kindNames) (inner : Json) : wrapped? [(k, inner)] = some (k, inner) := by
  simp only [kindNames, kinds, map_cons, map_nil, mem_cons, not_mem_nil, or_false] at known
  rcases known with rfl | rfl | rfl | rfl | rfl | rfl <;> rfl

theorem ofJson_wrapped (known : k ∈ kindNames) (untyped : "type" ∉ ms.map Prod.fst) :
    ofJson (.obj [(k, .obj ms)]) = ofFlat (normalMembers [] ms ++ [("type", .str k)]) := by
  have inner : hasMember "type" (normalMembers [] ms) = false := by
    rw [← Bool.not_eq_true, hasMember_iff, fst_normalMembers]
    exact untyped
  apply decode_of_flat
  show flatMembers [(k, .obj (normalMembers [] ms))] = _
  simp [flatMembers, wrapped?_kind known, inner]

end

theorem find?_kind (c : Check) : find? kinds c.kind = some c.tag := by
  cases c <;> rfl

theorem plain_written (c : Check) : ∀ n ∈ c.written.map Prod.fst, n ∉ kindNames := by
  cases c <;> simp [written, members, kindNames, kinds]

theorem ofJson_toJson (proper : c.Proper) : ofJson c.toJson = .ok c := by
  have distinct := c.nodup_written
  have among : ("type", str c.kind) ∈ normalMembers [] c.written :=
    (normalMembers_perm distinct).mem_iff.mpr (mem_map_of_mem (mem_cons_self ..))
  have typed := find?_of_mem (nodup_normalMembers c.written) among
  calc ofJson c.toJson = ofFlat (normalMembers [] c.written) :=
        ofJson_flat (mem_cons_self ..) c.plain_written
    _ = .ok c := by simp [ofFlat, typed, string?, find?_kind, ofMembers?_written proper]

/-- A check that was read is read again from what is written for it, and its members mean the same in every encoding. -/
theorem read_back_in_every_encoding :
    (∀ j c, ofJson j = .ok c → ofJson c.toJson = .ok c) ∧
      ∀ k ∈ kindNames, ∀ before after : Members,
        (∀ n ∈ (before ++ after).map Prod.fst, n ≠ "type" ∧ n ∉ kindNames) →
          let flat := obj (before ++ ("type", .str k) :: after)
          ofJson (.obj [(k, .obj (before ++ after))]) = ofJson flat ∧
            ∀ x, x ∉ kindNames → x ≠ "type" → ofJson (.obj [(x, flat)]) = ofJson flat := by
  refine ⟨fun j c decoded => ofJson_toJson (proper_of_ofJson decoded), fun k known before after plain => ?_⟩
  have typed : "type" ∈ (before ++ ("type", str k) :: after).map Prod.fst := by simp
  have untyped : "type" ∉ (before ++ after).map Prod.fst := fun named => (plain _ named).1 rfl
  have unwrapped : ∀ n ∈ (before ++ ("type", str k) :: after).map Prod.fst, n ∉ kindNames := by
    intro n named
    have named : n = "type" ∨ n ∈ (before ++ after).map Prod.fst := by
      simp only [map_append, map_cons, mem_append, mem_cons] at named ⊢
      tauto
    rcases named with rfl | named
    · decide
    · exact (plain n named).2
  have flat := ofJson_flat typed unwrapped
  constructor
  · -- the kind stands last in the one, in order of name in the other
    rw [flat, ofJson_wrapped known untyped]
    refine ofFlat_perm (.trans (perm_append_singleton ..) (normalMembers_insert (v := .str k) untyped).symm) ?_
    rw [map_append]
    refine nodup_append.mpr ⟨nodup_normalMembers _, nodup_singleton _, ?_⟩
    rintro n named _ last rfl
    cases mem_singleton.mp last
    exact untyped ((fst_normalMembers _).mp named)
  · intro x other apart
    rw [flat, ofJson_held other apart typed]

namespace Burn

def members : Members :=
  [("op", .str "not_throw"),
    ("cond", .obj [("op", .str "lt"), ("left", .obj [("type", .str "FuncParamSelector"), ("index", .int 0)]),
      ("right", .obj [("value", .str "0x10000000000000000"), ("type", .str "ConstantSelector")]),
      ("type", .str "CompCondition")])]

end Burn

/-- A condition with a constant beyond 64 bits in all encodings. -/
theorem burn_read_back : ∃ c, ofJson (.obj [("ThrowVerify", .obj Burn.members)]) = .ok c ∧ ofJson c.toJson = .ok c ∧
    ofJson (.obj (("type", .str "ThrowVerify") :: Burn.members)) = .ok c ∧
      ofJson (.obj [("rule", .obj (("type", .str "ThrowVerify") :: Burn.members))]) = .ok c := by
  obtain ⟨again, agree⟩ := read_back_in_every_encoding
  obtain ⟨wrapped, held⟩ := agree "ThrowVerify" (by decide) [] Burn.members (by decide)
  have known : (ofJson (.obj [("ThrowVerify", .obj Burn.members)])).toOption.isSome = true := by decide +kernel
  cases decoded : ofJson (.obj [("ThrowVerify", .obj Burn.members)]) with
  | error e =>
    rw [decoded] at known
    cases known
  | ok c =>
    have flat : ofJson (.obj (("type", .str "ThrowVerify") :: Burn.members)) = .ok c := wrapped.symm.trans decoded
    exact ⟨c, rfl, again _ c decoded, flat, (held "rule" (by decide) (by decide)).trans flat⟩

end Check

end TokenAudit
