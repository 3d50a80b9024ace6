import TokenAudit.Proofs.Program.Leaves

/-!
# Written programs

A program that was read from a document can be written and read again.
-/

namespace TokenAudit

open Json ContractType Program Operand Number

variable {d : Nat} {α : Type} {encode : α → Json} {v : Variable} {o : Operand} {n : Node} {f : Function} {c : Contract}
  {p : Program} {j : Json} {target : Option Variable} {os : List Operand} {i : Instruction}

@[simp] theorem ContractKind.oneOf_name (k : ContractKind) : oneOf .outer names (.str k.name) = some k := by
  cases k <;> rfl

@[simp] theorem Visibility.oneOf_name (v : Visibility) : oneOf .outer names (.str v.name) = some v := by
  cases v <;> rfl

@[simp] theorem Mutability.oneOf_name (m : Mutability) : oneOf .outer names (.str m.name) = some m := by
  cases m <;> rfl

@[simp] theorem NodeKind.oneOf_name (k : NodeKind) : oneOf .outer names (.str k.name) = some k := by
  cases k <;> rfl

@[simp] theorem UnaryOp.oneOf_name (op : UnaryOp) : oneOf .nested names (.str op.name) = some op := by
  cases op <;> rfl

@[simp] theorem BinaryOp.oneOf_name (op : BinaryOp) : oneOf .nested names (.str op.name) = some op := by
  cases op <;> rfl

theorem fits_signed {i : Int} (signed : fitsSigned i = true) : Fits i := by
  cases i with
  | ofNat n =>
    have below : n < signedLimit := by simpa [fitsSigned] using signed
    have limits : signedLimit < wordLimit := by decide
    simp only [Fits, Int.ofNat_eq_natCast]
    omega
  | negSucc n =>
    have below : n < signedLimit := by simpa [fitsSigned] using signed
    simp only [Fits]
    omega

theorem plain_ofNat {n : Nat} (count : (Leaf.count n).Fine) : Plain d (.ofNat n) := by
  have fits : n < wordLimit := count
  rw [Json.ofNat, plain_int, Fits]
  omega

theorem plain_ofOption {o : Option α} (each : ∀ a ∈ o, Plain d (encode a)) : Plain d (.ofOption encode o) := by
  cases o with
  | none => exact plain_null d
  | some a => exact each a rfl

theorem plain_map {as : List α} (each : ∀ a ∈ as, Plain d (encode a)) : Plain (d + 1) (.arr (as.map encode)) := by
  rw [plain_arr, List.forall_mem_map]
  exact each

theorem ContractType.plain_toJson (d : Nat) (t : ContractType) : Plain d t.toJson := plain_str d _

theorem Constant.plain_toJson (d : Nat) (c : Constant) : Plain (d + 1) c.toJson := by
  cases c with
  | bool b | str s => simp [toJson]
  | int i =>
    rw [toJson]
    split
    · exact plain_int.mpr (fits_signed ‹_›)
    · simp

theorem Variable.plain_toJson (fine : Each Leaf.Fine v.leaves) : Plain (d + 1) v.toJson := by
  obtain ⟨name, scope, type⟩ := v
  obtain ⟨_, placed⟩ := each_cons.mp fine
  have scope : ∀ m ∈ scope.members, Plain d m.2 := by
    cases scope with
    | param f i => simp [Scope.members, plain_ofNat (each_cons.mp placed).1]
    | _ => simp [Scope.members]
  simpa [toJson, plain_toJson] using scope

theorem Operand.plain_toJson (fine : Each Leaf.Fine o.leaves) : Plain (d + 1) o.toJson := by
  cases o with
  | var v => exact Variable.plain_toJson fine
  | const c => exact Constant.plain_toJson d c

theorem CallSignature.plain_toJson (d : Nat) (s : CallSignature) : Plain (d + 2) s.toJson := by
  have types (ts : List ContractType) : Plain (d + 1) (.arr (ts.map ContractType.toJson)) :=
    plain_map fun t _ => t.plain_toJson d
  simp only [toJson, plain_obj, List.forall_mem_cons, List.not_mem_nil, false_imp_iff, implies_true, and_true]
  exact ⟨plain_str _ _, types _, types _⟩

namespace Instruction

theorem plain_operands (fine : Each Leaf.Fine (os.flatMap Operand.leaves)) : Plain (d + 2) (operands os) :=
  plain_map fun o among => plain_toJson (each_flatMap.mp fine o among)

theorem plain_maybeTarget (fine : Each Leaf.Fine (target.toList.flatMap Variable.leaves)) :
    Plain (d + 1) (maybeTarget target) :=
  plain_ofOption fun v bound => Variable.plain_toJson (each_flatMap.mp fine v (Option.mem_toList.mpr bound))

theorem plain_toJson (fine : Each Leaf.Fine i.leaves) : Plain (d + 3) i.toJson := by
  cases i <;>
    simp only [leaves, operandLeaves, each_append, each_cons] at fine <;>
    simp [-each_flatMap, toJson, record, fine, Variable.plain_toJson, Operand.plain_toJson, CallSignature.plain_toJson,
      plain_operands, plain_maybeTarget, plain_ofNat]

end Instruction

theorem Node.plain_toJson (fine : Each Leaf.Fine n.leaves) : Plain (d + 5) n.toJson := by
  simp only [leaves, each_cons, each_append, each_flatMap, each_map, Option.mem_toList] at fine
  obtain ⟨id, ⟨⟨⟨instructions, sons⟩, sonTrue⟩, sonFalse⟩, declared⟩ := fine
  simp only [toJson, plain_obj, List.forall_mem_cons, List.not_mem_nil, false_imp_iff, implies_true, and_true]
  exact ⟨plain_ofNat id, plain_str _ _, plain_map fun i among => Instruction.plain_toJson (instructions i among),
    plain_map fun n among => plain_ofNat (sons n among), plain_ofOption fun n bound => plain_ofNat (sonTrue n bound),
    plain_ofOption fun n bound => plain_ofNat (sonFalse n bound),
    plain_ofOption fun v bound => Variable.plain_toJson (declared v bound)⟩

theorem Function.plain_toJson (fine : Each Leaf.Fine f.leaves) : Plain (d + 7) f.toJson := by
  simp only [leaves, each_cons, each_append, each_flatMap] at fine
  obtain ⟨entry, _, nodes⟩ := fine
  have param (p : Param) : Plain (d + 5) (paramJson p) := by simp [paramJson, ContractType.plain_toJson]
  simp only [toJson, plain_obj, List.forall_mem_cons, List.not_mem_nil, false_imp_iff, implies_true, and_true]
  exact ⟨plain_str _ _, plain_map fun p _ => param p, plain_map fun t _ => t.plain_toJson _, plain_str _ _,
    plain_str _ _, plain_bool _ _, plain_ofNat entry, plain_map fun n among => Node.plain_toJson (nodes n among),
    plain_ofOption fun s _ => plain_str _ s⟩

theorem StateVariable.plain_toJson (d : Nat) (v : StateVariable) : Plain (d + 2) v.toJson := by
  have initializer : Plain (d + 1) (.ofOption Constant.toJson v.initializer) :=
    plain_ofOption fun c _ => c.plain_toJson d
  simp [toJson, ContractType.plain_toJson, initializer]

theorem EventDecl.plain_toJson (d : Nat) (e : EventDecl) : Plain (d + 3) e.toJson := by
  have param (p : EventParam) : Plain (d + 1) (paramJson p) := by simp [paramJson, ContractType.plain_toJson]
  simp [toJson, param]

theorem Contract.plain_toJson (fine : Each Leaf.Fine c.leaves) : Plain (d + 9) c.toJson := by
  simp only [leaves, each_append, each_flatMap] at fine
  obtain ⟨⟨_, functions⟩, _⟩ := fine
  simp only [toJson, plain_obj, List.forall_mem_cons, List.not_mem_nil, false_imp_iff, implies_true, and_true]
  exact ⟨plain_str _ _, plain_str _ _, plain_map fun v _ => v.plain_toJson _,
    plain_map fun f among => Function.plain_toJson (functions f among), plain_map fun e _ => e.plain_toJson _⟩

theorem Program.plain_toJson (fine : Each Leaf.Fine p.leaves) : Plain 11 p.toJson := by
  have contracts : Plain 10 (.arr (p.contracts.map Contract.toJson)) :=
    plain_map fun c among => Contract.plain_toJson (each_flatMap.mp fine c among)
  simpa [toJson] using contracts

theorem Json.entire_plain (plain : Plain d j) (decode : Json → Option α) : entire decode j = decode j := by
  rw [entire, if_pos plain.usable]

theorem Json.nat?_ofNat (n : Nat) : nat? (.ofNat n) = some n := rfl

theorem ContractType.ofJson?_toJson {t : ContractType} (fine : (Leaf.type t).Fine) : ofJson? t.toJson = some t :=
  read?_render fine.1 fine.2

theorem Constant.ofJson?_toJson (c : Constant) : ofJson? c.toJson = some c := by
  cases c with
  | bool b | str s => rfl
  | int i =>
    rw [toJson]
    split
    · rfl
    · show (readLiteral (toString i)).map Constant.int = _
      rw [readLiteral_toString, Option.map_some]

theorem Constant.toJson_ne_null (c : Constant) : c.toJson ≠ .null := by
  cases c with
  | int i =>
    rw [toJson]
    split <;> simp
  | _ => simp [toJson]

theorem Variable.ofJson?_toJson (fine : Each Leaf.Fine v.leaves) : ofJson? v.toJson = some v := by
  obtain ⟨name, scope, type⟩ := v
  have typed : ContractType.ofJson? type.toJson = some type := ContractType.ofJson?_toJson (each_cons.mp fine).1
  cases scope <;>
    simp [toJson, ofJson?, members?, required, typed, Scope.members, Scope.ofMembers?, tagged, tagOf, Scope.tags,
      find?_cons, string?, nat?_ofNat]

theorem Operand.ofJson?_toJson (fine : Each Leaf.Fine o.leaves) : ofJson? o.toJson = some o := by
  cases o with
  | var v =>
    show ((Variable.ofJson? v.toJson).map var).or _ = _
    rw [Variable.ofJson?_toJson fine]
    rfl
  | const c =>
    -- no constant is written with a name
    have noVariable : Variable.ofJson? c.toJson = none := by
      cases c with
      | bool b | str s => rfl
      | int i =>
        rw [Constant.toJson]
        split
        · rfl
        · rfl
    show ((Variable.ofJson? c.toJson).map var).or ((Constant.ofJson? c.toJson).map const) = _
    rw [noVariable, Constant.ofJson?_toJson]
    rfl

theorem CallSignature.ofJson?_toJson {s : CallSignature} (fine : Each Leaf.Fine s.leaves) :
    ofJson? s.toJson = some s := by
  obtain ⟨params, returns⟩ := each_append.mp fine
  have params := list?_map fun t among => ContractType.ofJson?_toJson (each_map.mp params t among)
  have returns := list?_map fun t among => ContractType.ofJson?_toJson (each_map.mp returns t among)
  simp [toJson, ofJson?, record?, required, string?, params, returns]

namespace Instruction

theorem list?_operands (fine : Each Leaf.Fine (os.flatMap Operand.leaves)) :
    list? Operand.ofJson? (operands os) = some os :=
  list?_map fun o among => ofJson?_toJson (each_flatMap.mp fine o among)

theorem nullable?_maybeTarget (fine : Each Leaf.Fine (target.toList.flatMap Variable.leaves)) :
    nullable? Variable.ofJson? (maybeTarget target) = some target :=
  nullable?_ofOption (fun v _ => by simp [Variable.toJson]) fun v bound =>
    Variable.ofJson?_toJson (each_flatMap.mp fine v (Option.mem_toList.mpr bound))

theorem ofJson?_toJson (fine : Each Leaf.Fine i.leaves) : ofJson? i.toJson = some i := by
  cases i <;>
    simp only [leaves, operandLeaves, each_append, each_cons] at fine <;>
    simp [-each_flatMap, toJson, record, ofJson?, choice, tagged, tagOf, tags, find?_cons, ofMembers?, required, varAt?,
      operand?, operands?, maybeTarget?, Json.optional, string?, bool?, nat?_ofNat, fine, Variable.ofJson?_toJson,
      Operand.ofJson?_toJson, CallSignature.ofJson?_toJson, list?_operands, nullable?_maybeTarget]

end Instruction

theorem Node.ofJson?_toJson (fine : Each Leaf.Fine n.leaves) : ofJson? n.toJson = some n := by
  simp only [leaves, each_cons, each_append, each_flatMap, each_map, Option.mem_toList] at fine
  obtain ⟨_, ⟨⟨⟨instructions, _⟩, _⟩, _⟩, declared⟩ := fine
  have instructions : list? (entire Instruction.ofJson?) (.arr (n.instructions.map Instruction.toJson)) =
      some n.instructions := by
    refine list?_map fun i among => ?_
    rw [entire_plain (Instruction.plain_toJson (d := 0) (instructions i among))]
    exact Instruction.ofJson?_toJson (instructions i among)
  have sons : list? nat? (.arr (n.sons.map .ofNat)) = some n.sons := list?_map fun n _ => nat?_ofNat n
  have son (o : Option Nat) : nullable? nat? (.ofOption .ofNat o) = some o :=
    nullable?_ofOption (fun n _ => by simp [Json.ofNat]) fun n _ => nat?_ofNat n
  have declared : nullable? (entire Variable.ofJson?) (.ofOption Variable.toJson n.declared) = some n.declared := by
    refine nullable?_ofOption (fun v _ => by simp [Variable.toJson]) fun v bound => ?_
    rw [entire_plain (Variable.plain_toJson (d := 0) (declared v bound))]
    exact Variable.ofJson?_toJson (declared v bound)
  simp [toJson, ofJson?, record?, required, Json.optional, nat?_ofNat, instructions, sons, son, declared]

theorem StateVariable.ofJson?_toJson {v : StateVariable} (fine : (Leaf.type v.type).Fine) :
    ofJson? v.toJson = some v := by
  have initializer : nullable? (entire Constant.ofJson?) (.ofOption Constant.toJson v.initializer) =
      some v.initializer := by
    refine nullable?_ofOption (fun c _ => c.toJson_ne_null) fun c _ => ?_
    rw [entire_plain (c.plain_toJson 0), c.ofJson?_toJson]
  simp [toJson, ofJson?, record?, required, Json.optional, string?, ContractType.ofJson?_toJson fine, initializer]

theorem EventDecl.ofJson?_toJson {e : EventDecl} (fine : ∀ p ∈ e.params, (Leaf.type p.type).Fine) :
    ofJson? e.toJson = some e := by
  have params : list? param? (.arr (e.params.map paramJson)) = some e.params := by
    refine list?_map fun p among => ?_
    simp [paramJson, param?, record?, required, string?, bool?, ContractType.ofJson?_toJson (fine p among)]
  simp [toJson, ofJson?, record?, required, string?, params]

theorem Function.ofJson?_toJson (fine : Each Leaf.Fine f.leaves) : ofJson? f.toJson = some f := by
  simp only [leaves, each_cons, each_append, each_flatMap, each_map] at fine
  obtain ⟨_, ⟨params, returns⟩, nodes⟩ := fine
  have params : list? paramOfJson? (.arr (f.params.map paramJson)) = some f.params := by
    refine list?_map fun p among => ?_
    simp [paramJson, paramOfJson?, record?, required, string?, ContractType.ofJson?_toJson (params p among)]
  have returns := list?_map fun t among => ContractType.ofJson?_toJson (returns t among)
  have nodes := list?_map fun n among => Node.ofJson?_toJson (nodes n among)
  have source : nullable? string? (.ofOption .str f.source) = some f.source :=
    nullable?_ofOption (fun s _ => by simp) fun s _ => rfl
  simp [toJson, ofJson?, record?, required, Json.optional, string?, bool?, nat?_ofNat, params, returns, nodes, source]

theorem Contract.ofJson?_toJson (fine : Each Leaf.Fine c.leaves) : ofJson? c.toJson = some c := by
  simp only [leaves, each_append, each_flatMap, each_map] at fine
  obtain ⟨⟨stateVariables, functions⟩, events⟩ := fine
  have stateVariables := list?_map fun v among => StateVariable.ofJson?_toJson (stateVariables v among)
  have functions := list?_map fun f among => Function.ofJson?_toJson (functions f among)
  have events := list?_map fun e among => EventDecl.ofJson?_toJson (events e among)
  simp [toJson, ofJson?, record?, required, string?, stateVariables, functions, events]

theorem Program.ofJson?_toJson (fine : Each Leaf.Fine p.leaves) : ofJson? p.toJson = some p := by
  have contracts := list?_map fun c among => Contract.ofJson?_toJson (each_flatMap.mp fine c among)
  simp [toJson, ofJson?, record?, contracts]

theorem Program.each_fine (sound : Each Leaf.Sound p.leaves)
    (plain : ∀ t ∈ p.types, ∀ n ∈ t.names, settle n = n) : Each Leaf.Fine p.leaves := by
  intro q among
  cases q with
  | type t => exact ⟨sound _ among, plain t (List.mem_filterMap.mpr ⟨_, among, rfl⟩)⟩
  | count n => exact sound _ among

theorem Program.ofJson_eq_ok (decoded : ofJson j = .ok p) : ofJson? j = some p ∧ p.fault? = none := by
  unfold ofJson at decoded
  split at decoded
  · cases decoded
  · rename_i q made
    split at decoded
    · cases decoded
    · rename_i faultless
      cases decoded
      exact ⟨made, faultless⟩

/-- A program that was read from a document, all of whose type names are as reading leaves them, is read again from
the text that is written for it; and every constant is read again from its own text. -/
theorem Program.read_written :
    (∀ (text : String) (p : Program), read text = .ok p →
      (∀ t ∈ p.types, ∀ n ∈ t.names, settle n = n) →
        ofJson p.toJson = .ok p ∧ read p.toJson.compact = .ok p) ∧
    ∀ c : Constant, Constant.ofJson? c.toJson = some c ∧
      (Json.scan c.toJson.compact).bind (entire Constant.ofJson?) = some c := by
  refine ⟨fun text p reads plain => ?_, fun c => ⟨c.ofJson?_toJson, ?_⟩⟩
  · unfold read at reads
    split at reads
    · rename_i j scans
      obtain ⟨decoded, faultless⟩ := ofJson_eq_ok reads
      have fine : Each Leaf.Fine p.leaves := each_fine (yields_ofJson? (bounded_scan scans) decoded) plain
      have again : ofJson p.toJson = .ok p := by
        rw [ofJson, ofJson?_toJson fine]
        simp only [faultless]
      refine ⟨again, ?_⟩
      rw [read, scan_compact (plain_toJson fine) (by decide)]
      exact again
    · cases reads
  · rw [scan_compact (c.plain_toJson 0) (by decide)]
    show entire Constant.ofJson? c.toJson = some c
    rw [entire_plain (c.plain_toJson 0), c.ofJson?_toJson]

def cappedText : String :=
  "\x7b\"contracts\":[\x7b\"name\":\"C\",\"state_variables\":[\x7b\"name\":\"cap\",\"type\":\"enum Cap[]\"," ++
    "\"initializer\":\x7b\"int\":\"36893488147419103232\"\x7d\x7d]\x7d]\x7d"

theorem Program.capped_read_written :
    ∃ p, read cappedText = .ok p ∧ p.types = [.array (.named "Cap") none] ∧
      (∀ t ∈ p.types, ∀ n ∈ t.names, settle n = n) ∧ ofJson p.toJson = .ok p ∧
        read p.toJson.compact = .ok p := by
  have shown : (read cappedText).toOption.map types = some [.array (.named "Cap") none] := by
    decide +kernel
  obtain ⟨p, read, types⟩ := Option.map_eq_some_iff.mp shown
  have read : Program.read cappedText = .ok p := ok_of_toOption read
  have plain : ∀ t ∈ p.types, ∀ n ∈ t.names, settle n = n := by
    rw [types]
    decide +kernel
  exact ⟨p, read, types, plain, read_written.1 cappedText p read plain⟩

end TokenAudit
