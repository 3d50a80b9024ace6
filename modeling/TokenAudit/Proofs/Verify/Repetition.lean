import TokenAudit.Proofs.Verify.Resolution

/-!
# Resolving again

A selector or a condition that was resolved on a path stands for the same term on every extension of it (`Steady`).
-/

namespace TokenAudit

open List

namespace OrdSet

variable {a : Nat} {as : List Nat}

theorem insertInto_cons (a b : Nat) (rest : List Nat) : insertInto a (b :: rest) =
    if a < b then a :: b :: rest else if a = b then b :: rest else b :: insertInto a rest := by
  rw [insertInto]
  split <;> split at * <;> grind

theorem insertInto_again (a : Nat) (as : List Nat) : insertInto a (insertInto a as) = insertInto a as := by
  induction as with
  | nil => simp [insertInto, insertInto_cons]
  | cons b rest ih =>
    rw [insertInto_cons]
    split
    · simp [insertInto_cons]
    · split <;> simp_all [insertInto_cons]

theorem insertInto_stays (placed : insertInto a as = as) (b : Nat) :
    insertInto a (insertInto b as) = insertInto b as := by
  induction as with
  | nil => cases placed
  | cons c rest ih => grind [insertInto_cons]

end OrdSet

namespace Path

variable {p q r : Path}

/-- The path but for its bindings, its constraints and the variables that it tracks. -/
def bareOfReading (p : Path) : Path :=
  { p with bindings := .empty, constraints := .empty, varsTracked := .empty, checkTracked := [] }

/-- Bindings, constraints and tracked variables were added, the constraints behind the old ones, and nothing else has
changed. -/
structure GrowsInto (p q : Path) : Prop where
  bindings : ∀ v x, p.bindings.get? v = some x → q.bindings.get? v = some x
  constraints : p.constraints.terms <+: q.constraints.terms
  written : p.varsTracked.toList ⊆ q.varsTracked.toList
  placed : ∀ i, p.varsTracked.insert i = p.varsTracked → q.varsTracked.insert i = q.varsTracked
  checked : p.checkTracked ⊆ q.checkTracked
  others : q.bareOfReading = p.bareOfReading

theorem GrowsInto.refl (p : Path) : p.GrowsInto p :=
  ⟨fun _ _ bound => bound, prefix_refl _, List.Subset.refl _, fun _ placed => placed, List.Subset.refl _, rfl⟩

theorem GrowsInto.trans (first : p.GrowsInto q) (second : q.GrowsInto r) : p.GrowsInto r :=
  ⟨fun v x bound => second.bindings v x (first.bindings v x bound), first.constraints.trans second.constraints,
    List.Subset.trans first.written second.written, fun i placed => second.placed i (first.placed i placed),
    List.Subset.trans first.checked second.checked, second.others.trans first.others⟩

theorem GrowsInto.symbolBase (extension : p.GrowsInto q) (v : VarId) : q.symbolBase v = p.symbolBase v := by
  have entry : q.entryName = p.entryName :=
    show q.bareOfReading.entryName = p.bareOfReading.entryName from congrArg entryName extension.others
  unfold Path.symbolBase
  rw [entry]

theorem grows_assume (p : Path) (t : Term) : p.GrowsInto (p.assume t) := by
  refine { GrowsInto.refl p with constraints := ?_, others := rfl }
  rw [Path.assume, ConstraintLog.terms_push]
  split
  · exact prefix_refl _
  · exact prefix_append ..

theorem grows_pinInitial (p : Path) (c : Contract) (v : Variable) (value : Value) :
    p.GrowsInto (p.pinInitial c v value) := by
  unfold pinInitial
  split
  · split
    · split
      · exact p.grows_assume _
      · exact .refl p
    · exact .refl p
  · exact .refl p

theorem grows_read (p : Path) (c : Contract) (v : Variable) :
    p.GrowsInto (p.read c v).2 ∧ (p.read c v).2.bindings.get? v.id = some (p.read c v).1 := by
  unfold read
  split
  · rename_i value bound
    exact ⟨.refl p, bound⟩
  · rename_i free
    have pinned := p.grows_pinInitial c v (symbolFor (p.symbolBase v.id) v.type)
    refine ⟨{ pinned with bindings := fun w x bound => ?_, others := pinned.others }, by simp [Path.bind]⟩
    have other : v.id ≠ w := by
      rintro rfl
      cases free.symm.trans bound
    simpa [Path.bind, Table.get?_insert, other] using pinned.bindings w x bound

theorem grows_trackWrites (p : Path) (i : Nat) : p.GrowsInto { p with varsTracked := p.varsTracked.insert i } where
  bindings _ _ bound := bound
  constraints := prefix_refl _
  written _ member := (OrdSet.mem_insertInto ..).mpr (.inr member)
  placed _ placed := congrArg OrdSet.mk (OrdSet.insertInto_stays (OrdSet.mk.inj placed) i)
  checked := List.Subset.refl _
  others := rfl

theorem grows_trackChecks (p : Path) (v : VarId) :
    p.GrowsInto { p with checkTracked := insertNew v p.checkTracked } := by
  refine { GrowsInto.refl p with checked := ?_, others := rfl }
  unfold insertNew
  split
  · exact List.Subset.refl _
  · exact subset_append_left _ _

end Path

namespace Resolve

variable {α : Type} {S : Subject}

/-- Wherever the computation has succeeded it has extended the path, and on every extension of what it left it gives
the same and leaves the path as it is. -/
def Steady (Q : α → Prop) (x : ResolveM α) : Prop :=
  ∀ ⦃r : Resolution⦄ ⦃a r'⦄, Resolves x r a r' → Q a ∧ r.path.GrowsInto r'.path ∧
    ∀ again : Resolution, r'.path.GrowsInto again.path → ∃ s, Resolves x again a s ∧ s.path = again.path

theorem steady_modify {g : Resolution → Resolution} (grows : ∀ r : Resolution, r.path.GrowsInto (g r).path)
    (again : ∀ r s : Resolution, (g r).path.GrowsInto s.path → (g s).path = s.path) :
    Steady (fun _ => True) (modify g) := by
  intro r u r' resolves
  obtain rfl := resolves_modify.mp resolves
  exact ⟨trivial, grows r, fun s extension => ⟨g s, resolves_modify.mpr rfl, again r s extension⟩⟩

theorem steady_read (v : Variable) : Steady (fun _ => True) (read S v) := by
  intro r t r' resolves
  obtain ⟨value, rfl⟩ := resolves_read.mp resolves
  obtain ⟨grows, bound⟩ := r.path.grows_read S.contract v
  refine ⟨trivial, grows, fun again extension => ⟨again, ?_, rfl⟩⟩
  have reads : again.path.read S.contract v = (.term t, again.path) := by
    unfold Path.read
    rw [extension.bindings v.id _ bound, value]
  exact resolves_read.mpr (by rw [reads]; exact ⟨rfl, rfl⟩)

theorem steady_trackChecks (v : Variable) : Steady (fun _ => True) (do
    let fact := Fact.usedInCheck ((← get).path.symbolBase v.id)
    onPath fun p => { p with checkTracked := insertNew v.id p.checkTracked }
    pure fact.term) := by
  have tracks {r : Resolution} {t : Term} {r' : Resolution} : Resolves (do
      let fact := Fact.usedInCheck ((← get).path.symbolBase v.id)
      onPath fun p => { p with checkTracked := insertNew v.id p.checkTracked }
      pure fact.term) r t r' ↔ (Fact.usedInCheck (r.path.symbolBase v.id)).term = t ∧
        { r with path := { r.path with checkTracked := insertNew v.id r.path.checkTracked } } = r' := by
    show ((.ok _, _) : Except VerifyError Term × Resolution) = (.ok t, r') ↔ _
    rw [Prod.mk.injEq, Except.ok.injEq]
  intro r t r' resolves
  obtain ⟨rfl, rfl⟩ := tracks.mp resolves
  have grows := r.path.grows_trackChecks v.id
  refine ⟨trivial, grows, fun again extension => ⟨_, tracks.mpr ⟨?_, rfl⟩, ?_⟩⟩
  · rw [(grows.trans extension).symbolBase]
  · have listed : v.id ∈ again.path.checkTracked := by
      refine extension.checked ?_
      unfold insertNew
      split <;> simp_all
    rw [insertNew, if_pos listed]

theorem steadying : Composes fun _ Q x _ => Steady Q x where
  ok good r b r' resolves := by
    obtain ⟨rfl, rfl⟩ := resolves_pure.mp resolves
    exact ⟨good, .refl _, fun again _ => ⟨again, resolves_pure.mpr ⟨rfl, rfl⟩, rfl⟩⟩
  fail _ _ _ _ resolves := (resolves_throw resolves).elim
  seq first next r b r'' resolves := by
    obtain ⟨a, r', before, after⟩ := resolves_bind.mp resolves
    obtain ⟨good, grows, repeats⟩ := first before
    obtain ⟨good, grows', repeats'⟩ := next a good after
    refine ⟨good, grows.trans grows', fun again extension => ?_⟩
    obtain ⟨s, once, same⟩ := repeats again (grows'.trans extension)
    obtain ⟨s', twice, same'⟩ := repeats' s (same ▸ extension)
    exact ⟨s', resolves_bind.mpr ⟨a, s, once, twice⟩, same'.trans same⟩

theorem steadiness :
    Resolving S (fun _ => True) (fun _ => True) (fun _ => True) (fun _ _ => True) id fun _ Q x _ => Steady Q x where
  toComposes := steadying
  elementOf := steadying.ofElement any_vocabulary
  terms := any_vocabulary
  read _ := steady_read _
  note _ := steady_modify (fun r => .refl r.path) fun _ _ _ => rfl
  refer _ := steady_modify (fun r => .refl r.path) fun _ _ _ => rfl
  writes {i _} _ _ := by
    refine steady_modify (fun r => r.path.grows_trackWrites i) fun r s extension => ?_
    have placed := extension.placed i (congrArg OrdSet.mk (OrdSet.insertInto_again i _))
    show { s.path with varsTracked := s.path.varsTracked.insert i } = s.path
    rw [placed]
  checks _ _ := steady_trackChecks _

/-- Once a selector or a condition has been resolved, resolving it again on the path that was left gives the same term
and leaves the path as it is; the first time only bindings, constraints and tracked variables are added. -/
theorem resolution_idempotent (S : Subject) (opts : Reading) :
    (∀ (s : Selector) (r : Resolution) t r', Resolves (selector S opts s) r t r' → r.path.GrowsInto r'.path ∧
      ∀ again : Resolution, again.path = r'.path → ∃ last, Resolves (selector S opts s) again t last ∧
        last.path = r'.path) ∧
    ∀ (c : Condition) (r : Resolution) t r', Resolves (condition S opts c) r t r' → r.path.GrowsInto r'.path ∧
      ∀ again : Resolution, again.path = r'.path → ∃ last, Resolves (condition S opts c) again t last ∧
        last.path = r'.path := by
  have repeats {α : Type} {Q : α → Prop} {x : ResolveM α} (steady : Steady Q x) (r : Resolution) (a : α)
      (r' : Resolution) (resolves : Resolves x r a r') : r.path.GrowsInto r'.path ∧
      ∀ again : Resolution, again.path = r'.path → ∃ last, Resolves x again a last ∧ last.path = r'.path := by
    obtain ⟨_, grows, repeats⟩ := steady resolves
    refine ⟨grows, fun again same => ?_⟩
    obtain ⟨last, resolves, unchanged⟩ := repeats again (same ▸ .refl _)
    exact ⟨last, resolves, unchanged.trans same⟩
  exact ⟨fun s => repeats (steadiness.selector opts fun _ _ => trivial),
    fun c => repeats (steadiness.condition opts c.permits_all fun _ _ => trivial)⟩

def holding : Subject :=
  let c : Contract := { stateVariables := [
    ⟨"balances", .mapping .address .uint256, .publicAccess, none⟩, ⟨"shares", .uint256, .publicAccess, some (.int 7)⟩] }
  ⟨⟨[c]⟩, c, default, ⟨0, 0⟩⟩

def exceeding : Condition := .logic [.comparison (.stateVar "balances" [.msgSender]) (.stateVar "shares" []) .gt,
  .written (.stateVar "balances" []) .unspecified, .usedInCheck (.stateVar "balances" [])] .all

/-- The condition binds three variables, fixes the shares and tracks the balances, and resolving it again does nothing
more. -/
theorem exceeding_repeats : ∃ t r' last, Resolves (condition holding {} exceeding) (.start holding.entryPath) t r' ∧
    Resolves (condition holding {} exceeding) r' t last ∧ last.path = r'.path ∧ r'.path.bindings.entries.length = 3 ∧
      r'.path.constraints.terms.length = 1 ∧ r'.path.varsTracked.toList = [0] ∧ r'.path.checkTracked.length = 1 := by
  have computed : ((outcome (condition holding {} exceeding) (.start holding.entryPath)).1.toOption.isSome,
      (fun p : Path =>
        (p.bindings.entries.length, p.constraints.terms.length, p.varsTracked.toList, p.checkTracked.length))
        (outcome (condition holding {} exceeding) (.start holding.entryPath)).2.path) = (true, 3, 1, [0], 1) := by
    decide +kernel
  cases runs : outcome (condition holding {} exceeding) (.start holding.entryPath) with
  | mk result r' =>
    rw [runs] at computed
    simp only [Prod.mk.injEq] at computed
    obtain ⟨given, counts⟩ := computed
    obtain ⟨t, given⟩ := Option.isSome_iff_exists.mp given
    cases ok_of_toOption given
    obtain ⟨_, again⟩ := (resolution_idempotent holding {}).2 exceeding (.start holding.entryPath) t r' runs
    obtain ⟨last, repeats, same⟩ := again r' rfl
    exact ⟨t, r', last, runs, repeats, same, counts⟩

end Resolve

end TokenAudit
