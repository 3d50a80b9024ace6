import Mathlib.Data.List.Forall2
import TokenAudit.Proofs.Verify.Registration

/-!
# Prepared paths

Every prepared path comes from a starting path by setting up the check on it, and every starting path from the
entry of the function, by registrations and a number of its own.
-/

namespace TokenAudit

open List

namespace Prepare

open Resolve

variable {K : Interest → Prop} (S : Subject) {α β : Type} {as : List α} {bs : List β} {contract : String}
  {target : Target} {check : Check} {prepared : Prepared} {program : Option Program} {config : Config} (c : Contract)

theorem assumeUnsigned_registers (p : Path) (value : Value) (type : ContractType) :
    Registrations K p (p.assumeUnsigned value type) := by
  rcases Machine.assumeUnsigned_cases p value type with same | ⟨_, _, _, _, same⟩ <;> rw [same]
  · exact .refl
  · exact .single (.assume p _)

theorem readUnsigned_registers (p : Path) (v : Variable) : Registrations K p (p.readUnsigned c v) :=
  .head (.read p c v) (assumeUnsigned_registers _ _ _)

theorem readAll_registers (vars : List Variable) (p : Path) :
    Registrations K p (vars.foldl (Path.readUnsigned c) p) := by
  induction vars generalizing p with
  | nil => exact .refl
  | cons v rest ih => exact (readUnsigned_registers c p v).trans (ih _)

theorem seed_registers (p : Path) : Registrations K p (S.seed p) := by
  unfold Subject.seed Path.seed
  exact (((readAll_registers S.contract _ p).tail (.read _ _ _)).tail (.read _ _ _)).trans
    (readUnsigned_registers _ _ _)

theorem basePath_seeds {r r' : Resolution} {u : Unit} (resolves : Resolves (basePath S) r u r') :
    Registrations K (S.seed r.path) r'.path := by
  obtain ⟨_, s, seeds, rest⟩ := resolves_bind.mp resolves
  have accounts : Registers K (do
      onPath fun p => { p with calledFunctions := p.calledFunctions.insert S.function.name }
      let sender ← read S .sender
      let this ← read S .this
      assume (← sorted (Term.mkNe sender .zero))
      assume (← sorted (Term.mkNe sender this))
      assume (← sorted (Term.mkNe this .zero))) :=
    .bind (registers_onPath fun p => .visit p _) fun _ => .bind (read_registers S _) fun _ =>
      .bind (read_registers S _) fun _ => .bind (sorted_registers _) fun _ => .bind (assume_registers _) fun _ =>
      .bind (sorted_registers _) fun _ => .bind (assume_registers _) fun _ =>
      .bind (sorted_registers _) fun _ => assume_registers _
  rw [← resolves_modify.mp seeds] at rest
  exact (accounts rest).path

theorem assumeLengths_registers (length : Nat) (arrays : List Variable) :
    Registers K (assumeLengths S length arrays) := by
  induction arrays with
  | nil => exact registers_pure _
  | cons v rest ih =>
    exact .bind (read_registers S v) fun _ => .bind (sorted_registers _) fun _ =>
      .bind (assume_registers _) fun _ => ih

theorem forall₂_of_mapM {ε : Type} {f : α → Except ε β} (maps : as.mapM f = .ok bs) :
    List.Forall₂ (fun a b => f a = .ok b) as bs := by
  induction as generalizing bs with
  | nil =>
    cases maps
    exact .nil
  | cons a rest ih =>
    rw [mapM_cons] at maps
    obtain ⟨b, first, maps⟩ := bind_eq_ok_iff.mp maps
    obtain ⟨others, later, maps⟩ := bind_eq_ok_iff.mp maps
    cases maps
    exact .cons first (ih later)

variable {S}

structure Located (program : Program) (S : Subject) : Prop where
  same : S.program = program
  contract : program.contracts[S.id.contract]? = some S.contract
  function : program.function? S.id = some S.function

theorem subjectOf_located {program : Program} (found : subjectOf (some program) contract target = .ok S) :
    Located program S := by
  unfold subjectOf at found
  dsimp only at found
  split at found
  · cases found
  · rename_i k c among
    split at found
    · rename_i S' located
      cases found
      obtain ⟨j, _, among⟩ := Option.bind_eq_some_iff.mp among
      obtain ⟨_, listed, same⟩ := Option.map_eq_some_iff.mp among
      cases same
      obtain ⟨i, _, rest⟩ := Option.bind_eq_some_iff.mp located
      obtain ⟨f, here, built⟩ := Option.bind_eq_some_iff.mp rest
      cases built
      have listed : program.contracts[k]? = some c := listed
      exact ⟨rfl, listed, by simp only [Program.function?, listed, here]⟩
    · cases found

theorem allPaths_ends {starts : List Path} {before : Prepared}
    (prepares : allPaths S check starts before = .ok prepared) :
    prepared.subject = before.subject ∧ prepared.tracking = before.tracking ∧
      ∃ used later, used <+: starts ∧ prepared.paths = before.paths ++ later ∧
        List.Forall₂ (fun p q => ∃ expected, onePath S check p = .ok (.ready expected, q)) used later := by
  induction starts generalizing before with
  | nil =>
    cases prepares
    exact ⟨rfl, rfl, [], [], nil_prefix, (append_nil _).symm, .nil⟩
  | cons p rest ih =>
    unfold allPaths at prepares
    split at prepares
    · cases prepares
    · cases prepares
      exact ⟨rfl, rfl, [], [], nil_prefix, (append_nil _).symm, .nil⟩
    · rename_i expected q one
      obtain ⟨subject, tracking, used, later, initial, paths, ready⟩ := ih prepares
      refine ⟨subject, tracking, p :: used, q :: later, cons_prefix_cons.mpr ⟨rfl, initial⟩, ?_,
        .cons ⟨expected, one⟩ ready⟩
      rw [paths, append_assoc, singleton_append]

theorem prepare_ends (prepares : prepare program config contract target check = .ok prepared) :
    subjectOf program contract target = .ok prepared.subject ∧ prepared.tracking = check.tracking ∧
      ∃ starts used, startPaths prepared.subject config check = .ok starts ∧ used <+: starts ∧
        List.Forall₂ (fun p q => ∃ expected, onePath prepared.subject check p = .ok (.ready expected, q)) used
          prepared.paths := by
  obtain ⟨S, located, prepares⟩ := bind_eq_ok_iff.mp prepares
  obtain ⟨starts, started, prepares⟩ := bind_eq_ok_iff.mp prepares
  obtain ⟨rfl, tracking, used, later, initial, paths, ready⟩ := allPaths_ends prepares
  exact ⟨located, tracking, starts, used, started, initial, paths ▸ ready⟩

theorem prepare_registers (permits : check.Permits K)
    (prepares : prepare program config contract target check = .ok prepared) :
    subjectOf program contract target = .ok prepared.subject ∧
      ∃ starts used, startPaths prepared.subject config check = .ok starts ∧ used <+: starts ∧
        List.Forall₂ (Registrations K) used prepared.paths := by
  obtain ⟨located, _, starts, used, started, initial, ready⟩ := prepare_ends prepares
  refine ⟨located, starts, used, started, initial, ready.imp fun p q one => ?_⟩
  obtain ⟨expected, one⟩ := one
  exact onePath_registers prepared.subject permits one

section

variable {starts : List Path} {base p : Path} {id n : Nat}

theorem withLength_ends (built : withLength S base id n = .ok p) :
    ∃ r, Resolves (assumeLengths S n (arrayParams S.function))
      (.start { base.fork id with arrayLength := some n }) () r ∧ r.path = p := by
  unfold withLength at built
  split at built
  rename_i result r runs
  cases result with
  | error e => cases built
  | ok u => exact ⟨r, runs, Except.ok.inj built⟩

theorem startPaths_ends (started : startPaths S config check = .ok starts) :
    ∃ base, Resolves (basePath S) (.start S.entryPath) () base ∧ (starts = [base.path] ∨ arrayParams S.function ≠ [] ∧
      Forall₂ (fun sized p => withLength S base.path sized.2 sized.1 = .ok p) (lengthsFor config check).zipIdx
        starts) := by
  unfold startPaths at started
  split at started
  rename_i result base runs
  cases result with
  | error e => cases started
  | ok u =>
    refine ⟨base, runs, ?_⟩
    dsimp only at started
    split at started
    · exact .inl (Except.ok.inj started).symm
    · rename_i some
      exact .inr ⟨fun none => some (isEmpty_iff.mpr none), forall₂_of_mapM started⟩

variable {R : Path → Path → Prop} [Std.Refl R] [Trans R R R] (registered : ∀ p q, Registration K p q → R p q)
  (numbered : ∀ (p : Path) id n, R p { p.fork id with arrayLength := some n })

include registered numbered

theorem withLength_lift (built : withLength S base id n = .ok p) : R base p := by
  obtain ⟨r, resolves, rfl⟩ := withLength_ends built
  exact Trans.trans (numbered base id n) ((assumeLengths_registers S n _ resolves).path.lift registered)

theorem startPaths_seeded (started : startPaths S config check = .ok starts) :
    ∀ p ∈ starts, R (S.seed S.entryPath) p := by
  obtain ⟨base, resolves, started⟩ := startPaths_ends started
  have entered : R (S.seed S.entryPath) base.path := (basePath_seeds S resolves).lift registered
  rcases started with rfl | ⟨-, started⟩
  · exact forall_mem_singleton.mpr entered
  · intro p member
    obtain ⟨_, _, built⟩ := exists_of_mem_right started member
    exact Trans.trans entered (withLength_lift registered numbered built)

theorem startPaths_lift (started : startPaths S config check = .ok starts) : ∀ p ∈ starts, R S.entryPath p :=
  fun p member => Trans.trans ((seed_registers S S.entryPath).lift registered)
    (startPaths_seeded registered numbered started p member)

theorem prepare_seeded (permits : check.Permits K)
    (prepares : prepare program config contract target check = .ok prepared) :
    ∀ p ∈ prepared.paths, R (prepared.subject.seed prepared.subject.entryPath) p := by
  intro p member
  obtain ⟨_, starts, used, started, initial, registrations⟩ := prepare_registers permits prepares
  obtain ⟨start, among, later⟩ := exists_of_mem_right registrations member
  exact Trans.trans (startPaths_seeded registered numbered started start (initial.subset among))
    (later.lift registered)

theorem prepare_lift (permits : check.Permits K)
    (prepares : prepare program config contract target check = .ok prepared) :
    ∀ p ∈ prepared.paths, R prepared.subject.entryPath p :=
  fun p member => Trans.trans ((seed_registers prepared.subject _).lift registered)
    (prepare_seeded registered numbered permits prepares p member)

end

theorem prepare_ensures {Q : Path → Prop} [Lasting Q] (ensures : ∀ S opts, Ensures Q (setup S opts check))
    (prepares : prepare program config contract target check = .ok prepared) : ∀ p ∈ prepared.paths, Q p := by
  intro p member
  obtain ⟨_, _, _, _, _, _, ready⟩ := prepare_ends prepares
  obtain ⟨start, _, expected, one⟩ := exists_of_mem_right ready member
  exact onePath_ensures prepared.subject (ensures prepared.subject) one

theorem prepared_running (prepares : prepare program config contract target check = .ok prepared) :
    ∀ p ∈ prepared.paths, p.status = .running := by
  intro p member
  have same := prepare_lift (fun _ _ => Registration.status) (fun _ _ _ => rfl) check.permits_all prepares p member
  exact same.symm

end Prepare

end TokenAudit
