import TokenAudit.Proofs.Verify.Exploration

/-!
# Where explored paths come from

The exploration adds to a path nothing but assumptions, a place, a status and a number (`Move`); all else is done by
steps.
-/

namespace TokenAudit.Explore

variable {p q : Path} {way : Successor} {may : Saying} {M : Machine} {goesOn : Bool}

inductive Move : Path → Path → Prop
  | assume (p : Path) (t : Term) : Move p (p.assume t)
  | place (p : Path) (location : Option Location) : Move p { p with location := location }
  | settle (p : Path) (status : Status) : Move p { p with status := status }
  | renumber (p : Path) (id : Nat) : Move p (p.fork id)

def Moves : Path → Path → Prop := Relation.ReflTransGen Move

theorem Moves.lift {R : Path → Path → Prop} [Std.Refl R] [Trans R R R] (holds : ∀ p q, Move p q → R p q)
    (moves : Moves p q) : R p q :=
  Relation.reflTransGen_le_of_le holds p q moves

theorem endAs_moves (p : Path) (status : Status) : Moves p (p.endAs status) :=
  .tail (.single (.settle p status)) (.place _ none)

theorem assumeEdge_moves (p : Path) (constraint : Option Term) : Moves p (p.assumeEdge constraint) := by
  cases constraint with
  | none => exact .refl
  | some t => exact .single (.assume p t)

theorem Took.moves {said : Except SolverError Bool} (took : Took may way p said q) :
    Moves (p.assumeEdge way.constraint?) q := by
  cases took with
  | threw | finished => exact (endAs_moves _ _).tail (.assume _ _)
  | went => exact .single (.place _ _)
  | dropped => exact endAs_moves _ _
  | failed => exact .refl

theorem Copied.moves (copied : Copied may p way (q, goesOn)) :
    Moves (p.assumeEdge way.constraint?) q ∨ goesOn = false ∧ ∃ id, q = p.fork id := by
  cases copied with
  | untaken id => exact .inr ⟨rfl, id, rfl⟩
  | took id took _ =>
    refine .inl (.trans (.single ?_) took.moves)
    cases way.constraint? with
    | none => exact .renumber p id
    | some t => exact .renumber (p.assume t) id

theorem Copied.descends (copied : Copied may p way (q, goesOn)) : Moves p q := by
  rcases copied.moves with moves | ⟨_, id, rfl⟩
  · exact (assumeEdge_moves _ _).trans moves
  · exact .single (.renumber p id)

theorem Expanded.descends (expanded : Expanded may M p q goesOn) :
    (∃ cause, q.status = .failed cause) ∨ ∃ ways r, Machine.Runs M.step p ways r ∧ Moves r q := by
  cases expanded with
  | broken | failed | halted => exact .inl ⟨_, rfl⟩
  | unmet runs => exact .inr ⟨_, _, runs, endAs_moves _ _⟩
  | stuck runs => exact .inr ⟨_, _, runs, .refl⟩
  | copied runs member copied => exact .inr ⟨_, _, runs, copied.descends⟩

/-- The path has failed, or the relation holds between one of the starting paths and it. -/
def Descends (R : Path → Path → Prop) (starts : List Path) (q : Path) : Prop :=
  (∃ cause, q.status = .failed cause) ∨ ∃ p ∈ starts, R p q

variable {R : Path → Path → Prop} [Std.Refl R] [Trans R R R]

/-- What steps and moves keep, every explored path that has not failed has from a starting path. -/
theorem explore_descends {σ : Type} {solver : Solver (StateM σ)} {clock : Clock (StateM σ)} {config : Config}
    {prepared : Prepared} (steps : Machine.Always R (prepared.machine config).step)
    (moves : ∀ p q, Move p q → R p q) (running : ∀ p ∈ prepared.paths, p.status = .running) {w w' : σ}
    {final : List Path} (explores : Returns (explore solver clock config prepared) w final w') :
    ∀ q ∈ final, Descends R prepared.paths q := by
  obtain ⟨started, v, _, explores⟩ := explores.of_bind
  obtain ⟨u, descend, ends⟩ := search_keeps (I := fun s => ∀ x q, s.paths[x]? = some q → Descends R prepared.paths q)
    (fun {s i rest p first later} formed pending found descend expands x q there => by
      obtain ⟨placed, settled⟩ := formed.placed.pop pending
      have inRange := (List.getElem?_eq_some_iff.mp found).1
      rcases Search.replace_found placed settled inRange there with ⟨_, old, _⟩ | ⟨goesOn, site, _⟩
      · exact descend x q old
      · refine (expands.expanded (Search.mem_of_site site)).descends.imp_right fun ⟨ways, r, runs, last⟩ => ?_
        obtain ⟨_, here, status⟩ := formed.head pending
        cases found.symm.trans here
        rcases descend i p found with ⟨cause, failed⟩ | ⟨start, among, before⟩
        · rw [status] at failed
          cases failed
        · exact ⟨start, among, Trans.trans (Trans.trans before (steps runs)) (last.lift moves)⟩)
    (Search.wellFormed_start running) (fun x q there => .inr ⟨q, List.mem_of_getElem? there, Std.Refl.refl q⟩) explores
  intro q member
  obtain ⟨x, found⟩ := List.getElem?_of_mem member
  rcases ends with ⟨rfl, _⟩ | ⟨b, rfl⟩
  · exact descend x q found
  · rcases Search.giveUp_found found with ⟨p, _, _, rfl⟩ | ⟨_, old⟩
    · exact .inl ⟨_, rfl⟩
    · exact descend x q old

end TokenAudit.Explore
