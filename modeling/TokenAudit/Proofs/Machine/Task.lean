import TokenAudit.Proofs.Machine.Steps

/-!
# What no step changes

The task of a path: its number, its status, its entry, what is required of it and what is tracked on it.
-/

namespace TokenAudit

def Path.SameTask (p q : Path) : Prop := q.task = p.task

instance : Std.Refl Path.SameTask := ⟨fun _ => rfl⟩

instance : Trans Path.SameTask Path.SameTask Path.SameTask := ⟨fun first second => second.trans first⟩

theorem Path.SameTask.status {p q : Path} (same : p.SameTask q) : q.status = p.status := by
  have equal := congrArg Path.status same
  exact equal

theorem Path.SameTask.required {p q : Path} (same : p.SameTask q) : q.required = p.required := by
  have equal := congrArg Path.required same
  exact equal

theorem Path.SameTask.buggy {p q : Path} (same : p.SameTask q) : q.buggy = p.buggy := by
  have equal := congrArg Path.buggy same
  exact equal

namespace Machine

theorem Change.sameTask {K : Part → Prop} {p q : Path} (change : Change K p q) : p.SameTask q := by
  cases change <;> rfl

theorem read_sameTask (p : Path) (c : Contract) (v : Variable) : p.SameTask (p.read c v).2 :=
  (path_read_changes (K := fun _ => False) p c v).lift fun _ _ => Change.sameTask

theorem step_sameTask {M : Machine} : Always Path.SameTask M.step :=
  step_always (fun _ _ _ => Change.sameTask) (fun _ _ => rfl) (fun _ _ => rfl) (fun _ _ => rfl)

end Machine

end TokenAudit
