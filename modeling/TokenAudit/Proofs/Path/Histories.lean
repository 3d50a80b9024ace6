import Mathlib.Data.List.Basic
import TokenAudit.Constraints

/-!
# Histories of constraint logs

What was pushed onto each log of a pool, with the time of each push; a copy starts with the history of its original.
-/

namespace TokenAudit

open List

namespace LogPool

inductive Move where
  | push (log : Nat) (t : Term)
  | clone (log : Nat)

def move (pool : LogPool) : Move → LogPool
  | .push i t => pool.push i t
  | .clone i => pool.clone i

def run (moves : List Move) : LogPool := moves.foldl move initial

/-- What was entered in a log or, before it was made, in those it was copied from. -/
abbrev History := List (Nat × Term)

def record (hs : List History) (time : Nat) : Move → List History
  | .push i t => if t = .bool true then hs else hs.modify i (· ++ [(time, t)])
  | .clone i => hs ++ hs[i]?.toList

/-- The histories of all logs when more moves follow, the first of them at a given time. -/
def historiesFrom (hs : List History) (time : Nat) : List Move → List History
  | [] => hs
  | m :: rest => historiesFrom (record hs time m) (time + 1) rest

def histories (moves : List Move) : List History := historiesFrom [[]] 0 moves

/-- Both are empty or end with the same push, whatever else they hold. -/
def SameLatest (h h' : History) : Prop := h.getLast?.map Prod.fst = h'.getLast?.map Prod.fst

instance (h h' : History) : Decidable (SameLatest h h') :=
  inferInstanceAs (Decidable (h.getLast?.map Prod.fst = h'.getLast?.map Prod.fst))

variable {pool : LogPool} {hs : List History} {time : Nat} {number : Nat → Nat} {h h' : History} {t : Term} {i : Nat}

theorem walk_none (heap : List Link) : walk heap none = [] := by
  cases heap <;> rfl

/-- A new link is met only by a walk that starts at it. -/
theorem walk_cons {link : Link} {heap : List Link} {head : Option Nat} (elsewhere : head ≠ some heap.length) :
    walk (link :: heap) head = walk heap head := by
  cases head with
  | none => rw [walk_none, walk_none]
  | some a => exact if_neg fun here => elsewhere (congrArg some here)

def latestBy (number : Nat → Nat) (h : History) : Option Nat := h.getLast?.map fun e => number e.1

def pointer (number : Nat → Nat) (h : History) : SharedLog := ⟨latestBy number h, h.length⟩

/-- The pool holds the histories, where the push at each time made the link at an address of its own. -/
structure Tells (number : Nat → Nat) (pool : LogPool) (hs : List History) (time : Nat) : Prop where
  logs : pool.logs = hs.map (pointer number)
  chained : ∀ h ∈ hs, walk pool.heap (latestBy number h) = (h.map Prod.snd).reverse
  earlier : ∀ h ∈ hs, ∀ e ∈ h, e.1 < time ∧ number e.1 < pool.heap.length
  apart : ∀ h ∈ hs, ∀ h' ∈ hs, latestBy number h = latestBy number h' → h = h'

section

variable (tells : Tells number pool hs time)

include tells

theorem Tells.later : Tells number pool hs (time + 1) :=
  { tells with earlier := fun h among e member => (tells.earlier h among e member).imp_left Nat.lt_succ_of_lt }

theorem Tells.latest_lt (among : h ∈ hs) : latestBy number h ≠ some pool.heap.length := by
  intro latest
  obtain ⟨e, last, same⟩ := Option.map_eq_some_iff.mp latest
  have lower := (tells.earlier h among e (mem_of_getLast? last)).2
  omega

theorem Tells.getElem? (found : hs[i]? = some h) : pool.logs[i]? = some (pointer number h) := by
  rw [tells.logs, List.getElem?_map, found, Option.map_some]

theorem Tells.push (found : hs[i]? = some h) (entered : t ≠ .bool true) :
    Tells (Function.update number time pool.heap.length) (pool.push i t) (hs.set i (h ++ [(time, t)])) (time + 1) := by
  have known := mem_of_getElem? found
  have fresh : ∀ h ∈ hs, latestBy (Function.update number time pool.heap.length) h = latestBy number h := by
    intro h among
    refine Option.map_congr fun e last => Function.update_of_ne ?_ _ _
    have earlier := (tells.earlier h among e (mem_of_getLast? last)).1
    omega
  have newest :
      latestBy (Function.update number time pool.heap.length) (h ++ [(time, t)]) = some pool.heap.length := by
    simp [latestBy]
  simp only [LogPool.push, tells.getElem? found, if_neg entered]
  constructor
  · have others : hs.map (pointer (Function.update number time pool.heap.length)) = pool.logs :=
      (map_congr_left fun h among => congrArg (SharedLog.mk · h.length) (fresh h among)).trans tells.logs.symm
    rw [map_set, others, pointer, pointer, newest, length_append]
    rfl
  · intro h' among
    rcases mem_or_eq_of_mem_set among with old | rfl
    · rw [fresh h' old, walk_cons (tells.latest_lt old), tells.chained h' old]
    · simp [newest, walk, pointer, tells.chained h known]
  · have old (h : History) (among : h ∈ hs) (e : Nat × Term) (member : e ∈ h) :
        e.1 < time + 1 ∧ Function.update number time pool.heap.length e.1 < pool.heap.length + 1 := by
      obtain ⟨earlier, lower⟩ := tells.earlier h among e member
      rw [Function.update_of_ne (by omega)]
      omega
    intro h' among e member
    rcases mem_or_eq_of_mem_set among with among | rfl
    · exact old h' among e member
    · rcases mem_append.mp member with before | new
      · exact old h known e before
      · obtain rfl := mem_singleton.mp new
        simp
  · intro h₁ among₁ h₂ among₂ same
    rcases mem_or_eq_of_mem_set among₁ with old₁ | rfl <;> rcases mem_or_eq_of_mem_set among₂ with old₂ | rfl
    · rw [fresh h₁ old₁, fresh h₂ old₂] at same
      exact tells.apart h₁ old₁ h₂ old₂ same
    · exact (tells.latest_lt old₁ ((fresh h₁ old₁).symm.trans (same.trans newest))).elim
    · exact (tells.latest_lt old₂ ((fresh h₂ old₂).symm.trans (same.symm.trans newest))).elim
    · rfl

theorem Tells.clone (i : Nat) : Tells number (pool.clone i) (hs ++ hs[i]?.toList) (time + 1) := by
  cases found : hs[i]? with
  | none => simpa [LogPool.clone, tells.logs, found] using tells.later
  | some h =>
    have known : ∀ h' ∈ hs ++ [h], h' ∈ hs := by
      simpa [or_imp, forall_and] using mem_of_getElem? found
    rw [LogPool.clone, tells.getElem? found]
    exact ⟨by simp [tells.logs], fun h' among => tells.chained h' (known h' among),
      fun h' among => tells.later.earlier h' (known h' among),
      fun h₁ among₁ h₂ among₂ => tells.apart h₁ (known h₁ among₁) h₂ (known h₂ among₂)⟩

theorem Tells.move (m : Move) : ∃ number', Tells number' (pool.move m) (record hs time m) (time + 1) := by
  cases m with
  | clone i => exact ⟨number, tells.clone i⟩
  | push i t =>
    rw [record, LogPool.move]
    by_cases literal : t = .bool true
    · refine ⟨number, ?_⟩
      have same : pool.push i t = pool := by
        unfold LogPool.push
        split <;> simp [literal]
      rw [if_pos literal, same]
      exact tells.later
    · rw [if_neg literal, modify_eq_set_getElem?]
      cases found : hs[i]? with
      | none => exact ⟨number, by simpa [LogPool.push, tells.logs, found] using tells.later⟩
      | some h => exact ⟨_, tells.push found literal⟩

theorem Tells.run (moves : List Move) :
    ∃ number' time', Tells number' (moves.foldl LogPool.move pool) (historiesFrom hs time moves) time' := by
  induction moves generalizing number pool hs time with
  | nil => exact ⟨number, time, tells⟩
  | cons m rest ih =>
    obtain ⟨_, next⟩ := tells.move m
    exact ih next

end

theorem tells_initial : Tells id initial [[]] 0 where
  logs := rfl
  chained := by simp [initial, walk]
  earlier := by simp
  apart := by simp

/-- After any pushes and copies, every log holds what was entered in it or in its ancestors before they were copied, in
order, counts it, and points at the same link as another log exactly when the latest entry of both is the same push or
both are empty. -/
theorem logs_keep_histories (moves : List Move) :
    (run moves).logs.length = (histories moves).length ∧
      ∀ i h, (histories moves)[i]? = some h → ∃ l, (run moves).logs[i]? = some l ∧
        ((run moves).read l).terms = h.map Prod.snd ∧ l.len = h.length ∧ (l.isEmpty = true ↔ h = []) ∧
        (∀ extra, ((run moves).read l).extended extra = h.map Prod.snd ++ extra) ∧
        ∀ j h', (histories moves)[j]? = some h' → ((run moves).sharesLatest i j = true ↔ SameLatest h h') ∧
          (SameLatest h h' → h.map Prod.snd = h'.map Prod.snd) := by
  obtain ⟨number, time, tells⟩ := tells_initial.run moves
  change Tells number (run moves) (histories moves) time at tells
  refine ⟨by rw [tells.logs, length_map], fun i h found => ⟨_, tells.getElem? found, ?_⟩⟩
  have terms : ((run moves).read (pointer number h)).terms = h.map Prod.snd := by
    rw [ConstraintLog.terms, read, pointer, tells.chained h (mem_of_getElem? found), reverse_reverse]
  refine ⟨terms, rfl, by simp [SharedLog.isEmpty, pointer], fun extra => by rw [ConstraintLog.extended, terms],
    fun j h' found' => ?_⟩
  have whole : SameLatest h h' ↔ h = h' := by
    constructor
    · intro same
      refine tells.apart h (mem_of_getElem? found) h' (mem_of_getElem? found') ?_
      simpa [latestBy, SameLatest, Function.comp_def] using congrArg (Option.map number) same
    · rintro rfl
      rfl
  rw [whole]
  refine ⟨?_, fun same => by rw [same]⟩
  rw [sharesLatest, tells.getElem? found, tells.getElem? found']
  constructor
  · intro shares
    exact tells.apart h (mem_of_getElem? found) h' (mem_of_getElem? found') (eq_of_beq shares)
  · rintro rfl
    exact beq_self_eq_true _

/-- The same term, pushed onto a log and onto its copy, makes two logs that look alike and share nothing but the link
below. -/
theorem alike_pushes_apart :
    let moves : List Move := [.push 0 (.bool false), .clone 0, .push 0 (.int 1), .push 1 (.int 1), .clone 1]
    (run moves).sharesLatest 0 1 = false ∧ (run moves).sharesLatest 1 2 = true ∧
      (run moves).logs.map (fun l => ((run moves).read l).terms) = List.replicate 3 [.bool false, .int 1] := by
  intro moves
  obtain ⟨_, told⟩ := logs_keep_histories moves
  obtain ⟨_, _, _, _, _, _, first⟩ := told 0 _ rfl
  obtain ⟨_, _, _, _, _, _, second⟩ := told 1 _ rfl
  refine ⟨?_, (second 2 _ rfl).1.mpr rfl, by decide⟩
  exact Bool.eq_false_iff.mpr fun shares => absurd ((first 1 _ rfl).1.mp shares) (by decide)

end LogPool

end TokenAudit
