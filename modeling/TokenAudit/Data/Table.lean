/-!
# Finite tables

A table pairs keys with values in order of first insertion.
-/

namespace TokenAudit

structure Table (κ α : Type) where
  entries : List (κ × α)
  deriving Repr, DecidableEq

namespace Table

variable {κ α : Type}

def empty : Table κ α := ⟨[]⟩

instance : Inhabited (Table κ α) := ⟨empty⟩

variable [DecidableEq κ]

def find (k : κ) : List (κ × α) → Option α
  | [] => none
  | (k', a) :: rest => if k' = k then some a else find k rest

def put (k : κ) (a : α) : List (κ × α) → List (κ × α)
  | [] => [(k, a)]
  | (k', b) :: rest => if k' = k then (k, a) :: rest else (k', b) :: put k a rest

def get? (t : Table κ α) (k : κ) : Option α := find k t.entries

def getD (t : Table κ α) (k : κ) (dflt : α) : α := (t.get? k).getD dflt

def contains (t : Table κ α) (k : κ) : Bool := (t.get? k).isSome

def insert (t : Table κ α) (k : κ) (a : α) : Table κ α := ⟨put k a t.entries⟩

def erase (t : Table κ α) (k : κ) : Table κ α := ⟨t.entries.filter fun e => !decide (e.1 = k)⟩

def update (t : Table κ α) (k : κ) (dflt : α) (f : α → α) : Table κ α :=
  t.insert k (f (t.getD k dflt))

def keys (t : Table κ α) : List κ := t.entries.map Prod.fst

@[simp] theorem get?_empty (k : κ) : (empty : Table κ α).get? k = none := rfl

theorem find_put (k j : κ) (a : α) (es : List (κ × α)) :
    find j (put k a es) = if k = j then some a else find j es := by
  induction es with
  | nil => simp [put, find]
  | cons e rest ih =>
    obtain ⟨k', b⟩ := e
    by_cases same : k' = k
    · subst same
      by_cases hit : k' = j <;> simp [put, find, hit]
    · by_cases hit : k' = j
      · subst hit
        simp [put, find, same, Ne.symm same]
      · simp [put, find, same, hit, ih]

@[simp] theorem get?_insert (t : Table κ α) (k j : κ) (a : α) :
    (t.insert k a).get? j = if k = j then some a else t.get? j :=
  find_put k j a t.entries

theorem find_filter_ne (k j : κ) (es : List (κ × α)) :
    find j (es.filter fun e => !decide (e.1 = k)) = if k = j then none else find j es := by
  induction es with
  | nil => simp [find]
  | cons e rest ih =>
    obtain ⟨k', b⟩ := e
    by_cases gone : k' = k
    · subst gone
      by_cases hit : k' = j
      · subst hit
        simpa [find] using ih
      · simpa [find, hit] using ih
    · by_cases hit : k' = j
      · subst hit
        simp [find, gone, Ne.symm gone]
      · simp [find, gone, hit, ih]

@[simp] theorem get?_erase (t : Table κ α) (k j : κ) : (t.erase k).get? j = if k = j then none else t.get? j :=
  find_filter_ne k j t.entries

variable {t : Table κ α} {k j : κ} {a b : α}

theorem of_get?_insert (found : (t.insert k a).get? j = some b) : a = b ∨ t.get? j = some b := by
  rw [get?_insert] at found
  split at found
  · exact .inl (Option.some.inj found)
  · exact .inr found

theorem of_get?_erase (found : (t.erase k).get? j = some b) : t.get? j = some b := by
  rw [get?_erase] at found
  split at found
  · cases found
  · exact found

end Table

end TokenAudit
