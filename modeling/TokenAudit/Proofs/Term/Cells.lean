import TokenAudit.Proofs.Term.Meaning

/-!
# Cells of nested arrays

A path of keys addresses a cell of an array of arrays.
-/

namespace TokenAudit.Datum

/-- The array with the cell under a path of keys replaced, outermost key first. -/
noncomputable def setAt : Datum → List Datum → Datum → Datum
  | _, [], value => value
  | a, key :: keys, value => a.store key (setAt (a.select key) keys value)

structure Level where
  copy : Datum
  key : Datum

/-- The array that a write through copies makes, outermost level first. -/
noncomputable def rebuild : List Level → Datum → Datum
  | [], value => value
  | level :: rest, value => level.copy.store level.key (rebuild rest value)

def AgreesOff (key a b : Datum) : Prop :=
  a.sort = b.sort ∧ ∀ other, other.sort = key.sort → other ≠ key → a.select other = b.select other

/-- Each copy agrees with the array that the path of the write reaches there. -/
def UpToDate : Datum → List Level → Prop
  | _, [] => True
  | a, level :: rest => AgreesOff level.key level.copy a ∧ UpToDate (a.select level.key) rest

/-- Each copy is an array that holds the key and what is written under it. -/
def Fits : List Level → Datum → Prop
  | [], _ => True
  | level :: rest, value =>
    level.copy.sort = .array level.key.sort (rebuild rest value).sort ∧ Fits rest value

theorem rebuild_append (outer : List Level) (inner : Level) (value : Datum) :
    rebuild (outer ++ [inner]) value = rebuild outer (inner.copy.store inner.key value) := by
  induction outer with
  | nil => rfl
  | cons level rest ih => simp only [List.cons_append, rebuild, ih]

variable {value : Datum}

theorem fits_append {outer : List Level} {inner : Level} (holds : inner.copy.sort = .array inner.key.sort value.sort)
    (fits : Fits outer (inner.copy.store inner.key value)) : Fits (outer ++ [inner]) value := by
  induction outer with
  | nil => exact ⟨holds, trivial⟩
  | cons level rest ih =>
    rw [List.cons_append, Fits, rebuild_append]
    exact ⟨fits.1, ih fits.2⟩

theorem store_congr {a b key : Datum} {domain range : SmtSort} (keyed : key.sort = domain)
    (shape : a.sort = .array domain range) (agrees : AgreesOff key a b) : a.store key value = b.store key value := by
  obtain ⟨cells, rfl⟩ := eq_array_of_sort shape
  obtain ⟨cells', rfl⟩ := eq_array_of_sort (agrees.1.symm.trans shape)
  have same : ∀ place, place ≠ key.as domain → cells place = cells' place := by
    intro place apart
    have other : ofCarrier domain place ≠ key := by
      rintro rfl
      exact apart (as_ofCarrier domain place).symm
    have cell := agrees.2 (ofCarrier domain place) ((sort_ofCarrier domain place).trans keyed.symm) other
    simp only [select, as_ofCarrier] at cell
    rw [← as_ofCarrier range (cells place), cell, as_ofCarrier]
  simp only [store]
  congr 1
  funext place
  by_cases hit : place = key.as domain
  · rw [hit, Function.update_self, Function.update_self]
  · rw [Function.update_of_ne hit, Function.update_of_ne hit, same place hit]

theorem store_eq_store_iff {a b key v w : Datum} (shape : a.sort = .array key.sort v.sort)
    (fits : a.sort = b.sort → w.sort = v.sort) : a.store key v = b.store key w ↔ v = w ∧ AgreesOff key a b := by
  constructor
  · intro same
    have sorts : a.sort = b.sort := by
      rw [← sort_store a key v, same, sort_store]
    have shape' : b.sort = .array key.sort v.sort := sorts.symm.trans shape
    refine ⟨?_, sorts, fun other keyed apart => ?_⟩
    · calc
        v = (a.store key v).select key := (select_store_same shape rfl).symm
        _ = (b.store key w).select key := by rw [same]
        _ = w := select_store_same shape' (fits sorts)
    · calc
        a.select other = (a.store key v).select other :=
          (select_store_other shape rfl keyed apart).symm
        _ = (b.store key w).select other := by rw [same]
        _ = b.select other := select_store_other shape' rfl keyed apart
  · rintro ⟨rfl, agrees⟩
    exact store_congr rfl shape agrees

theorem rebuild_eq_setAt_iff {levels : List Level} (fits : Fits levels value) (a : Datum) :
    rebuild levels value = a.setAt (levels.map Level.key) value ↔ UpToDate a levels := by
  induction levels generalizing a with
  | nil => exact ⟨fun _ => trivial, fun _ => rfl⟩
  | cons level rest ih =>
    have inner := ih fits.2 (a.select level.key)
    simp only [rebuild, List.map_cons, setAt, UpToDate]
    rw [store_eq_store_iff fits.1, inner, and_comm]
    intro sorts
    have cell : (a.select level.key).sort = (rebuild rest value).sort :=
      sort_select (sorts.symm.trans fits.1)
    cases rest with
    | nil => rfl
    | cons next rest => exact (sort_store _ _ _).trans cell

end TokenAudit.Datum
