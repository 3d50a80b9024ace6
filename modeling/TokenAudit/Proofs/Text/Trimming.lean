import Mathlib.Data.List.TakeWhile
import TokenAudit.Text.Blank

/-!
# Trimmed texts

Blanks before and behind a text do not matter to `trim`, and a trimmed text has none there.
-/

namespace TokenAudit.Text

open List

variable {c : Char} {cs blanks rest before : List Char}

theorem dropBlanks_cons (solid : isBlank c = false) : dropBlanks (c :: cs) = c :: cs := by
  simp [dropBlanks, solid]

theorem dropBlanks_blank (blank : isBlank c = true) : dropBlanks (c :: cs) = dropBlanks cs := by
  simp [dropBlanks, blank]

theorem dropBlanks_eq_self (solid : ∀ c ∈ cs, isBlank c = false) : dropBlanks cs = cs := by
  cases cs with
  | nil => rfl
  | cons c rest => exact dropBlanks_cons (solid c (mem_cons_self ..))

theorem dropBlanks_eq_nil_iff : dropBlanks cs = [] ↔ ∀ c ∈ cs, isBlank c = true := by
  exact dropWhile_eq_nil_iff

theorem dropBlanks_append (visible : dropBlanks cs ≠ []) (rest : List Char) :
    dropBlanks (cs ++ rest) = dropBlanks cs ++ rest := by
  rw [dropBlanks, dropWhile_append, if_neg]
  · rfl
  · simpa [dropBlanks] using visible

theorem dropBlanks_dropBlanks (cs : List Char) : dropBlanks (dropBlanks cs) = dropBlanks cs := by
  induction cs with
  | nil => rfl
  | cons c rest ih =>
    cases blank : isBlank c with
    | true => rw [dropBlanks_blank blank, ih]
    | false => rw [dropBlanks_cons blank, dropBlanks_cons blank]

theorem solid_of_dropBlanks (left : dropBlanks cs = c :: rest) : isBlank c = false := by
  have again := dropBlanks_dropBlanks cs
  rw [left] at again
  cases blank : isBlank c with
  | false => rfl
  | true =>
    rw [dropBlanks_blank blank] at again
    have shorter : (dropBlanks rest).length ≤ rest.length := (dropWhile_sublist isBlank).length_le
    rw [again, length_cons] at shorter
    omega

theorem mem_of_mem_dropBlanks (among : c ∈ dropBlanks cs) : c ∈ cs := (dropWhile_sublist isBlank).subset among

theorem mem_of_mem_trim (among : c ∈ trim cs) : c ∈ cs := by
  have among := mem_of_mem_dropBlanks (mem_reverse.mp among)
  exact mem_of_mem_dropBlanks (mem_reverse.mp among)

theorem trim_eq_self (solid : ∀ c ∈ cs, isBlank c = false) : trim cs = cs := by
  have reversed : dropBlanks cs.reverse = cs.reverse :=
    dropBlanks_eq_self fun c among => solid c (mem_reverse.mp among)
  rw [trim, dropBlanks_eq_self solid, dropBlanksRight, reversed, reverse_reverse]

theorem trim_dropBlanks (cs : List Char) : trim (dropBlanks cs) = trim cs := by
  rw [trim, dropBlanks_dropBlanks, trim]

theorem trim_eq_nil_iff : trim cs = [] ↔ ∀ c ∈ cs, isBlank c = true := by
  rw [trim, dropBlanksRight, reverse_eq_nil_iff, dropBlanks_eq_nil_iff]
  constructor
  · intro blank
    rw [← dropBlanks_eq_nil_iff]
    cases left : dropBlanks cs with
    | nil => rfl
    | cons c rest =>
      have first : c ∈ (dropBlanks cs).reverse := by simp [left]
      cases (blank c first).symm.trans (solid_of_dropBlanks left)
  · intro blank c among
    exact blank c (mem_of_mem_dropBlanks (mem_reverse.mp among))

theorem trim_append_blanks (blank : ∀ c ∈ blanks, isBlank c = true) (cs : List Char) :
    trim (cs ++ blanks) = trim cs := by
  by_cases visible : dropBlanks cs = []
  · have all := dropBlanks_eq_nil_iff.mp visible
    rw [trim_eq_nil_iff.mpr all, trim_eq_nil_iff]
    intro c among
    rcases mem_append.mp among with among | among
    · exact all c among
    · exact blank c among
  · have reversed : dropBlanks (blanks.reverse ++ (dropBlanks cs).reverse) = dropBlanks (dropBlanks cs).reverse :=
      dropWhile_append_of_pos fun c among => blank c (mem_reverse.mp among)
    rw [trim, dropBlanks_append visible, dropBlanksRight, reverse_append, reversed]
    rfl

theorem trim_append_dropped (cs : List Char) :
    trim cs ++ ((dropBlanks cs).reverse.takeWhile isBlank).reverse = dropBlanks cs := by
  rw [trim, dropBlanksRight, ← reverse_append]
  show ((dropBlanks cs).reverse.takeWhile isBlank ++ (dropBlanks cs).reverse.dropWhile isBlank).reverse = _
  rw [takeWhile_append_dropWhile, reverse_reverse]

theorem trim_prefix (cs : List Char) : trim cs <+: dropBlanks cs := ⟨_, trim_append_dropped cs⟩

theorem trim_surrounded {after : List Char} (blank : ∀ c ∈ before ++ after, isBlank c = true) :
    trim (before ++ cs ++ after) = trim cs := by
  rw [trim_append_blanks fun c among => blank c (mem_append_right _ among), trim]
  have front : dropBlanks (before ++ cs) = dropBlanks cs :=
    dropWhile_append_of_pos fun c among => blank c (mem_append_left _ among)
  rw [front, trim]

theorem exists_trim (cs : List Char) :
    ∃ before after, cs = before ++ trim cs ++ after ∧ ∀ c ∈ before ++ after, isBlank c = true := by
  refine ⟨cs.takeWhile isBlank, ((dropBlanks cs).reverse.takeWhile isBlank).reverse, ?_, fun c among => ?_⟩
  · rw [append_assoc, trim_append_dropped, dropBlanks, takeWhile_append_dropWhile]
  · rcases mem_append.mp among with front | back
    · exact mem_takeWhile_imp front
    · exact mem_takeWhile_imp (mem_reverse.mp back)

theorem solid_of_trim (left : trim cs = c :: rest) : isBlank c = false := by
  obtain ⟨after, whole⟩ := trim_prefix cs
  rw [left] at whole
  exact solid_of_dropBlanks whole.symm

theorem solid_of_trim_last (left : trim cs = before ++ [c]) : isBlank c = false := by
  have reversed : dropBlanks (dropBlanks cs).reverse = c :: before.reverse := by
    rw [← reverse_reverse (dropBlanks _)]
    show (trim cs).reverse = _
    rw [left, reverse_append, reverse_singleton, singleton_append]
  exact solid_of_dropBlanks reversed

theorem trim_trim (cs : List Char) : trim (trim cs) = trim cs := by
  have front : dropBlanks (trim cs) = trim cs := by
    cases left : trim cs with
    | nil => rfl
    | cons c rest => exact dropBlanks_cons (solid_of_trim left)
  rw [trim, front]
  show (dropBlanks (dropBlanks (dropBlanks cs).reverse).reverse.reverse).reverse = _
  rw [reverse_reverse, dropBlanks_dropBlanks]
  rfl

end TokenAudit.Text
