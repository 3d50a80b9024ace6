import Mathlib.Data.Nat.Digits.Defs
import Mathlib.Tactic.IntervalCases
import TokenAudit.Proofs.Number.Decimal
import TokenAudit.Proofs.World

/-!
# Which texts are integer literals

A text is read as a number exactly when, blanks around it apart, it is a literal of that number (`Literal`).  The
value of its digits is their value by position, however many there are.
-/

namespace TokenAudit

open List Nat Text

namespace Number

variable {base acc d n k : Nat} {c : Char} {cs rest : List Char} {ds : List Nat} {i : Int} {s : String}

/-- The character is the digit `d` of the base, in either case. -/
def Stands (base : Nat) (c : Char) (d : Nat) : Prop := d < base ∧ (c = d.digitChar ∨ c = d.digitChar.toUpper)

/-- The characters are digits of the base, the highest first, and `n` is their value. -/
def Positional (base : Nat) (cs : List Char) (n : Nat) : Prop :=
  ∃ ds, List.Forall₂ (Stands base) cs ds ∧ n = ofDigits base ds.reverse

/-- The value of digits that are read behind others of value `acc`. -/
def Continues (base acc : Nat) (cs : List Char) (n : Nat) : Prop :=
  ∃ ds, List.Forall₂ (Stands base) cs ds ∧ n = base ^ ds.length * acc + ofDigits base ds.reverse

theorem continues_zero : Continues base 0 cs n ↔ Positional base cs n := by
  simp [Continues, Positional]

theorem continues_nil : Continues base acc [] n ↔ acc = n := by
  simp [Continues, eq_comm]

theorem ofDigits_reverse_cons (base d : Nat) (ds : List Nat) :
    ofDigits base (d :: ds).reverse = base ^ ds.length * d + ofDigits base ds.reverse := by
  rw [reverse_cons, ofDigits_append, length_reverse, ofDigits_singleton, add_comm]

theorem continues_cons :
    Continues base acc (c :: cs) n ↔ ∃ d, Stands base c d ∧ Continues base (base * acc + d) cs n := by
  have shifted (d : Nat) (ds : List Nat) : base ^ (d :: ds).length * acc + ofDigits base (d :: ds).reverse =
      base ^ ds.length * (base * acc + d) + ofDigits base ds.reverse := by
    rw [ofDigits_reverse_cons, length_cons]
    ring
  constructor
  · rintro ⟨ds, stands, rfl⟩
    obtain ⟨d, ds, here, later, rfl⟩ := forall₂_cons_left_iff.mp stands
    exact ⟨d, here, ds, later, shifted d ds⟩
  · rintro ⟨d, here, ds, later, rfl⟩
    exact ⟨d :: ds, .cons here later, (shifted d ds).symm⟩

theorem Positional.append_digit (digits : Positional base cs n) (digit : Stands base c d) :
    Positional base (cs ++ [c]) (base * n + d) := by
  obtain ⟨ds, stands, rfl⟩ := digits
  refine ⟨ds ++ [d], rel_append stands (.cons digit .nil), ?_⟩
  rw [reverse_append, reverse_singleton, singleton_append, ofDigits_cons, add_comm]

theorem stands_digitChar (below : d < base) : Stands base d.digitChar d := ⟨below, .inl rfl⟩

theorem Positional.zeros (positive : 0 < base) (digits : Positional base cs n) (k : Nat) :
    Positional base (List.replicate k '0' ++ cs) n := by
  obtain ⟨ds, stands, rfl⟩ := digits
  refine ⟨List.replicate k 0 ++ ds, rel_append ?_ stands, ?_⟩
  · refine forall₂_iff_get.mpr ⟨by simp, fun j _ _ => ?_⟩
    rw [get_eq_getElem, get_eq_getElem, getElem_replicate, getElem_replicate]
    exact stands_digitChar positive
  · rw [reverse_append, reverse_replicate, ofDigits_append_replicate_zero]

theorem positional_toDigits (more : 1 < base) (n : Nat) : Positional base (toDigits base n) n := by
  induction n using Nat.strongRecOn with
  | ind n ih =>
    rcases lt_or_ge n base with below | above
    · rw [toDigits_of_lt_base below]
      exact ⟨[n], .cons (stands_digitChar below) .nil, by simp⟩
    · rw [toDigits_of_base_le more above]
      have smaller : n / base < n := div_lt_self (by omega) more
      have last : Stands base (n % base).digitChar (n % base) := stands_digitChar (mod_lt n (by omega))
      have written := (ih (n / base) smaller).append_digit last
      rwa [div_add_mod] at written

theorem digitChar_of_decimal (low : 48 ≤ c.toNat) (high : c.toNat ≤ 57) : (c.toNat - 48).digitChar = c := by
  apply Char.toNat_inj.mp
  rw [toNat_digitChar_of_lt_ten (by omega)]
  omega

theorem decimalDigit?_eq_some : decimalDigit? c = some d ↔ Stands 10 c d := by
  unfold decimalDigit?
  constructor
  · intro read
    split at read
    · rename_i bounds
      cases read
      obtain ⟨low, high⟩ : 48 ≤ c.toNat ∧ c.toNat ≤ 57 := by simpa [Char.le_def, UInt32.le_iff_toNat_le] using bounds
      exact ⟨by show c.toNat - 48 < 10; omega, .inl (digitChar_of_decimal low high).symm⟩
    · cases read
  · rintro ⟨below, rfl | rfl⟩ <;> revert below <;> revert d <;> decide

theorem stands_of_hexDigit? (read : hexDigit? c = some d) : Stands 16 c d := by
  have known {k : Nat} (same : c.toNat = k) : c = Char.ofNat k := by rw [← same, Char.ofNat_toNat]
  unfold hexDigit? at read
  split at read
  · rename_i bounds
    cases read
    obtain ⟨low, high⟩ : 48 ≤ c.toNat ∧ c.toNat ≤ 57 := by simpa [Char.le_def, UInt32.le_iff_toNat_le] using bounds
    exact ⟨by show c.toNat - 48 < 16; omega, .inl (digitChar_of_decimal low high).symm⟩
  · split at read
    · rename_i bounds
      cases read
      obtain ⟨low, high⟩ : 97 ≤ c.toNat ∧ c.toNat ≤ 102 := by simpa [Char.le_def, UInt32.le_iff_toNat_le] using bounds
      generalize same : c.toNat = k at low high
      rw [known same]
      interval_cases k <;> exact ⟨by decide, .inl (by decide)⟩
    · split at read
      · rename_i bounds
        cases read
        obtain ⟨low, high⟩ : 65 ≤ c.toNat ∧ c.toNat ≤ 70 := by simpa [Char.le_def, UInt32.le_iff_toNat_le] using bounds
        generalize same : c.toNat = k at low high
        rw [known same]
        interval_cases k <;> exact ⟨by decide, .inr (by decide)⟩
      · cases read

theorem hexDigit?_eq_some : hexDigit? c = some d ↔ Stands 16 c d := by
  refine ⟨stands_of_hexDigit?, ?_⟩
  rintro ⟨below, rfl | rfl⟩ <;> revert below <;> revert d <;> decide

theorem Stands.solid (small : base ≤ 16) (stands : Stands base c d) : isBlank c = false := by
  obtain ⟨below, rfl | rfl⟩ := stands
  all_goals
    replace below : d < 16 := lt_of_lt_of_le below small
    revert d
    decide

/-- A number in decimal digits, with underscores anywhere behind the first. -/
def Decimal (cs : List Char) (n : Nat) : Prop :=
  cs ≠ [] ∧ cs.head? ≠ some '_' ∧ Positional 10 (cs.filter (· != '_')) n

inductive SignedDecimal : List Char → Int → Prop
  | unsigned {cs : List Char} {n : Nat} (number : Decimal cs n) : SignedDecimal cs n
  | positive {cs : List Char} {n : Nat} (number : Decimal cs n) : SignedDecimal ('+' :: cs) n
  | negative {cs : List Char} {n : Nat} (number : Decimal cs n) : SignedDecimal ('-' :: cs) (-n)

/-- The text is a literal of the number; a hexadecimal literal may be without digits. -/
inductive Literal : List Char → Int → Prop
  | hexadecimal {mark : Char} {cs : List Char} {n : Nat} (marked : mark = 'x' ∨ mark = 'X')
      (digits : Positional 16 cs n) : Literal ('0' :: mark :: cs) n
  | decimal {cs : List Char} {i : Int} (number : SignedDecimal cs i) : Literal cs i

theorem hexBytes_eq_some (even : cs.length % 2 = 0) :
    (∃ bytes, hexBytes cs = some bytes ∧ bytes.foldl (256 * · + ·) acc = n) ↔ Continues 16 acc cs n := by
  induction cs using hexBytes.induct generalizing acc with
  | case1 => simp [hexBytes, continues_nil]
  | case2 => cases even
  | case3 high low rest ih =>
    have shifted (h l : Nat) : 256 * acc + (16 * h + l) = 16 * (16 * acc + h) + l := by ring
    rw [hexBytes, continues_cons]
    simp only [continues_cons, ← hexDigit?_eq_some]
    cases hexDigit? high with
    | none => simp
    | some h =>
      cases hexDigit? low with
      | none => simp
      | some l =>
        have later : rest.length % 2 = 0 := by
          rw [length_cons, length_cons] at even
          omega
        simp [← shifted, ← ih later, Option.bind_eq_some_iff]

/-- Whether a zero stands before them or not, the bytes make the value of the digits by position. -/
theorem readHex_eq_some : readHex cs = some n ↔ Positional 16 cs n := by
  simp only [readHex, Option.map_eq_some_iff, ofBytes]
  split
  · rename_i odd
    have padded : Continues 16 0 ('0' :: cs) n ↔ Continues 16 0 cs n := by
      simp [continues_cons, ← hexDigit?_eq_some, hexDigit?]
    rw [hexBytes_eq_some (by rw [length_cons]; omega), padded, continues_zero]
  · rw [hexBytes_eq_some (by omega), continues_zero]

theorem readDigits_eq_some : readDigits acc cs = some n ↔ Continues 10 acc (cs.filter (· != '_')) n := by
  induction cs generalizing acc with
  | nil => simp [readDigits, continues_nil]
  | cons c cs ih =>
    by_cases filler : c = '_'
    · subst filler
      rw [readDigits, ih]
      simp
    · rw [readDigits.eq_3 _ _ _ filler, filter_cons_of_pos (by simpa using filler), continues_cons]
      simp only [← decimalDigit?_eq_some]
      cases decimalDigit? c with
      | none => simp
      | some d => simp [ih]

theorem readNat_eq_some : readNat cs = some n ↔ Decimal cs n := by
  cases cs with
  | nil => simp [readNat, Decimal]
  | cons c cs =>
    by_cases filler : c = '_'
    · subst filler
      simp [readNat, Decimal, decimalDigit?]
    · rw [readNat, Decimal, filter_cons_of_pos (by simpa using filler), ← continues_zero, continues_cons]
      simp only [← decimalDigit?_eq_some]
      cases decimalDigit? c with
      | none => simp
      | some d => simp [readDigits_eq_some, filler]

theorem Decimal.mem (number : Decimal cs n) (among : c ∈ cs) : c = '_' ∨ ∃ d, Stands 10 c d := by
  obtain ⟨_, _, ds, stands, _⟩ := number
  by_cases filler : c = '_'
  · exact .inl filler
  · have listed : c ∈ cs.filter (· != '_') := mem_filter.mpr ⟨among, by simpa using filler⟩
    obtain ⟨d, _, digit⟩ := exists_of_mem_right stands.flip listed
    exact .inr ⟨d, digit⟩

theorem Decimal.not_mem (number : Decimal cs n) (named : c ≠ '_') (other : decimalDigit? c = none) : c ∉ cs := by
  intro among
  rcases number.mem among with filler | ⟨d, digit⟩
  · exact named filler
  · cases other.symm.trans (decimalDigit?_eq_some.mpr digit)

theorem readInt_unsigned (minus : ∀ rest, cs ≠ '-' :: rest) (plus : ∀ rest, cs ≠ '+' :: rest) :
    readInt cs = (readNat cs).map Int.ofNat := by
  rw [readInt]
  · exact fun rest same => minus rest same
  · exact fun rest same => plus rest same

theorem readInt_eq_some : readInt cs = some i ↔ SignedDecimal cs i := by
  constructor
  · intro read
    unfold readInt at read
    split at read
    · obtain ⟨_, found, rfl⟩ := Option.map_eq_some_iff.mp read
      obtain ⟨n, digits, same⟩ := Option.bind_eq_some_iff.mp found
      cases same
      exact .negative (readNat_eq_some.mp digits)
    · obtain ⟨n, digits, rfl⟩ := Option.map_eq_some_iff.mp read
      exact .positive (readNat_eq_some.mp digits)
    · obtain ⟨n, digits, rfl⟩ := Option.map_eq_some_iff.mp read
      exact .unsigned (readNat_eq_some.mp digits)
  · intro literal
    cases literal with
    | @unsigned _ n number =>
      rw [readInt_unsigned, readNat_eq_some.mpr number]
      · rfl
      · rintro rest rfl
        exact number.not_mem (by decide) rfl (mem_cons_self ..)
      · rintro rest rfl
        exact number.not_mem (by decide) rfl (mem_cons_self ..)
    | positive number | negative number =>
      rw [readInt, readNat_eq_some.mpr number]
      rfl

theorem SignedDecimal.not_mem (number : SignedDecimal cs i) (named : c ∉ ['_', '+', '-'])
    (other : decimalDigit? c = none) : c ∉ cs := by
  simp only [mem_cons, not_mem_nil, or_false, not_or] at named
  cases number with
  | unsigned number => exact number.not_mem named.1 other
  | positive number => exact not_mem_cons_of_ne_of_not_mem named.2.1 (number.not_mem named.1 other)
  | negative number => exact not_mem_cons_of_ne_of_not_mem named.2.2 (number.not_mem named.1 other)

theorem readLiteral_eq_some : readLiteral s = some i ↔ Literal (trim s.toList) i := by
  rw [readLiteral]
  generalize trim s.toList = cs
  constructor
  · intro read
    split at read
    · obtain ⟨n, digits, rfl⟩ := Option.map_eq_some_iff.mp read
      exact .hexadecimal (.inl rfl) (readHex_eq_some.mp digits)
    · obtain ⟨n, digits, rfl⟩ := Option.map_eq_some_iff.mp read
      exact .hexadecimal (.inr rfl) (readHex_eq_some.mp digits)
    · exact .decimal (readInt_eq_some.mp read)
  · intro literal
    cases literal with
    | hexadecimal marked digits =>
      have read := readHex_eq_some.mpr digits
      rcases marked with rfl | rfl
      all_goals
        show (readHex _).map Int.ofNat = _
        rw [read]
        rfl
    | decimal number =>
      -- the mark of a hexadecimal literal is no part of a decimal one
      split
      · exact absurd (by simp) (number.not_mem (c := 'x') (by decide) rfl)
      · exact absurd (by simp) (number.not_mem (c := 'X') (by decide) rfl)
      · exact readInt_eq_some.mpr number

theorem Literal.solid (literal : Literal cs i) (among : c ∈ cs) : isBlank c = false := by
  cases literal with
  | @hexadecimal mark digits n marked positional =>
    obtain ⟨ds, stands, _⟩ := positional
    rcases mem_cons.mp among with rfl | among
    · rfl
    · rcases mem_cons.mp among with rfl | among
      · rcases marked with rfl | rfl <;> rfl
      · obtain ⟨d, _, digit⟩ := exists_of_mem_right stands.flip among
        exact Stands.solid (le_refl 16) digit
  | decimal number =>
    have solid {cs : List Char} {n : Nat} (number : Decimal cs n) (among : c ∈ cs) : isBlank c = false := by
      rcases number.mem among with rfl | ⟨d, digit⟩
      · rfl
      · exact digit.solid (by decide)
    cases number with
    | unsigned number => exact solid number among
    | positive number | negative number =>
      rcases mem_cons.mp among with rfl | among
      · rfl
      · exact solid number among

/-- The number in decimal, with zeros before its digits. -/
def decimalText (zeros : Nat) (i : Int) : String :=
  String.ofList ((if i < 0 then ['-'] else []) ++ (List.replicate zeros '0' ++ (toString i.natAbs).toList))

/-- The number in hexadecimal, with zeros before its digits. -/
def hexadecimalText (zeros n : Nat) : String :=
  String.ofList ('0' :: 'x' :: (List.replicate zeros '0' ++ toDigits 16 n))

theorem decimal_padded (zeros n : Nat) : Decimal (List.replicate zeros '0' ++ (toString n).toList) n := by
  have written : (toString n).toList = toDigits 10 n := by simp
  rw [written]
  have digits := (positional_toDigits (by decide : 1 < 10) n).zeros (by decide) zeros
  have plain : ∀ c ∈ List.replicate zeros '0' ++ toDigits 10 n, (c != '_') = true := by
    obtain ⟨ds, stands, _⟩ := digits
    intro c among
    obtain ⟨d, _, digit⟩ := exists_of_mem_right stands.flip among
    rw [bne_iff_ne]
    rintro rfl
    cases decimalDigit?_eq_some.mpr digit
  refine ⟨by simp, fun filler => ?_, ?_⟩
  · cases plain _ (mem_of_head? filler)
  · rwa [filter_eq_self.mpr plain]

theorem literal_decimalText (zeros : Nat) (i : Int) : Literal (decimalText zeros i).toList i := by
  have number := decimal_padded zeros i.natAbs
  rw [decimalText, String.toList_ofList]
  split
  · rename_i negative
    have literal := SignedDecimal.negative number
    rw [Int.ofNat_natAbs_of_nonpos (Int.le_of_lt negative), Int.neg_neg] at literal
    exact .decimal literal
  · rename_i positive
    have literal := SignedDecimal.unsigned number
    rw [Int.natAbs_of_nonneg (Int.not_lt.mp positive)] at literal
    exact .decimal literal

theorem literal_hexadecimalText (zeros n : Nat) : Literal (hexadecimalText zeros n).toList n := by
  rw [hexadecimalText, String.toList_ofList]
  exact .hexadecimal (.inl rfl) ((positional_toDigits (by decide) n).zeros (by decide) zeros)

theorem Literal.read (literal : Literal s.toList i) : readLiteral s = some i := by
  rw [readLiteral_eq_some, trim_eq_self fun _ => literal.solid]
  exact literal

/-- A text is read as a number exactly when it is a literal of it with blanks around; so every number is read back
from its decimal text, and every natural number from its hexadecimal text. -/
theorem literals_read_exactly :
    (∀ (s : String) (i : Int), readLiteral s = some i ↔ ∃ before text after, s.toList = before ++ text ++ after ∧
      (∀ c ∈ before ++ after, isBlank c = true) ∧ Literal text i) ∧
    (∀ (zeros : Nat) (i : Int), readLiteral (decimalText zeros i) = some i) ∧
    (∀ i : Int, readLiteral (toString i) = some i) ∧
    ∀ zeros n : Nat, readLiteral (hexadecimalText zeros n) = some (n : Int) := by
  refine ⟨fun s i => ?_, fun zeros i => (literal_decimalText zeros i).read, readLiteral_toString,
    fun zeros n => (literal_hexadecimalText zeros n).read⟩
  rw [readLiteral_eq_some]
  constructor
  · intro literal
    obtain ⟨before, after, whole, blank⟩ := exists_trim s.toList
    exact ⟨before, _, after, whole, blank, literal⟩
  · rintro ⟨before, text, after, whole, blank, literal⟩
    rw [whole, trim_surrounded blank, trim_eq_self fun _ => literal.solid]
    exact literal

example : readLiteral " -1_000 " = some (-1000) ∧ readLiteral "0x" = some 0 ∧ readLiteral "0xaBc" = some 2748 := by
  decide

end Number

end TokenAudit
