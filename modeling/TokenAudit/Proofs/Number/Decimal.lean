import TokenAudit.Number.Literal
import TokenAudit.Proofs.Text.Trimming

/-!
# Decimal texts

The text that writes a number reads as that number: a count, an integer with its sign, and an integer
literal.  No text of more than one digit starts with a zero.
-/

namespace TokenAudit

open List Nat

namespace Number

variable {c : Char} {n : Nat} {rest : List Char}

theorem decimalDigit?_of_isDigit (digit : c.isDigit = true) : decimalDigit? c = some (c.toNat - '0'.toNat) := by
  have bounds : '0' ≤ c ∧ c ≤ '9' := by simpa [Char.isDigit, Char.le_def] using digit
  rw [decimalDigit?, if_pos bounds]

theorem isBlank_of_isDigit (digit : c.isDigit = true) : Text.isBlank c = false := by
  have bounds : 48 ≤ c.toNat ∧ c.toNat ≤ 57 := by simpa [Char.isDigit, UInt32.le_iff_toNat_le] using digit
  simp [Text.isBlank]
  omega

theorem isDigit_of_mem_toString (among : c ∈ (toString n).toList) : c.isDigit = true := by
  have among : c ∈ toDigits 10 n := by simpa using among
  exact isDigit_of_mem_toDigits (by decide) (by decide) among

theorem toString_eq_cons (n : Nat) : ∃ c rest, (toString n).toList = c :: rest := by
  have nonempty : (toString n).toList ≠ [] := by simp
  exact exists_cons_of_ne_nil nonempty

theorem toString_negSucc (n : Nat) : (toString (Int.negSucc n)).toList = '-' :: (toString (n + 1)).toList := by
  show ("-" ++ toString (n + 1)).toList = _
  simp

theorem eq_nil_of_toString (written : (toString n).toList = '0' :: rest) : rest = [] := by
  replace written : toDigits 10 n = '0' :: rest := by simpa using written
  induction n using Nat.strongRecOn generalizing rest with
  | ind n ih =>
    rcases lt_or_ge n 10 with small | large
    · rw [toDigits_of_lt_base small] at written
      exact (List.cons.inj written).2.symm
    · -- the digits before the last one write a smaller number that is not zero
      rw [toDigits_of_base_le (by decide) large] at written
      obtain ⟨first, more, split⟩ := exists_cons_of_ne_nil (toDigits_ne_nil (b := 10))
      rw [split] at written
      obtain ⟨rfl, rfl⟩ := List.cons.inj written
      obtain rfl := ih (n / 10) (by omega) split
      have zero := ofDigitChars_toDigits (b := 10) (n := n / 10) (by decide) (by decide)
      rw [split] at zero
      simp [ofDigitChars] at zero
      omega

theorem readDigits_eq {cs : List Char} (digits : ∀ c ∈ cs, c.isDigit = true) (acc : Nat) :
    readDigits acc cs = some (ofDigitChars 10 cs acc) := by
  induction cs generalizing acc with
  | nil => rfl
  | cons c rest ih =>
    have digit := digits c (mem_cons_self ..)
    have solid : c ≠ '_' := by
      rintro rfl
      cases digit
    rw [readDigits.eq_3 _ _ _ solid, decimalDigit?_of_isDigit digit]
    exact ih (fun d among => digits d (mem_cons_of_mem c among)) _

theorem readNat_toString (n : Nat) : readNat (toString n).toList = some n := by
  obtain ⟨c, rest, written⟩ := toString_eq_cons n
  have digits : ∀ d ∈ c :: rest, d.isDigit = true := fun d among => isDigit_of_mem_toString (written ▸ among)
  rw [written, readNat, decimalDigit?_of_isDigit (digits c (mem_cons_self ..))]
  show readDigits _ rest = _
  rw [readDigits_eq fun d among => digits d (mem_cons_of_mem c among)]
  have value := ofDigitChars_toDigits (b := 10) (n := n) (by decide) (by decide)
  have written : toDigits 10 n = c :: rest := by simpa using written
  rw [written] at value
  simpa [ofDigitChars] using value

theorem readInt_digits (digit : c.isDigit = true) : readInt (c :: rest) = (readNat (c :: rest)).map Int.ofNat := by
  rw [readInt]
  · rintro _ ⟨rfl, _⟩
    cases digit
  · rintro _ ⟨rfl, _⟩
    cases digit

theorem readInt_toString (i : Int) : readInt (toString i).toList = some i := by
  cases i with
  | ofNat n =>
    show readInt (toString n).toList = _
    obtain ⟨c, rest, written⟩ := toString_eq_cons n
    have digit : c.isDigit = true := isDigit_of_mem_toString (written ▸ mem_cons_self ..)
    rw [written, readInt_digits digit, ← written, readNat_toString]
    rfl
  | negSucc n =>
    rw [toString_negSucc, readInt, readNat_toString]
    rfl

theorem isBlank_of_mem_toString {i : Int} (among : c ∈ (toString i).toList) : Text.isBlank c = false := by
  cases i with
  | ofNat n => exact isBlank_of_isDigit (isDigit_of_mem_toString (n := n) among)
  | negSucc n =>
    rw [toString_negSucc] at among
    rcases mem_cons.mp among with rfl | digit
    · rfl
    · exact isBlank_of_isDigit (isDigit_of_mem_toString digit)

theorem readLiteral_toString (i : Int) : readLiteral (toString i) = some i := by
  have trimmed : Text.trim (toString i).toList = (toString i).toList :=
    Text.trim_eq_self fun _ => isBlank_of_mem_toString
  -- neither a digit nor a sign is the mark of a hexadecimal literal
  have decimal (mark : Char) (rest : List Char) (letter : mark.isDigit = false) :
      (toString i).toList ≠ '0' :: mark :: rest := by
    intro written
    cases i with
    | ofNat n =>
      have among : mark ∈ (toString (Int.ofNat n)).toList := by
        rw [written]
        simp
      rw [isDigit_of_mem_toString among] at letter
      cases letter
    | negSucc n =>
      rw [toString_negSucc] at written
      cases written
  rw [readLiteral, trimmed, ← readInt_toString i]
  split
  · rename_i written
    exact absurd written (decimal _ _ rfl)
  · rename_i written
    exact absurd written (decimal _ _ rfl)
  · rfl

end Number

end TokenAudit
