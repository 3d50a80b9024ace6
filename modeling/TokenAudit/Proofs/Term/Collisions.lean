import TokenAudit.Proofs.Path.Naming

/-!
# Facts with the same symbol

Symbols keep facts apart up to their sort, where the names are those of the source: only the keys of a
write and the arguments of an emission are named alike.
-/

namespace TokenAudit.Fact

variable {fact other : Fact}

/-- Variables, events and functions are named by identifiers; a receiver and a checked symbol may be any text. -/
def Named : Fact → Prop
  | .written name => isIdentifier name = true
  | .writtenCount name => isIdentifier name = true
  | .writtenKey name _ _ => isIdentifier name = true
  | .postExec name _ => isIdentifier name = true
  | .emitted name => isIdentifier name = true
  | .emittedArg name _ _ _ => isIdentifier name = true
  | .called _ name => isIdentifier name = true
  | .fnCalled name => isIdentifier name = true
  | .callReturn name _ => isIdentifier name = true
  | .callArg name _ _ _ => isIdentifier name = true
  | .threw => True
  | .usedInCheck _ => True

theorem Named.dotless (named : fact.Named) : fact.Dotless := by
  cases fact with
  | called | fnCalled => exact notMem_of_identifier named (by decide)
  | _ => trivial

/-- A key of a write and an argument of an emission of the same name, with the same numbers. -/
inductive Mistakable : Fact → Fact → Prop
  | keyed (name : String) (number index : Nat) (s : SmtSort) :
      Mistakable (.writtenKey name number index) (.emittedArg name number index s)

/-- The three ways in which the symbol of a fact can end. -/
inductive Ending : Fact → Prop
  | word {fact : Fact} (lettered : fact.Lettered) : Ending fact
  | numbers {fact : Fact} {name : String} {number index : Nat} (unhashed : '#' ∉ name.toList)
      (numbered : fact.Numbered name.toList number index)
      (either : fact = .writtenKey name number index ∨ ∃ s, fact = .emittedArg name number index s) : Ending fact
  | call (f : String) (number index : Nat) (s : SmtSort) : Ending (.callArg f number index s)

theorem Named.ending (named : fact.Named) : fact.Ending := by
  cases fact with
  | writtenKey => exact .numbers (notMem_of_outside named (by decide)) (writtenKey_numbered ..) (.inl rfl)
  | emittedArg => exact .numbers (notMem_of_outside named (by decide)) (emittedArg_numbered ..) (.inr ⟨_, rfl⟩)
  | callArg => exact .call ..
  | _ => exact .word (by simp [Lettered, halves])

theorem Ending.numbered_or_lettered (ending : fact.Ending) :
    fact.Lettered ∨ ∃ stem number index, fact.Numbered stem number index := by
  cases ending with
  | word lettered => exact .inl lettered
  | numbers _ numbered => exact .inr ⟨_, _, _, numbered⟩
  | call => exact .inr ⟨_, _, _, callArg_numbered ..⟩

theorem symbol_unsorted (fact : Fact) : fact.unsorted.symbol = fact.symbol := by
  cases fact <;> rfl

/-- Two facts have one symbol exactly when they differ at most in their sort, or are a key of a write and an
argument of an emission with the same name and numbers. -/
theorem symbol_eq_iff (named : fact.Named) (named' : other.Named) :
    fact.symbol = other.symbol ↔
      fact.unsorted = other.unsorted ∨ fact.Mistakable other ∨ other.Mistakable fact := by
  constructor
  · intro same
    cases named.ending with
    | word lettered =>
      rcases named'.ending.numbered_or_lettered with lettered' | ⟨_, _, _, numbered⟩
      · exact .inl (unsorted_eq_of_halves named.dotless named'.dotless lettered lettered' (halves_of_symbol same))
      · exact (numbered.ne_of_letter lettered same).elim
    | numbers unhashed numbered either =>
      cases named'.ending with
      | word lettered => exact (numbered.ne_of_letter lettered same.symm).elim
      | numbers _ numbered' either' =>
        obtain ⟨name, rfl, rfl⟩ := numbered_inj numbered numbered' same
        obtain rfl := String.toList_injective name
        rcases either with rfl | ⟨_, rfl⟩ <;> rcases either' with rfl | ⟨_, rfl⟩
        · exact .inl rfl
        · exact .inr (.inl (.keyed ..))
        · exact .inr (.inr (.keyed ..))
        · exact .inl rfl
      | call f =>
        have stem := (numbered_inj numbered (callArg_numbered ..) same).1
        exact (unhashed (by simp [stem])).elim
    | call f number index s =>
      cases named'.ending with
      | word lettered => exact (Numbered.ne_of_letter (callArg_numbered ..) lettered same.symm).elim
      | numbers unhashed numbered =>
        have stem := (numbered_inj (callArg_numbered ..) numbered same).1
        exact (unhashed (by simp [← stem])).elim
      | call f' number' index' s' =>
        obtain ⟨stem, rfl, rfl⟩ := numbered_inj (callArg_numbered ..) (callArg_numbered ..) same
        obtain rfl := String.toList_injective (List.append_cancel_right stem)
        exact .inl rfl
  · rintro (same | alike | alike)
    · rw [← symbol_unsorted fact, same, symbol_unsorted]
    · cases alike
      rfl
    · cases alike
      rfl

/-- A receiver that is written like a whole fact is still told from it, unlike an emission from a write. -/
theorem receiver_kept_apart :
    (called "token.transfer#called" "transfer").symbol ≠ (fnCalled "transfer").symbol ∧
      (writtenKey "Transfer" 1 2).symbol = (emittedArg "Transfer" 1 2 .bool).symbol := by
  obtain ⟨event, function⟩ : isIdentifier "Transfer" = true ∧ isIdentifier "transfer" = true := by decide +kernel
  have key : (writtenKey "Transfer" 1 2).Named := event
  have argument : (emittedArg "Transfer" 1 2 .bool).Named := event
  have receiver : (called "token.transfer#called" "transfer").Named := function
  have any : (fnCalled "transfer").Named := function
  refine ⟨fun same => ?_, (symbol_eq_iff key argument).mpr (.inr (.inl (.keyed ..)))⟩
  rcases (symbol_eq_iff receiver any).mp same with same | same | same <;> cases same

end TokenAudit.Fact
