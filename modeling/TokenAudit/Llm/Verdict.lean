import TokenAudit.Text.Word

/-!
# Verdicts in prose

The answer of a language model is read off the first whole word that is a yes or a no in any case.
-/

namespace TokenAudit.Llm

def fold (c : Char) : Char := if c == 'ſ' then 's' else c.toLower

def isAnswerWord (word : List Char) : Bool :=
  let folded := word.map fold
  folded == ['y', 'e', 's'] || folded == ['n', 'o']

/-- True for a yes, false for a no.  A yes spelt with a long s is an answer but not a yes. -/
def verdict? (answer : String) : Option Bool :=
  ((Text.wordRuns answer.toList).find? isAnswerWord).map fun word => word.map Char.toLower == ['y', 'e', 's']

end TokenAudit.Llm
