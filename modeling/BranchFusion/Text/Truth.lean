import BranchFusion.Text.Numeral

/-!
# Truth values in text

The words for true and false in flags and in the environment: a digit, a letter, or the word in one
of three spellings.
-/

namespace BranchFusion.Text

/-- The words for true. -/
def trueWords : List String := ["1", "t", "T", "TRUE", "true", "True"]

/-- The words for false. -/
def falseWords : List String := ["0", "f", "F", "FALSE", "false", "False"]

/-- **Reads a truth value.** -/
def readTruth (s : String) : Except Numeral.Fault Bool :=
  if s ∈ trueWords then .ok true
  else if s ∈ falseWords then .ok false
  else .error .malformed

/-- No word stands for both. -/
theorem trueWords_disjoint : ∀ s ∈ trueWords, s ∉ falseWords := by decide

end BranchFusion.Text
