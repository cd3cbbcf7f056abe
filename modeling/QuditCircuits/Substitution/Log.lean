/-!
# Substitution logs

A substitution log lists the applications of substitution rules in the order in which they were run,
each with the number of operations that it replaced.  A rule may occur any number of times.
-/

namespace QuditCircuits

/-- One application of a substitution rule. -/
structure SubstitutionEntry where
  /-- The name of the rule. -/
  rule : String
  /-- The number of operations that were replaced. -/
  replaced : Nat
  deriving DecidableEq

/-- The applications of substitution rules, in the order in which they were run. -/
structure SubstitutionLog where
  /-- The applications so far. -/
  entries : List SubstitutionEntry
  deriving DecidableEq

namespace SubstitutionLog

/-- The log of no application. -/
def empty : SubstitutionLog where
  entries := []

/-- Adds one application at the end. -/
def record (log : SubstitutionLog) (rule : String) (replaced : Nat) : SubstitutionLog where
  entries := log.entries ++ [⟨rule, replaced⟩]

/-- The number of operations replaced by all applications of one rule. -/
def replacedBy (log : SubstitutionLog) (rule : String) : Nat :=
  ((log.entries.filter fun entry => entry.rule = rule).map SubstitutionEntry.replaced).foldr
    (· + ·) 0

/-- The number of operations replaced by all applications. -/
def totalReplaced (log : SubstitutionLog) : Nat :=
  (log.entries.map SubstitutionEntry.replaced).foldr (· + ·) 0

/-- Recording an application adds its replacements to the total. -/
theorem totalReplaced_record (log : SubstitutionLog) (rule : String) (replaced : Nat) :
    (log.record rule replaced).totalReplaced = log.totalReplaced + replaced := by
  simp only [totalReplaced, ← List.sum_eq_foldr]
  simp [record]

/-- Recording an application adds to the count of its own rule only. -/
theorem replacedBy_record (log : SubstitutionLog) (rule other : String) (replaced : Nat) :
    (log.record rule replaced).replacedBy other =
      log.replacedBy other + if rule = other then replaced else 0 := by
  simp only [replacedBy, ← List.sum_eq_foldr]
  by_cases h : rule = other <;> simp [record, h]

end SubstitutionLog

end QuditCircuits
