import QuditCircuits.Circuit.Builder
import QuditCircuits.Gate.Library
import QuditCircuits.Substitution.Rule

/-!
# Ready-made substitution rules

Rules that leave the controlled bit flip as the only gate on two qubits.
-/

namespace QuditCircuits.SubstitutionRule

variable {R : Type} [RealArithmetic R]

/-- A controlled phase flip is a controlled bit flip between two Hadamard gates on the target. -/
def czToCnot : Except (PassError R) (SubstitutionRule R) := do
  let body ← PassError.ofShape do
    let c ← (Circuit.empty (.qubits 2)).h? 1
    let c ← c.cx? 0 1
    c.h? 1
  make? .standard "cz_to_cnot" (.primitive (.qubit .cz)) "h_cx_h" body

/-- An exchange is three controlled bit flips with alternating controls. -/
def swapToCnot : Except (PassError R) (SubstitutionRule R) := do
  let body ← PassError.ofShape do
    let c ← (Circuit.empty (.qubits 2)).cx? 0 1
    let c ← c.cx? 1 0
    c.cx? 0 1
  make? .standard "swap_to_cnot" (.primitive (.qubit .swap)) "cx_cx_cx" body

end QuditCircuits.SubstitutionRule
