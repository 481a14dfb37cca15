import EquationSolver.Main
import EquationSolver.Proofs.CommandLine.ExitCode
import EquationSolver.Proofs.CommandLine.MachineReadable
import EquationSolver.Proofs.Formula.Frames
import EquationSolver.Proofs.Formula.Height
import EquationSolver.Proofs.Formula.Juxtaposition
import EquationSolver.Proofs.Formula.Nesting
import EquationSolver.Proofs.Formula.Numerals
import EquationSolver.Proofs.Formula.Parentheses
import EquationSolver.Proofs.Formula.Repair
import EquationSolver.Proofs.Formula.Signs
import EquationSolver.Proofs.Formula.Spacing
import EquationSolver.Proofs.Linear.Duplicates
import EquationSolver.Proofs.Linear.Exact
import EquationSolver.Proofs.Linear.FiniteRange
import EquationSolver.Proofs.Linear.Reordering
import EquationSolver.Proofs.Linear.Replay
import EquationSolver.Proofs.Linear.Resizing
import EquationSolver.Proofs.Report.Columns
import EquationSolver.Proofs.Roots.Controls
import EquationSolver.Proofs.Roots.Escape
import EquationSolver.Proofs.Roots.Estimates
import EquationSolver.Proofs.Roots.Failures
import EquationSolver.Proofs.Roots.Halving
import EquationSolver.Proofs.Roots.Lines
import EquationSolver.Proofs.Roots.SignsOnly
