import EquationSolver.Formula.Parser
import EquationSolver.Formula.Printer

/-!
# Expressions

A formula that was read, with the text it was read from.
-/

namespace EquationSolver.Formula

/-- A formula and its text. -/
structure Expression where
  source : String
  root : Node

/-- The words from which formulas are put together beside numbers and the variable. -/
def vocabulary : List String :=
  Builtin.all.map (·.name ++ "(") ++ ["^", "π", "e", "(", ")"]

namespace Expression

def parse (source : String) : Except ParseError Expression :=
  (Formula.parse source).map fun root => ⟨source, root⟩

/-- The value at a point, which may be infinite or no number. -/
def eval (e : Expression) (x : Float) : Float :=
  e.root.eval x

/-- The value at a point, if it is a finite number. -/
def tryEval (e : Expression) (x : Float) : Except NonFiniteValue Float :=
  let value := e.eval x
  if value.isFinite then .ok value else .error ⟨x, value⟩

/-- An expression as a function that never fails. -/
def call {ε : Type} (e : Expression) (x : Float) : Except ε Float :=
  .ok (e.eval x)

theorem tryEval_eq_ok_iff {e : Expression} {x value : Float} :
    e.tryEval x = .ok value ↔ e.eval x = value ∧ value.isFinite = true := by
  simp only [tryEval]
  split
  · rename_i finite
    constructor
    · intro h
      cases h
      exact ⟨rfl, finite⟩
    · rintro ⟨rfl, _⟩
      rfl
  · rename_i infinite
    constructor
    · intro h
      cases h
    · rintro ⟨rfl, finite⟩
      exact absurd finite infinite

/-- Reading keeps the text. -/
theorem source_of_parse {source : String} {e : Expression} (h : parse source = .ok e) :
    e.source = source := by
  simp only [parse, Except.map] at h
  split at h
  · cases h
  · cases h
    rfl

end Expression

end EquationSolver.Formula
