/-!
# Lines

A line ends with a line feed, and a carriage return in front of it belongs to the end. The last line
of a text need not be ended.
-/

namespace EquationSolver.Text

def lines : List Char → List (List Char)
  | [] => []
  | '\n' :: rest => [] :: lines rest
  | '\r' :: '\n' :: rest => [] :: lines rest
  | c :: rest =>
      match lines rest with
      | [] => [[c]]
      | line :: more => (c :: line) :: more

theorem not_mem_of_mem_lines {text line : List Char} (h : line ∈ lines text) : '\n' ∉ line := by
  fun_induction lines text generalizing line with
  | case1 => simp at h
  | case2 rest ih =>
    rcases List.mem_cons.mp h with rfl | h
    · simp
    · exact ih h
  | case3 rest ih =>
    rcases List.mem_cons.mp h with rfl | h
    · simp
    · exact ih h
  | case4 c rest notFeed _ _ =>
    rw [List.mem_singleton] at h
    subst h
    simpa using fun e => notFeed e.symm
  | case5 c rest notFeed _ first more split ih =>
    rw [split] at ih
    rcases List.mem_cons.mp h with rfl | h
    · have := ih (List.mem_cons_self ..)
      simpa [this] using fun e => notFeed e.symm
    · exact ih (List.mem_cons_of_mem _ h)

def firstLine (text : List Char) : List Char :=
  (lines text).headD []

example : lines ['a', '\r', '\n', '\r', 'b', '\n'] = [['a'], ['\r', 'b']] := by decide

end EquationSolver.Text
