import Mathlib.Data.List.Induction
import EquationSolver.Proofs.Roots.Outcome

/-!
# Stop controls

Limits and observers decide when a run ends and nothing else: the records of two runs from the same
start agree as far as both go.
-/

namespace EquationSolver.Roots

variable {κ ρ σ ε α : Type}

namespace Method

variable {method : Method κ ρ ε α} {start : κ} {records₁ records₂ : List ρ}

/-- Records each of which the method makes after those before it. -/
def Makes (method : Method κ ρ ε α) (start : κ) (records : List ρ) : Prop :=
  ∀ before made later, records = before ++ made :: later →
    method.next (method.after start before) before.toArray = .ok made

theorem Makes.of_append {before later : List ρ} (h : method.Makes start (before ++ later)) :
    method.Makes start before := by
  intro earlier made rest hbefore
  exact h earlier made (rest ++ later) (by simp [hbefore])

private theorem Makes.comparable (h₁ : method.Makes start records₁) (h₂ : method.Makes start records₂) :
    records₁ <+: records₂ ∨ records₂ <+: records₁ := by
  induction records₁ using List.reverseRecOn with
  | nil => exact .inl List.nil_prefix
  | append_singleton before last ih =>
    rcases ih h₁.of_append with ⟨rest, rfl⟩ | hinitial
    · cases rest with
      | nil => exact .inr (by simp)
      | cons other later =>
        have hlast := h₁ before last [] rfl
        rw [h₂ before other later rfl] at hlast
        cases hlast
        exact .inl ⟨later, by simp⟩
    · exact .inr (hinitial.trans (List.prefix_append _ _))

end Method

variable [Scalar α]

/-- The limits and the observer of a run have no influence on its records. -/
structure Uninfluenced (solver : Solver κ ρ ε α) (solve : Limits α → Except ε (Solution ρ α)) :
    Prop where
  comparable : ∀ {σ₁ σ₂ : Type} (limits₁ limits₂ : Limits α) (observe₁ : Observer σ₁ ρ)
      (observe₂ : Observer σ₂ ρ) (state₁ : σ₁) (state₂ : σ₂),
    handed solver limits₁ observe₁ state₁ <+: handed solver limits₂ observe₂ state₂ ∨
      handed solver limits₂ observe₂ state₂ <+: handed solver limits₁ observe₁ state₁
  /-- An observer that stops nothing might as well not look. -/
  unobserved : ∀ {σ : Type} (limits : Limits α) (observe : Observer σ ρ) (state : σ),
    (∀ before made later, handed solver limits observe state = before ++ made :: later →
      observe.answer state before made ≠ .stopEarly) →
    (solver limits observe state).result = solve limits
  /-- A run that ends before its iterations do would not use more. -/
  larger_cap : ∀ {σ : Type} (limits larger : Limits α) (observe : Observer σ ρ) (state : σ),
    larger.tolerance = limits.tolerance → limits.maxIters ≤ larger.maxIters →
    ¬ HasStatus (solver limits observe state).result .maxIters →
    solver larger observe state = solver limits observe state

namespace Method

variable [IterationRecord ρ α] {method : Method κ ρ ε α} {tolerance : α} {observe : Observer σ ρ}
  {state : σ} {start : κ} {made : List ρ} {maxIters larger : Nat}
  {result : Except ε (Solution ρ α)}

theorem Ends.makes (h : Ends method tolerance observe state start maxIters made result) :
    method.Makes start made :=
  fun _ _ _ hrecords => (h.next_eq hrecords).2

private theorem eq_proceed_of_ne {answer : Directive} (h : answer ≠ .stopEarly) : answer = .proceed := by
  cases answer with
  | proceed => rfl
  | stopEarly => exact absurd rfl h

private theorem Underway.silent (h : Underway method tolerance observe state start made) :
    Underway method tolerance Observer.silent () start made := by
  induction h with
  | nil => exact .nil
  | concat before next_eq undecided ih =>
    refine .concat ih next_eq ?_
    rwa [Observer.answer_silent, ← eq_proceed_of_ne (verdict_eq_none_iff.mp undecided).2.1]

private theorem Ends.silent (h : Ends method tolerance observe state start maxIters made result)
    (hproceeds : ∀ before last later, made = before ++ last :: later →
      observe.answer state before last ≠ .stopEarly) :
    Ends method tolerance Observer.silent () start maxIters made result := by
  cases h with
  | failed before left next_eq => exact .failed before.silent left next_eq
  | decided before left next_eq decision =>
    refine .decided before.silent left next_eq ?_
    rwa [Observer.answer_silent, ← eq_proceed_of_ne (hproceeds _ _ [] rfl)]
  | exhausted before none_left => exact .exhausted before.silent none_left

/-- Only a run that has used up its iterations depends on their number. -/
theorem Ends.larger_cap (h : Ends method tolerance observe state start maxIters made result)
    (hle : maxIters ≤ larger) (hstatus : ¬ HasStatus result .maxIters) :
    Ends method tolerance observe state start larger made result := by
  cases h with
  | failed before left next_eq => exact .failed before (Nat.lt_of_lt_of_le left hle) next_eq
  | decided before left next_eq decision =>
    exact .decided before (Nat.lt_of_lt_of_le left hle) next_eq decision
  | exhausted before none_left => exact absurd (by simp) hstatus

private theorem uninfluenced (method : Method κ ρ ε α) (start : Except ε κ) :
    Uninfluenced (method.run start)
      fun limits => (method.run start limits Observer.silent ()).result := by
  cases start with
  | error error =>
    exact {
      comparable := fun _ _ _ _ _ _ => .inl List.nil_prefix
      unobserved := fun _ _ _ _ => rfl
      larger_cap := fun _ _ _ _ _ _ _ => rfl }
  | ok start =>
    exact {
      comparable := by
        intro σ₁ σ₂ limits₁ limits₂ observe₁ observe₂ state₁ state₂
        obtain ⟨made₁, _, hends₁, -⟩ := ends_run method start limits₁ observe₁ state₁
        obtain ⟨made₂, _, hends₂, -⟩ := ends_run method start limits₂ observe₂ state₂
        rw [hends₁.handed_eq, hends₂.handed_eq]
        exact hends₁.makes.comparable hends₂.makes
      unobserved := by
        intro σ limits observe state hproceeds
        obtain ⟨made, result, hends, hrun⟩ := ends_run method start limits observe state
        rw [hends.handed_eq] at hproceeds
        rw [hrun]
        exact (congrArg Run.result (hends.silent hproceeds).iterate_eq).symm
      larger_cap := by
        intro σ limits larger observe state htolerance hle hstatus
        obtain ⟨made, result, hends, hrun⟩ := ends_run method start limits observe state
        rw [hrun] at hstatus ⊢
        rw [← htolerance] at hends
        exact (hends.larger_cap hle hstatus).iterate_eq }

end Method

/-- The stop controls of either method have no influence on its records. -/
theorem controls_uninfluential :
    (∀ (f : Model ε α) (x y : α), Uninfluenced (Bisection.run f x y) (Bisection.solve f x y)) ∧
    ∀ (f : Model ε α) (x0 x1 : α), Uninfluenced (Secant.run f x0 x1) (Secant.solve f x0 x1) := by
  constructor
  · intro f x y
    change Uninfluenced (fun limits observe state => Bisection.run f x y limits observe state)
      fun limits => (Bisection.run f x y limits Observer.silent ()).result
    simp only [Bisection.run_eq]
    exact (Bisection.method f).uninfluenced (Bisection.enter f x y)
  · intro f x0 x1
    change Uninfluenced (fun limits observe state => Secant.run f x0 x1 limits observe state)
      fun limits => (Secant.run f x0 x1 limits Observer.silent ()).result
    simp only [Secant.run_eq]
    exact (Secant.method f).uninfluenced (Secant.accept x0 x1)

/-- A run that converges in its second iteration ends there under any greater cap. -/
theorem controls_uninfluential_converged :
    ¬ HasStatus (Bisection.run square 0 2 (capped 2 (by decide)) Observer.silent ()).result .maxIters ∧
      Bisection.run square 0 2 (capped 100 (by decide)) Observer.silent () =
        Bisection.run square 0 2 (capped 2 (by decide)) Observer.silent () := by
  have hstatus :
      ¬ HasStatus (Bisection.run square 0 2 (capped 2 (by decide)) Observer.silent ()).result
        .maxIters := by
    have hresult : ((Bisection.run square 0 2 (capped 2 (by decide)) Observer.silent
        ()).result.toOption.all fun solution => solution.status = .converged) = true := by decide +kernel
    rintro ⟨solution, hok, hmaxIters⟩
    rw [hok] at hresult
    simp [Except.toOption, hmaxIters] at hresult
  have huninfluenced := controls_uninfluential.1 square 0 2
  exact ⟨hstatus, huninfluenced.larger_cap _ _ _ _ rfl (by decide) hstatus⟩

end EquationSolver.Roots
