import EquationSolver.Proofs.Floats.Midpoint
import EquationSolver.Proofs.Roots.Device
import EquationSolver.Proofs.Roots.Method

/-!
# Inside the bracket

A midpoint is the half of a sum, and the sum of two floats may be infinite. Bisection stays inside
the bracket it was given, for all models and limits, exactly if the doubles of the two ends are finite.
-/

namespace EquationSolver.Roots.Bisection

open Floats

variable {μ σ ε : Type}

structure Within (lo hi : Float) (made : Record Float) : Prop where
  a_finite : made.a.isFinite = true
  b_finite : made.b.isFinite = true
  c_finite : made.c.isFinite = true
  error_finite : made.error.isFinite = true
  lo_le : lo ≤ made.a
  a_le : made.a ≤ made.c
  le_b : made.c ≤ made.b
  le_hi : made.b ≤ hi

/-- Whether the interval of a record lies within that of another. -/
def Narrows (earlier later : Record Float) : Prop :=
  earlier.a ≤ later.a ∧ later.b ≤ earlier.b

/-- Whether a run stays between two bounds with its records and with the calls of its model. -/
structure Inside (lo hi : Float) (calls : List Float)
    (run : Run (Interval Float) (Record Float) σ (Error ε Float) Float) : Prop where
  within : ∀ made ∈ run.records, Within lo hi made
  nested : run.records.toList.IsChain Narrows
  called : ∀ x ∈ calls, lo ≤ x ∧ x ≤ hi
  root : ∀ solution, run.result = .ok solution → lo ≤ solution.root ∧ solution.root ≤ hi

def calls (device : Device μ ε Float) (memory : μ) (x y : Float) (limits : Limits Float)
    (observe : Observer σ (Record Float)) (state : σ) : List Float :=
  (runWith device.logged (memory, []) x y limits observe state).1.2

private theorem float_le_trans {x y z : Float} (hx : x.isFinite = true) (hy : y.isFinite = true)
    (hz : z.isFinite = true) (hxy : x ≤ y) (hyz : y ≤ z) : x ≤ z := by
  rw [le_iff_value_le hx hy] at hxy
  rw [le_iff_value_le hy hz] at hyz
  rw [le_iff_value_le hx hz]
  exact hxy.trans hyz

section Stays

structure Contained (lo hi : Float) (interval : Interval Float) : Prop where
  a_finite : interval.a.isFinite = true
  b_finite : interval.b.isFinite = true
  lo_le : value lo ≤ value interval.a
  le : value interval.a ≤ value interval.b
  le_hi : value interval.b ≤ value hi

/-- The records and calls that led to an interval between two bounds. -/
structure Led (lo hi : Float) (interval : Interval Float) (trace : Array (Record Float))
    (calls : List Float) : Prop where
  contained : Contained lo hi interval
  within : ∀ made ∈ trace, Within lo hi made
  nested : trace.toList.IsChain Narrows
  last : ∀ made ∈ trace.back?, made.a ≤ interval.a ∧ interval.b ≤ made.b
  called : ∀ x ∈ calls, lo ≤ x ∧ x ≤ hi

variable {lo hi : Float} {interval : Interval Float} {trace : Array (Record Float)}
  {calls : List Float} {iter : Nat} {fc : Float}

private theorem Led.inside_of_ended {start? : Option (Interval Float)} {state : σ}
    {result : Except (Error ε Float) (Solution (Record Float) Float)}
    (h : Led lo hi interval trace calls)
    (hroot : ∀ solution, result = .ok solution → lo ≤ solution.root ∧ solution.root ≤ hi) :
    Inside lo hi calls ⟨start?, trace, state, result⟩ :=
  ⟨h.within, h.nested, h.called, hroot⟩

variable (hlo' : |value lo| < 2 ^ (1023 : ℤ)) (hhi' : |value hi| < 2 ^ (1023 : ℤ))
include hlo' hhi'

private theorem Contained.magnitudes (h : Contained lo hi interval) :
    |value interval.a| < 2 ^ (1023 : ℤ) ∧ |value interval.b| < 2 ^ (1023 : ℤ) := by
  have hlow := h.lo_le
  have hle := h.le
  have hhigh := h.le_hi
  rw [abs_lt] at hlo' hhi' ⊢
  rw [abs_lt]
  refine ⟨⟨?_, ?_⟩, ?_, ?_⟩ <;> linarith

private theorem Contained.midpoint (h : Contained lo hi interval) :
    interval.midpoint.isFinite = true ∧ value interval.a ≤ value interval.midpoint ∧
      value interval.midpoint ≤ value interval.b := by
  obtain ⟨ha, hb⟩ := h.magnitudes hlo' hhi'
  exact midpoint_between h.a_finite h.b_finite ha hb h.le

private theorem Contained.keepHalf (h : Contained lo hi interval) :
    Contained lo hi (interval.keepHalf interval.midpoint fc) ∧
      interval.a ≤ (interval.keepHalf interval.midpoint fc).a ∧
      (interval.keepHalf interval.midpoint fc).b ≤ interval.b := by
  obtain ⟨hfinite, hleft, hright⟩ := h.midpoint hlo' hhi'
  unfold Interval.keepHalf
  split_ifs
  · refine ⟨⟨hfinite, h.b_finite, h.lo_le.trans hleft, hright, h.le_hi⟩, ?_, ?_⟩
    · exact (le_iff_value_le h.a_finite hfinite).mpr hleft
    · exact (le_iff_value_le h.b_finite h.b_finite).mpr le_rfl
  · refine ⟨⟨h.a_finite, hfinite, h.lo_le, hleft, hright.trans h.le_hi⟩, ?_, ?_⟩
    · exact (le_iff_value_le h.a_finite h.a_finite).mpr le_rfl
    · exact (le_iff_value_le hfinite h.b_finite).mpr hright

variable (hlo : lo.isFinite = true) (hhi : hi.isFinite = true)
include hlo hhi

private theorem Contained.called (h : Contained lo hi interval) :
    lo ≤ interval.midpoint ∧ interval.midpoint ≤ hi := by
  obtain ⟨hfinite, hleft, hright⟩ := h.midpoint hlo' hhi'
  rw [le_iff_value_le hlo hfinite, le_iff_value_le hfinite hhi]
  exact ⟨h.lo_le.trans hleft, hright.trans h.le_hi⟩

private theorem Contained.within (h : Contained lo hi interval) :
    Within lo hi (record iter interval fc) := by
  obtain ⟨hfinite, hleft, hright⟩ := h.midpoint hlo' hhi'
  obtain ⟨ha, hb⟩ := h.magnitudes hlo' hhi'
  exact {
    a_finite := h.a_finite
    b_finite := h.b_finite
    c_finite := hfinite
    error_finite := isFinite_half_width h.a_finite h.b_finite ha hb
    lo_le := (le_iff_value_le hlo h.a_finite).mpr h.lo_le
    a_le := (le_iff_value_le h.a_finite hfinite).mpr hleft
    le_b := (le_iff_value_le hfinite h.b_finite).mpr hright
    le_hi := (le_iff_value_le h.b_finite hhi).mpr h.le_hi }

private theorem Led.called_midpoint (h : Led lo hi interval trace calls) :
    ∀ x ∈ calls ++ [interval.midpoint], lo ≤ x ∧ x ≤ hi := by
  intro x hx
  rcases List.mem_append.mp hx with hx | hx
  · exact h.called x hx
  · rw [List.mem_singleton.mp hx]
    exact h.contained.called hlo' hhi' hlo hhi

/-- One iteration: a record is made on the interval, and a half of it is kept. -/
theorem Led.push (h : Led lo hi interval trace calls) (iter : Nat) (fc : Float) :
    Led lo hi (interval.keepHalf interval.midpoint fc)
      (trace.push (record iter interval fc)) (calls ++ [interval.midpoint]) := by
  obtain ⟨hcontained, hleft, hright⟩ := h.contained.keepHalf hlo' hhi'
  refine ⟨hcontained, ?_, ?_, ?_, h.called_midpoint hlo' hhi' hlo hhi⟩
  · intro made hmade
    rcases Array.mem_push.mp hmade with hmade | rfl
    · exact h.within made hmade
    · exact h.contained.within hlo' hhi' hlo hhi
  · rw [Array.toList_push, List.isChain_append]
    refine ⟨h.nested, List.isChain_singleton _, ?_⟩
    intro earlier hearlier later hlater
    cases hlater
    exact h.last earlier (by simpa using hearlier)
  · intro made hmade
    rw [Array.back?_push] at hmade
    cases hmade
    exact ⟨hleft, hright⟩

private theorem Led.inside (device : Device μ ε Float) (tolerance : Float)
    (observe : Observer σ (Record Float)) (start : Interval Float) (left : Nat) (state : σ)
    (memory : μ) (h : Led lo hi interval trace calls) :
    Inside lo hi
      (iterateWith device.logged tolerance observe start left interval trace state
        (memory, calls)).1.2
      (iterateWith device.logged tolerance observe start left interval trace state
        (memory, calls)).2 := by
  induction left generalizing interval trace state memory calls with
  | zero =>
    apply h.inside_of_ended
    intro solution hsolution
    cases hsolution
    cases hback : trace.back? with
    | none => exact h.contained.called hlo' hhi' hlo hhi
    | some last =>
      have hlast := h.within last (Array.mem_of_back? hback)
      constructor
      · exact float_le_trans hlo hlast.a_finite hlast.c_finite hlast.lo_le hlast.a_le
      · exact float_le_trans hlast.c_finite hlast.b_finite hhi hlast.le_b hlast.le_hi
  | succ left ih =>
    rcases hdevice : device memory interval.midpoint with ⟨next, cause | fc⟩
    · simp only [iterateWith, Device.logged, hdevice]
      refine ⟨h.within, h.nested, h.called_midpoint hlo' hhi' hlo hhi, ?_⟩
      intro solution hsolution
      cases hsolution
    · have hpush := h.push hlo' hhi' hlo hhi (trace.size + 1) fc
      have hroot := h.contained.called hlo' hhi' hlo hhi
      simp only [iterateWith, Device.logged, hdevice]
      split
      · apply hpush.inside_of_ended
        intro solution hsolution
        cases hsolution
        exact hroot
      split
      · apply hpush.inside_of_ended
        intro solution hsolution
        cases hsolution
        exact hroot
      split
      · apply hpush.inside_of_ended
        intro solution hsolution
        cases hsolution
      · exact ih _ _ hpush

/-- With finite doubles of the ends every run stays inside. -/
theorem inside_runWith (hlt : lo < hi) {x y : Float} (hordered : ordered x y = .ok (lo, hi))
    (device : Device μ ε Float) (memory : μ) (limits : Limits Float)
    (observe : Observer σ (Record Float)) (state : σ) :
    Inside lo hi (Bisection.calls device memory x y limits observe state)
      (runWith device memory x y limits observe state).2 := by
  have hle := ((lt_iff_value_lt hlo hhi).mp hlt).le
  have hends : ∀ x ∈ [lo, hi], lo ≤ x ∧ x ≤ hi := by
    have hlohi := (le_iff_value_le hlo hhi).mpr hle
    simp [hlohi, le_iff_value_le hlo hlo, le_iff_value_le hhi hhi]
  obtain ⟨hcalls, hentered⟩ := enterWith_calls device memory hordered
  rw [← runWith_logged, Bisection.calls]
  unfold runWith
  generalize enterWith device.logged (memory, []) x y = entered at hcalls hentered ⊢
  obtain ⟨⟨after, calls⟩, error | interval⟩ := entered
  · exact ⟨by simp, by simp, fun x hx => hends x (hcalls.subset hx),
      fun _ hsolution => by cases hsolution⟩
  · obtain ⟨rfl, rfl, rfl⟩ := hentered interval rfl
    have hcontained : Contained interval.a interval.b interval := ⟨hlo, hhi, le_rfl, hle, le_rfl⟩
    have hled : Led interval.a interval.b interval #[] [interval.a, interval.b] :=
      ⟨hcontained, by simp, by simp, by simp, hends⟩
    exact hled.inside hlo' hhi' hlo hhi ..

end Stays

end EquationSolver.Roots.Bisection
