import Mathlib.Tactic.SplitIfs
import EquationSolver.Roots.Bisection
import EquationSolver.Roots.Secant

/-!
# What the root finders share

Bisection and the secant method are one loop with different records. A run of the loop is described
by the records it hands to its observer: `Underway` holds of the records after which a run goes on,
and `Ends` of those it has made when it returns. A run ends in exactly the way that `Ends` says.
-/

namespace EquationSolver.Roots

namespace Observer

variable {σ ρ : Type}

def after (observe : Observer σ ρ) (state : σ) (seen : List ρ) : σ :=
  seen.foldl (fun state made => (observe state made).1) state

def answer (observe : Observer σ ρ) (state : σ) (seen : List ρ) (made : ρ) : Directive :=
  (observe (observe.after state seen) made).2

def logged (observe : Observer σ ρ) : Observer (σ × List ρ) ρ :=
  fun (state, seen) made => (((observe state made).1, seen ++ [made]), (observe state made).2)

variable (observe : Observer σ ρ) (state : σ) (log seen : List ρ) (made : ρ)

@[simp] theorem after_concat :
    observe.after state (seen ++ [made]) = (observe (observe.after state seen) made).1 := by
  simp [after]

private theorem after_logged :
    observe.logged.after (state, log) seen = (observe.after state seen, log ++ seen) := by
  induction seen generalizing state log with
  | nil => simp [after]
  | cons made seen ih =>
    have := ih (observe state made).1 (log ++ [made])
    simpa [after, logged] using this

private theorem answer_logged :
    observe.logged.answer (state, log) seen made = observe.answer state seen made := by
  rw [answer, after_logged]
  rfl

theorem answer_silent : Observer.silent.answer () seen made = .proceed := rfl

end Observer

variable {ρ σ ε α : Type}

def HasStatus (result : Except ε (Solution ρ α)) (status : Status) : Prop :=
  ∃ solution, result = .ok solution ∧ solution.status = status

@[simp] theorem hasStatus_ok {solution : Solution ρ α} {status : Status} :
    HasStatus (.ok solution : Except ε (Solution ρ α)) status ↔ solution.status = status := by
  simp [HasStatus]

@[simp] theorem hasStatus_error {error : ε} {status : Status} :
    ¬ HasStatus (.error error : Except ε (Solution ρ α)) status := by
  simp [HasStatus]

theorem exists_error_of_check {β : Type} {result : Except ε β} {check : ε → Bool}
    (h : (match result with | .error error => check error | .ok _ => false) = true) :
    ∃ error, result = .error error ∧ check error = true := by
  cases result with
  | error error => exact ⟨error, rfl, h⟩
  | ok value => cases h

theorem exists_ok_of_check {β : Type} {result : Except ε β} {check : β → Bool}
    (h : (match result with | .error _ => false | .ok value => check value) = true) :
    ∃ value, result = .ok value ∧ check value = true := by
  cases result with
  | error error => cases h
  | ok value => exact ⟨value, rfl, h⟩

/-- A root finder with its starting points. -/
abbrev Solver (κ ρ ε α : Type) [Scalar α] :=
  {σ : Type} → Limits α → Observer σ ρ → σ → Run κ ρ σ ε α

/-- The records that a run hands to its observer, in order. -/
def handed {κ : Type} [Scalar α] (solver : Solver κ ρ ε α) (limits : Limits α)
    (observe : Observer σ ρ) (state : σ) : List ρ :=
  (solver limits observe.logged (state, [])).observer.2

/-- A root finder: how it makes a record from its place and the records before, and how it moves on. -/
structure Method (κ ρ ε α : Type) where
  /-- The record of an iteration, or what keeps it from being made. -/
  next : κ → Array ρ → Except ε ρ
  /-- What is wrong with a record that has been made: an error that the trace goes with. -/
  fault? : ρ → Option (Array ρ → ε)
  advance : κ → ρ → κ
  estimate : ρ → α
  /-- The estimate at a place where no record was made. -/
  current : κ → α

namespace Method

variable {κ ρ σ ε α : Type}

def after (method : Method κ ρ ε α) (start : κ) (made : List ρ) : κ :=
  made.foldl method.advance start

@[simp] theorem after_nil (method : Method κ ρ ε α) (start : κ) : method.after start [] = start := rfl

@[simp] theorem after_concat (method : Method κ ρ ε α) (start : κ) (made : List ρ) (last : ρ) :
    method.after start (made ++ [last]) = method.advance (method.after start made) last := by
  simp [after]

variable [Scalar α] [IterationRecord ρ α]

/-- What a run returns because of a record and the answer to it, if it does not go on. -/
def verdict (method : Method κ ρ ε α) (tolerance : α) (answer : Directive) (last : ρ)
    (trace : Array ρ) : Option (Except ε (Solution ρ α)) :=
  if Scalar.less (IterationRecord.error last) tolerance then
    some (.ok ⟨.converged, method.estimate last, trace⟩)
  else if answer = .stopEarly then some (.ok ⟨.stoppedByObserver, method.estimate last, trace⟩)
  else (method.fault? last).map fun fault => .error (fault trace)

def iterate (method : Method κ ρ ε α) (tolerance : α) (observe : Observer σ ρ) (start : κ) :
    Nat → κ → Array ρ → σ → Run κ ρ σ ε α
  | 0, place, trace, state =>
      let root := (trace.back?.map method.estimate).getD (method.current place)
      ⟨some start, trace, state, .ok ⟨.maxIters, root, trace⟩⟩
  | left + 1, place, trace, state =>
      match method.next place trace with
      | .error error => ⟨some start, trace, state, .error error⟩
      | .ok made =>
          let (state, answer) := observe state made
          match method.verdict tolerance answer made (trace.push made) with
          | some result => ⟨some start, trace.push made, state, result⟩
          | none => iterate method tolerance observe start left (method.advance place made)
              (trace.push made) state

def run (method : Method κ ρ ε α) (start : Except ε κ) (limits : Limits α) (observe : Observer σ ρ)
    (state : σ) : Run κ ρ σ ε α :=
  match start with
  | .error error => ⟨none, #[], state, .error error⟩
  | .ok start => method.iterate limits.tolerance observe start limits.maxIters start #[] state

section Course

variable (method : Method κ ρ ε α) (tolerance : α) (observe : Observer σ ρ) (state : σ) (start : κ)

/-- The records after which a run goes on. -/
inductive Underway : List ρ → Prop
  | nil : Underway []
  | concat {made : List ρ} {last : ρ} (before : Underway made)
      (next_eq : method.next (method.after start made) made.toArray = .ok last)
      (undecided : method.verdict tolerance (observe.answer state made last) last
        (made ++ [last]).toArray = none) :
      Underway (made ++ [last])

/-- The records that a run has made when it returns, and what it returns. -/
inductive Ends (maxIters : Nat) : List ρ → Except ε (Solution ρ α) → Prop
  | failed {made : List ρ} {error : ε} (before : Underway method tolerance observe state start made)
      (left : made.length < maxIters)
      (next_eq : method.next (method.after start made) made.toArray = .error error) :
      Ends maxIters made (.error error)
  | decided {made : List ρ} {last : ρ} {result : Except ε (Solution ρ α)}
      (before : Underway method tolerance observe state start made)
      (left : made.length < maxIters)
      (next_eq : method.next (method.after start made) made.toArray = .ok last)
      (decision : method.verdict tolerance (observe.answer state made last) last
        (made ++ [last]).toArray = some result) :
      Ends maxIters (made ++ [last]) result
  | exhausted {made : List ρ} (before : Underway method tolerance observe state start made)
      (none_left : made.length = maxIters) :
      Ends maxIters made (.ok ⟨.maxIters,
        (made.getLast?.map method.estimate).getD (method.current (method.after start made)),
        made.toArray⟩)

end Course

variable {method : Method κ ρ ε α} {tolerance : α} {observe : Observer σ ρ} {state : σ} {start : κ}
  {made : List ρ} {last : ρ} {left maxIters : Nat} {result : Except ε (Solution ρ α)}

private theorem iterate_succ_of_undecided
    (next_eq : method.next (method.after start made) made.toArray = .ok last)
    (undecided : method.verdict tolerance (observe.answer state made last) last
      (made ++ [last]).toArray = none) :
    method.iterate tolerance observe start (left + 1) (method.after start made) made.toArray
        (observe.after state made) =
      method.iterate tolerance observe start left (method.after start (made ++ [last]))
        (made ++ [last]).toArray (observe.after state (made ++ [last])) := by
  rw [Observer.answer] at undecided
  simp [iterate, next_eq, undecided]

private theorem Underway.iterate_eq (h : Underway method tolerance observe state start made) :
    method.iterate tolerance observe start (made.length + left) start #[] state =
      method.iterate tolerance observe start left (method.after start made) made.toArray
        (observe.after state made) := by
  induction h generalizing left with
  | nil => simp [Observer.after]
  | concat before next_eq undecided ih =>
    rw [List.length_append, List.length_singleton, Nat.add_assoc, Nat.add_comm 1, ih,
      iterate_succ_of_undecided next_eq undecided]

/-- Every run comes to an end. -/
theorem Underway.exists_ends (h : Underway method tolerance observe state start made)
    (hlength : made.length + left = maxIters) :
    ∃ handed result, Ends method tolerance observe state start maxIters handed result := by
  induction left generalizing made with
  | zero => exact ⟨_, _, .exhausted h hlength⟩
  | succ left ih =>
    have hleft : made.length < maxIters := by omega
    cases hnext : method.next (method.after start made) made.toArray with
    | error error => exact ⟨_, _, .failed h hleft hnext⟩
    | ok last =>
      cases hverdict : method.verdict tolerance (observe.answer state made last) last
          (made ++ [last]).toArray with
      | some result => exact ⟨_, _, .decided h hleft hnext hverdict⟩
      | none => exact ih (.concat h hnext hverdict) (by simp; omega)

theorem Ends.iterate_eq (h : Ends method tolerance observe state start maxIters made result) :
    method.iterate tolerance observe start maxIters start #[] state =
      ⟨some start, made.toArray, observe.after state made, result⟩ := by
  cases h with
  | failed before left next_eq =>
    obtain ⟨left, rfl⟩ := Nat.exists_eq_add_of_lt left
    rw [Nat.add_assoc, before.iterate_eq]
    simp [iterate, next_eq]
  | decided before left next_eq decision =>
    obtain ⟨left, rfl⟩ := Nat.exists_eq_add_of_lt left
    rw [Observer.answer] at decision
    rw [Nat.add_assoc, before.iterate_eq]
    simp [iterate, next_eq, decision]
  | exhausted before none_left =>
    rw [← Nat.add_zero maxIters, ← none_left, before.iterate_eq]
    simp [iterate]

/-- A run returns what the records it handed out lead to. -/
theorem ends_run (method : Method κ ρ ε α) (start : κ) (limits : Limits α)
    (observe : Observer σ ρ) (state : σ) :
    ∃ handed result,
      Ends method limits.tolerance observe state start limits.maxIters handed result ∧
      method.run (.ok start) limits observe state =
        ⟨some start, handed.toArray, observe.after state handed, result⟩ := by
  have hnil : Underway method limits.tolerance observe state start [] := .nil
  obtain ⟨handed, result, hends⟩ := hnil.exists_ends (Nat.zero_add limits.maxIters)
  exact ⟨handed, result, hends, hends.iterate_eq⟩

theorem verdict_eq_none_iff {answer : Directive} {trace : Array ρ} :
    method.verdict tolerance answer last trace = none ↔
      Scalar.less (IterationRecord.error last) tolerance = false ∧ answer ≠ .stopEarly ∧
        method.fault? last = none := by
  unfold verdict
  split_ifs with hless hstop
  · simp [hless]
  · simp [hstop]
  · simp [hless, hstop]

theorem verdict_cases {answer : Directive} {trace : Array ρ}
    (h : method.verdict tolerance answer last trace = some result) :
    (Scalar.less (IterationRecord.error last) tolerance = true ∧
      result = .ok ⟨.converged, method.estimate last, trace⟩) ∨
    (Scalar.less (IterationRecord.error last) tolerance = false ∧ answer = .stopEarly ∧
      result = .ok ⟨.stoppedByObserver, method.estimate last, trace⟩) ∨
    (Scalar.less (IterationRecord.error last) tolerance = false ∧ answer ≠ .stopEarly ∧
      ∃ fault, method.fault? last = some fault ∧ result = .error (fault trace)) := by
  unfold verdict at h
  split_ifs at h with hless hstop
  · exact .inl ⟨hless, (Option.some.inj h).symm⟩
  · exact .inr (.inl ⟨Bool.eq_false_iff.mpr hless, hstop, (Option.some.inj h).symm⟩)
  · obtain ⟨fault, hfault, hresult⟩ := Option.map_eq_some_iff.mp h
    exact .inr (.inr ⟨Bool.eq_false_iff.mpr hless, hstop, fault, hfault, hresult.symm⟩)

theorem Underway.of_concat (h : Underway method tolerance observe state start (made ++ [last])) :
    Underway method tolerance observe state start made ∧
      method.next (method.after start made) made.toArray = .ok last ∧
      method.verdict tolerance (observe.answer state made last) last
        (made ++ [last]).toArray = none := by
  generalize hrecords : made ++ [last] = records at h
  cases h with
  | nil => simp at hrecords
  | concat before next_eq undecided =>
    obtain ⟨rfl, hlast⟩ := List.append_inj' hrecords rfl
    cases hlast
    exact ⟨before, next_eq, undecided⟩

theorem Underway.of_prefix {before : List ρ} (h : Underway method tolerance observe state start made)
    (hinitial : before <+: made) : Underway method tolerance observe state start before := by
  induction h with
  | nil =>
    rw [List.prefix_nil.mp hinitial]
    exact .nil
  | concat earlier next_eq undecided ih =>
    rcases List.prefix_concat_iff.mp hinitial with rfl | hinitial
    · exact .concat earlier next_eq undecided
    · exact ih hinitial

namespace Ends

variable {before later handed : List ρ}

theorem length_le (h : Ends method tolerance observe state start maxIters handed result) :
    handed.length ≤ maxIters := by
  cases h with
  | failed before left next_eq => exact Nat.le_of_lt left
  | decided before left next_eq decision => simpa using Nat.succ_le_of_lt left
  | exhausted before none_left => exact Nat.le_of_eq none_left

theorem underway_of_prefix (h : Ends method tolerance observe state start maxIters handed result)
    (hinitial : before <+: handed) (hne : before ≠ handed) :
    Underway method tolerance observe state start before := by
  cases h with
  | failed earlier left next_eq => exact earlier.of_prefix hinitial
  | decided earlier left next_eq decision =>
    exact earlier.of_prefix ((List.prefix_concat_iff.mp hinitial).resolve_left hne)
  | exhausted earlier none_left => exact earlier.of_prefix hinitial

theorem next_eq (h : Ends method tolerance observe state start maxIters handed result)
    (hhanded : handed = before ++ last :: later) :
    Underway method tolerance observe state start before ∧
      method.next (method.after start before) before.toArray = .ok last := by
  have hinitial : before ++ [last] <+: handed := ⟨later, by simp [hhanded]⟩
  by_cases hlast : before ++ [last] = handed
  · generalize hrecords : handed = records at h
    cases h with
    | failed earlier left next_eq | exhausted earlier none_left =>
      obtain ⟨hbefore, hnext, -⟩ := (hlast ▸ hrecords ▸ earlier : Underway ..).of_concat
      exact ⟨hbefore, hnext⟩
    | decided earlier left next_eq decision =>
      obtain ⟨rfl, hmade⟩ := List.append_inj' (hlast.trans hrecords) rfl
      cases hmade
      exact ⟨earlier, next_eq⟩
  · obtain ⟨hbefore, hnext, -⟩ := (h.underway_of_prefix hinitial hlast).of_concat
    exact ⟨hbefore, hnext⟩

end Ends

private theorem Underway.logged (h : Underway method tolerance observe state start made) (log : List ρ) :
    Underway method tolerance observe.logged (state, log) start made := by
  induction h with
  | nil => exact .nil
  | concat before next_eq undecided ih =>
    exact .concat ih next_eq (by rwa [Observer.answer_logged])

private theorem Ends.logged (h : Ends method tolerance observe state start maxIters made result)
    (log : List ρ) :
    Ends method tolerance observe.logged (state, log) start maxIters made result := by
  cases h with
  | failed before left next_eq => exact .failed (before.logged log) left next_eq
  | decided before left next_eq decision =>
    exact .decided (before.logged log) left next_eq (by rwa [Observer.answer_logged])
  | exhausted before none_left => exact .exhausted (before.logged log) none_left

theorem Ends.handed_eq {limits : Limits α} {handed : List ρ}
    (h : Ends method limits.tolerance observe state start limits.maxIters handed result) :
    Roots.handed (method.run (.ok start)) limits observe state = handed := by
  have hlogged := (h.logged []).iterate_eq
  simp [Roots.handed, run, hlogged, Observer.after_logged]

end Method

namespace Bisection

variable {σ ε α : Type} [Scalar α]

/-- Bisection moves through intervals. Only a value at the midpoint that is not finite is a fault of
a record. -/
def method (f : Model ε α) : Method (Interval α) (Record α) (Error ε α) α where
  next interval trace :=
    match f interval.midpoint with
    | .error cause => .error (.model cause)
    | .ok fc => .ok (record (trace.size + 1) interval fc)
  fault? made := if Scalar.isFinite made.fc then none else some (.nonFiniteValue made.c made.fc)
  advance interval made := interval.keepHalf made.c made.fc
  estimate := Record.c
  current := Interval.midpoint

section

variable {f : Model ε α} {interval : Interval α} {trace : Array (Record α)} {made : Record α}
  {error : Error ε α}

theorem method_next_eq_ok_iff :
    (method f).next interval trace = .ok made ↔
      ∃ fc, f interval.midpoint = .ok fc ∧ made = record (trace.size + 1) interval fc := by
  cases hf : f interval.midpoint with
  | error cause => simp [method, hf]
  | ok fc => simpa [method, hf] using eq_comm

theorem method_next_eq_error_iff :
    (method f).next interval trace = .error error ↔
      ∃ cause, f interval.midpoint = .error cause ∧ error = .model cause := by
  cases hf : f interval.midpoint with
  | error cause => simpa [method, hf] using eq_comm
  | ok fc => simp [method, hf]

theorem method_fault?_eq_none_iff :
    (method f).fault? made = none ↔ Scalar.isFinite made.fc = true := by
  simp [method]

end

private theorem iterate_eq (f : Model ε α) (tolerance : α) (observe : Observer σ (Record α))
    (start : Interval α) (left : Nat) (interval : Interval α) (trace : Array (Record α)) (state : σ) :
    iterate f tolerance observe start left interval trace state =
      (method f).iterate tolerance observe start left interval trace state := by
  induction left generalizing interval trace state with
  | zero => rfl
  | succ left ih =>
    cases hf : f interval.midpoint with
    | error cause => simp only [iterate, Method.iterate, method, hf]
    | ok fc =>
      simp only [iterate, Method.iterate, Method.verdict, method, hf, ih]
      generalize hmade : record (trace.size + 1) interval fc = made
      have hfc : made.fc = fc := hmade ▸ rfl
      have herror : IterationRecord.error made = made.error := rfl
      rw [hfc, herror]
      by_cases hless : Scalar.less made.error tolerance = true
      · rw [if_pos hless, if_pos hless]
      · rw [if_neg hless, if_neg hless]
        by_cases hstop : (observe state made).2 = .stopEarly
        · rw [if_pos hstop, if_pos hstop]
        · rw [if_neg hstop, if_neg hstop]
          cases Scalar.isFinite fc <;> rfl

section

variable {f : Model ε α} {x y : α}

theorem of_ordered_eq_ok {a b : α} (h : ordered x y = .ok (a, b)) :
    (Scalar.isFinite a = true ∧ Scalar.isFinite b = true ∧ Scalar.less a b = true) ∧
      ((a = x ∧ b = y) ∨ (a = y ∧ b = x)) := by
  unfold ordered at h
  split_ifs at h with hfinite hless hgreater
  · cases h
    simp only [Bool.not_eq_true', Bool.and_eq_false_iff, not_or, Bool.not_eq_false] at hfinite
    exact ⟨⟨hfinite.1, hfinite.2, hless⟩, .inl ⟨rfl, rfl⟩⟩
  · cases h
    simp only [Bool.not_eq_true', Bool.and_eq_false_iff, not_or, Bool.not_eq_false] at hfinite
    exact ⟨⟨hfinite.2, hfinite.1, hgreater⟩, .inr ⟨rfl, rfl⟩⟩

theorem of_ofEnds?_eq_some {a b fa fb : α} {interval : Interval α}
    (h : Interval.ofEnds? a b fa fb = some interval) :
    a = interval.a ∧ b = interval.b ∧ interval.signAtLeft = Sign.of fa := by
  unfold Interval.ofEnds? at h
  split_ifs at h
  cases h
  exact ⟨rfl, rfl, rfl⟩

theorem of_enter_eq_ok {interval : Interval α} (h : enter f x y = .ok interval) :
    ∃ a b fa fb, ordered x y = .ok (a, b) ∧
      (f a = .ok fa ∧ Scalar.isFinite fa = true) ∧ (f b = .ok fb ∧ Scalar.isFinite fb = true) ∧
      Interval.ofEnds? a b fa fb = some interval := by
  unfold enter at h
  split at h
  · cases h
  rename_i a b hordered
  split at h
  · cases h
  rename_i fa ha
  split_ifs at h with hfa
  split at h
  · cases h
  rename_i fb hb
  split_ifs at h with hfb
  split at h
  · cases h
  rename_i hends
  cases h
  simp only [Bool.not_eq_true, Bool.not_eq_false'] at hfa hfb
  exact ⟨a, b, fa, fb, hordered, ⟨ha, hfa⟩, ⟨hb, hfb⟩, hends⟩

/-- What is wrong at the ends of a bracket is found before any record is made. -/
theorem enter_error_trace {error : Error ε α} {kept : Array (Record α)}
    (h : enter f x y = .error error) (hkept : error.trace? = some kept) : kept = #[] := by
  unfold enter at h
  split at h
  · cases h
    cases hkept
  split at h
  · cases h
    cases hkept
  split_ifs at h
  · cases h
    exact (Option.some.inj hkept).symm
  split at h
  · cases h
    cases hkept
  split_ifs at h
  · cases h
    exact (Option.some.inj hkept).symm
  split at h
  · cases h
    cases hkept
  · cases h

end

theorem run_eq (f : Model ε α) (x y : α) (limits : Limits α) (observe : Observer σ (Record α))
    (state : σ) :
    run f x y limits observe state = (method f).run (enter f x y) limits observe state := by
  unfold run Method.run
  cases enter f x y with
  | error error => rfl
  | ok interval => exact iterate_eq ..

end Bisection

namespace Secant

variable {σ ε α : Type} [Scalar α]

/-- The secant method moves through pairs of points. What can fail about a record has failed before
it is made. -/
def method (f : Model ε α) : Method (α × α) (Record α) (Error ε α) α where
  next points trace := next f points.1 points.2 trace
  fault? _ := none
  advance points made := (points.2, made.x2)
  estimate := Record.x2
  current := Prod.snd

section

variable {f : Model ε α} {x x0 x1 value : α} {trace kept : Array (Record α)} {made : Record α}
  {error : Error ε α}

private theorem valueAt_eq_error_trace (h : valueAt f x trace = .error error)
    (hkept : error.trace? = some kept) : kept = trace := by
  unfold valueAt at h
  split at h
  · cases h
    cases hkept
  · split_ifs at h
    cases h
    exact (Option.some.inj hkept).symm

theorem next_eq_ok_iff :
    next f x0 x1 trace = .ok made ↔
      ∃ fx0 fx1, valueAt f x0 trace = .ok fx0 ∧ valueAt f x1 trace = .ok fx1 ∧
        Scalar.less (Scalar.magnitude (fx1 - fx0)) degenerateSlope = false ∧
        made = record (trace.size + 1) x0 x1 fx0 fx1 := by
  unfold next
  cases hx0 : valueAt f x0 trace with
  | error error => simp [Except.bind]
  | ok fx0 =>
    cases hx1 : valueAt f x1 trace with
    | error error => simp [Except.bind]
    | ok fx1 =>
      simp only [Except.bind]
      split_ifs with hless
      · simp [hless]
      · simpa [hless] using eq_comm

/-- The errors that carry records carry all that were made. -/
theorem next_error_trace (h : next f x0 x1 trace = .error error) (hkept : error.trace? = some kept) :
    kept = trace := by
  unfold next at h
  cases hx0 : valueAt f x0 trace with
  | error cause =>
    rw [hx0] at h
    cases h
    exact valueAt_eq_error_trace hx0 hkept
  | ok fx0 =>
    cases hx1 : valueAt f x1 trace with
    | error cause =>
      rw [hx0, hx1] at h
      cases h
      exact valueAt_eq_error_trace hx1 hkept
    | ok fx1 =>
      rw [hx0, hx1] at h
      simp only [Except.bind] at h
      split_ifs at h
      cases h
      exact (Option.some.inj hkept).symm

end

def accept (x0 x1 : α) : Except (Error ε α) (α × α) :=
  if !Scalar.isFinite x0 then .error (.nonFinitePoint x0)
  else if !Scalar.isFinite x1 then .error (.nonFinitePoint x1)
  else .ok (x0, x1)

private theorem iterate_eq (f : Model ε α) (tolerance : α) (observe : Observer σ (Record α)) (start : α × α)
    (left : Nat) (x0 x1 : α) (trace : Array (Record α)) (state : σ)
    (hlast : ∀ last, trace.back? = some last → last.x2 = x1) :
    iterate f tolerance observe start left x0 x1 trace state =
      (method f).iterate tolerance observe start left (x0, x1) trace state := by
  induction left generalizing x0 x1 trace state with
  | zero =>
    have hroot : x1 = (trace.back?.map Record.x2).getD x1 := by
      cases hback : trace.back? with
      | none => rfl
      | some last => exact (hlast last hback).symm
    simp only [iterate, Method.iterate, method]
    rw [← hroot]
  | succ left ih =>
    cases hnext : next f x0 x1 trace with
    | error error => simp only [iterate, Method.iterate, method, hnext]
    | ok made =>
      have hstep := ih x1 made.x2 (trace.push made) (observe state made).1 (by simp)
      simp only [iterate, Method.iterate, Method.verdict, method, hnext, hstep]
      have herror : IterationRecord.error made = made.error := rfl
      rw [herror]
      by_cases hless : Scalar.less made.error tolerance = true
      · rw [if_pos hless, if_pos hless]
      · rw [if_neg hless, if_neg hless]
        by_cases hstop : (observe state made).2 = .stopEarly
        · rw [if_pos hstop, if_pos hstop]
        · rw [if_neg hstop, if_neg hstop]
          rfl

theorem run_eq (f : Model ε α) (x0 x1 : α) (limits : Limits α) (observe : Observer σ (Record α))
    (state : σ) :
    run f x0 x1 limits observe state = (method f).run (accept x0 x1) limits observe state := by
  unfold run Method.run accept
  split_ifs
  · rfl
  · rfl
  · exact iterate_eq _ _ _ _ _ _ _ _ _ (by simp)

end Secant

end EquationSolver.Roots
