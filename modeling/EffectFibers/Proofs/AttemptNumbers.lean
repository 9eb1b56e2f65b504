import EffectFibers.Proofs.BudgetEnds
import EffectFibers.Proofs.Retries

/-!
# Numbers of attempts

The number of an attempt has 32 bits.  A retry counts its failures, and stays at the largest number
when it is reached; this is the number that its schedule is asked with.  The record has the number
after it, which counts the failure that is being dealt with.  This one does not stay at the largest
number: from there on the record has a zero.

A source that always fails gets there, if it is retried at once and for ever.

## Main definitions

* `reportOf` – what is recorded about a failure of a source that is retried.

## Main statements

* `Moment.Outcome.reports` – the number in the record, in every run.
* `Moment.Spins.reports` – a loop with a record for every number.
-/

namespace EffectFibers

variable {σ : Type}

/-- What is recorded about a failure of a source that is retried. -/
def reportOf (f : FiberId) (number : Nat) : Decision → TraceEvent
  | .again d => .retrying f number d
  | .stop => .retryExhausted f number

/-- The record counts the failures, until there are too many. -/
theorem reportedAttempt_attempt (i : Nat) :
    reportedAttempt (attempt i) = if i < maxAttempt then i + 1 else 0 := by
  have largest : maxAttempt + 1 = 1 <<< 32 := rfl
  unfold reportedAttempt attempt
  rw [← largest]
  split
  · rename_i small
    rw [Nat.min_eq_left (Nat.le_of_lt small), Nat.mod_eq_of_lt (by omega)]
  · rename_i many
    rw [Nat.min_eq_right (Nat.not_lt.1 many), Nat.mod_self]

/-- A retry that goes on, or not, is recorded. -/
theorem Stride.reports_of_hands {s : Stride σ} {source : Node σ} {schedule : Schedule Failure}
    {number : Nat} {stack : List (Frame σ)} {φ : Failure} {decision : Decision}
    (hands : s.Hands (.retry source schedule number :: stack) (.error (.fail φ)))
    (decided : schedule.decide? number φ.known? = .ok decision) :
    s.result.machine =
      s.machine.trace (reportOf s.slice.fiber (reportedAttempt number) decision) := by
  rw [Stride.result, Machine.stepRun_done hands.1 hands.2]
  simp only [Machine.resumeFrame, Machine.resumeRetry, decided]
  cases decision <;> rfl

namespace Moment

variable {μ : Moment σ} {f : FiberId} {source : Node σ} {schedule : Schedule Failure}
  {stack : List (Frame σ)} {during : List (Event σ)} {number : Nat} {φ : Failure}
  {decision : Decision} {taken : List (Stride σ)} {run : RunState σ} {toDo : Nat}

/-- In every run, a failure of a source that is retried is recorded with the number of failures so
far, unless there are too many. -/
theorem Outcome.reports
    (outcome : Outcome (.retrying source schedule) f stack number μ during (.error (.fail φ)))
    (decided : schedule.decide? (attempt number) φ.known? = .ok decision) :
    ∃ s, (μ.run during).strideAt f .work = some s ∧ s.result.machine =
      s.machine.trace (reportOf f (if number < maxAttempt then number + 1 else 0) decision) := by
  obtain ⟨-, s, stride, hands⟩ := outcome
  have reports := Stride.reports_of_hands hands decided
  rw [reportedAttempt_attempt, (strideAt_eq_some_iff.1 stride).2.2.2.1] at reports
  exact ⟨s, stride, reports⟩

/-! ## A loop that gets to every number -/

/-- A failure is handed on to a frame that retries it at once and for ever. -/
structure HandsBack (φ : Failure) (number : Nat) (run : RunState σ) : Prop where
  next : run.next = .done (.error (.fail φ))
  stack : run.stack = [.retry (.fail (.fail φ)) .forever (attempt number)]

theorem HandsBack.firm (hands : HandsBack φ number run) : run.Firm := by
  intro node evaluates
  cases hands.next.symm.trans evaluates

/-- Two steps later the failure is handed on again, under the number that follows. -/
theorem Ahead.again {s s' : Stride σ} {rest : List (Stride σ)} (known : φ.known? = some φ)
    (ahead : Ahead f run (s :: s' :: rest)) (hands : HandsBack φ number run)
    (going : s'.slice.run.next ≠ .done .interrupted) :
    ∃ run', Ahead f run' rest ∧ HandsBack φ (number + 1) run' := by
  have same : s.slice.run = run := ahead.firm hands.firm
  have decided : (Schedule.forever (α := Failure)).decide? (attempt number) φ.known? =
      .ok (.again .zero) := by
    rw [known]
    rfl
  have result : s.result.control = .next (.eval (.fail (.fail φ))) ∧
      s.result.run.stack = [.retry (.fail (.fail φ)) .forever (attempt (number + 1))] := by
    rw [Stride.result, same, Machine.stepRun_done hands.next hands.stack, ← nextAttempt_attempt]
    simp only [Machine.resumeFrame, Machine.resumeRetry, decided]
    exact ⟨rfl, rfl⟩
  have ahead' := ahead.cons.2 _ result.1
  have same' : s'.slice.run = { s.result.run with next := .eval (.fail (.fail φ)) } := by
    refine ahead'.cons.1.resolve_right fun noticed => going ?_
    rw [noticed.2]
  have result' : s'.result.control = .next (.done (.error (.fail φ))) ∧
      s'.result.run = s'.slice.run := by
    have next : s'.slice.run.next = .eval (.fail (.fail φ)) := by rw [same']
    rw [Stride.result, Machine.stepRun_eval next]
    exact ⟨rfl, rfl⟩
  refine ⟨_, ahead'.cons.2 _ result'.1, rfl, ?_⟩
  rw [result'.2, same']
  exact result.2

/-- Every second step hands the failure on, under a number of its own. -/
theorem Ahead.counts (known : φ.known? = some φ) (ahead : Ahead f run taken)
    (hands : HandsBack φ number run)
    (going : ∀ s ∈ taken, s.slice.run.next ≠ .done .interrupted) (k : Nat)
    (many : 2 * k < taken.length) : ∃ s ∈ taken, HandsBack φ (number + k) s.slice.run := by
  induction k generalizing number run taken with
  | zero =>
      cases taken with
      | nil => simp at many
      | cons s rest => exact ⟨s, List.mem_cons_self, ahead.firm hands.firm ▸ hands⟩
  | succ k ih =>
      obtain ⟨s, s', rest, rfl⟩ : ∃ s s' rest, taken = s :: s' :: rest := by
        match taken with
        | [] | [_] => simp at many
        | s :: s' :: rest => exact ⟨s, s', rest, rfl⟩
      obtain ⟨run', ahead', hands'⟩ := ahead.again known hands (going s' (by simp))
      have going' : ∀ t ∈ rest, t.slice.run.next ≠ .done .interrupted :=
        fun t listed => going t (List.mem_cons_of_mem _ (List.mem_cons_of_mem _ listed))
      simp only [List.length_cons] at many
      obtain ⟨t, listed, found⟩ := ih ahead' hands' going' (by omega)
      rw [Nat.add_assoc, Nat.add_comm 1] at found
      exact ⟨t, List.mem_cons_of_mem _ (List.mem_cons_of_mem _ listed), found⟩

/-- A failure that is retried at once and for ever is recorded under every number that there is, and
then with a zero. -/
theorem Spins.reports (reachable : Reachable μ) (known : φ.known? = some φ)
    (spins : Spins f φ toDo μ) (even : μ.machine.stepBudget % 2 = 0)
    (positive : 0 < μ.machine.stepBudget) (next : μ.Next f run) (hands : HandsBack φ 0 run)
    (number : Nat) :
    ∃ works s, (μ.run (List.replicate works .work)).strideAt f .work = some s ∧
      s.result.machine = s.machine.trace
        (.retrying f (if number < maxAttempt then number + 1 else 0) .zero) := by
  obtain ⟨works, many, going⟩ : ∃ works,
      2 * number < (Moment.strides f μ (List.replicate works .work)).length ∧
      ∀ s ∈ Moment.strides f μ (List.replicate works .work),
        s.slice.run.next ≠ .done .interrupted := by
    obtain ⟨many, plod⟩ := spins.strides known even positive (toDo + 3 * (2 * number + 1))
    exact ⟨_, by omega, fun s listed => (plod s listed).2⟩
  have ahead : Ahead f run (Moment.strides f μ (List.replicate works .work)) :=
    ⟨μ, _, reachable, next, rfl⟩
  obtain ⟨s, listed, handed⟩ := ahead.counts known hands going number many
  obtain ⟨before, event, short, stride⟩ := exists_of_mem_strides listed
  obtain ⟨rfl, -, -, own, -⟩ := strideAt_eq_some_iff.1 stride
  have decided : (Schedule.forever (α := Failure)).decide? (attempt (0 + number)) φ.known? =
      .ok (.again .zero) := by
    rw [known]
    rfl
  have reports := Stride.reports_of_hands ⟨handed.next, handed.stack⟩ decided
  rw [Nat.zero_add, reportedAttempt_attempt, own] at reports
  exact ⟨before.length, s, (List.prefix_replicate_iff.1 short).2 ▸ stride, reports⟩

/-- A failure that comes after so many is recorded with a zero. -/
theorem retrying_runs_out_of_numbers : ∃ works s,
    ((initial { host := () } 2048).run
      (.start retrying.node :: List.replicate works .work)).strideAt ⟨1⟩ .work = some s ∧
    s.result.machine = s.machine.trace (.retrying ⟨1⟩ 0 .zero) := by
  let first : List (Event Unit) := .start retrying.node :: List.replicate 4 .work
  let μ := (initial { host := () } 2048).run first
  have reachable : Reachable μ := (Reachable.initial _ _).run _
  have spins : Spins ⟨1⟩ (.tagged "T" "m") 2 μ :=
    .stepped rfl rfl rfl rfl rfl rfl (by decide) ⟨rfl, ⟨0, rfl⟩, rfl⟩
  obtain ⟨last, position, top⟩ : ∃ last, μ.position? ⟨1⟩ =
        some (.stepped last (.next (.done (.error (.fail (.tagged "T" "m"))))) none) ∧
      last.stack = [.retry (.fail (.fail (.tagged "T" "m"))) .forever 0] := ⟨_, rfl, rfl⟩
  let run := { last with next := .done (.error (.fail (.tagged "T" "m"))) }
  have next : μ.Next ⟨1⟩ run := .stepped position rfl
  have hands : HandsBack (.tagged "T" "m") 0 run := ⟨rfl, by rw [attempt, Nat.zero_min, top]⟩
  have budget : μ.machine.stepBudget = 2048 := rfl
  obtain ⟨works, s, stride, reports⟩ :=
    spins.reports reachable rfl (by omega) (by omega) next hands maxAttempt
  rw [if_neg (Nat.lt_irrefl _)] at reports
  refine ⟨4 + works, s, ?_, reports⟩
  rw [List.replicate_add, ← List.cons_append, run_append]
  exact stride

end Moment

end EffectFibers
