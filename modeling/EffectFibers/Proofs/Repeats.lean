import EffectFibers.Proofs.Loops.Basic

/-!
# Repeating follows its schedule

A source that is repeated is run, and when it succeeds, the schedule is consulted with the number of
the attempt and the value.  If the schedule goes on, the source is run again on the same stack, after
a sleep for the delay, or without one.  Otherwise the value is the exit of the whole; and so is every
other exit of the source, and the defect of a schedule that breaks off.

## Main definitions

* `Loop.repeating` – a source that is repeated, as a loop.

## Main statements

* `Moment.repeating_follows_its_schedule` – every run of a source that is repeated.
-/

namespace EffectFibers

variable {σ : Type}

/-- A source that is repeated: after its successes the schedule decides, and any other exit ends the
loop.  Between two attempts there is a tree that stands for the rest of the loop, and before it one
sleep, or nothing; the value in the end is given by a tree of its own. -/
def Loop.repeating (source : Node σ) (schedule : Schedule Value) : Loop σ where
  source := source
  frame i := .repeated source schedule i
  verdict i
    | .ok v =>
      match schedule.decide? i v.known? with
      | .ok (.again d) => .again d
      | .ok .stop => .ends (.ok v)
      | .error p => .ends (Exit.died (.ofPanic p))
    | x => .ends x
  pause i d :=
    let again := Node.repeated source schedule (Schedule.nextAttempt i)
    if d.isZero then [.eval again]
    else
      let rest := fun _ => (pure again : Action σ (Node σ))
      [.eval (.flatMap (.sleep d) rest), .eval (.sleep d), .done (.ok .null), .eval again]
  last y steps := steps = [] ∨ ∃ ticket, steps = [.eval (.once ticket y)]

section

variable {source : Node σ} {schedule : Schedule Value} {i : Nat} {v : Value}

/-- What a repeated source goes on with, by the decision of its schedule. -/
theorem resultAt_repeatAfter {decision : Except Panic Decision}
    (decided : schedule.decide? i v.known? = decision) (sight : Sight σ) :
    (Machine.repeatAfter source schedule i v).resultAt sight =
      decision.bind fun
      | .stop => (Node.given (.ok v) : Action σ (Node σ)).resultAt sight
      | .again d =>
        let again := Node.repeated source schedule (Schedule.nextAttempt i)
        .ok (if d.isZero then again else .flatMap (.sleep d) fun _ => (pure again : Action σ (Node σ))) := by
  subst decided
  unfold Machine.repeatAfter
  cases schedule.decide? i v.known? with
  | error p => rfl
  | ok what =>
      cases what with
      | stop => rfl
      | again d =>
          show Action.resultAt (if d.isZero = true then _ else _) sight =
            .ok (if d.isZero = true then _ else _)
          by_cases zero : d.isZero = true
          · rw [if_pos zero, if_pos zero]
            rfl
          · rw [if_neg zero, if_neg zero]
            rfl

end

/-- The frame of a source that is repeated does what the schedule says. -/
theorem Loop.sound_repeating (source : Node σ) (schedule : Schedule Value) :
    (repeating source schedule).Sound where
  again := by
    intro i x d stack sight verdict
    cases x with
    | error cause =>
        simp only [repeating] at verdict
        cases verdict
    | ok v =>
        simp only [repeating] at verdict
        cases decision : schedule.decide? i v.known? with
        | error p =>
            rw [decision] at verdict
            cases verdict
        | ok what =>
            rw [decision] at verdict
            cases what with
            | stop => cases verdict
            | again d' =>
                obtain rfl := Verdict.again.inj verdict
                simp only [repeating, Frame.next?, resultAt_repeatAfter decision, Except.bind]
                cases long : d'.isZero with
                | true => exact ⟨_, rfl, .step (fun _ => rfl) (.refl _)⟩
                | false =>
                    refine ⟨_, rfl, .step (fun _ => rfl) (.sleep long ?_)⟩
                    exact .step (fun _ => rfl) (.step (fun _ => rfl) (.refl _))
  ends := by
    intro i x y stack sight verdict
    cases x with
    | error cause =>
        simp only [repeating] at verdict
        obtain rfl := Verdict.ends.inj verdict
        exact ⟨_, [], rfl, .refl _, .inl rfl⟩
    | ok v =>
        simp only [repeating] at verdict
        cases decision : schedule.decide? i v.known? with
        | error p =>
            rw [decision] at verdict
            obtain rfl := Verdict.ends.inj verdict
            simp only [repeating, Frame.next?, resultAt_repeatAfter decision, Except.bind]
            exact ⟨_, [], rfl, .refl _, .inl rfl⟩
        | ok what =>
            rw [decision] at verdict
            cases what with
            | again d => cases verdict
            | stop =>
                obtain rfl := Verdict.ends.inj verdict
                simp only [repeating, Frame.next?, resultAt_repeatAfter decision, Except.bind]
                exact ⟨_, _, rfl, .step (fun _ => rfl) (.refl _), .inr ⟨_, rfl⟩⟩
  reusable := by
    intro i d ticket y listed
    simp only [repeating] at listed
    split at listed <;> simp at listed

namespace Moment

variable {f : FiberId} {source : Node σ} {schedule : Schedule Value} {stack : List (Frame σ)}
  {before later : List (Event σ)} {s : Stride σ}

/-- In every run, a source that is repeated by a fiber that is not interrupted is run again after a
success exactly if the schedule goes on, after a sleep for the delay if there is one, and each time
on the same stack, but for the number of the attempt.  The value of the whole is the first after
which the schedule stops; any other exit of the source, and the defect of a schedule that breaks off,
is the exit of the whole. -/
theorem repeating_follows_its_schedule (world : World σ) (budget : Nat)
    (reusable : ∀ event ∈ before ++ .work :: later, event.Reusable)
    (stride : ((initial world budget).run before).strideAt f .work = some s)
    (evaluates : s.Evaluates (.repeated source schedule 0) stack)
    (calm : ((initial world budget).run (before ++ .work :: later)).machine.isInterrupted f = false) :
    let ν := ((initial world budget).run before).apply .work
    let loop := Loop.repeating source schedule
    ν.Faces f (.going (.eval source) (.repeated source schedule 0 :: stack)) ∧
    (∃ rounds first rest, later = first ++ rest ∧ Rounds loop f stack ν rounds first ∧
      Stage loop f stack rounds.length (ν.run first) rest) ∧
    ∀ t ∈ strides f ν later, ∀ d, t.slice.run.next = .eval (.sleep d) → d.isZero = false →
      t.SetsTimer d := by
  intro ν loop
  let μ := (initial world budget).run before
  have origin : Reachable (initial world budget) := .initial world budget
  have reachable : Reachable μ := origin.run before
  have reachable' : Reachable ν := reachable.apply .work
  have split : before ++ .work :: later = (before ++ [.work]) ++ later := by simp
  have moment : (initial world budget).run (before ++ [.work]) = ν := by
    rw [run_append]
    rfl
  have calm' : (ν.run later).machine.isInterrupted f = false := by
    rw [split, run_append, moment] at calm
    exact calm
  have frugal : ν.Frugal later := by
    have whole : (initial world budget).Frugal (before ++ [.work] ++ later) :=
      ⟨⟨_, thrifty_initial world budget⟩, split ▸ reusable⟩
    exact moment ▸ whole.after origin
  have starts : ν.Faces f (.going (.eval source) (.repeated source schedule 0 :: stack)) := by
    refine reachable.left_of_fresh stride (fun _ _ once => ?_) (reachable'.calm_before calm') ?_
    · cases evaluates.1.symm.trans once
    · rw [evaluates.1, evaluates.2]
      rfl
  have sound := Loop.sound_repeating source schedule
  have stages := reachable'.rounds_and_stage sound starts calm' fun _ => frugal
  exact ⟨starts, stages,
    fun t taken d sleeps long => reachable'.setsTimer calm' taken sleeps long⟩

/-- A source that always succeeds, and a schedule that goes on once, after five milliseconds. -/
def succeedsTwice : Effect Unit :=
  (Effect.succeed (.bool true)).repeating (.intersect (.recurs 1) (.fixed (.ofMillis 5)))

/-- The source succeeds, a timer is set and fires, and the source succeeds again. -/
def succeedingTwice : List (Event Unit) :=
  List.replicate 9 .work ++ .fire :: List.replicate 14 .work

/-- The source is run twice, and then its value comes out. -/
theorem succeeding_twice_follows_the_schedule :
    let before : List (Event Unit) := [.start succeedsTwice.node, .work]
    let ν := ((initial { host := () } 100).run before).apply .work
    let schedule : Schedule Value := .intersect (.recurs 1) (.fixed (.ofMillis 5))
    let loop : Loop Unit := .repeating (Effect.succeed (.bool true)).node schedule
    (∀ event ∈ before ++ .work :: succeedingTwice, event.Reusable) ∧
    (∃ s, ((initial { host := () } 100).run before).strideAt ⟨1⟩ .work = some s ∧
      s.Evaluates succeedsTwice.node []) ∧
    ((initial { host := () } 100).run (before ++ .work :: succeedingTwice)).machine.isInterrupted
      ⟨1⟩ = false ∧
    (stepsOf ⟨1⟩ ν succeedingTwice).length = 10 ∧
    ∃ rounds first rest, succeedingTwice = first ++ rest ∧ Rounds loop ⟨1⟩ [] ν rounds first ∧
      Stage loop ⟨1⟩ [] rounds.length (ν.run first) rest := by
  intro before ν schedule loop
  have composed : succeedsTwice.Composed := .repeating (.succeed _) _
  have reusable : ∀ event ∈ before ++ .work :: succeedingTwice, event.Reusable := by
    intro event listed
    simp only [before, succeedingTwice, List.mem_append, List.mem_cons, List.mem_replicate] at listed
    rcases listed with (rfl | rfl | no) | rfl | ⟨-, rfl⟩ | rfl | ⟨-, rfl⟩
    · exact composed.bears
    · trivial
    · cases no
    all_goals trivial
  obtain ⟨s, stride, evaluates⟩ : ∃ s, ((initial { host := () } 100).run before).strideAt ⟨1⟩ .work =
      some s ∧ s.Evaluates succeedsTwice.node [] := ⟨_, rfl, rfl, rfl⟩
  have calm : ((initial { host := () } 100).run
      (before ++ .work :: succeedingTwice)).machine.isInterrupted ⟨1⟩ = false := by decide +kernel
  have follows := repeating_follows_its_schedule { host := () } 100 reusable stride evaluates calm
  exact ⟨reusable, ⟨s, stride, evaluates⟩, calm, by decide +kernel, follows.2.1⟩

end Moment

end EffectFibers
