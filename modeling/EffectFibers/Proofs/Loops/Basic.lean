import EffectFibers.Proofs.Results.Faces

/-!
# Doing something again

A source is run, and when its exit comes out, a policy decides from the exit and from the number of
the attempt whether it is run again, after a pause, or whether the loop is over.  Retrying and
repeating are loops of this kind: between two runs of the source there are a few small steps, which
are known beforehand.  So a run of a fiber in a loop is a list of completed rounds, and then a run of
the source, a pause, or the end.

## Main definitions

* `Left.Small` – small steps from what is left to what is left then.
* `Moment.Passes` – some small steps in a run.
* `Stride.SetsTimer` – a step that waits for a timer.
* `Loop`, `Verdict` – a source with a policy.
* `Moment.Rounds`, `Moment.Stage` – the completed rounds of a loop, and what comes after them.

## Main statements

* `Moment.Reachable.passes` – a fiber that is not interrupted takes the small steps.
* `Moment.Reachable.stage_or_round` – one attempt.
* `Moment.Reachable.rounds_and_stage` – every run of a loop.
-/

namespace EffectFibers

variable {σ : Type}

/-! ## Small steps -/

/-- Small steps that do not depend on what user code sees, and the ends of sleeps between them. -/
inductive Left.Small : List (Step σ) → Left σ → Left σ → Prop
  | refl (l) : Small [] l l
  | step {step steps stack l l'} (next : ∀ sight, (going step stack).next? sight = some l)
      (rest : Small steps l l') : Small (step :: steps) (going step stack) l'
  | wake {steps stack l'} (rest : Small steps (going (.done (.ok .null)) stack) l') :
      Small steps (waiting true stack) l'

/-- A sleep takes a step, if it is long, and then it goes on with nothing. -/
theorem Left.Small.sleep {steps : List (Step σ)} {stack : List (Frame σ)} {l : Left σ} {d : Duration}
    (long : d.isZero = false) (rest : Small steps (going (.done (.ok .null)) stack) l) :
    Small (.eval (.sleep d) :: steps) (going (.eval (.sleep d)) stack) l :=
  .step (fun _ => by simp [next?, Node.next?, long]) (.wake rest)

namespace Moment

variable {μ : Moment σ} {f : FiberId} {event : Event σ} {later : List (Event σ)} {l l' : Left σ}
  {steps : List (Step σ)} {stack : List (Frame σ)} {s : Stride σ} {x y : Exit}

/-- Trees that are good for one evaluation are evaluated once, in this run as before. -/
def Frugal (μ : Moment σ) (later : List (Event σ)) : Prop :=
  (∃ holdings, μ.Thrifty holdings) ∧ ∀ event ∈ later, event.Reusable

theorem Frugal.after {before : List (Event σ)} (reachable : Reachable μ)
    (frugal : μ.Frugal (before ++ later)) : (μ.run before).Frugal later := by
  obtain ⟨⟨holdings, thrifty⟩, reusable⟩ := frugal
  exact ⟨reachable.thrifty_run thrifty fun event listed =>
    reusable event (List.mem_append_left _ listed),
    fun event listed => reusable event (List.mem_append_right _ listed)⟩

/-- The steps that a fiber takes in a run. -/
def stepsOf (f : FiberId) (μ : Moment σ) (events : List (Event σ)) : List (Step σ) :=
  (strides f μ events).map (·.slice.run.next)

theorem stepsOf_append (f : FiberId) (before later : List (Event σ)) :
    stepsOf f μ (before ++ later) = stepsOf f μ before ++ stepsOf f (μ.run before) later := by
  rw [stepsOf, strides_append, List.map_append]
  rfl

theorem stepsOf_work (stride : μ.strideAt f .work = some s) (later : List (Event σ)) :
    stepsOf f μ (.work :: later) = s.slice.run.next :: stepsOf f (μ.apply .work) later := by
  rw [stepsOf, strides, stride]
  rfl

/-- A fiber takes some steps and then faces what is left, or it is on its way and has taken only some
of them. -/
def Passes (f : FiberId) (steps : List (Step σ)) (l : Left σ) (μ : Moment σ)
    (later : List (Event σ)) : Prop :=
  (stepsOf f μ later <+: steps ∧ (μ.run later).OnItsWay f) ∨
    ∃ before after, later = before ++ after ∧ stepsOf f μ before = steps ∧
      (μ.run before).Faces f l

/-- Some steps before others. -/
theorem Passes.after {before : List (Event σ)} {first : List (Step σ)}
    (taken : stepsOf f μ before = first) (passes : Passes f steps l (μ.run before) later) :
    Passes f (first ++ steps) l μ (before ++ later) := by
  subst taken
  rcases passes with ⟨some, onward⟩ | ⟨middle, after, rfl, all, faces⟩
  · refine .inl ⟨?_, by rwa [run_append]⟩
    rw [stepsOf_append]
    exact (List.prefix_append_right_inj _).2 some
  · refine .inr ⟨before ++ middle, after, by rw [List.append_assoc], ?_, by rwa [run_append]⟩
    rw [stepsOf_append, all]

/-- A fiber that is not interrupted takes the small steps that it faces. -/
theorem Reachable.passes (reachable : Reachable μ) (small : Left.Small steps l l')
    (faces : μ.Faces f l) (calm : (μ.run later).machine.isInterrupted f = false)
    (frugal : ∀ ticket y, .eval (.once ticket y) ∈ steps → μ.Frugal later) :
    Passes f steps l' μ later := by
  induction small generalizing μ later with
  | refl l => exact .inr ⟨[], later, rfl, rfl, faces⟩
  | @step step steps stack l l' next rest ih =>
      rcases reachable.stays_or_steps faces calm with
        ⟨none, faces'⟩ | ⟨before, after, s, rfl, none, stride, rfl, rfl, quiet⟩
      · refine .inl ⟨?_, faces'.onItsWay (reachable.run later).isCoherent⟩
        rw [stepsOf, none]
        exact List.nil_prefix
      have split : before ++ .work :: after = (before ++ [.work]) ++ after := by simp
      rw [split] at frugal ⊢
      rw [split, run_append, run_append] at calm
      have reachable' := (reachable.run before).apply .work
      have fresh : ∀ ticket y, s.slice.run.next = .eval (.once ticket y) →
          s.result.control = .done y := by
        intro ticket y evaluates
        obtain ⟨⟨holdings, thrifty⟩, reusable⟩ :=
          frugal ticket y (evaluates ▸ List.mem_cons_self)
        obtain ⟨holdings', thrifty'⟩ := reachable.thrifty_run thrifty fun event listed =>
          reusable event (List.mem_append_left _ (List.mem_append_left _ listed))
        exact (reachable.run before).ends_of_once thrifty' stride evaluates
      have faces' : ((μ.run before).apply .work).Faces _ l :=
        (reachable.run before).left_of_fresh stride fresh (reachable'.calm_before calm) (next _)
      have first : stepsOf f μ (before ++ [.work]) = [s.slice.run.next] := by
        rw [stepsOf_append, stepsOf_work stride, stepsOf, none]
        rfl
      refine Passes.after first ?_
      rw [run_append]
      refine ih reachable' faces' calm fun ticket y listed => ?_
      have later := (frugal ticket y (List.mem_cons_of_mem _ listed)).after reachable
      rwa [run_append] at later
  | wake rest ih =>
      rcases reachable.stays_or_hears faces calm with
        ⟨none, faces'⟩ | ⟨before, after, x, rfl, none, rightful, -, faces'⟩
      · refine .inl ⟨?_, faces'.onItsWay_of_timer (reachable.run later)⟩
        rw [stepsOf, none]
        exact List.nil_prefix
      · obtain rfl := rightful rfl
        have nothing : stepsOf f μ before = [] := by rw [stepsOf, none]; rfl
        rw [run_append] at calm
        exact Passes.after nothing (ih (reachable.run before) faces' calm fun ticket y listed =>
          (frugal ticket y listed).after reachable)

end Moment

/-! ## Sleeping -/

/-- A step that sets a timer for a delay from now, and waits for it. -/
def Stride.SetsTimer (s : Stride σ) (d : Duration) : Prop :=
  ∃ w, s.result.control =
      .suspend (.wait w (.timer (s.machine.timers.schedule s.machine.now d w).1)) ∧
    s.result.machine.timers = (s.machine.timers.schedule s.machine.now d w).2

namespace Moment

/-- In a run in which nobody interrupts a fiber, every step that it takes is calm. -/
theorem Reachable.calm_of_stride {μ : Moment σ} {f : FiberId} {later : List (Event σ)}
    {s : Stride σ} (reachable : Reachable μ)
    (calm : (μ.run later).machine.isInterrupted f = false) (taken : s ∈ strides f μ later) :
    s.slice.fiber = f ∧ s.machine.interruptPending f s.slice.run = false := by
  induction later generalizing μ with
  | nil => cases taken
  | cons event later ih =>
      rcases List.mem_append.1 taken with now | after
      · have stride := Option.mem_toList.1 now
        have unmarked := Machine.unmarked_before (evolves reachable.isCoherent reachable.tidy event)
          ((reachable.apply event).calm_before calm)
        obtain ⟨before, -⟩ := machine_of_stride stride
        have marks : s.machine.isInterrupted f = μ.machine.isInterrupted f := by
          rw [before]
          rfl
        refine ⟨(strideAt_eq_some_iff.1 stride).2.2.2.1, ?_⟩
        rw [Machine.interruptPending, marks, unmarked, Bool.and_false]
      · exact ih (reachable.apply event) calm after

/-- Sleeping is for exactly as long as it says. -/
theorem Reachable.setsTimer {μ : Moment σ} {f : FiberId} {later : List (Event σ)} {s : Stride σ}
    {d : Duration} (reachable : Reachable μ)
    (calm : (μ.run later).machine.isInterrupted f = false) (taken : s ∈ strides f μ later)
    (sleeps : s.slice.run.next = .eval (.sleep d)) (long : d.isZero = false) : s.SetsTimer d := by
  obtain ⟨own, quiet⟩ := reachable.calm_of_stride calm taken
  have result : s.result = s.machine.evalSleep s.slice.fiber s.slice.run d := by
    rw [Stride.result, Machine.stepRun_eval sleeps, Machine.eval, own, quiet, Bool.and_false,
      if_neg (by simp)]
    rfl
  rw [Machine.evalSleep, if_neg (by simp [long])] at result
  refine ⟨s.machine.waits.nextId, ?_, ?_⟩
  · rw [result]
    rfl
  · rw [result]
    rfl

end Moment

/-! ## Loops -/

/-- What becomes of a loop when its source has ended: the source is run again after a delay, or the
loop ends. -/
inductive Verdict
  | again (delay : Duration)
  | ends (exit : Exit)

/-- A source that is run again and again: the frame under which it is run, by the number of the
attempt; what becomes of the loop; and the steps that lie between two runs of the source, or between
its last exit and the end of the loop. -/
structure Loop (σ : Type) where
  source : Node σ
  frame : Nat → Frame σ
  verdict : Nat → Exit → Verdict
  pause : Nat → Duration → List (Step σ)
  last : Exit → List (Step σ) → Prop

/-- The number of an attempt, as far as numbers go. -/
def attempt (i : Nat) : Nat := min i maxAttempt

theorem nextAttempt_attempt (i : Nat) : Schedule.nextAttempt (attempt i) = attempt (i + 1) := by
  unfold Schedule.nextAttempt attempt
  omega

/-- The frames of a loop do what its policy says. -/
structure Loop.Sound (loop : Loop σ) : Prop where
  again : ∀ {i x d} (stack : List (Frame σ)) (sight), loop.verdict i x = .again d →
    ∃ l, (loop.frame i).next? stack sight x = some l ∧ Left.Small (loop.pause i d) l
      (.going (.eval loop.source) (loop.frame (Schedule.nextAttempt i) :: stack))
  ends : ∀ {i x y} (stack : List (Frame σ)) (sight), loop.verdict i x = .ends y →
    ∃ l steps, (loop.frame i).next? stack sight x = some l ∧
      Left.Small steps l (.going (.done y) stack) ∧ loop.last y steps
  reusable : ∀ i d ticket y, .eval (.once ticket y) ∉ loop.pause i d

namespace Moment

section

variable (loop : Loop σ) (f : FiberId) (stack : List (Frame σ))

/-- The source of a loop has been run under the frame for an attempt, and its exit comes out. -/
def Outcome (number : Nat) (μ : Moment σ) (during : List (Event σ)) (x : Exit) : Prop :=
  Steady f (loop.frame (attempt number) :: stack) μ during ∧
    ∃ s, (μ.run during).strideAt f .work = some s ∧
      s.Hands (loop.frame (attempt number) :: stack) x

/-- The completed rounds of a loop: in each, the source has been run, its exit has come out, and the
policy has said that it is run again after a delay; after the pause, the source is about to be run
again, on the same stack. -/
inductive Rounds (μ : Moment σ) : List (Exit × Duration) → List (Event σ) → Prop
  | nil : Rounds μ [] []
  | snoc {rounds before during pause x d} (earlier : Rounds μ rounds before)
      (outcome : Outcome loop f stack rounds.length (μ.run before) during x)
      (again : loop.verdict (attempt rounds.length) x = .again d)
      (pauses : stepsOf f ((μ.run (before ++ during)).apply .work) pause =
        loop.pause (attempt rounds.length) d)
      (starts : (((μ.run (before ++ during)).apply .work).run pause).Faces f
        (.going (.eval loop.source) (loop.frame (attempt (rounds.length + 1)) :: stack))) :
      Rounds μ (rounds ++ [(x, d)]) (before ++ during ++ .work :: pause)

/-- What comes after some completed rounds: the source is run, or the fiber pauses, or the loop has
ended. -/
inductive Stage (number : Nat) (μ : Moment σ) : List (Event σ) → Prop
  | running {later} (remains : Remains f (loop.frame (attempt number) :: stack) μ later) :
      Stage number μ later
  | pausing {during later x d} (outcome : Outcome loop f stack number μ during x)
      (again : loop.verdict (attempt number) x = .again d)
      (some : stepsOf f ((μ.run during).apply .work) later <+: loop.pause (attempt number) d)
      (onward : (((μ.run during).apply .work).run later).OnItsWay f) :
      Stage number μ (during ++ .work :: later)
  | ended {during later x y steps} (outcome : Outcome loop f stack number μ during x)
      (ends : loop.verdict (attempt number) x = .ends y) (last : loop.last y steps)
      (gives : Passes f steps (.going (.done y) stack) ((μ.run during).apply .work) later) :
      Stage number μ (during ++ .work :: later)

end

variable {μ : Moment σ} {f : FiberId} {later : List (Event σ)} {loop : Loop σ}
  {stack : List (Frame σ)}

/-- In every completed round of a loop the policy has said that it goes on. -/
theorem Rounds.again {rounds : List (Exit × Duration)} {before : List (Event σ)}
    (completed : Rounds loop f stack μ rounds before) {i : Nat} {x : Exit} {d : Duration}
    (round : rounds[i]? = some (x, d)) : loop.verdict (attempt i) x = .again d := by
  induction completed with
  | nil => cases round
  | @snoc rounds _ _ _ y e _ _ again _ _ ih =>
      rcases Nat.lt_or_ge i rounds.length with old | new
      · rw [List.getElem?_append_left old] at round
        exact ih round
      · rw [List.getElem?_append_right new, List.getElem?_singleton] at round
        split at round
        · obtain rfl : i = rounds.length := by omega
          obtain ⟨rfl, rfl⟩ := Prod.mk.inj (Option.some.inj round)
          exact again
        · cases round

/-- One attempt of a loop: it is still being made, or it is the last one, or it is a completed round
and the source is about to be run again. -/
theorem Reachable.stage_or_round (reachable : Reachable μ) (sound : loop.Sound) {number : Nat}
    (starts : μ.Faces f (.going (.eval loop.source) (loop.frame (attempt number) :: stack)))
    (calm : (μ.run later).machine.isInterrupted f = false)
    (frugal : (∃ y steps ticket x, loop.last y steps ∧ .eval (.once ticket x) ∈ steps) →
      μ.Frugal later) :
    Stage loop f stack number μ later ∨
      ∃ during pause rest x d, later = during ++ .work :: pause ++ rest ∧
        Outcome loop f stack number μ during x ∧ loop.verdict (attempt number) x = .again d ∧
        stepsOf f ((μ.run during).apply .work) pause = loop.pause (attempt number) d ∧
        (((μ.run during).apply .work).run pause).Faces f
          (.going (.eval loop.source) (loop.frame (attempt (number + 1)) :: stack)) := by
  rcases reachable.steady_or_reached starts.above later with
    steady | ⟨during, after, s, x, rfl, steady, stride, hands⟩
  · exact .inl (.running ⟨steady, reachable.live_of_steady steady⟩)
  have outcome : Outcome loop f stack number μ during x := ⟨steady, s, stride, hands⟩
  let ν := (μ.run during).apply .work
  have reachable' : Reachable ν := (reachable.run during).apply .work
  have split : during ++ .work :: after = (during ++ [.work]) ++ after := by simp
  have moment : μ.run (during ++ [.work]) = ν := run_append ..
  have calm' : (ν.run after).machine.isInterrupted f = false := by
    rwa [split, run_append, moment] at calm
  have frugal' : μ.Frugal (during ++ .work :: after) → ν.Frugal after := by
    intro frugal
    rw [split] at frugal
    exact moment ▸ frugal.after reachable
  have handed : ∀ l, (loop.frame (attempt number)).next? stack s.machine.sight x = some l →
      ν.Faces f l := by
    intro l next
    refine (reachable.run during).left_of_fresh stride (fun _ _ evaluates => ?_)
      (reachable'.calm_before calm') ?_
    · cases hands.1.symm.trans evaluates
    · rw [hands.1, hands.2]
      exact next
  cases verdict : loop.verdict (attempt number) x with
  | ends y =>
      obtain ⟨l, steps, next, small, last⟩ := sound.ends stack s.machine.sight verdict
      have gives := reachable'.passes small (handed l next) calm' fun ticket z listed =>
        frugal' (frugal ⟨y, steps, ticket, z, last, listed⟩)
      exact .inl (.ended outcome verdict last gives)
  | again d =>
      obtain ⟨l, next, small⟩ := sound.again stack s.machine.sight verdict
      rw [nextAttempt_attempt] at small
      rcases reachable'.passes small (handed l next) calm' fun ticket z listed =>
        absurd listed (sound.reusable _ _ _ _) with
        ⟨some, onward⟩ | ⟨pause, rest, rfl, all, faces⟩
      · exact .inl (.pausing outcome verdict some onward)
      · exact .inr ⟨during, pause, rest, x, d, by simp, outcome, verdict, all, faces⟩

/-- Every run of a loop: some completed rounds, and what comes after them. -/
theorem Reachable.rounds_and_stage (reachable : Reachable μ) (sound : loop.Sound)
    (starts : μ.Faces f (.going (.eval loop.source) (loop.frame 0 :: stack)))
    (calm : (μ.run later).machine.isInterrupted f = false)
    (frugal : (∃ y steps ticket x, loop.last y steps ∧ .eval (.once ticket x) ∈ steps) →
      μ.Frugal later) :
    ∃ rounds before rest, later = before ++ rest ∧ Rounds loop f stack μ rounds before ∧
      Stage loop f stack rounds.length (μ.run before) rest := by
  suffices onward : ∀ n rounds before rest, rest.length = n → later = before ++ rest →
      Rounds loop f stack μ rounds before → (μ.run before).Faces f
        (.going (.eval loop.source) (loop.frame (attempt rounds.length) :: stack)) →
      ∃ rounds before rest, later = before ++ rest ∧ Rounds loop f stack μ rounds before ∧
        Stage loop f stack rounds.length (μ.run before) rest from
    onward later.length [] [] later rfl rfl .nil starts
  intro n
  -- each round takes some events from the rest of the run
  induction n using Nat.strongRecOn with
  | ind n ih =>
      rintro rounds before rest rfl rfl earlier faces
      rw [run_append] at calm
      rcases (reachable.run before).stage_or_round sound faces calm
        fun last => (frugal last).after reachable with
        stage | ⟨during, pause, rest, x, d, rfl, outcome, again, pauses, starts'⟩
      · exact ⟨rounds, before, rest, rfl, earlier, stage⟩
      have completed : Rounds loop f stack μ (rounds ++ [(x, d)])
          (before ++ during ++ .work :: pause) :=
        .snoc earlier outcome again (run_append μ before during ▸ pauses)
          (run_append μ before during ▸ starts')
      refine ih rest.length ?_ _ (before ++ during ++ .work :: pause) rest rfl ?_ completed ?_
      · simp only [List.length_append, List.length_cons]
        omega
      · simp
      · rw [run_append, run_append, List.length_append]
        exact starts'

end Moment

end EffectFibers
