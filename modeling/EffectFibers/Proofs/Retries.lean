import EffectFibers.Proofs.Loops.Basic

/-!
# Retrying follows its schedule

A source that is retried is run, and when it fails, the schedule is consulted with the number of the
attempt and the failure.  If the schedule goes on, the source is run again on the same stack, after a
sleep for the delay, or at once if there is none.  Otherwise the failure is the exit of the whole;
and so is every other exit of the source, and the defect of a schedule that breaks off.

## Main definitions

* `Loop.retrying` – a source that is retried, as a loop.

## Main statements

* `Moment.Reachable.retrying_follows_its_schedule` – every run of a source that is retried.
-/

namespace EffectFibers

variable {σ : Type}

/-- A source that is retried: after its failures the schedule decides, and any other exit ends the
loop.  Between two attempts there is one sleep, or nothing. -/
def Loop.retrying (source : Node σ) (schedule : Schedule Failure) : Loop σ where
  source := source
  frame i := .retry source schedule i
  verdict i
    | .error (.fail φ) =>
      match schedule.decide? i φ.known? with
      | .ok (.again d) => .again d
      | .ok .stop => .ends (.error (.fail φ))
      | .error p => .ends (Exit.died (.ofPanic p))
    | x => .ends x
  pause _ d := if d.isZero then [] else [.eval (.sleep d), .done (.ok .null)]
  last _ steps := steps = []

/-- The frame of a source that is retried does what the schedule says. -/
theorem Loop.sound_retrying (source : Node σ) (schedule : Schedule Failure) :
    (retrying source schedule).Sound where
  again := by
    intro i x d stack sight verdict
    rcases x with (φ | _ | _) | v
    · simp only [retrying] at verdict
      cases decision : schedule.decide? i φ.known? with
      | error p =>
          rw [decision] at verdict
          cases verdict
      | ok what =>
          rw [decision] at verdict
          cases what with
          | stop => cases verdict
          | again d' =>
              obtain rfl := Verdict.again.inj verdict
              simp only [retrying, Frame.next?, decision]
              cases long : d'.isZero with
              | true => exact ⟨_, rfl, .refl _⟩
              | false => exact ⟨_, rfl, .sleep long (.step (fun _ => rfl) (.refl _))⟩
    all_goals cases verdict
  ends := by
    intro i x y stack sight verdict
    rcases x with (φ | _ | _) | v
    · simp only [retrying] at verdict
      cases decision : schedule.decide? i φ.known? with
      | error p =>
          rw [decision] at verdict
          obtain rfl := Verdict.ends.inj verdict
          simp only [retrying, Frame.next?, decision]
          exact ⟨_, [], rfl, .refl _, rfl⟩
      | ok what =>
          rw [decision] at verdict
          cases what with
          | again d => cases verdict
          | stop =>
              obtain rfl := Verdict.ends.inj verdict
              simp only [retrying, Frame.next?, decision]
              exact ⟨_, [], rfl, .refl _, rfl⟩
    all_goals
      obtain rfl := Verdict.ends.inj verdict
      exact ⟨_, [], rfl, .refl _, rfl⟩
  reusable := by
    intro i d ticket y listed
    simp only [retrying] at listed
    split at listed <;> simp at listed

namespace Schedule

variable {α : Type} {schedule : Schedule α} {input : α} {number : Nat} {delays : List Duration}

/-- The delays for a constant input are those after which the schedule goes on, up to the first
stop. -/
theorem delaysFrom_eq (again : ∀ (i : Nat) d, delays[i]? = some d →
    schedule.decide (number + i) input = .ok (.again d))
    (stops : schedule.decide (number + delays.length) input = .ok .stop) {limit : Nat}
    (more : delays.length < limit) : schedule.delaysFrom input number limit = .ok delays := by
  induction delays generalizing number limit with
  | nil =>
      obtain ⟨limit, rfl⟩ := Nat.exists_eq_add_of_lt more
      have stops' : schedule.decide number input = .ok .stop := stops
      simp only [List.length_nil, Nat.zero_add, delaysFrom, stops']
      rfl
  | cons d delays ih =>
      obtain ⟨limit, rfl⟩ := Nat.exists_eq_add_of_lt more
      have first : schedule.decide number input = .ok (.again d) := again 0 d rfl
      have rest : schedule.delaysFrom input (number + 1) (delays.length + 1 + limit) = .ok delays := by
        refine ih (fun i d' later => ?_) ?_ (by omega)
        · rw [Nat.add_assoc, Nat.add_comm 1 i]
          exact again (i + 1) d' later
        · rw [Nat.add_assoc, Nat.add_comm 1]
          exact stops
      rw [List.length_cons, delaysFrom, first]
      show (schedule.delaysFrom input (number + 1) (delays.length + 1 + limit)).map _ = _
      rw [rest]
      rfl

end Schedule

namespace Moment

variable {μ : Moment σ} {f : FiberId} {source : Node σ} {schedule : Schedule Failure}
  {stack : List (Frame σ)} {later before : List (Event σ)} {rounds : List (Exit × Duration)}
  {s : Stride σ}

/-- If all failures are alike and the schedule stops in the end, the delays are those that the
schedule has for this failure. -/
theorem Rounds.delays_eq
    (completed : Rounds (.retrying source schedule) f stack μ rounds before) {φ : Failure}
    (known : φ ≠ .alien) (alike : ∀ round ∈ rounds, round.1 = .error (.fail φ))
    (stops : schedule.decide (attempt rounds.length) φ = .ok .stop) {limit : Nat}
    (more : rounds.length < limit) (small : limit ≤ maxAttempt) :
    schedule.delays φ limit = .ok (rounds.map (·.2)) := by
  have decision : ∀ i, schedule.decide? i φ.known? = schedule.decide i φ := by
    intro i
    cases φ with
    | alien => exact absurd rfl known
    | _ => rfl
  have number : ∀ i, i ≤ rounds.length → attempt i = 0 + i := by
    intro i few
    unfold attempt
    omega
  refine Schedule.delaysFrom_eq (fun i d delay => ?_) ?_ (by rwa [List.length_map])
  · rw [List.getElem?_map] at delay
    obtain ⟨⟨x, d'⟩, round, rfl⟩ := Option.map_eq_some_iff.1 delay
    obtain rfl : x = _ := alike _ (List.mem_of_getElem? round)
    obtain ⟨inside, -⟩ := List.getElem?_eq_some_iff.1 round
    have again := completed.again round
    simp only [Loop.retrying, decision] at again
    rw [number i (Nat.le_of_lt inside)] at again
    cases decided : schedule.decide (0 + i) φ with
    | error p =>
        rw [decided] at again
        cases again
    | ok what =>
        rw [decided] at again
        cases what with
        | stop => cases again
        | again d => rw [Verdict.again.inj again]
  · rw [List.length_map, ← number _ (Nat.le_refl _)]
    exact stops

/-- In every run, a source that is retried by a fiber that is not interrupted is run again after a
failure exactly if the schedule goes on, after a sleep for the delay if there is one, and each time
on the same stack, but for the number of the attempt.  The exit of the whole is the first that the
schedule does not go on after, or the defect of a schedule that breaks off.  If all failures are
alike until the schedule stops, the delays are those that the schedule has for this failure. -/
theorem Reachable.retrying_follows_its_schedule (reachable : Reachable μ)
    (stride : μ.strideAt f .work = some s) (evaluates : s.Evaluates (.retry source schedule) stack)
    (calm : ((μ.apply .work).run later).machine.isInterrupted f = false) :
    let ν := μ.apply .work
    let loop := Loop.retrying source schedule
    ν.Faces f (.going (.eval source) (.retry source schedule 0 :: stack)) ∧
    (∃ rounds before rest, later = before ++ rest ∧ Rounds loop f stack ν rounds before ∧
      Stage loop f stack rounds.length (ν.run before) rest) ∧
    (∀ t ∈ strides f ν later, ∀ d, t.slice.run.next = .eval (.sleep d) → d.isZero = false →
      t.SetsTimer d) ∧
    ∀ rounds before, Rounds loop f stack ν rounds before → ∀ φ, φ ≠ .alien →
      (∀ round ∈ rounds, round.1 = .error (.fail φ)) →
      schedule.decide (attempt rounds.length) φ = .ok .stop → ∀ limit, rounds.length < limit →
      limit ≤ maxAttempt → schedule.delays φ limit = .ok (rounds.map (·.2)) := by
  intro ν loop
  have reachable' : Reachable ν := reachable.apply .work
  have starts : ν.Faces f (.going (.eval source) (.retry source schedule 0 :: stack)) := by
    refine reachable.left_of_fresh stride (fun _ _ once => ?_) (reachable'.calm_before calm) ?_
    · cases evaluates.1.symm.trans once
    · rw [evaluates.1, evaluates.2]
      rfl
  refine ⟨starts, reachable'.rounds_and_stage (Loop.sound_retrying source schedule) starts calm ?_,
    fun t taken d sleeps long => reachable'.setsTimer calm taken sleeps long,
    fun rounds before completed φ known alike stops limit more small =>
      completed.delays_eq known alike stops more small⟩
  rintro ⟨y, steps, ticket, x, rfl, listed⟩
  cases listed

/-- A source that always fails, and a schedule that goes on once, after five milliseconds. -/
def failsTwice : Effect Unit :=
  (Effect.fail (.plain "no")).retry (.intersect (.recurs 1) (.fixed (.ofMillis 5)))

/-- The source fails, a timer is set and fires, and the source fails again. -/
def failingTwice : List (Event Unit) :=
  List.replicate 7 .work ++ .fire :: List.replicate 10 .work

/-- The source is run twice, and then its failure comes out. -/
theorem failing_twice_follows_the_schedule :
    let μ := (initial { host := () } 100).run [.start failsTwice.node, .work]
    let ν := μ.apply .work
    let schedule : Schedule Failure := .intersect (.recurs 1) (.fixed (.ofMillis 5))
    let loop : Loop Unit := .retrying (Effect.fail (.plain "no")).node schedule
    (∃ s, μ.strideAt ⟨1⟩ .work = some s ∧ s.Evaluates failsTwice.node []) ∧
    (ν.run failingTwice).machine.isInterrupted ⟨1⟩ = false ∧
    (stepsOf ⟨1⟩ ν failingTwice).length = 7 ∧
    (∃ rounds before rest, failingTwice = before ++ rest ∧ Rounds loop ⟨1⟩ [] ν rounds before ∧
      Stage loop ⟨1⟩ [] rounds.length (ν.run before) rest) ∧
    ∀ rounds before, Rounds loop ⟨1⟩ [] ν rounds before → ∀ φ, φ ≠ .alien →
      (∀ round ∈ rounds, round.1 = .error (.fail φ)) →
      schedule.decide (attempt rounds.length) φ = .ok .stop → ∀ limit, rounds.length < limit →
      limit ≤ maxAttempt → schedule.delays φ limit = .ok (rounds.map (·.2)) := by
  intro μ ν schedule loop
  have reachable : Reachable μ := (Reachable.initial _ _).run _
  obtain ⟨s, stride, evaluates⟩ : ∃ s, μ.strideAt ⟨1⟩ .work = some s ∧
      s.Evaluates failsTwice.node [] := ⟨_, rfl, rfl, rfl⟩
  have calm : (ν.run failingTwice).machine.isInterrupted ⟨1⟩ = false := by decide +kernel
  have follows := reachable.retrying_follows_its_schedule stride evaluates calm
  exact ⟨⟨s, stride, evaluates⟩, calm, by decide +kernel, follows.2.1, follows.2.2.2⟩

end Moment

end EffectFibers
