import EffectFibers.Effect.Sequential
import EffectFibers.Proofs.Finalizers

/-!
# An acquired resource is always released

A resource is acquired in a region, handed to a continuation, and used over a finalizer that
releases it.  No interrupt comes in between: the exit of the region is handed on as it is, and the
node that installs the finalizer is a guard, which is evaluated even if its fiber is interrupted at
the end of a slice.  From there on the resource is as safe as its finalizer, which runs in a region
of its own and so comes to the call that releases it.

## Main definitions

* `Moment.AcquireCourse` – how far such a program has got, from its evaluation on.
* `Moment.UseCourse` – how far the use of a resource has got.
* `Stride.Calls` – a step that calls user code.

## Main statements

* `Moment.Reachable.acquired_is_released` – an acquired resource is released once, after its use.
-/

namespace EffectFibers

variable {σ : Type}

namespace Effect

/-- The effect that user code makes when it is called with a value. -/
def calling (make : Value → Action σ (Effect σ)) (r : Value) : Effect σ :=
  unit.flatMap fun _ => make r

/-- What comes to the call. -/
def toCall (make : Value → Action σ (Effect σ)) (r : Value) : Value → Action σ (Node σ) :=
  expecting fun _ => do return (← make r).node

/-- The use of a resource over the finalizer that releases it. -/
def inUse (use release : Value → Action σ (Effect σ)) (r : Value) : Effect σ :=
  (calling use r).ensuring (calling release r)

/-- What a resource is handed to. -/
def toUse (use release : Value → Action σ (Effect σ)) : Value → Action σ (Node σ) :=
  expecting fun r => do return (← (pure (inUse use release r) : Action σ (Effect σ))).node

theorem node_acquireUseRelease (acquire : Effect σ) (use release : Value → Action σ (Effect σ)) :
    (acquireUseRelease acquire use release).node =
      .flatMap (.uninterruptible acquire.node) (toUse use release) := rfl

end Effect

open Effect

/-! ## Steps -/

/-- A step that calls user code with a value, on a stack, and goes on with the effect it makes. -/
structure Stride.Calls (s : Stride σ) (make : Value → Action σ (Effect σ)) (r : Value)
    (stack : List (Frame σ)) : Prop where
  hands : s.Hands (.flatMap (toCall make r) :: stack) (.ok .null)
  result : s.result = s.machine.build { s.slice.run with stack } (do return (← make r).node)

/-- Steps that come to a call of user code in two steps, and whether they have made it. -/
inductive ComeToCall (make : Value → Action σ (Effect σ)) (r : Value) (stack : List (Frame σ)) :
    List (Stride σ) → Bool → Prop
  | none : ComeToCall make r stack [] false
  | entered {a} (entered : a.Evaluates (calling make r).node stack) :
      ComeToCall make r stack [a] false
  | ready {a b} (entered : a.Evaluates (calling make r).node stack)
    (unit : b.Evaluates (.succeed .null) (.flatMap (toCall make r) :: stack)) :
    ComeToCall make r stack [a, b] false
  | called {a b c rest} (entered : a.Evaluates (calling make r).node stack)
    (unit : b.Evaluates (.succeed .null) (.flatMap (toCall make r) :: stack))
    (calls : c.Calls make r stack) : ComeToCall make r stack (a :: b :: c :: rest) true

/-- The steps of a use that ends with an exit: an interrupt has come before the call, or the call
has panicked, or the effect that it has made has ended. -/
inductive UseEnds (use : Value → Action σ (Effect σ)) (r : Value) (stack : List (Frame σ)) :
    List (Stride σ) → Exit → Prop
  | uncalled {taken} (uncalled : ∀ s ∈ taken, ¬ s.Calls use r stack) :
    UseEnds use r stack taken .interrupted
  | panicked {a b c p} (called : ComeToCall use r stack [a, b, c] true)
    (panics : (c.machine.perform (use r)).1 = .error p) :
    UseEnds use r stack [a, b, c] (Exit.died (.ofPanic p))
  | ended {a b c rest e x} (called : ComeToCall use r stack (a :: b :: c :: rest) true)
    (makes : (c.machine.perform (use r)).1 = .ok e)
    (goes : c.result.control = .next (.eval e.node)) (below : c.result.run.stack = stack) :
    UseEnds use r stack (a :: b :: c :: rest) x

namespace Moment

/-- How far the use of a resource has got in a run that begins where the resource is handed over:
the use is to come, it is under way, the resource is being released, or it was released. -/
def UseCourse (f : FiberId) (use release : Value → Action σ (Effect σ)) (r : Value)
    (stack : List (Frame σ)) : Moment σ → List (Event σ) → Prop := fun μ events =>
  Idles f μ events ∨
  Takes f (·.Evaluates (inUse use release r).node stack) (fun μ events =>
    Remains f (.ensuring (calling release r).node :: stack) μ events ∨
    Unwinds f (.ensuring (calling release r).node :: stack) (fun x used μ events =>
      UseEnds use r (.ensuring (calling release r).node :: stack) used x ∧
      (Remains f (.finalizing x :: stack) μ events ∧
          (∃ called, ComeToCall release r (.finalizing x :: stack) (strides f μ events) called) ∨
        Unwinds f (.finalizing x :: stack) (fun y released μ _ =>
          ComeToCall release r (.finalizing x :: stack) released true ∧
          ∃ run, μ.Next f run ∧ run.next = .done (outcome x y) ∧ run.stack = stack) μ events))
      μ events) μ events

/-- What is done with the exit of an acquisition: a resource is used, and everything else is handed
on, and user code is called for neither. -/
def AfterAcquire (f : FiberId) (use release : Value → Action σ (Effect σ)) (stack : List (Frame σ))
    (x : Exit) (μ : Moment σ) (events : List (Event σ)) : Prop :=
  match x with
  | .ok .alien => ∃ run, μ.Next f run ∧ run.next = .eval (.die .typeMismatch) ∧ run.stack = stack
  | .ok r => UseCourse f use release r stack μ events
  | .error cause => ∃ run, μ.Next f run ∧ run.next = .done (.error cause) ∧ run.stack = stack

/-- How far a resource program has got in a run that begins where it has been evaluated on a stack:
the acquisition is to come, it is under way, its exit is to be handed on, or it was handed on. -/
def AcquireCourse (f : FiberId) (acquire : Effect σ) (use release : Value → Action σ (Effect σ))
    (stack : List (Frame σ)) : Moment σ → List (Event σ) → Prop := fun μ events =>
  Idles f μ events ∨
  Takes f (·.Evaluates (.uninterruptible acquire.node) (.flatMap (toUse use release) :: stack))
    (fun μ events =>
      Remains f (.regionEnd :: .flatMap (toUse use release) :: stack) μ events ∨
      Unwinds f (.regionEnd :: .flatMap (toUse use release) :: stack) (fun x _ μ events =>
        Idles f μ events ∨
        Takes f (·.Hands (.flatMap (toUse use release) :: stack) x)
          (AfterAcquire f use release stack x) μ events) μ events) μ events

variable {μ : Moment σ} {f : FiberId} {event : Event σ} {s : Stride σ} {stack : List (Frame σ)}
  {acquire : Effect σ} {use release make : Value → Action σ (Effect σ)} {r : Value}
  {run : RunState σ} {frame : Frame σ}

theorem Takes.imp {first first' : Stride σ → Prop} {later : Moment σ → List (Event σ) → Prop}
    {events : List (Event σ)} (takes : Takes f first later μ events)
    (weaker : ∀ s, first s → first' s) : Takes f first' later μ events := by
  obtain ⟨before, after, s, split, none, step, is, onward⟩ := takes
  exact ⟨before, after, s, split, none, step, weaker s is, onward⟩

/-! ## Coming to a call -/

theorem result_of_flatMap {source : Node σ} {next : Value → Action σ (Node σ)}
    (evaluates : s.slice.run.next = .eval (.flatMap source next)) :
    s.result = { control := .next (.eval source)
                 run := s.slice.run.push (.flatMap next)
                 machine := s.machine } := by
  rw [Stride.result, Machine.stepRun_eval evaluates]
  rfl

theorem result_of_succeed {v : Value} (evaluates : s.slice.run.next = .eval (.succeed v)) :
    s.result = { control := .next (.done (.ok v)), run := s.slice.run, machine := s.machine } := by
  rw [Stride.result, Machine.stepRun_eval evaluates]
  rfl

theorem result_of_hands_flatMap {next : Value → Action σ (Node σ)} {v : Value}
    (hands : s.Hands (.flatMap next :: stack) (.ok v)) :
    s.result = s.machine.build { s.slice.run with stack } (next v) := by
  rw [Stride.result, Machine.stepRun_done hands.1 hands.2]
  rfl

theorem calls_of_hands (hands : s.Hands (.flatMap (toCall make r) :: stack) (.ok .null)) :
    s.Calls make r stack :=
  ⟨hands, result_of_hands_flatMap hands⟩

/-- What comes after a program is entered that comes to a call. -/
theorem ahead_of_calling {rest : List (Stride σ)} (ahead : Ahead f run (s :: rest))
    (evaluates : run.next = .eval (calling make r).node) (same : s.slice.run = run) :
    Ahead f { run with next := .eval (.succeed .null)
                       stack := .flatMap (toCall make r) :: run.stack } rest := by
  have entered : s.slice.run.next = .eval (.flatMap (.succeed .null) (toCall make r)) := by
    rw [same, evaluates]
    rfl
  have onward := ahead.cons.2 _ (congrArg StepResult.control (result_of_flatMap entered))
  rw [result_of_flatMap entered, same] at onward
  exact onward

theorem ahead_of_unit {rest : List (Stride σ)} (ahead : Ahead f run (s :: rest))
    (evaluates : run.next = .eval (.succeed .null)) (same : s.slice.run = run) :
    Ahead f { run with next := .done (.ok .null) } rest := by
  have unit : s.slice.run.next = .eval (.succeed .null) := by rw [same, evaluates]
  have onward := ahead.cons.2 _ (congrArg StepResult.control (result_of_succeed unit))
  rw [result_of_succeed unit, same] at onward
  exact onward

/-- In a region, nothing keeps a program from coming to its call. -/
theorem comeToCall_of_shielded {taken : List (Stride σ)} (ahead : Ahead f run taken)
    (evaluates : run.next = .eval (calling make r).node) (shielded : 0 < run.shield) :
    ∃ called, ComeToCall make r run.stack taken called := by
  cases taken with
  | nil => exact ⟨_, .none⟩
  | cons a taken =>
      have entered := ahead.firm fun _ _ => .inr shielded
      have ahead₂ := ahead_of_calling ahead evaluates entered
      have evaluates : a.Evaluates (calling make r).node run.stack := by
        rw [Stride.Evaluates, entered]
        exact ⟨evaluates, rfl⟩
      cases taken with
      | nil => exact ⟨_, .entered evaluates⟩
      | cons b taken =>
          have unit := ahead₂.firm fun _ _ => .inr shielded
          have ahead₃ := ahead_of_unit ahead₂ rfl unit
          have evaluates' : b.Evaluates (.succeed .null)
            (.flatMap (toCall make r) :: run.stack) := by
            rw [Stride.Evaluates, unit]
            exact ⟨rfl, rfl⟩
          cases taken with
          | nil => exact ⟨_, .ready evaluates evaluates'⟩
          | cons c taken =>
              have call := ahead₃.firm nofun
              refine ⟨_, .called evaluates evaluates' (calls_of_hands ?_)⟩
              rw [Stride.Hands, call]
              exact ⟨rfl, rfl⟩

/-! ## The end of a use -/

/-- The step after user code that makes an effect. -/
theorem control_of_calls (calls : s.Calls make r stack) :
    s.result.control = .next (match (s.machine.perform (make r)).1 with
      | .ok e => .eval e.node
      | .error p => .done (Exit.died (.ofPanic p))) := by
  rw [calls.result]
  have made : (s.machine.perform (do return (← make r).node : Action σ (Node σ))).1 =
      match (s.machine.perform (make r)).1 with
      | .ok e => .ok e.node
      | .error p => .error p := by
    simp only [Machine.perform, bind, Action.bind]
    split
    · rename_i panics
      rw [panics]
    · rename_i makes
      rw [makes]
      rfl
  simp only [Machine.build, Control.ofBuilt]
  rw [made]
  cases (s.machine.perform (make r)).1 <;> rfl

theorem hands_of_noticed (noticed : s.slice.run = { run with next := .done .interrupted }) :
    s.Hands run.stack .interrupted := by
  rw [Stride.Hands, noticed]
  exact ⟨rfl, rfl⟩

/-- A step on a longer stack reaches no frame of a shorter one. -/
theorem not_hands_of_longer {x : Exit} (longer : s.slice.run.stack = frame :: stack) :
    ¬ s.Hands stack x := by
  rintro ⟨-, same⟩
  rw [longer] at same
  simpa using congrArg List.length same

theorem result_of_passes {next : Value → Action σ (Node σ)} {cause : Cause Failure}
    (hands : s.Hands (.flatMap next :: stack) (.error cause)) :
    s.result = { control := .next (.done (.error cause)), run := { s.slice.run with stack }
                 machine := s.machine } := by
  rw [Stride.result, Machine.stepRun_done hands.1 hands.2]
  rfl

/-- An exit that is there comes out at once. -/
theorem eq_nil_of_done {taken rest : List (Stride σ)} {t : Stride σ} {x y : Exit}
    (ahead : Ahead f run (taken ++ t :: rest)) (done : run.next = .done y)
    (hands : t.Hands run.stack x) (unreached : ∀ s ∈ taken, ∀ y, ¬ s.Hands run.stack y) :
    taken = [] ∧ x = y := by
  have firm : run.Firm := fun node evaluates => by
    rw [done] at evaluates
    cases evaluates
  cases taken with
  | nil =>
      have next := hands.1
      rw [ahead.firm firm, done] at next
      exact ⟨rfl, (Step.done.inj next).symm⟩
  | cons s taken =>
      refine absurd ?_ (unreached s List.mem_cons_self y)
      rw [Stride.Hands, ahead.firm firm]
      exact ⟨done, rfl⟩

/-- When an interrupt comes between the use and its call, the use ends with it. -/
theorem useEnds_of_noticed {taken rest : List (Stride σ)} {a b t : Stride σ} {x : Exit}
    (ahead : Ahead f run (b :: (taken ++ t :: rest)))
    (entered : a.Evaluates (calling use r).node stack)
    (noticed : b.Hands (.flatMap (toCall use r) :: stack) .interrupted)
    (hands : t.Hands stack x) (unreached : ∀ s ∈ taken, ∀ y, ¬ s.Hands stack y) :
    UseEnds use r stack (a :: b :: taken) x := by
  have passes := result_of_passes noticed
  have onward := ahead.cons.2 _ (congrArg StepResult.control passes)
  rw [passes] at onward
  obtain ⟨rfl, rfl⟩ := eq_nil_of_done onward rfl hands unreached
  refine .uncalled fun s listed calls => ?_
  rcases List.mem_cons.1 listed with rfl | listed
  · cases entered.1.symm.trans calls.hands.1
  · obtain rfl := List.mem_singleton.1 listed
    cases noticed.1.symm.trans calls.hands.1

/-- Once the call is made, the use ends with its panic at once, or goes on with what it has made. -/
theorem useEnds_of_calls {taken rest : List (Stride σ)} {a b c t : Stride σ} {x : Exit}
    (ahead : Ahead f run (c :: (taken ++ t :: rest)))
    (entered : a.Evaluates (calling use r).node stack)
    (unit : b.Evaluates (.succeed .null) (.flatMap (toCall use r) :: stack))
    (calls : c.Calls use r stack) (hands : t.Hands stack x)
    (unreached : ∀ s ∈ taken, ∀ y, ¬ s.Hands stack y) :
    UseEnds use r stack (a :: b :: c :: taken) x := by
  have below : c.result.run.stack = stack := by rw [calls.result]; rfl
  have control := control_of_calls calls
  cases made : (c.machine.perform (use r)).1 with
  | ok e =>
      rw [made] at control
      exact .ended (.called entered unit calls) made control below
  | error p =>
      rw [made] at control
      have onward := ahead.cons.2 _ control
      obtain rfl := below
      obtain ⟨rfl, rfl⟩ := eq_nil_of_done onward rfl hands unreached
      exact .panicked (.called entered unit calls) made

/-- When an exit comes out of a use, the use has ended in one of three ways. -/
theorem useEnds_of_hands {taken rest : List (Stride σ)} {t : Stride σ} {x : Exit}
    (ahead : Ahead f run (taken ++ t :: rest)) (evaluates : run.next = .eval (calling use r).node)
    (hands : t.Hands run.stack x) (unreached : ∀ s ∈ taken, ∀ y, ¬ s.Hands run.stack y) :
    UseEnds use r run.stack taken x := by
  have pending : t.slice.run.stack ≠ .flatMap (toCall use r) :: run.stack := fun longer =>
    not_hands_of_longer longer hands
  cases taken with
  | nil =>
      rcases ahead.cons.1 with same | ⟨-, noticed⟩
      · have next := hands.1
        rw [same, evaluates] at next
        cases next
      · obtain rfl := Step.done.inj ((hands_of_noticed noticed).1.symm.trans hands.1)
        exact .uncalled fun s listed => absurd listed List.not_mem_nil
  | cons a taken =>
      obtain ⟨unreached_a, unreached⟩ := List.forall_mem_cons.1 unreached
      have entered : a.slice.run = run :=
        ahead.cons.1.resolve_right fun noticed => unreached_a _ (hands_of_noticed noticed.2)
      have evaluates_a : a.Evaluates (calling use r).node run.stack := by
        rw [Stride.Evaluates, entered]
        exact ⟨evaluates, rfl⟩
      have ahead₂ := ahead_of_calling ahead evaluates entered
      cases taken with
      | nil => exact absurd (ahead₂.cons.1.elim (· ▸ rfl) (·.2 ▸ rfl)) pending
      | cons b taken =>
          have unreached := (List.forall_mem_cons.1 unreached).2
          rcases ahead₂.cons.1 with unit | ⟨-, noticed⟩
          · have evaluates_b :
                b.Evaluates (.succeed .null) (.flatMap (toCall use r) :: run.stack) := by
              rw [Stride.Evaluates, unit]
              exact ⟨rfl, rfl⟩
            have ahead₃ := ahead_of_unit ahead₂ rfl unit
            cases taken with
            | nil => exact absurd (ahead₃.firm nofun ▸ rfl) pending
            | cons c taken =>
                have calls : c.Calls use r run.stack := by
                  refine calls_of_hands ?_
                  rw [Stride.Hands, ahead₃.firm nofun]
                  exact ⟨rfl, rfl⟩
                exact useEnds_of_calls ahead₃ evaluates_a evaluates_b calls hands
                  (List.forall_mem_cons.1 unreached).2
          · exact useEnds_of_noticed ahead₂ evaluates_a (hands_of_noticed noticed) hands unreached

/-! ## The course of a use -/

/-- Before an exit comes out of a program that comes to a call, the call was made. -/
theorem called_of_hands {taken : List (Stride σ)} {u : Stride σ} {y : Exit} {called : Bool}
    (come : ComeToCall make r stack (taken ++ [u]) called) (hands : u.Hands stack y) :
    ComeToCall make r stack taken true := by
  match taken, come with
  | [], .entered entered => cases entered.1.symm.trans hands.1
  | [_], .ready _ unit => cases unit.1.symm.trans hands.1
  | [_, _], .called _ _ calls => exact absurd hands (not_hands_of_longer calls.hands.2)
  | _ :: _ :: _ :: _, .called entered unit calls => exact .called entered unit calls

/-- A resource that is handed over is used, and then released. -/
theorem Reachable.use_course (reachable : Reachable μ) (next : μ.Next f run)
    (evaluates : run.next = .eval (inUse use release r).node) (events : List (Event σ)) :
    UseCourse f use release r run.stack μ events := by
  have firm : run.Firm := by
    intro node here
    rw [evaluates] at here
    obtain rfl := Step.eval.inj here
    exact .inl rfl
  refine (reachable.idles_or_takes next firm ?_ events).imp_right fun takes => takes.imp
    fun s same => ?_
  rotate_left
  · rw [Stride.Evaluates, same]
    exact ⟨evaluates, rfl⟩
  intro ν s events reachable step same
  -- the use is under way over the finalizer
  have opens : s.slice.run.next =
    .eval (.ensuring (calling use r).node (calling release r).node) := by
    rw [same]
    exact evaluates
  have entered := reachable.next_of_stride step
    (congrArg StepResult.control (result_of_ensuring opens))
  rw [result_of_ensuring opens, same] at entered
  have reachable' := reachable.apply .work
  refine reachable'.remains_or_unwinds (entered.above (List.suffix_refl _)) ?_ events
  intro before t x events reachable₂ steady step' hands
  refine ⟨?_, ?_⟩
  · have taken : strides f (ν.apply .work) (before ++ [.work]) =
        strides f (ν.apply .work) before ++ t :: [] := by
      rw [strides_append, strides, step']
      rfl
    exact useEnds_of_hands ⟨_, _, reachable', entered, taken⟩ rfl hands steady.unreached
  -- the finalizer is started
  have started := reachable₂.next_of_stride step'
    (congrArg StepResult.control (result_of_hands_ensuring hands))
  rw [result_of_hands_ensuring hands] at started
  have reachable₃ := reachable₂.apply .work
  have come : ∀ events, ∃ called, ComeToCall release r (.finalizing x :: run.stack)
      (strides f (((ν.apply .work).run before).apply .work) events) called := fun events =>
    comeToCall_of_shielded ⟨_, events, reachable₃, started, rfl⟩ rfl (Nat.succ_pos _)
  refine (reachable₃.remains_or_unwinds (started.above (List.suffix_refl _)) ?_ events).imp_left
    fun remains => ⟨remains, come events⟩
  intro during u y events reachable₄ _ step'' hands'
  have passes := result_of_hands_finalizing hands'
  refine ⟨?_, _, reachable₄.next_of_stride step'' passes.1, rfl, passes.2⟩
  obtain ⟨called, comes⟩ := come (during ++ [.work])
  rw [strides_append, strides, step''] at comes
  exact called_of_hands comes hands'

/-! ## The course of an acquisition -/

theorem result_of_uninterruptible {source : Node σ}
    (evaluates : s.slice.run.next = .eval (.uninterruptible source)) :
    s.result = { control := .next (.eval source), run := s.slice.run.shielded.push .regionEnd
                 machine := s.machine } := by
  rw [Stride.result, Machine.stepRun_eval evaluates]
  rfl

theorem result_of_hands_regionEnd {x : Exit} (hands : s.Hands (.regionEnd :: stack) x) :
    s.result = { control := .next (.done x)
                 run := ({ s.slice.run with stack } : RunState σ).unshielded
                 machine := s.machine } := by
  rw [Stride.result, Machine.stepRun_done hands.1 hands.2]
  rfl

/-- A resource is handed to its use; no user code is called for that. -/
theorem build_toUse (m : Machine σ) (run : RunState σ) (known : r ≠ .alien) :
    m.build run (toUse use release r) =
      { control := .next (.eval (inUse use release r).node), run, machine := m } := by
  have plain : toUse use release r = pure (inUse use release r).node := by
    cases r with
    | alien => exact absurd rfl known
    | _ => rfl
  rw [plain]
  rfl

theorem afterAcquire_ok {events : List (Event σ)} (known : r ≠ .alien) :
    AfterAcquire f use release stack (.ok r) μ events =
      UseCourse f use release r stack μ events := by
  cases r with
  | alien => exact absurd rfl known
  | _ => rfl

/-- The exit of an acquisition comes to the use as it is. -/
theorem Reachable.afterAcquire (reachable : Reachable μ) {x : Exit} {events : List (Event σ)}
    (step : μ.strideAt f .work = some s)
    (hands : s.Hands (.flatMap (toUse use release) :: stack) x) :
    AfterAcquire f use release stack x (μ.apply .work) events := by
  cases x with
  | error cause =>
      have passes := result_of_passes hands
      have handed := reachable.next_of_stride step (congrArg StepResult.control passes)
      rw [passes] at handed
      exact ⟨_, handed, rfl, rfl⟩
  | ok r =>
      have result := result_of_hands_flatMap hands
      by_cases alien : r = .alien
      · subst alien
        have built : s.machine.build { s.slice.run with stack } (toUse use release .alien) =
            { control := .next (.eval (.die .typeMismatch)), run := { s.slice.run with stack }
              machine := s.machine } := rfl
        rw [built] at result
        have handed := reachable.next_of_stride step (congrArg StepResult.control result)
        rw [result] at handed
        exact ⟨_, handed, rfl, rfl⟩
      · rw [build_toUse _ _ alien] at result
        have handed := reachable.next_of_stride step (congrArg StepResult.control result)
        rw [result] at handed
        rw [afterAcquire_ok alien]
        exact (reachable.apply .work).use_course handed rfl events

/-- From the evaluation of a resource program on, the resource is acquired in a region, comes to its
use if the acquisition succeeds, and is released once when the use has ended; the fiber does not end
before that. -/
theorem Reachable.acquired_is_released (reachable : Reachable μ)
    (step : μ.strideAt f event = some s)
    (evaluates : s.slice.run.next = .eval (acquireUseRelease acquire use release).node)
    (events : List (Event σ)) :
    AcquireCourse f acquire use release s.slice.run.stack (μ.apply event) events := by
  rw [node_acquireUseRelease] at evaluates
  have entered := reachable.next_of_stride step
    (congrArg StepResult.control (result_of_flatMap evaluates))
  rw [result_of_flatMap evaluates] at entered
  have reachable₁ := reachable.apply event
  have firm : ∀ node, Step.eval (.uninterruptible acquire.node) = .eval node →
    node.isGuard = true := by
    intro node here
    obtain rfl := Step.eval.inj here
    rfl
  refine (reachable₁.idles_or_takes entered
    (fun node here => .inl (firm node here)) ?_ events).imp_right
    fun takes => takes.imp fun t same => ?_
  rotate_left
  · rw [Stride.Evaluates, same]
    exact ⟨rfl, rfl⟩
  intro ν t events reachable step same
  -- the acquisition is under way in its region
  have opens : t.slice.run.next = .eval (.uninterruptible acquire.node) := by rw [same]
  have acquiring := reachable.next_of_stride step
    (congrArg StepResult.control (result_of_uninterruptible opens))
  rw [result_of_uninterruptible opens, same] at acquiring
  refine (reachable.apply .work).remains_or_unwinds (acquiring.above (List.suffix_refl _)) ?_ events
  intro before u x events reachable₂ _ step' hands
  -- it has an exit, which is handed on outside the region
  have left := reachable₂.next_of_stride step'
    (congrArg StepResult.control (result_of_hands_regionEnd hands))
  rw [result_of_hands_regionEnd hands] at left
  have handsOn : ∀ v : Stride σ, v.slice.run =
      { ({ u.slice.run with stack := .flatMap (toUse use release) :: s.slice.run.stack } :
          RunState σ).unshielded with next := .done x } →
      v.Hands (.flatMap (toUse use release) :: s.slice.run.stack) x := by
    intro v same
    rw [Stride.Hands, same]
    exact ⟨rfl, rfl⟩
  refine ((reachable₂.apply .work).idles_or_takes left nofun ?_ events).imp_right fun takes =>
    takes.imp handsOn
  intro ν v events reachable₃ step'' same
  exact reachable₃.afterAcquire step'' (handsOn v same)

/-! ## An interrupt between the acquisition and the use -/

/-- User code that notes a number in the host's state. -/
def noting (n : Nat) (_ : Value) : Action (List Nat) (Effect (List Nat)) := do
  Action.modify (· ++ [n])
  return Effect.unit

/-- A program that notes its use and its release. -/
def notes : Effect (List Nat) :=
  Effect.acquireUseRelease (.succeed (.bool true)) (noting 1) (noting 2)

/-- That program, with slices of one step each, after some operations of the worker. -/
def taking (works : Nat) : Moment (List Nat) :=
  (initial { host := [] } 1).run (.start notes.node :: List.replicate works .work)

/-- An interrupt during the acquisition, and what the worker does afterwards. -/
def interruptedTaking : List (Event (List Nat)) :=
  List.replicate 6 .work ++ .request (.interrupt ⟨1⟩) :: List.replicate 40 .work

theorem reachable_taking (works : Nat) : Reachable (taking works) := (Reachable.initial _ _).run _

/-- The resource is released although it was never used. -/
theorem interrupted_resource_is_released :
    ((taking 2).run interruptedTaking).machine.status ⟨1⟩ = .interrupted ∧
    ((taking 2).run interruptedTaking).machine.world.host = [2] ∧
    AcquireCourse ⟨1⟩ (.succeed (.bool true)) (noting 1) (noting 2) [] (taking 2)
      interruptedTaking := by
  have course := (reachable_taking 1).acquired_is_released
    (show (taking 1).strideAt ⟨1⟩ .work = some _ from rfl)
    (show _ = Step.eval (Effect.acquireUseRelease (.succeed (.bool true)) (noting 1)
      (noting 2)).node from rfl) interruptedTaking
  exact ⟨by decide, by decide, course⟩

end Moment

end EffectFibers
