import EffectFibers.Proofs.Meaning.Asking
import EffectFibers.Proofs.Meaning.Behaviour
import EffectFibers.Proofs.Progress.Stack

/-!
# The machine's steps and the meaning

A step of a fiber that evaluates a sequential program does the deeds that it is about to do, and
what is left of the program afterwards behaves as the meaning says.

## Main definitions

* `Left` – what is left of a program, and what it does.
* `Machine.deeds` – what the next step runs.
* `Machine.Advances` – a step that agrees with the meaning.

## Main statements

* `Machine.Working.advances` – every step of a sequential program agrees with the meaning.
-/

namespace EffectFibers

variable {σ : Type}

/-! ## What is left of a program -/

/-- What is left of a program: it goes on, it waits, or it is over. -/
inductive Left (σ : Type)
  | going (step : Step σ) (stack : List (Frame σ))
  | waiting (timer : Bool) (stack : List (Frame σ))
  | gone (exit : Exit)

/-- Whether a timer ends a wait. -/
def Pending.timed : Pending σ → Bool
  | .wait _ (.timer _) => true
  | _ => false

/-- What is left of a program after a step, or when an answer has come in. -/
def Control.left (control : Control σ) (stack : List (Frame σ)) : Option Exit → Left σ
  | some x => .going (.done x) stack
  | none =>
    match control with
    | .next step | .yield step => .going step stack
    | .suspend pending => .waiting pending.timed stack
    | .finish x => .gone x

def Step.Sequential : Step σ → Prop
  | .eval node => node.Sequential
  | .done _ => True

/-- A frame that goes on with sequential trees. -/
def Frame.Sequential : Frame σ → Prop
  | .flatMap next => ∀ v sight node, Action.resultAt (next v) sight = .ok node → node.Sequential
  | .recover handler =>
    ∀ φ sight node, Action.resultAt (handler φ) sight = .ok node → node.Sequential
  | .ensuring finalizer => finalizer.Sequential
  | .retry source _ _ | .repeated source _ _ => source.Sequential
  | .finalizing _ | .regionEnd | .spanEnd => True
  | .restore _ | .layers _ => False

namespace Left

/-- What is left of a sequential program. -/
def Sequential : Left σ → Prop
  | going step stack => step.Sequential ∧ ∀ frame ∈ stack, frame.Sequential
  | waiting _ stack => ∀ frame ∈ stack, frame.Sequential
  | gone _ => True

/-- What the rest of a program does. -/
def does (context : Context Value) : Left σ → Behaviour σ
  | going step stack => goes context step stack
  | waiting timer stack => awaits context timer stack
  | gone x => Behaviour.gives x 0

end Left

/-- A repeated source goes on with a sequential tree. -/
theorem Node.Sequential.repeatAfter {source : Node σ} (sequential : source.Sequential)
    {schedule : Schedule Value} {number : Nat} {v : Value} {sight : Sight σ} {node : Node σ}
    (built : (Machine.repeatAfter source schedule number v).resultAt sight = .ok node) :
    node.Sequential := by
  cases decision : schedule.decide? number v.known? with
  | error p =>
      rw [Machine.repeatAfter, decision] at built
      cases built
  | ok what =>
      rw [Machine.repeatAfter, decision] at built
      cases what with
      | stop =>
          obtain rfl := Except.ok.inj built
          exact .once _ _
      | again d =>
          cases zero : d.isZero with
          | true =>
              obtain rfl : .repeated source schedule (Schedule.nextAttempt number) = node := by
                simpa [Action.resultAt, Action.ofExcept, bind, Action.bind, pure, Action.pure, zero]
                  using built
              exact .repeated sequential
          | false =>
              obtain rfl : .flatMap (.sleep d) (fun _ => (pure (.repeated source schedule
                  (Schedule.nextAttempt number)) : Action σ (Node σ))) = node := by
                simpa [Action.resultAt, Action.ofExcept, bind, Action.bind, pure, Action.pure, zero]
                  using built
              refine .flatMap (.sleep d) fun v sight node built => ?_
              obtain rfl := Except.ok.inj built
              exact .repeated sequential

/-! ## What a step does -/

namespace Machine

/-- What user code sees of the world at this point. -/
def sight (m : Machine σ) : Sight σ := ⟨statusOf m.fibers, m.world⟩

/-- What the next step of a program runs. -/
def deeds (m : Machine σ) (run : RunState σ) : List (Deed σ) :=
  match run.next, run.stack with
  | .eval (.sync thunk), _ => [.ran thunk m.sight]
  | .eval (.once ticket _), _ => [.used ticket m.sight]
  | .eval (.async register), _ => [.asked register m.waits.nextId m.sight]
  | .eval (.access reader), _ => [.built (reader run.context) m.sight]
  | .done (.ok v), .flatMap next :: _ => [.built (next v) m.sight]
  | .done (.error (.fail φ)), .recover handler :: _ => [.built (handler φ) m.sight]
  | .done (.ok v), .repeated source schedule number :: _ =>
    [.built (repeatAfter source schedule number v) m.sight]
  | _, _ => []

/-- A step of a program that agrees with its meaning: what it does, with the answer that it has got
by the end of the step, leads to what is left of the program. -/
structure Advances (m : Machine σ) (f : FiberId) (run : RunState σ) (result : StepResult σ) :
    Prop where
  context : result.run.context = run.context
  alone : ¬ result.machine.LeadsGroup f
  leads : ∃ after, result.machine.fiber? f = some after ∧ after.children = [] ∧
    (result.control.left result.run.stack after.input).Sequential ∧
    (goes run.context run.next run.stack).Leads
      (m.deeds run ++ after.input.toList.map Deed.answered)
      ((result.control.left result.run.stack after.input).does run.context)
  timed : ∀ pending, result.control = .suspend pending → pending.timed = true →
    ∃ w wait, pending.wait? = some w ∧ result.machine.waits.get? w = some wait ∧
      wait.source = .timer
  waits : ∀ g, result.control ≠ .suspend (.group g)

namespace Working

variable {m : Machine σ} {f : FiberId} {fiber : Fiber σ} {run : RunState σ} {scope : ScopeId}
  {result : StepResult σ} {stack : List (Frame σ)}

/-- A step that goes on by itself. -/
theorem advances_of_next {step : Step σ} (working : m.Working f fiber)
    (evolves : Evolves none true m result.machine) (calm : result.machine.isInterrupted f = false)
    (on : result.control = .next step ∨ result.control = .yield step)
    (context : result.run.context = run.context)
    (sequential : (Left.going step result.run.stack).Sequential)
    (leads : (goes run.context run.next run.stack).Leads (m.deeds run)
      (goes run.context step result.run.stack)) : m.Advances f run result := by
  obtain ⟨⟨after, row, kept, childless⟩, alone⟩ := working.kept evolves calm
  have silent : after.input = none := kept.input.trans working.silent
  have left : result.control.left result.run.stack none = .going step result.run.stack := by
    rcases on with next | yield
    · rw [next]
      rfl
    · rw [yield]
      rfl
  refine ⟨context, alone, ⟨after, row, ?_, ?_⟩, ?_, ?_⟩
  · exact childless
  · rw [silent, left]
    refine ⟨sequential, ?_⟩
    rw [Option.toList_none, List.map_nil, List.append_nil]
    exact leads
  · rintro pending waits -
    rcases on with next | yield
    · cases next.symm.trans waits
    · cases yield.symm.trans waits
  · intro g waits
    rcases on with next | yield
    · cases next.symm.trans waits
    · cases yield.symm.trans waits

/-- A step that runs user code for a tree. -/
theorem advances_build {code : Action σ (Node σ)} {rest : RunState σ} (working : m.Working f fiber)
    (calm : (m.build rest code).machine.isInterrupted f = false)
    (context : rest.context = run.context) (does : m.deeds run = [.built code m.sight])
    (same : goes run.context run.next run.stack =
      (means run.context (.code code)).andThen (unwinds run.context rest.stack))
    (sequential : ∀ sight node, code.resultAt sight = .ok node → node.Sequential)
    (frames : ∀ frame ∈ rest.stack, frame.Sequential) :
    m.Advances f run (m.build rest code) := by
  have built : (m.build rest code).control = .next (Step.ofBuilt (code.resultAt m.sight)) := by
    show Control.ofBuilt (code.resultAt m.sight) = _
    cases code.resultAt m.sight <;> rfl
  refine working.advances_of_next (.perform m code) calm (.inl built) context ⟨?_, frames⟩ ?_
  · cases result : code.resultAt m.sight with
    | ok node => exact sequential m.sight node result
    | error p => trivial
  · rw [same, does]
    exact means_code_leads code m.sight rest.stack

/-- A step that only changes what is left of the program. -/
theorem advances_of_same {step : Step σ} {rest : RunState σ} (working : m.Working f fiber)
    (calm : m.isInterrupted f = false) (context : rest.context = run.context)
    (sequential : (Left.going step rest.stack).Sequential) (still : m.deeds run = [])
    (leads : (goes run.context run.next run.stack).Leads [] (goes run.context step rest.stack)) :
    m.Advances f run { control := .next step, run := rest, machine := m } :=
  working.advances_of_next (.refl m) calm (.inl rfl) context sequential (still ▸ leads)

/-! ### Frames -/

/-- A frame that hands on an exit at once. -/
theorem advances_of_pass {x y : Exit} {frame : Frame σ}
    (working : m.Working f fiber) (evolves : Evolves none true m result.machine)
    (calm : result.machine.isInterrupted f = false) (next : run.next = .done x)
    (top : run.stack = frame :: stack) (control : result.control = .done y)
    (context : result.run.context = run.context) (below : result.run.stack = stack)
    (still : m.deeds run = []) (frames : ∀ frame ∈ stack, frame.Sequential)
    (pass : resumes run.context frame x = Behaviour.gives y 1) : m.Advances f run result := by
  refine working.advances_of_next evolves calm (.inl control) context ⟨trivial, below ▸ frames⟩ ?_
  rw [still, next, top, below]
  exact unwinds_pass pass

/-- A failed source is tried again, or not. -/
theorem advances_retry {φ : Failure} {source : Node σ} {schedule : Schedule Failure} {number : Nat}
    (working : m.Working f fiber) (next : run.next = .done (.error (.fail φ)))
    (top : run.stack = .retry source schedule number :: stack)
    (sequential : source.Sequential) (frames : ∀ frame ∈ stack, frame.Sequential)
    (calm : (m.resumeRetry f { run with stack } source schedule number φ).machine.isInterrupted f =
      false) :
    m.Advances f run (m.resumeRetry f { run with stack } source schedule number φ) := by
  have still : m.deeds run = [] := by simp [deeds, next, top]
  unfold resumeRetry at calm ⊢
  cases decision : schedule.decide? number φ.known? with
  | error p =>
      simp only [decision] at calm ⊢
      refine working.advances_of_pass (.refl m) calm next top rfl rfl rfl still frames ?_
      simp only [resumes, decision]
  | ok what =>
      cases what with
      | stop =>
          simp only [decision] at calm ⊢
          refine working.advances_of_pass
            (.trace m (.inr rfl)) calm next top rfl rfl rfl still frames ?_
          simp only [resumes, decision]
      | again d =>
          have again : (unwinds run.context (.retry source schedule number :: stack)
              (.error (.fail φ))).Leads [] _ := unwinds_retry_again decision
          simp only [decision] at calm ⊢
          cases zero : d.isZero with
          | true =>
              simp only [evalAfter, zero, if_true] at calm again ⊢
              refine working.advances_of_next (.trace m (.inr rfl)) calm (.inl rfl) rfl
                ⟨sequential, ?_⟩ ?_
              · exact List.forall_mem_cons.2 ⟨sequential, frames⟩
              · rw [still, next, top]
                exact again
          | false =>
              simp only [evalAfter, zero, Bool.false_eq_true, if_false] at calm again ⊢
              refine working.advances_of_next (.trace m (.inr rfl)) calm (.inl rfl) rfl
                ⟨.sleep d, ?_⟩ ?_
              · refine List.forall_mem_cons.2 ⟨?_, List.forall_mem_cons.2 ⟨sequential, frames⟩⟩
                intro v sight node built
                obtain rfl := Except.ok.inj built
                exact sequential
              · rw [still, next, top]
                exact again

/-- A step that hands an exit to a frame. -/
theorem advances_resumeFrame {x : Exit} {frame : Frame σ} (working : m.Working f fiber)
    (next : run.next = .done x) (top : run.stack = frame :: stack)
    (sequential : ∀ frame ∈ run.stack, frame.Sequential)
    (calm : (m.resumeFrame f scope { run with stack } frame x).machine.isInterrupted f = false) :
    m.Advances f run (m.resumeFrame f scope { run with stack } frame x) := by
  rw [top] at sequential
  obtain ⟨own, frames⟩ := List.forall_mem_cons.1 sequential
  cases frame with
  | flatMap continuation =>
      cases x with
      | ok v =>
          refine working.advances_build calm rfl (by simp [deeds, next, top]) ?_ (own v) frames
          rw [next, top]
          rfl
      | error cause =>
          exact working.advances_of_pass (.refl m) calm next top rfl rfl rfl
            (by simp [deeds, next, top]) frames rfl
  | recover handler =>
      by_cases failure : ∃ φ, x = .error (.fail φ)
      · obtain ⟨φ, rfl⟩ := failure
        refine working.advances_build calm rfl (by simp [deeds, next, top]) ?_ (own φ) frames
        rw [next, top]
        rfl
      · -- a handler is passed over by everything but a failure
        have other : ∀ φ, x ≠ .error (.fail φ) := fun φ same => failure ⟨φ, same⟩
        have result : m.resumeFrame f scope { run with stack } (.recover handler) x =
            { control := .done x, run := { run with stack }, machine := m } := by
          unfold resumeFrame
          split <;> simp_all
        rw [result] at calm ⊢
        refine working.advances_of_pass (.refl m) calm next top rfl rfl rfl ?_ frames
          (resumes_recover_of_ne other)
        rcases x with (φ | d | _) | v
        · exact absurd rfl (other φ)
        · simp [deeds, next, top]
        · simp [deeds, next, top]
        · simp [deeds, next, top]
  | ensuring finalizer =>
      refine working.advances_of_same calm rfl ⟨own, ?_⟩ (by simp [deeds, next, top]) ?_
      · exact List.forall_mem_cons.2 ⟨trivial, frames⟩
      · rw [next, top]
        exact unwinds_ensuring finalizer
  | finalizing earlier =>
      -- a finalizer that fails is noted in the record, which no part of the meaning looks at
      have evolves : Evolves none true m
          (m.resumeFinalizing f { run with stack } earlier x).machine := by
        unfold resumeFinalizing
        cases x with
        | ok v => exact .refl m
        | error cause => exact .trace m (.inr rfl)
      exact working.advances_of_pass evolves calm next top rfl rfl rfl
        (by simp [deeds, next, top]) frames rfl
  | regionEnd =>
      exact working.advances_of_pass (.refl m) calm next top rfl rfl rfl
        (by simp [deeds, next, top]) frames rfl
  | spanEnd =>
      exact working.advances_of_pass (.refl m) calm next top rfl rfl rfl
        (by simp [deeds, next, top]) frames rfl
  | retry source schedule number =>
      by_cases failure : ∃ φ, x = .error (.fail φ)
      · obtain ⟨φ, rfl⟩ := failure
        exact working.advances_retry next top own frames calm
      · have other : ∀ φ, x ≠ .error (.fail φ) := fun φ same => failure ⟨φ, same⟩
        have result : m.resumeFrame f scope { run with stack } (.retry source schedule number) x =
            { control := .done x, run := { run with stack }, machine := m } := by
          unfold resumeFrame
          split <;> simp_all
        rw [result] at calm ⊢
        refine working.advances_of_pass (.refl m) calm next top rfl rfl rfl
          (by simp [deeds, next, top]) frames (resumes_retry_of_ne other)
  | repeated source schedule number =>
      cases x with
      | ok v =>
          refine working.advances_build calm rfl (by simp [deeds, next, top]) ?_ ?_ frames
          · rw [next, top]
            rfl
          · exact fun sight node built => own.repeatAfter built
      | error cause =>
          exact working.advances_of_pass (.refl m) calm next top rfl rfl rfl
            (by simp [deeds, next, top]) frames rfl
  | restore context => exact absurd own id
  | layers build => exact absurd own id

/-! ### Trees -/

/-- A step that enters a tree. -/
theorem advances_of_enter {node source : Node σ} {frame : Frame σ} {rest : RunState σ}
    (working : m.Working f fiber) (calm : m.isInterrupted f = false) (next : run.next = .eval node)
    (context : rest.context = run.context) (top : rest.stack = frame :: run.stack)
    (still : m.deeds run = []) (sequential : source.Sequential) (own : frame.Sequential)
    (frames : ∀ frame ∈ run.stack, frame.Sequential)
    (enters : means run.context (.node node) = Behaviour.later
      ((means run.context (.node source)).andThen (resumes run.context frame))) :
    m.Advances f run { control := .eval source, run := rest, machine := m } := by
  refine working.advances_of_same calm context ⟨sequential, ?_⟩ still ?_
  · rw [top]
    exact List.forall_mem_cons.2 ⟨own, frames⟩
  · rw [next, top]
    exact goes_enter enters

/-- A step at a leaf with nothing to do. -/
theorem advances_of_leaf {node : Node σ} {x : Exit} (working : m.Working f fiber)
    (evolves : Evolves none true m result.machine) (calm : result.machine.isInterrupted f = false)
    (on : result.control = .next (.done x) ∨ result.control = .yield (.done x))
    (next : run.next = .eval node) (same : result.run = run) (still : m.deeds run = [])
    (frames : ∀ frame ∈ run.stack, frame.Sequential)
    (leaf : means run.context (.node node) = Behaviour.gives x 1) : m.Advances f run result := by
  refine working.advances_of_next evolves calm on (congrArg RunState.context same)
    ⟨trivial, same ▸ frames⟩ ?_
  rw [still, next, same]
  exact goes_leaf leaf

/-- A step that waits for the end of a fiber. -/
theorem advances_watch {target : FiberId} {how : Watch} (working : m.Working f fiber)
    (next : run.next = .eval (.watch target how)) (frames : ∀ frame ∈ run.stack, frame.Sequential)
    (calm : (m.evalWatch f run target how).machine.isInterrupted f = false) :
    m.Advances f run (m.evalWatch f run target how) := by
  have untimed : (m.openWait f .fiber).2.Untimed m.waits.nextId :=
    Evolves.untimed_openWait (by simp)
  have evolves : Evolves none true (m.openWait f .fiber).2
    (m.evalWatch f run target how).machine := by
    unfold evalWatch
    simp only
    split
    · have broken : Evolves none true (m.openWait f .fiber).2
          ((m.openWait f .fiber).2.interrupt target) := .interrupt _ target
      exact broken.trans (.watch (untimed.mono broken.keepsWaits) target how)
    · exact .watch untimed target how
  obtain ⟨⟨after, row, childless⟩, alone⟩ := working.asked .fiber evolves calm
  have still : m.deeds run = [] := by simp [deeds, next]
  have leads : (goes run.context (.eval (.watch target how)) run.stack).Leads [] _ :=
    goes_watch target how run.stack
  refine ⟨rfl, alone, ⟨after, row, childless, ?_⟩, ?_, fun g waits => ?_⟩
  · rw [still, next]
    cases after.input with
    | none => exact ⟨frames, leads⟩
    | some x => exact ⟨⟨trivial, frames⟩, leads.answered (by simp)⟩
  · rintro pending waits timed
    obtain rfl := Control.suspend.inj waits
    cases timed
  · cases Control.suspend.inj waits

/-- A step that waits for a timer, or only gives way. -/
theorem advances_sleep {d : Duration} (working : m.Working f fiber)
    (next : run.next = .eval (.sleep d)) (frames : ∀ frame ∈ run.stack, frame.Sequential)
    (calm : (m.evalSleep f run d).machine.isInterrupted f = false) :
    m.Advances f run (m.evalSleep f run d) := by
  have still : m.deeds run = [] := by simp [deeds, next]
  unfold evalSleep at calm ⊢
  cases zero : d.isZero with
  | true =>
      simp only [zero, if_true] at calm ⊢
      exact working.advances_of_leaf (.refl m) calm (.inr rfl) next rfl still frames
        (means_sleepNot zero)
  | false =>
      simp only [zero, Bool.false_eq_true, if_false] at calm ⊢
      have leads : (goes run.context (.eval (.sleep d)) run.stack).Leads [] _ :=
        goes_sleep zero run.stack
      refine ⟨rfl, working.alone, ⟨fiber, working.row, working.childless, ?_⟩, ?_, by simp⟩
      · rw [still, next, working.silent]
        exact ⟨frames, leads⟩
      · rintro pending waits -
        obtain rfl := Control.suspend.inj waits
        exact ⟨_, _, rfl, Table.get?_push_self _ _, rfl⟩

section

variable {register : WaitId → Action σ (Option (Cleanup σ))}

/-- What has become of a fiber that has just asked: it has no answer if none was requested. -/
theorem asked_answers (working : m.Working f fiber)
    (calm : ((m.openWait f .callback).2.perform (register m.waits.nextId)).2.isInterrupted
    f = false) :
    let machine := ((m.openWait f .callback).2.perform (register m.waits.nextId)).2
    ¬ machine.LeadsGroup f ∧ ∃ after, machine.fiber? f = some after ∧ after.children = [] ∧
      match after.input with
      | none => machine.isOpen m.waits.nextId = true ∧
        ∀ x, .resume m.waits.nextId x ∉ (register m.waits.nextId).requestsAt m.sight
      | some x => machine.isOpen m.waits.nextId = false ∧
        .resume m.waits.nextId x ∈ (register m.waits.nextId).requestsAt m.sight := by
  intro machine
  have opened := working.coherent.openWait .callback
  have coherent := opened.perform (register m.waits.nextId)
  obtain ⟨⟨after, row, childless⟩, alone⟩ := working.asked .callback (.perform _ _) calm
  obtain ⟨after', row', answers⟩ := answered_while_asking
    (m := { (m.openWait f .callback).2 with world := ((register m.waits.nextId) (statusOf m.fibers)
      m.world).world }) opened rfl rfl working.alone working.row working.silent
    ⟨_, Table.get?_push_self _ _, rfl⟩ _ calm
  obtain rfl : after = after' := Option.some.inj (row.symm.trans row')
  refine ⟨alone, after, row, childless, ?_⟩
  have free : machine.isOpen m.waits.nextId = true ↔ after.input = none :=
    (isOpen_iff_silent coherent rfl rfl).trans (by rw [input_of_row row])
  cases known : after.input with
  | none =>
      rw [known] at answers
      exact ⟨free.2 known, answers⟩
  | some x =>
      rw [known] at answers free
      exact ⟨by simpa using free, answers⟩

/-- A step that asks. -/
theorem advances_async (working : m.Working f fiber) (next : run.next = .eval (.async register))
    (frames : ∀ frame ∈ run.stack, frame.Sequential)
    (calm : (m.evalAsync f run register).machine.isInterrupted f = false) :
    m.Advances f run (m.evalAsync f run register) := by
  have does : m.deeds run = [.asked register m.waits.nextId m.sight] := by simp [deeds, next]
  have answers : ((m.openWait f .callback).2.perform (register m.waits.nextId)).2.isInterrupted f =
      false → _ := working.asked_answers
  have result : ((m.openWait f .callback).2.perform (register m.waits.nextId)).1 =
      (register m.waits.nextId).resultAt m.sight := rfl
  unfold evalAsync at calm ⊢
  simp only [openWait] at calm answers result ⊢
  generalize Machine.perform _ (register m.waits.nextId) = performed at calm answers result ⊢
  obtain ⟨reply, machine⟩ := performed
  obtain rfl := result
  simp only at answers
  cases reply : (register m.waits.nextId).resultAt m.sight with
  | ok cleanup =>
      simp only [reply] at calm ⊢
      obtain ⟨alone, after, row, childless, h⟩ := answers calm
      refine ⟨rfl, alone, ⟨after, row, childless, ?_⟩, ?_, by simp⟩
      · rw [does, next]
        cases known : after.input with
        | none =>
            cases cleanup with
            | none => exact ⟨frames, goes_async run.stack reply⟩
            | some cleanup => exact ⟨frames, goes_async run.stack reply⟩
        | some x =>
            rw [known] at h
            exact ⟨⟨trivial, frames⟩, goes_async_answered run.stack fun _ _ => h.2⟩
      · rintro pending waits timed
        obtain rfl := Control.suspend.inj waits
        cases cleanup <;> cases timed
  | error p =>
      simp only [reply] at calm ⊢
      rw [isInterrupted, fiber?_claim] at calm
      obtain ⟨alone, after, row, childless, h⟩ := answers calm
      have alone' : ¬ (machine.claim m.waits.nextId).2.LeadsGroup f := by
        unfold LeadsGroup
        rw [(machine.spares_claim m.waits.nextId).groups]
        exact alone
      have row' := (machine.fiber?_claim m.waits.nextId f).trans row
      have won := machine.claim_fst m.waits.nextId
      have breaks_off : ∀ {b : Bool} {pending : Pending σ}, (if b then Control.die (.ofPanic p)
          else .suspend (.wait m.waits.nextId .none)) = .suspend pending →
            pending = .wait m.waits.nextId .none := by
        intro b pending waits
        cases b with
        | true => cases waits
        | false => exact (Control.suspend.inj waits).symm
      refine ⟨rfl, alone', ⟨after, row', childless, ?_⟩, ?_, ?_⟩
      · rw [does, next]
        cases known : after.input with
        | none =>
            rw [known] at h
            simp only [won, h.1, if_true]
            exact ⟨⟨trivial, frames⟩, goes_async_panics run.stack reply h.2⟩
        | some x =>
            rw [known] at h
            exact ⟨⟨trivial, frames⟩, goes_async_answered run.stack fun _ _ => h.2⟩
      · intro pending waits timed
        obtain rfl := breaks_off waits
        cases timed
      · intro g waits
        cases breaks_off waits

end

theorem evalNode_sync (m : Machine σ) (f : FiberId) (scope : ScopeId) (run : RunState σ)
    (thunk : Action σ Exit) : m.evalNode f scope run (.sync thunk) =
      { control := .done (match thunk.resultAt m.sight with
          | .ok x => x
          | .error p => Exit.died (.ofPanic p))
        run
        machine := (m.perform thunk).2 } := by
  have result : (m.perform thunk).1 = thunk.resultAt m.sight := rfl
  simp only [evalNode]
  generalize m.perform thunk = performed at result ⊢
  obtain ⟨reply, machine⟩ := performed
  obtain rfl := result
  cases thunk.resultAt m.sight <;> rfl

theorem evalNode_once (m : Machine σ) (f : FiberId) (scope : ScopeId) (run : RunState σ)
    (ticket : Ticket) (x : Exit) : m.evalNode f scope run (.once ticket x) =
      { control := .done (if ticket ∈ m.sight.world.unused then x
          else Exit.died (.internal "one-shot node evaluated twice"))
        run
        machine := (m.perform (Action.useTicket ticket)).2 } := by
  have result : (m.perform (Action.useTicket ticket)).1 =
      .ok (decide (ticket ∈ m.sight.world.unused)) := rfl
  simp only [evalNode]
  generalize m.perform (Action.useTicket ticket) = performed at result ⊢
  obtain ⟨reply, machine⟩ := performed
  obtain rfl := result
  by_cases good : ticket ∈ m.sight.world.unused
  · simp only [good, decide_true, if_true]
  · simp only [good, decide_false, if_false]
    rfl

/-- A step that evaluates a tree. -/
theorem advances_evalNode {node : Node σ} (working : m.Working f fiber)
    (next : run.next = .eval node) (sequential : node.Sequential)
    (frames : ∀ frame ∈ run.stack, frame.Sequential)
    (calm : (m.evalNode f scope run node).machine.isInterrupted f = false) :
    m.Advances f run (m.evalNode f scope run node) := by
  cases sequential with
  | succeed v =>
      exact working.advances_of_leaf (.refl m) calm (.inl rfl) next rfl
        (by simp [deeds, next]) frames
        (means_succeed v)
  | fail cause =>
      exact working.advances_of_leaf (.refl m) calm (.inl rfl) next rfl
        (by simp [deeds, next]) frames
        (means_fail cause)
  | log level message =>
      exact working.advances_of_leaf (.write m (.inr rfl)) calm (.inl rfl) next rfl
        (by simp [deeds, next])
        frames (means_log level message)
  | yield =>
      exact working.advances_of_leaf (.refl m) calm (.inr rfl) next rfl
        (by simp [deeds, next]) frames
        means_yield
  | sync thunk =>
      rw [evalNode_sync m f scope run thunk] at calm ⊢
      refine working.advances_of_next (.perform m thunk) calm (.inl rfl) rfl ⟨trivial, frames⟩ ?_
      rw [next, show m.deeds run = [.ran thunk m.sight] by simp [deeds, next]]
      exact goes_sync thunk m.sight run.stack
  | once ticket x =>
      rw [evalNode_once m f scope run ticket x] at calm ⊢
      refine working.advances_of_next (.perform m _) calm (.inl rfl) rfl ⟨trivial, frames⟩ ?_
      rw [next, show m.deeds run = [.used ticket m.sight] by simp [deeds, next]]
      exact goes_once ticket x m.sight run.stack
  | async register => exact working.advances_async next frames calm
  | watch target how => exact working.advances_watch next frames calm
  | sleep d => exact working.advances_sleep next frames calm
  | access reads =>
      refine working.advances_build calm rfl (by simp [deeds, next]) ?_ (reads run.context) frames
      rw [next]
      exact goes_access _ run.stack
  | flatMap source continues =>
      exact working.advances_of_enter calm next rfl rfl (by simp [deeds, next]) source continues
        frames (means_flatMap _)
  | recover source handles =>
      exact working.advances_of_enter calm next rfl rfl
        (by simp [deeds, next]) source handles frames
        (means_recover _)
  | ensuring source finalizer =>
      exact working.advances_of_enter calm next rfl rfl (by simp [deeds, next]) source finalizer
        frames means_ensuring
  | uninterruptible source =>
      exact working.advances_of_enter calm next rfl rfl
        (by simp [deeds, next]) source trivial frames
        means_uninterruptible
  | span source =>
      exact working.advances_of_enter calm next rfl rfl
        (by simp [deeds, next]) source trivial frames
        (means_span _)
  | retry source =>
      exact working.advances_of_enter calm next rfl rfl (by simp [deeds, next]) source source frames
        (means_retry _)
  | repeated source =>
      exact working.advances_of_enter calm next rfl rfl (by simp [deeds, next]) source source frames
        (means_repeated _ _)

/-- Every step of a sequential program agrees with its meaning, or the program is over. -/
theorem advances (working : m.Working f fiber)
    (sequential : (Left.going run.next run.stack).Sequential)
    (calm : (m.stepRun f scope run).machine.isInterrupted f = false) :
    m.Advances f run (m.stepRun f scope run) := by
  obtain ⟨now, frames⟩ := sequential
  cases next : run.next with
  | eval node =>
      rw [next] at now
      rw [stepRun_eval next, eval] at calm ⊢
      have unmarked : m.isInterrupted f = false := by
        split at calm
        · exact calm
        · have evaluates : Evolves (some f) true m (m.evalNode f scope run node).machine :=
            .evalNode (Option.isSome_iff_exists.2 ⟨fiber, working.row⟩) scope run node (.inl rfl)
          exact unmarked_before evaluates calm
      have go : (node.isSuspensionPoint && m.interruptPending f run) = false := by
        simp [interruptPending, unmarked]
      rw [if_neg (by simp [go])] at calm ⊢
      exact working.advances_evalNode next now frames calm
  | done x =>
      cases top : run.stack with
      | nil =>
          rw [stepRun_over next top]
          refine ⟨rfl, working.alone, ⟨fiber, working.row, working.childless, ?_⟩, by simp, by simp⟩
          rw [working.silent, show m.deeds run = [] by simp [deeds, next, top], next, top]
          exact ⟨trivial, goes_done_nil x⟩
      | cons frame stack =>
          rw [stepRun_done next top] at calm ⊢
          exact working.advances_resumeFrame next top frames calm

end Working

end Machine

end EffectFibers
