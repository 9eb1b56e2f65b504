import EffectFibers.Proofs.Results.Course

/-!
# Plain programs

A plain program is put together from values, failures, pure code, waits and yields, by going on,
recovering and trying again.  Its functions are pure: the trees that they build do not depend on
what they see of the world, but for the tickets of trees that are good for one evaluation.  So the
small steps of a plain program are the same in every run, and an exit that it has had once is the
one that it always leads to.

## Main definitions

* `Effect.Plain` – plain programs.
* `Effect.EndsAlone` – the exit of a program that is run by itself.

## Main statements

* `Effect.Plain.endsIn` – a plain program that has ended by itself always leads to the same exit.
-/

namespace EffectFibers

variable {σ : Type}

/-! ## Trees -/

mutual

/-- A tree that depends on nothing that user code sees. -/
inductive Node.Plain : Node σ → Prop
  | succeed (v : Value) : Node.Plain (.succeed v)
  | fail (cause : Cause Failure) : Node.Plain (.fail cause)
  | sync (x : Exit) : Node.Plain (.sync (pure x : Action σ Exit))
  | once (ticket : Ticket) (x : Exit) : Node.Plain (.once ticket x)
  | sleep (d : Duration) : Node.Plain (.sleep d)
  | yield : Node.Plain .yield
  | flatMap {source : Node σ} {next : Value → Action σ (Node σ)} (first : Node.Plain source)
    (after : ∀ v, Action.Plain (next v)) : Node.Plain (.flatMap source next)
  | recover {source : Node σ} {handler : Failure → Action σ (Node σ)} (first : Node.Plain source)
    (after : ∀ φ, Action.Plain (handler φ)) : Node.Plain (.recover source handler)
  | retry {source : Node σ} (source_plain : Node.Plain source) (schedule : Schedule Failure) :
    Node.Plain (.retry source schedule)

/-- User code that builds one tree, or one that has a given exit. -/
inductive Action.Plain : Action σ (Node σ) → Prop
  | built {node : Node σ} (plain : Node.Plain node) : Action.Plain (pure node)
  | given (x : Exit) : Action.Plain (Node.given x)

end

mutual

theorem Node.Plain.sequential : ∀ {node : Node σ}, node.Plain → node.Sequential
  | _, .succeed v => .succeed v
  | _, .fail cause => .fail cause
  | _, .sync x => .sync _
  | _, .once ticket x => .once ticket x
  | _, .sleep d => .sleep d
  | _, .yield => .yield
  | _, .flatMap first after => .flatMap first.sequential fun v _ _ built => (after v).sequential built
  | _, .recover first after =>
    .recover first.sequential fun φ _ _ built => (after φ).sequential built
  | _, .retry source _ => .retry source.sequential

theorem Action.Plain.sequential : ∀ {code : Action σ (Node σ)}, Action.Plain code →
    ∀ {sight : Sight σ} {node : Node σ}, code.resultAt sight = .ok node → node.Sequential
  | _, .built plain, _, _, built => Except.ok.inj built ▸ plain.sequential
  | _, .given _, _, _, built => Except.ok.inj built ▸ .once _ _

end

/-! ## What is left of a plain program -/

inductive Step.Plain : Step σ → Prop
  | eval {node : Node σ} (plain : node.Plain) : Step.Plain (.eval node)
  | done (x : Exit) : Step.Plain (.done x)

/-- A frame of a plain program. -/
inductive Frame.Plain : Frame σ → Prop
  | flatMap {next : Value → Action σ (Node σ)} (after : ∀ v, Action.Plain (next v)) :
    Frame.Plain (.flatMap next)
  | recover {handler : Failure → Action σ (Node σ)} (after : ∀ φ, Action.Plain (handler φ)) :
    Frame.Plain (.recover handler)
  | retry {source : Node σ} (plain : source.Plain) (schedule : Schedule Failure) (number : Nat) :
    Frame.Plain (.retry source schedule number)

namespace Left

variable {l l' : Left σ} {stack : List (Frame σ)} {sight : Sight σ} {x : Exit} {n : Nat}

/-- What is left of a plain program waits for nothing but timers. -/
inductive Plain : Left σ → Prop
  | going {step : Step σ} {stack : List (Frame σ)} (now : step.Plain)
    (frames : ∀ frame ∈ stack, frame.Plain) : Plain (going step stack)
  | waiting {stack : List (Frame σ)} (frames : ∀ frame ∈ stack, frame.Plain) :
    Plain (waiting true stack)
  | gone (x : Exit) : Plain (gone x)

/-- Whatever user code sees, the same is left after a step, but for a ticket. -/
inductive Settled (l : Left σ) : Prop
  | same (l' : Left σ) (plain : l'.Plain) (next : ∀ sight, l.next? sight = some l')
  | given (x : Exit) (stack : List (Frame σ)) (plain : ∀ frame ∈ stack, frame.Plain)
      (next : ∀ sight, ∃ ticket, l.next? sight = some (going (.eval (.once ticket x)) stack))

theorem settled_of_going {step : Step σ} (plain : step.Plain)
    (frames : ∀ frame ∈ stack, frame.Plain)
    (next : ∀ sight, l.next? sight = some (going step stack)) : l.Settled :=
  .same _ (.going plain frames) next

theorem settled_of_done (x : Exit) (frames : ∀ frame ∈ stack, frame.Plain)
    (next : ∀ sight, l.next? sight = some (going (.done x) stack)) : l.Settled :=
  settled_of_going (.done x) frames next

/-- Plain code leads to the same tree, but for a ticket. -/
theorem settled_of_code {code : Action σ (Node σ)} (plain : Action.Plain code)
    (frames : ∀ frame ∈ stack, frame.Plain)
    (next : ∀ sight, l.next? sight = some (going (.ofBuilt (code.resultAt sight)) stack)) :
    l.Settled := by
  cases plain with
  | built node => exact settled_of_going (.eval node) frames next
  | given x => exact .given x stack frames fun sight => ⟨_, next sight⟩

theorem settled_of_eval {node : Node σ} (plain : node.Plain)
    (frames : ∀ frame ∈ stack, frame.Plain) : (going (.eval node) stack).Settled := by
  cases plain with
  | succeed v => exact settled_of_done _ frames fun _ => rfl
  | fail cause => exact settled_of_done _ frames fun _ => rfl
  | sync x => exact settled_of_done x frames fun _ => rfl
  | once ticket x => exact settled_of_done x frames fun _ => rfl
  | yield => exact settled_of_done _ frames fun _ => rfl
  | sleep d =>
      cases zero : d.isZero with
      | true =>
          exact settled_of_done (.ok .null) frames fun _ => by simp [next?, Node.next?, zero]
      | false =>
          exact .same _ (.waiting frames) fun _ => by
            simp [next?, Node.next?, zero]
  | flatMap first after =>
      exact settled_of_going (.eval first) (List.forall_mem_cons.2 ⟨.flatMap after, frames⟩) fun _ => rfl
  | recover first after =>
      exact settled_of_going (.eval first) (List.forall_mem_cons.2 ⟨.recover after, frames⟩) fun _ => rfl
  | retry source schedule =>
      exact settled_of_going (.eval source)
        (List.forall_mem_cons.2 ⟨.retry source schedule 0, frames⟩) fun _ => rfl

/-- A source that has failed is tried again, or it is not. -/
theorem settled_of_retry {source : Node σ} (plain : source.Plain) (schedule : Schedule Failure)
    (number : Nat) (φ : Failure) (frames : ∀ frame ∈ stack, frame.Plain) :
    (going (.done (.error (.fail φ))) (.retry source schedule number :: stack)).Settled := by
  have next : ∀ sight, (going (.done (.error (.fail φ)))
      (.retry source schedule number :: stack)).next? sight =
        (Frame.retry source schedule number).next? stack sight (.error (.fail φ)) := fun _ => rfl
  simp only [Frame.next?] at next
  cases decision : schedule.decide? number φ.known? with
  | error p =>
      rw [decision] at next
      exact settled_of_done _ frames next
  | ok what =>
      rw [decision] at next
      cases what with
      | stop => exact settled_of_done _ frames next
      | again d =>
          have again : ∀ frame ∈
              Frame.retry source schedule (Schedule.nextAttempt number) :: stack, frame.Plain :=
            List.forall_mem_cons.2 ⟨.retry plain _ _, frames⟩
          cases zero : d.isZero with
          | true =>
              simp only [zero, if_true] at next
              exact settled_of_going (.eval plain) again next
          | false =>
              simp only [zero, Bool.false_eq_true, if_false] at next
              exact settled_of_going (.eval (.sleep d))
                (List.forall_mem_cons.2 ⟨.flatMap fun _ => .built plain, again⟩) next

theorem settled_of_frame {frame : Frame σ} (plain : frame.Plain) (x : Exit)
    (frames : ∀ frame ∈ stack, frame.Plain) : (going (.done x) (frame :: stack)).Settled := by
  cases plain with
  | flatMap after =>
      cases x with
      | ok v => exact settled_of_code (after v) frames fun _ => rfl
      | error cause => exact settled_of_done _ frames fun _ => rfl
  | recover after =>
      rcases x with (φ | _ | _) | v
      · exact settled_of_code (after φ) frames fun _ => rfl
      all_goals exact settled_of_done _ frames fun _ => rfl
  | retry source schedule number =>
      rcases x with (φ | _ | _) | v
      · exact settled_of_retry source schedule number φ frames
      all_goals exact settled_of_done _ frames fun _ => rfl

/-- A plain program that is not over always takes the same step. -/
theorem Plain.settled (plain : l.Plain) : (∃ x, l = .gone x) ∨ l.Settled := by
  cases plain with
  | @going step stack now frames =>
      right
      cases now with
      | eval node => exact settled_of_eval node frames
      | done x =>
          cases stack with
          | nil => exact .same _ (.gone x) fun _ => rfl
          | cons frame stack =>
              obtain ⟨top, frames⟩ := List.forall_mem_cons.1 frames
              exact settled_of_frame top x frames
  | waiting frames => exact .inr (settled_of_done (.ok .null) frames fun _ => rfl)
  | gone x => exact .inl ⟨x, rfl⟩

/-- What a tree leads to that has a given exit does not depend on its ticket. -/
theorem endsIn_once {ticket : Ticket} {y : Exit}
    (ends : (going (.eval (.once ticket y)) stack).EndsIn x n) (ticket' : Ticket) :
    (going (.eval (.once ticket' y)) stack).EndsIn x n := by
  cases n with
  | zero => cases ends
  | succ n => exact ends

/-- A step that has led to an exit once always does. -/
theorem Settled.endsIn (settled : l.Settled) (next : l.next? sight = some l')
    (ends : l'.EndsIn x n) : l.EndsIn x (n + 1) := by
  intro sight'
  cases settled with
  | same l'' _ always =>
      obtain rfl := Option.some.inj ((always sight).symm.trans next)
      exact ⟨_, always sight', ends⟩
  | given y stack _ always =>
      obtain ⟨ticket, first⟩ := always sight
      obtain rfl := Option.some.inj (first.symm.trans next)
      obtain ⟨ticket', second⟩ := always sight'
      exact ⟨_, second, endsIn_once ends ticket'⟩

/-- The step of a plain program leaves a plain program. -/
theorem Settled.plain (settled : l.Settled) (next : l.next? sight = some l') : l'.Plain := by
  cases settled with
  | same l'' plain always =>
      obtain rfl := Option.some.inj ((always sight).symm.trans next)
      exact plain
  | given y stack frames always =>
      obtain ⟨ticket, first⟩ := always sight
      obtain rfl := Option.some.inj (first.symm.trans next)
      exact .going (.eval (.once ticket y)) frames

theorem Settled.next (settled : l.Settled) (sight : Sight σ) : ∃ l', l.next? sight = some l' := by
  cases settled with
  | same l' _ always => exact ⟨l', always sight⟩
  | given _ _ _ always => exact ⟨_, (always sight).choose_spec⟩

end Left

/-! ## From one run to all of them -/

namespace Moment

variable {μ : Moment σ} {f : FiberId} {x : Exit} {holdings : Holdings}

/-- A plain program that has led to an exit in one run always does. -/
theorem Reachable.endsIn_of_endedWith (reachable : Reachable μ) (thrifty : μ.Thrifty holdings)
    {p : Position σ} {l : Left σ} (position : μ.position? f = some p) (left_eq : p.left? = some l)
    (plain : l.Plain) (times : μ.machine.Times p) {events : List (Event σ)}
    (reusable : ∀ event ∈ events, event.Reusable)
    (calm : (μ.run events).machine.isInterrupted f = false)
    (ended : (μ.run events).EndedWith f x) : ∃ n, l.EndsIn x n := by
  -- the induction goes from the end of the run back to its beginning
  induction events generalizing μ holdings p l with
  | nil =>
      obtain rfl := Option.some.inj (position.symm.trans (ended.position?_eq reachable.isCoherent))
      cases left_eq
  | cons event events ih =>
      have coherent := reachable.isCoherent
      have reachable' := reachable.apply event
      have calm' := reachable'.calm_before calm
      obtain ⟨later, thrifty'⟩ := reachable.thrifty_apply thrifty (reusable event List.mem_cons_self)
      have onward := fun {p l} position left_eq plain times =>
        ih reachable' thrifty' (p := p) (l := l) position left_eq plain times
          (fun event' listed => reusable event' (List.mem_cons_of_mem _ listed)) calm ended
      cases stride : μ.strideAt f event with
      | some s =>
          obtain ⟨-, ready, -⟩ := reachable.stride stride
          obtain rfl := Option.some.inj (ready.symm.trans position)
          obtain rfl := Option.some.inj left_eq
          obtain ⟨_, ended'⟩ | settled := plain.settled
          · cases ended'
          obtain ⟨l, next⟩ := settled.next s.machine.sight
          obtain ⟨p, position', left_eq', times'⟩ :=
            reachable.left_of_stride thrifty stride calm' next
          obtain ⟨n, ends⟩ := onward position' left_eq' (settled.plain next) times'
          exact ⟨n + 1, settled.endsIn next ends⟩
      | none =>
          obtain ⟨p', position', moves⟩ := reachable.moves position stride
          obtain ⟨run, rest⟩ : ∃ run, p.run? = some run := by
            cases p with
            | gone => cases left_eq
            | _ => exact ⟨_, rfl⟩
          rcases moves.left_cases (evolves coherent reachable.tidy event) calm' rest left_eq times with
            ⟨y, rfl, rfl⟩ | ⟨run', -, -, times', ⟨same, -⟩ | ⟨timer, stack, y, rfl, goes, rightful, -⟩⟩
          · obtain ⟨rfl, slice, taken, rfl⟩ := ending_of_gone position position'
            obtain rfl := Option.some.inj left_eq
            have heads : (μ.apply .work).Heads slice.fiber y 0 :=
              .concluded (reachable.concluded taken)
            obtain ⟨k, heads, -⟩ := reachable'.heads_run thrifty' heads
              (fun event' listed => reusable event' (List.mem_cons_of_mem _ listed)) calm
            obtain rfl := heads.exit_eq (reachable'.run events).isCoherent ended
            exact ⟨0, rfl⟩
          · exact onward position' same plain times'
          · cases plain with
            | waiting frames =>
                obtain rfl := rightful rfl
                obtain ⟨n, ends⟩ := onward position' goes (.going (.done _) frames) times'
                exact ⟨n + 1, fun _ => ⟨_, rfl, ends⟩⟩

end Moment

/-! ## Programs -/

namespace Effect

/-- A plain program: its functions are pure, and it starts no fibers and asks nobody. -/
inductive Plain : Effect σ → Prop
  | succeed (v : Value) : Plain (.succeed v)
  | fail (φ : Failure) : Plain (.fail φ)
  | sync (v : Value) : Plain (.sync (pure v))
  | trySync (r : Except Failure Value) : Plain (.trySync (pure r))
  | sleep (d : Duration) : Plain (.sleep d)
  | yieldNow : Plain .yieldNow
  | map {e : Effect σ} (first : Plain e) (g : Value → Value) : Plain (e.map fun v => pure (g v))
  | flatMap {e : Effect σ} {k : Value → Effect σ} (first : Plain e) (after : ∀ v, Plain (k v)) :
    Plain (e.flatMap fun v => pure (k v))
  | zipRight {e next : Effect σ} (first : Plain e) (second : Plain next) : Plain (e.zipRight next)
  | catchAll {e : Effect σ} {handler : Failure → Effect σ} (first : Plain e)
    (after : ∀ φ, Plain (handler φ)) : Plain (e.catchAll fun φ => pure (handler φ))
  | catchTags {e : Effect σ} {handlers : List (String × (Failure → Effect σ))} (first : Plain e)
    (after : ∀ entry ∈ handlers, ∀ φ, Plain (entry.2 φ)) :
    Plain (e.catchTags (handlers.map fun entry => (entry.1, fun φ => pure (entry.2 φ))))
  | retry {e : Effect σ} (inner : Plain e) (schedule : Schedule Failure) : Plain (e.retry schedule)

variable {e : Effect σ} {x : Exit}

theorem plain_expecting {k : Value → Action σ (Node σ)} (plain : ∀ v, Action.Plain (k v))
    (v : Value) : Action.Plain (expecting k v) := by
  cases v with
  | alien => exact .built (.fail _)
  | _ => exact plain _

theorem plain_expectingFailure {k : Failure → Action σ (Node σ)}
    (plain : ∀ φ, Action.Plain (k φ)) (φ : Failure) : Action.Plain (expectingFailure k φ) := by
  cases φ with
  | alien => exact .built (.fail _)
  | _ => exact plain _

/-- The tree of a plain program is plain. -/
theorem Plain.node (plain : e.Plain) : e.node.Plain := by
  induction plain with
  | succeed v => exact .succeed v
  | fail φ => exact .fail _
  | sync v => exact .sync (.ok v)
  | trySync r =>
      cases r with
      | ok v => exact .sync (.ok v)
      | error φ => exact .sync (.error (.fail φ))
  | sleep d => exact .sleep d
  | yieldNow => exact .yield
  | map _ g first => exact .flatMap first (plain_expecting fun v => .given (.ok (g v)))
  | flatMap _ _ first after => exact .flatMap first (plain_expecting fun v => .built (after v))
  | zipRight _ _ first second => exact .flatMap first fun _ => .built second
  | catchAll _ _ first after =>
      exact .recover first (plain_expectingFailure fun φ => .built (after φ))
  | catchTags _ _ first after =>
      refine .recover first (plain_expectingFailure fun φ => ?_)
      split
      · rename_i handler found
        obtain ⟨entry, listed, same⟩ := List.mem_map.1 (List.mem_of_find?_eq_some found)
        obtain ⟨-, rfl⟩ := Prod.mk.inj same
        exact .built (after entry listed φ)
      · exact .given _
  | retry _ schedule inner => exact .retry inner schedule

/-- A plain program is composed of constructors and combinators. -/
theorem Plain.composed (plain : e.Plain) : e.Composed := by
  induction plain with
  | succeed v => exact .succeed v
  | fail φ => exact .fail φ
  | sync v => exact .sync (.pure v)
  | trySync r => exact .trySync (.pure r)
  | sleep d => exact .sleep d
  | yieldNow => exact .yieldNow
  | map _ g first => exact .map first fun v => .pure (g v)
  | flatMap _ _ first after =>
      exact .flatMap first (fun _ => .pure _) fun v _ _ _ ends => Except.ok.inj ends ▸ after v
  | zipRight _ _ first second => exact .zipRight first second
  | catchAll _ _ first after =>
      exact .catchAll first (fun _ => .pure _) fun φ _ _ _ ends => Except.ok.inj ends ▸ after φ
  | catchTags _ _ first after =>
      refine .catchTags first (fun entry listed φ => ?_) fun entry listed φ _ _ e' ends => ?_
      · obtain ⟨entry, -, rfl⟩ := List.mem_map.1 listed
        exact .pure _
      · obtain ⟨entry, inside, rfl⟩ := List.mem_map.1 listed
        exact Except.ok.inj ends ▸ after entry inside φ
  | retry _ schedule inner => exact .retry inner schedule

/-- A program that is run by itself, and not interrupted, ends with an exit. -/
def EndsAlone (e : Effect σ) (x : Exit) : Prop :=
  ∃ (world : World σ) (budget : Nat) (events : List (Event σ)), (∀ node, .start node ∉ events) ∧
    let μ := (Moment.initial world budget).run (.start e.node :: events)
    μ.EndedWith ⟨1⟩ x ∧ μ.machine.isInterrupted ⟨1⟩ = false

/-- A plain program that has ended by itself always leads to the same exit. -/
theorem Plain.endsIn (plain : e.Plain) (own : e.EndsAlone x) :
    ∃ n, (Left.going (.eval e.node) []).EndsIn x n := by
  obtain ⟨world, budget, events, alone, ended, calm⟩ := own
  let μ := (Moment.initial world budget).apply (.start e.node)
  have reachable : Moment.Reachable (Moment.initial world budget) := .initial world budget
  have reusable : (Event.start e.node).Reusable := plain.composed.bears
  obtain ⟨holdings, thrifty⟩ := reachable.thrifty_apply (Moment.thrifty_initial world budget) reusable
  have begins : μ.Begins ⟨1⟩ e.node {} := ⟨⟨_, _, reachable, rfl, rfl⟩, _, rfl, rfl⟩
  refine begins.reachable.endsIn_of_endedWith thrifty begins.position.1 rfl
    (.going (.eval plain.node) (by simp)) (.of_still rfl) (fun event listed => ?_) calm ended
  cases event with
  | start node => exact absurd listed (alone node)
  | _ => trivial

end Effect

end EffectFibers
