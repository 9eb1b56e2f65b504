import EffectFibers.Proofs.Progress.Position
import EffectFibers.Proofs.Tickets.Keeping

/-!
# Tickets in one step

The frames of a fiber, and the tree that it evaluates next, are what a ticket can be good for.  Each
stands at a place of its own, and whatever it bears the fiber has at this place.  So a change at one
place leaves the frames below it alone, and other fibers altogether.

A step deals with one place of its fiber's stack, the one above the frames that stay as they are.
There the tree is that is evaluated, or the frame that an exit is handed to, and whatever comes of
it is put there.  If the tree or the frame bears a ticket, the ticket is used, and it is good; a new
ticket may be drawn, and then the tree that comes next bears it.

## Main definitions

* `Frame.Bears` – the ticket that a frame bears, if it does not bear none.
* `Stack.Held`, `RunState.Held`, `Position.Held` – every ticket that is borne is there.
* `StepResult.Thrifty` – after a step every ticket that is borne is there, and good.

## Main statements

* `Position.Held.moves` – tickets stay as long as the fiber takes no step.
* `Machine.evalNode_once`, `Machine.build_handOver` – what a ticket is good for.
* `Effect.not_builds_handOver` – a continuation that can be called once cannot be called again.
* `Machine.thrifty_stepRun` – any step.
-/

namespace EffectFibers

variable {σ : Type}

/-! ## What a fiber has in its hands -/

section

/-- The layers that are still to come and the body bear no tickets. -/
structure LayerBuild.Reusable (build : LayerBuild σ) (todo : List (LayerNode σ)) : Prop where
  body : build.body.Bears none
  layers : ∀ layer ∈ todo, layer.build.Bears none

/-- A frame bears a ticket, or none: only a continuation does that can be called once. -/
def Frame.Bears : Frame σ → Option Ticket → Prop
  | .flatMap next, borne => Continues next borne
  | .recover handler, borne => borne = none ∧ ∀ failure, Action.Builds (handler failure)
  | .ensuring finalizer, borne => borne = none ∧ finalizer.Bears none
  | .retry source _ _, borne | .repeated source _ _, borne => borne = none ∧ source.Bears none
  | .layers build, borne => borne = none ∧ build.Reusable build.todo
  | .finalizing _, borne | .regionEnd, borne | .restore _, borne | .spanEnd, borne => borne = none

/-- What a frame bears is there. -/
def Frame.Held (has : Option Ticket) (frame : Frame σ) : Prop :=
  ∃ borne, frame.Bears borne ∧ ∀ ticket, borne = some ticket → has = some ticket

/-- What a tree bears is there. -/
def Node.Held (has : Option Ticket) (n : Node σ) : Prop :=
  ∃ borne, n.Bears borne ∧ ∀ ticket, borne = some ticket → has = some ticket

/-- What the frames bear is there, each at the number of frames below it. -/
def Stack.Held (has : Nat → Option Ticket) : List (Frame σ) → Prop
  | [] => True
  | frame :: stack => frame.Held (has stack.length) ∧ Stack.Held has stack

/-- What the step that comes next bears is there. -/
def Step.Held (has : Option Ticket) : Step σ → Prop
  | .eval node => node.Held has
  | .done _ => True

/-- What is left of a program bears tickets that are there. -/
structure RunState.Held (has : Nat → Option Ticket) (run : RunState σ) : Prop where
  stack : Stack.Held has run.stack
  next : run.next.Held (has run.stack.length)

/-- The same after the step that was taken; a fiber may give up the wait that it is about to
begin. -/
def Control.Held (has : Nat → Option Ticket) (run : RunState σ) : Control σ → Prop
  | .next step | .yield step => RunState.Held has { run with next := step }
  | .suspend pending => Stack.Held has run.stack ∧ pending.Calm
  | .finish _ => True

/-- The same wherever a fiber stands with its program. -/
def Position.Held (has : Nat → Option Ticket) : Position σ → Prop
  | .ready run => run.Held has
  | .stepped run control _ => control.Held has run
  | .asleep run _ | .answered run _ => Stack.Held has run.stack
  | .gone => True

theorem Node.held_of_bears {n : Node σ} {has : Option Ticket} (bears : n.Bears none) : n.Held has :=
  ⟨none, bears, nofun⟩

theorem Frame.held_of_bears {frame : Frame σ} {has : Option Ticket} (bears : frame.Bears none) :
    frame.Held has :=
  ⟨none, bears, nofun⟩

variable {has later : Nat → Option Ticket} {stack : List (Frame σ)} {run : RunState σ}

/-- The frames do not count on what is at other places. -/
theorem Stack.Held.mono (held : Stack.Held has stack)
    (same : ∀ n < stack.length, later n = has n) : Stack.Held later stack := by
  induction stack with
  | nil => trivial
  | cons frame stack ih =>
      refine ⟨?_, ih held.2 fun n inside => same n (Nat.lt_succ_of_lt inside)⟩
      rw [same stack.length (Nat.lt_succ_self _)]
      exact held.1

/-- An exit bears nothing. -/
theorem RunState.held_done (held : Stack.Held has run.stack) (x : Exit) :
    RunState.Held has { run with next := .done x } := ⟨held, trivial⟩

/-- As long as a fiber takes no step, it has the tickets that its program bears. -/
theorem Position.Held.moves {m m' : Machine σ} {f : FiberId} {p p' : Position σ}
    (held : p.Held has) (moves : m.Moves m' f p p') : p'.Held has := by
  cases moves with
  | stays => exact held
  | goesOn => exact held
  | noticed notices plain => exact RunState.held_done held.stack _
  | yields => exact held
  | hears why => exact held
  | sleeps => exact held.1
  | givesUp notices => exact RunState.held_done held.1 _
  | takes => exact RunState.held_done held.1 _
  | ends => trivial
  | wakes why => exact held
  | resumes => exact RunState.held_done held _

end

/-! ## After a step -/

/-- What a fiber has at the places of its stack. -/
def Holdings.of (holdings : Holdings) (f : FiberId) (n : Nat) : Option Ticket := holdings (f, n)

theorem Holdings.of_update_of_ne (holdings : Holdings) {f g : FiberId} (other : g ≠ f) (n : Nat)
    (has : Option Ticket) : Holdings.of (Function.update holdings (f, n) has) g = holdings.of g := by
  funext k
  exact Function.update_of_ne (by simp [other]) _ _

/-- The frames do not count on what is at the place above them. -/
theorem Stack.Held.update {holdings : Holdings} {f : FiberId} {stack : List (Frame σ)}
    (held : Stack.Held (holdings.of f) stack) (has : Option Ticket) :
    Stack.Held (Holdings.of (Function.update holdings (f, stack.length) has) f) stack := by
  refine held.mono fun n inside => ?_
  exact Function.update_of_ne (by simp [Nat.ne_of_lt inside]) _ _

/-- After a step of a fiber, what is left of its program bears tickets that it has, what the machine
keeps for later bears none, and the other fibers have what they had. -/
def StepResult.Thrifty (holdings : Holdings) (old : FiberId → Prop) (f : FiberId)
    (result : StepResult σ) : Prop :=
  ∃ later : Holdings, (∀ g, g ≠ f → later.of g = holdings.of g) ∧
    result.machine.Thrifty later old ∧ result.control.Held (later.of f) result.run

/-! ## A ticket is used -/

/-- A continuation whose ticket is good hands on its value, for another ticket. -/
theorem Effect.handOver_of_unused {ticket : Ticket} {w : World σ} (good : ticket ∈ w.unused)
    (v u : Value) (roster : Roster) : (handOver ticket v u : Action σ (Node σ)) roster w =
      ⟨.ok (.once w.tickets.next.1 (.ok v)), { w with
        tickets := w.tickets.next.2
        unused := w.tickets.next.1 :: w.unused.erase ticket }, []⟩ := by
  simp [handOver, Node.given, Action.useTicket, Action.freshTicket, Bind.bind, Action.bind,
    Pure.pure, Action.pure, good]

/-- A continuation whose ticket is used up ends with a defect. -/
theorem Effect.handOver_of_used {ticket : Ticket} {w : World σ} (used : ticket ∉ w.unused)
    (v u : Value) (roster : Roster) : (handOver ticket v u : Action σ (Node σ)) roster w =
      ⟨.ok (.die (.internal "one-shot continuation resumed twice")), w, []⟩ := by
  simp [handOver, Action.useTicket, Bind.bind, Action.bind, Pure.pure, Action.pure, used,
    List.erase_of_not_mem used]

/-- A continuation that can be called once is good for one ticket and one value. -/
theorem Effect.handOver_inj {ticket ticket' : Ticket} {v v' : Value} (w : World σ)
    (same : (handOver ticket v : Value → Action σ (Node σ)) = handOver ticket' v') :
    ticket = ticket' ∧ v = v' := by
  have called := congrFun (congrFun (congrFun same .null) fun _ => .interrupted)
    { w with unused := [ticket] }
  rw [handOver_of_unused List.mem_cons_self] at called
  by_cases good : ticket' ∈ [ticket]
  · rw [handOver_of_unused good] at called
    simp only [Reply.mk.injEq, Except.ok.injEq, Node.once.injEq] at called
    exact ⟨(List.mem_singleton.1 good).symm, called.1.2⟩
  · rw [handOver_of_used good] at called
    cases called

/-- It cannot be called again and again, for it uses its ticket up. -/
theorem Effect.not_builds_handOver (w : World σ) (ticket : Ticket) (v u : Value) :
    ¬ (handOver ticket v u : Action σ (Node σ)).Builds := by
  intro builds
  obtain ⟨drawn, issues, -⟩ := builds (fun _ => .interrupted) { w with unused := [ticket] }
  rw [handOver_of_unused List.mem_cons_self] at issues
  cases issues with
  | nothing same => exact Nat.succ_ne_self _ (congrArg Supply.issued same.issued)
  | ticket issued unused => simp at unused

/-- What a continuation bears that can be called once. -/
theorem Continues.of_handOver {next : Value → Action σ (Node σ)} {borne : Option Ticket}
    {ticket : Ticket} {v : Value} (continues : Continues next borne) (w : World σ)
    (same : next = Effect.handOver ticket v) : borne = some ticket := by
  cases continues with
  | once ticket' v' => rw [(Effect.handOver_inj w same).1]
  | again builds => exact absurd (same ▸ builds .null) (Effect.not_builds_handOver w ticket v .null)

namespace Machine

variable {holdings : Holdings} {old : FiberId → Prop} {m : Machine σ} {f : FiberId} {s : ScopeId}
  {run : RunState σ} {stack : List (Frame σ)} {ticket : Ticket} {x : Exit} {u v : Value}

/-- A tree whose ticket is good ends with its exit. -/
theorem evalNode_once (good : ticket ∈ m.world.unused) (x : Exit) :
    m.evalNode f s run (.once ticket x) = { control := .done x, run, machine := { m with
      world := { m.world with unused := m.world.unused.erase ticket } } } := by
  simp [evalNode, perform, Action.useTicket, good]

theorem build_handOver (good : ticket ∈ m.world.unused) (v u : Value) :
    m.build run (Effect.handOver ticket v u) = {
      control := .eval (.once m.world.tickets.next.1 (.ok v)), run, machine := { m with
        world := { m.world with
          tickets := m.world.tickets.next.2
          unused := m.world.tickets.next.1 :: m.world.unused.erase ticket } } } := by
  simp [build, perform, Effect.handOver_of_unused good, Control.ofBuilt]

/-! ## Steps without a ticket -/

/-- A step after which every fiber has what it had. -/
theorem thrifty_of_same {result : StepResult σ} (thrifty : result.machine.Thrifty holdings old)
    (held : result.control.Held (holdings.of f) result.run) : result.Thrifty holdings old f :=
  ⟨holdings, fun _ _ => rfl, thrifty, held⟩

theorem thrifty_done (thrifty : m.Thrifty holdings old)
    (frames : Stack.Held (holdings.of f) run.stack) (x : Exit) :
    StepResult.Thrifty holdings old f { control := .done x, run, machine := m } :=
  thrifty_of_same thrifty (RunState.held_done frames x)

theorem thrifty_eval (thrifty : m.Thrifty holdings old)
    (frames : Stack.Held (holdings.of f) run.stack) {n : Node σ} (bears : n.Bears none) :
    StepResult.Thrifty holdings old f { control := .eval n, run, machine := m } :=
  thrifty_of_same thrifty ⟨frames, n.held_of_bears bears⟩

theorem thrifty_suspend (thrifty : m.Thrifty holdings old)
    (frames : Stack.Held (holdings.of f) run.stack) {pending : Pending σ} (calm : pending.Calm) :
    StepResult.Thrifty holdings old f { control := .suspend pending, run, machine := m } :=
  thrifty_of_same thrifty ⟨frames, calm⟩

/-- A frame that bears nothing is pushed before a tree that bears nothing. -/
theorem thrifty_push (thrifty : m.Thrifty holdings old)
    (frames : Stack.Held (holdings.of f) stack) (frame : Frame σ) (bears : frame.Bears none)
    (top : run.stack = frame :: stack) {n : Node σ} (reusable : n.Bears none) :
    StepResult.Thrifty holdings old f { control := .eval n, run, machine := m } :=
  thrifty_eval thrifty (top ▸ ⟨frame.held_of_bears bears, frames⟩) reusable

/-! ## Steps with a ticket -/

/-- User code that draws a ticket has it put at the place above all frames. -/
theorem thrifty_build (thrifty : m.Thrifty holdings old)
    (frames : Stack.Held (holdings.of f) run.stack) {code : Action σ (Node σ)}
    (builds : code.Builds) : (m.build run code).Thrifty holdings old f := by
  obtain ⟨drawn, issues, result⟩ := builds (statusOf m.fibers) m.world
  let later : Holdings := Function.update holdings (f, run.stack.length) drawn
  have performed : (m.perform code).2.Thrifty later old :=
    thrifty_law.perform (thrifty.setWorld (thrifty.honours.draw issues _))
  refine ⟨later, fun g other => holdings.of_update_of_ne other _ _, performed, ?_⟩
  show (Control.ofBuilt (code (statusOf m.fibers) m.world).result).Held (later.of f) run
  cases built : (code (statusOf m.fibers) m.world).result with
  | ok n =>
      refine ⟨frames.update drawn, drawn, result n built, fun ticket borne => ?_⟩
      rw [← borne]
      exact Function.update_self ..
  | error p => exact RunState.held_done (frames.update drawn) _

/-- A tree is evaluated whose ticket the fiber has. -/
theorem thrifty_once (thrifty : m.Thrifty holdings old)
    (frames : Stack.Held (holdings.of f) run.stack)
    (held : holdings (f, run.stack.length) = some ticket) (x : Exit) :
    (m.evalNode f s run (.once ticket x)).Thrifty holdings old f := by
  rw [evalNode_once (thrifty.honours.unused _ _ held)]
  exact ⟨Function.update holdings (f, run.stack.length) none,
    fun g other => holdings.of_update_of_ne other _ _,
    thrifty.setWorld (thrifty.honours.use held rfl rfl),
    RunState.held_done (frames.update none) x⟩

/-- A continuation is called whose ticket the fiber has.  The ticket is used, and another one is
drawn for the tree that comes next. -/
theorem thrifty_handOver (thrifty : m.Thrifty holdings old)
    (frames : Stack.Held (holdings.of f) run.stack)
    (held : holdings (f, run.stack.length) = some ticket) (v u : Value) :
    (m.build run (Effect.handOver ticket v u)).Thrifty holdings old f := by
  -- the ticket is used first, and the new one is put at the place that has become free
  let spent : World σ := { m.world with unused := m.world.unused.erase ticket }
  let after : World σ := { m.world with
    tickets := m.world.tickets.next.2
    unused := m.world.tickets.next.1 :: m.world.unused.erase ticket }
  have issues : spent.Issues after (some m.world.tickets.next.1) := .ticket rfl rfl
  have used : spent.Honours (Function.update holdings (f, run.stack.length) none) :=
    thrifty.honours.use held rfl rfl
  have drawn := used.draw issues (f, run.stack.length)
  rw [Function.update_idem] at drawn
  rw [build_handOver (thrifty.honours.unused _ _ held)]
  exact ⟨_, fun g other => holdings.of_update_of_ne other _ _, thrifty.setWorld drawn,
    frames.update _, _, rfl, fun t borne => borne ▸ Function.update_self ..⟩

/-! ## Layers -/

/-- Going through a plan. -/
theorem thrifty_advanceLayers (thrifty : m.Thrifty holdings old)
    (frames : Stack.Held (holdings.of f) run.stack) {build : LayerBuild σ}
    {todo : List (LayerNode σ)} (reusable : build.Reusable todo) :
    (m.advanceLayers f s run build todo).Thrifty holdings old f := by
  induction todo generalizing m build with
  | nil =>
      refine thrifty_eval thrifty ?_ reusable.body
      exact frames
  | cons layer rest ih =>
      have looked := thrifty_lookUpLayer thrifty s layer f
      unfold advanceLayers
      generalize m.lookUpLayer s layer f = result at looked ⊢
      obtain ⟨state, n⟩ := result
      cases state with
      | built c =>
          exact ih looked ⟨reusable.body, fun l listed =>
            reusable.layers l (List.mem_cons_of_mem layer listed)⟩
      | claimed =>
          -- the frame keeps the layer until its build has ended
          refine thrifty_push looked frames (.layers _) ⟨rfl, ?_⟩ rfl
            (reusable.layers layer List.mem_cons_self)
          exact ⟨reusable.body, reusable.layers⟩
      | busy =>
          refine thrifty_push looked frames (.layers _) ⟨rfl, ?_⟩ rfl rfl
          exact ⟨reusable.body, reusable.layers⟩

/-- A fiber begins to provide layers. -/
theorem thrifty_provide (thrifty : m.Thrifty holdings old)
    (frames : Stack.Held (holdings.of f) run.stack) {body : Node σ} {plan : LayerPlan σ}
    (bears : body.Bears none) (reusable : Plan.Reusable plan) (exports : List TagId) :
    (m.provide f s run body plan exports).Thrifty holdings old f := by
  unfold provide
  cases plan with
  | error e => exact thrifty_done thrifty frames _
  | ok layers =>
      have restored : Stack.Held (holdings.of f) (.restore run.context :: run.stack) :=
        ⟨Frame.held_of_bears rfl, frames⟩
      refine thrifty_advanceLayers thrifty ?_ ⟨bears, Layers.reusable_iff.1 reusable⟩
      exact restored

theorem thrifty_endBuild (thrifty : m.Thrifty holdings old)
    (frames : Stack.Held (holdings.of f) run.stack) {build : LayerBuild σ} {layer : LayerNode σ}
    {rest : List (LayerNode σ)} (reusable : build.Reusable rest) (x : Exit) :
    (m.endBuild f s run build layer rest x).Thrifty holdings old f := by
  unfold endBuild
  split
  · exact thrifty_advanceLayers (thrifty_completeBuild thrifty s layer _) frames
      ⟨reusable.body, reusable.layers⟩
  · exact thrifty_done (thrifty_forgetBuild thrifty s layer _ _) frames _
  · exact thrifty_done (thrifty_forgetBuild thrifty s layer _ _) frames _
  · exact thrifty_done (thrifty_forgetBuild (thrifty_law.trace thrifty _) s layer _ _) frames _

theorem thrifty_resumeLayers (thrifty : m.Thrifty holdings old)
    (frames : Stack.Held (holdings.of f) run.stack) {build : LayerBuild σ}
    (reusable : build.Reusable build.todo) (x : Exit) :
    (m.resumeLayers f s run build x).Thrifty holdings old f := by
  unfold resumeLayers
  split
  · split
    · exact thrifty_done thrifty frames _
    · rename_i layer rest todo
      have ended : LayerBuild.Reusable { build with owning := false } rest :=
        ⟨reusable.body, fun l listed => reusable.layers l (todo ▸ List.mem_cons_of_mem layer listed)⟩
      refine thrifty_endBuild thrifty ?_ ended x
      exact frames
  · split
    · exact thrifty_advanceLayers thrifty frames reusable
    · exact thrifty_done thrifty frames _

/-! ## Evaluating a tree -/

theorem thrifty_evalAsync (thrifty : m.Thrifty holdings old)
    (frames : Stack.Held (holdings.of f) run.stack)
    {register : WaitId → Action σ (Option (Cleanup σ))} (calm : Action.CalmRegistration register) :
    (m.evalAsync f run register).Thrifty holdings old f := by
  unfold evalAsync
  have opened : (m.openWait f .callback).2.Thrifty holdings old := thrifty_law.openWait thrifty f _
  generalize m.openWait f .callback = result at opened ⊢
  obtain ⟨w, n⟩ := result
  have performed : (n.perform (register w)).2.Thrifty holdings old :=
    thrifty_law.perform (opened.setWorld (opened.honours.of_same ((calm w).1 _ _)))
  have left : ∀ cleanup, (n.perform (register w)).1 = .ok (some cleanup) → cleanup.Calm :=
    fun cleanup => (calm w).2 _ _ cleanup
  dsimp only
  generalize n.perform (register w) = result at performed left ⊢
  obtain ⟨registered, n'⟩ := result
  cases registered with
  | ok cleanup =>
      cases cleanup with
      | none => exact thrifty_suspend performed frames trivial
      | some cleanup => exact thrifty_suspend performed frames (left cleanup rfl)
  | error p =>
      have claimed : (n'.claim w).2.Thrifty holdings old := thrifty_law.claim performed w
      dsimp only
      split
      · exact thrifty_done claimed frames _
      · exact thrifty_suspend claimed frames trivial

theorem thrifty_evalWatch (thrifty : m.Thrifty holdings old)
    (frames : Stack.Held (holdings.of f) run.stack) (target : FiberId) (how : Watch) :
    (m.evalWatch f run target how).Thrifty holdings old f := by
  have opened : (m.openWait f .fiber).2.Thrifty holdings old := thrifty_law.openWait thrifty f _
  unfold evalWatch
  refine thrifty_suspend (thrifty_law.watch ?_ target _ how) frames trivial
  split
  · exact thrifty_law.interrupt opened target
  · exact opened

theorem thrifty_evalSleep (thrifty : m.Thrifty holdings old)
    (frames : Stack.Held (holdings.of f) run.stack) (d : Duration) :
    (m.evalSleep f run d).Thrifty holdings old f := by
  unfold evalSleep
  split
  · exact thrifty_of_same thrifty (RunState.held_done frames _)
  · refine thrifty_suspend ((thrifty_law.openWait thrifty f .timer).congr ?_ ?_ ?_) frames ?_
    all_goals first | rfl | trivial

theorem thrifty_evalRace (thrifty : m.Thrifty holdings old)
    (frames : Stack.Held (holdings.of f) run.stack) {children : List (Node σ)}
    (bears : ∀ n ∈ children, n.Bears none) :
    (m.evalRace f run children).Thrifty holdings old f := by
  unfold evalRace
  split
  · exact thrifty_done thrifty frames _
  · exact thrifty_suspend (thrifty_startRace thrifty f run.context bears) frames trivial

theorem thrifty_evalAll (thrifty : m.Thrifty holdings old)
    (frames : Stack.Held (holdings.of f) run.stack) {children : List (Node σ)}
    (bears : ∀ n ∈ children, n.Bears none) (options : AllOptions) :
    (m.evalAll f run children options).Thrifty holdings old f := by
  unfold evalAll
  split
  · exact thrifty_done thrifty frames _
  · exact thrifty_suspend (thrifty_startAll thrifty f run.context bears options) frames trivial

/-- A tree is evaluated, and the fiber has the ticket that it bears. -/
theorem thrifty_evalNode (thrifty : m.Thrifty holdings old)
    (frames : Stack.Held (holdings.of f) run.stack) {n : Node σ}
    (held : n.Held (holdings (f, run.stack.length))) :
    (m.evalNode f s run n).Thrifty holdings old f := by
  obtain ⟨borne, bears, has⟩ := held
  cases n with
  | succeed v => exact thrifty_done thrifty frames _
  | fail c => exact thrifty_done thrifty frames _
  | sync thunk =>
      have performed : (m.perform thunk).2.Thrifty holdings old :=
        thrifty_law.perform (thrifty.setWorld (thrifty.honours.of_same (bears.2 _ _)))
      unfold evalNode
      dsimp only
      generalize m.perform thunk = result at performed ⊢
      obtain ⟨x, n⟩ := result
      cases x with
      | ok x => exact thrifty_done performed frames x
      | error p => exact thrifty_done performed frames _
  | once ticket x => exact thrifty_once thrifty frames (has ticket bears) x
  | async register => exact thrifty_evalAsync thrifty frames bears.2
  | watch target how => exact thrifty_evalWatch thrifty frames target how
  | awaitBuild layer =>
      exact thrifty_suspend (thrifty_joinBuild (thrifty_law.openWait thrifty f _) _ _ _) frames
        trivial
  | flatMap source next =>
      obtain ⟨first, continues⟩ := Node.bears_flatMap.1 bears
      exact thrifty_of_same thrifty
        ⟨⟨⟨borne, continues, has⟩, frames⟩, source.held_of_bears first⟩
  | recover source handler =>
      obtain ⟨-, first, builds⟩ := Node.bears_recover.1 bears
      exact thrifty_push thrifty frames (.recover handler) ⟨rfl, builds⟩ rfl first
  | ensuring source finalizer =>
      obtain ⟨-, first, last⟩ := bears
      exact thrifty_push thrifty frames (.ensuring finalizer) ⟨rfl, last⟩ rfl first
  | uninterruptible source =>
      exact thrifty_push thrifty frames .regionEnd rfl rfl bears.2
  | provide body plan exports => exact thrifty_provide thrifty frames bears.2.1 bears.2.2 exports
  | race children =>
      exact thrifty_evalRace thrifty frames (Node.allReusable_iff.1 bears.2)
  | all children options =>
      exact thrifty_evalAll thrifty frames (Node.allReusable_iff.1 bears.2) options
  | retry source schedule =>
      exact thrifty_push thrifty frames (.retry source schedule 0) ⟨rfl, bears.2⟩ rfl
        bears.2
  | repeated source schedule attempt =>
      exact thrifty_push thrifty frames (.repeated source schedule attempt)
        ⟨rfl, bears.2⟩ rfl bears.2
  | sleep d => exact thrifty_evalSleep thrifty frames d
  | access reader =>
      exact thrifty_build thrifty frames ((Node.bears_access.1 bears).2 run.context)
  | fork source =>
      exact thrifty_done (thrifty_fork thrifty f bears.2 run.context) frames _
  | log level message => exact thrifty_done (thrifty_law.write thrifty _) frames _
  | span label source =>
      exact thrifty_push thrifty frames .spanEnd rfl rfl bears.2
  | yield => exact thrifty_of_same thrifty (RunState.held_done frames _)

/-! ## Handing an exit to a frame -/

/-- A source that is tried again may be evaluated again. -/
theorem thrifty_resumeRetry (thrifty : m.Thrifty holdings old)
    (frames : Stack.Held (holdings.of f) run.stack) {source : Node σ} (bears : source.Bears none)
    (schedule : Schedule Failure) (attempt : Nat) (failure : Failure) :
    (m.resumeRetry f run source schedule attempt failure).Thrifty holdings old f := by
  unfold resumeRetry
  split
  · rename_i delay _
    let again : Frame σ := .retry source schedule (Schedule.nextAttempt attempt)
    have frames' : Stack.Held (holdings.of f) (again :: run.stack) :=
      ⟨again.held_of_bears ⟨rfl, bears⟩, frames⟩
    unfold evalAfter
    split
    · exact thrifty_eval (thrifty_law.trace thrifty _) frames' bears
    · exact thrifty_push (thrifty_law.trace thrifty _) frames' (.flatMap _)
        (.again fun _ => Node.builds_pure bears) rfl rfl
  · exact thrifty_done (thrifty_law.trace thrifty _) frames _
  · exact thrifty_done thrifty frames _

/-- So may a source that is repeated. -/
theorem builds_repeatAfter {source : Node σ} (bears : source.Bears none) (schedule : Schedule Value)
    (attempt : Nat) (v : Value) : (repeatAfter source schedule attempt v).Builds := by
  refine .bind_calm (.ofExcept _) fun decision => ?_
  have again : (Node.repeated source schedule (Schedule.nextAttempt attempt)).Bears none :=
    ⟨rfl, bears⟩
  cases decision with
  | stop => exact Node.builds_given _
  | again delay =>
      dsimp only
      split
      · exact Node.builds_pure again
      · exact Node.builds_pure (Node.bears_flatMap.2 ⟨rfl, .again fun _ => Node.builds_pure again⟩)

/-- A frame takes an exit, and the fiber has the ticket that it bears. -/
theorem thrifty_resumeFrame (thrifty : m.Thrifty holdings old)
    (frames : Stack.Held (holdings.of f) run.stack) {frame : Frame σ}
    (held : frame.Held (holdings (f, run.stack.length))) (x : Exit) :
    (m.resumeFrame f s run frame x).Thrifty holdings old f := by
  obtain ⟨borne, bears, has⟩ := held
  cases frame with
  | flatMap next =>
      cases x with
      | ok u =>
          cases bears with
          | once ticket v => exact thrifty_handOver thrifty frames (has ticket rfl) v u
          | again builds => exact thrifty_build thrifty frames (builds u)
      | error c => exact thrifty_done thrifty frames _
  | recover handler =>
      rcases x with (failure | d | _) | v
      · exact thrifty_build thrifty frames (bears.2 failure)
      · exact thrifty_done thrifty frames _
      · exact thrifty_done thrifty frames _
      · exact thrifty_done thrifty frames _
  | ensuring finalizer =>
      exact thrifty_push thrifty frames (.finalizing x) rfl rfl bears.2
  | finalizing earlier =>
      have noted : (m.resumeFrame f s run (.finalizing earlier) x).machine.Thrifty holdings old := by
        cases x with
        | ok v => exact thrifty
        | error c => exact thrifty_law.trace thrifty _
      refine thrifty_of_same noted (RunState.held_done ?_ _)
      exact frames
  | regionEnd | restore _ | spanEnd =>
      refine thrifty_done thrifty ?_ x
      exact frames
  | retry source schedule attempt =>
      rcases x with (failure | d | _) | v
      · exact thrifty_resumeRetry thrifty frames bears.2 schedule attempt failure
      · exact thrifty_done thrifty frames _
      · exact thrifty_done thrifty frames _
      · exact thrifty_done thrifty frames _
  | repeated source schedule attempt =>
      cases x with
      | ok v => exact thrifty_build thrifty frames (builds_repeatAfter bears.2 schedule attempt v)
      | error c => exact thrifty_done thrifty frames _
  | layers build => exact thrifty_resumeLayers thrifty frames bears.2 x

/-- Any step of a fiber that has the tickets which its program bears. -/
theorem thrifty_stepRun (thrifty : m.Thrifty holdings old) (held : run.Held (holdings.of f)) :
    (m.stepRun f s run).Thrifty holdings old f := by
  obtain ⟨frames, next⟩ := held
  unfold stepRun
  split
  · rename_i n evaluates
    rw [evaluates] at next
    unfold eval
    split
    · exact thrifty_done thrifty frames _
    · exact thrifty_evalNode thrifty frames next
  · rename_i x done
    split
    · exact thrifty_of_same thrifty trivial
    · rename_i frame stack split
      rw [split] at frames
      refine thrifty_resumeFrame thrifty ?_ ?_ x
      · exact frames.2
      · exact frames.1

end Machine

end EffectFibers
