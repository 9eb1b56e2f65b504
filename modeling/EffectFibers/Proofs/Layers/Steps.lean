import EffectFibers.Proofs.Layers.Builds

/-!
# Steps that deal with layers

Few steps of a fiber have to do with layers: the one that evaluates a node that provides them, the
one that begins to wait for a build, and those in which an exit reaches a frame of layers.  All
other steps leave the memory of the run alone and put no such frame on the stack.

Some frames wait for a build of the fiber itself, and some for a build of another fiber.  A frame
of the second kind is always on top of the stack, and the fiber is about to wait, or waits, or has
an exit for the frame.

## Main definitions

* `Machine.Deals` – what a step has to do with layers.
* `Frame.waits` – a frame that waits for the build of another fiber.
* `Machine.Poised` – a step leaves such a frame on top of the stack, if at all.
* `Frame.Listed` – a frame that builds has the layer that it builds.

## Main statements

* `Machine.deals_stepRun` – every step is of one of the kinds.
* `Machine.poised_stepRun` – every step keeps the waiting frames on top.
* `Moment.Reachable.listed` – whoever builds a layer has it on the frame.
-/

namespace EffectFibers

variable {σ : Type}

/-- A frame of layers that are provided. -/
def Frame.isLayers : Frame σ → Bool
  | .layers _ => true
  | _ => false

/-- A frame that waits for a layer that another fiber builds. -/
def Frame.waits : Frame σ → Bool
  | .layers build => !build.owning
  | _ => false

/-- A tree that waits for a build. -/
def Node.isAwait : Node σ → Bool
  | .awaitBuild _ => true
  | _ => false

/-- The part of a stack that a step leaves alone. -/
def RunState.rest (run : RunState σ) : List (Frame σ) :=
  match run.next with
  | .eval _ => run.stack
  | .done _ => run.stack.tail

theorem Frame.waits_of_plain {frame : Frame σ} (plain : frame.isLayers = false) :
    frame.waits = false := by
  cases frame <;> first | rfl | cases plain

namespace Machine

variable {m m' : Machine σ} {f : FiberId} {s : ScopeId} {run : RunState σ}
  {build : LayerBuild σ} {result : StepResult σ}

/-! ## The kinds of steps -/

/-- What a step of a fiber has to do with layers. -/
inductive Deals (m : Machine σ) (f : FiberId) (s : ScopeId) (run : RunState σ)
    (result : StepResult σ) : Prop
  /-- Nothing. -/
  | plain (same : result.machine.scopes = m.scopes)
    (frames : ∃ new, result.run.stack = new ++ run.rest ∧ ∀ frame ∈ new, frame.isLayers = false)
    (other : ∀ l, run.next ≠ .eval (.awaitBuild l))
    (top : ∀ x build below, run.next = .done x → run.stack ≠ .layers build :: below)
  /-- It takes notice of an interrupt. -/
  | notices {node} (next : run.next = .eval node)
    (goes : result = { control := .done .interrupted, run, machine := m })
  /-- It begins to provide layers. -/
  | provides {body layers exports} (next : run.next = .eval (.provide body (.ok layers) exports))
    (goes : result = m.provide f s run body (.ok layers) exports)
  /-- It begins to wait for a build. -/
  | awaits {l} (next : run.next = .eval (.awaitBuild l))
    (goes : result = m.evalAwaitBuild f s run l)
  /-- It hands an exit to a frame of layers. -/
  | resumes {x build below} (next : run.next = .done x) (top : run.stack = .layers build :: below)
    (goes : result = m.resumeLayers f s { run with stack := below } build x)

/-- The evaluation of a node that neither provides layers nor waits for one. -/
theorem deals_of_evalNode {node : Node σ} (next : run.next = .eval node)
    (same : result.machine.scopes = m.scopes) (plain : node.isAwait = false)
    (frames : ∃ new, result.run.stack = new ++ run.stack ∧
      ∀ frame ∈ new, frame.isLayers = false) : Deals m f s run result := by
  refine .plain same ?_ (fun l evaluates => ?_) fun x build below hands => ?_
  · rw [RunState.rest, next]
    exact frames
  · cases Step.eval.inj (next.symm.trans evaluates)
    cases plain
  · cases next.symm.trans hands

private theorem no_frames (stack : List (Frame σ)) :
    ∃ new, stack = new ++ stack ∧ ∀ frame ∈ new, frame.isLayers = false :=
  ⟨[], rfl, fun _ listed => nomatch listed⟩

private theorem one_frame (stack : List (Frame σ)) {frame : Frame σ}
    (plain : frame.isLayers = false) :
    ∃ new, frame :: stack = new ++ stack ∧ ∀ frame ∈ new, frame.isLayers = false :=
  ⟨[frame], rfl, fun _ listed => (List.mem_singleton.1 listed) ▸ plain⟩

theorem deals_evalNode (node : Node σ) (next : run.next = .eval node) :
    Deals m f s run (m.evalNode f s run node) := by
  cases node with
  | awaitBuild layer => exact .awaits next rfl
  | provide body plan exports =>
      cases plan with
      | error e => exact deals_of_evalNode next rfl rfl (no_frames _)
      | ok layers => exact .provides next rfl
  | sync thunk =>
      have performed := (m.spares_perform thunk).scopes
      simp only [evalNode]
      generalize m.perform thunk = result at performed ⊢
      obtain ⟨_ | x, n⟩ := result
      · exact deals_of_evalNode next performed rfl (no_frames _)
      · exact deals_of_evalNode next performed rfl (no_frames _)
  | once ticket exit => exact deals_of_evalNode next (m.spares_perform _).scopes rfl (no_frames _)
  | async register =>
      exact deals_of_evalNode next (m.spares_evalAsync f run register).scopes rfl
        ⟨[], stack_evalAsync m f run register, fun _ listed => absurd listed List.not_mem_nil⟩
  | watch target how =>
      exact deals_of_evalNode next (m.spares_evalWatch f run target how).scopes rfl (no_frames _)
  | race children =>
      simp only [evalNode, evalRace]
      split
      · exact deals_of_evalNode next rfl rfl (no_frames _)
      · exact deals_of_evalNode next (m.groupsOnly_startRace f run.context children).scopes rfl
          (no_frames _)
  | all children options =>
      simp only [evalNode, evalAll]
      split
      · exact deals_of_evalNode next rfl rfl (no_frames _)
      · exact deals_of_evalNode next (m.groupsOnly_startAll f run.context children options).scopes
          rfl (no_frames _)
  | sleep d =>
      refine deals_of_evalNode next (m.spares_evalSleep f run d).scopes rfl ?_
      simp only [evalNode, evalSleep]
      split <;> exact no_frames _
  | access reader => exact deals_of_evalNode next (m.spares_build run _).scopes rfl (no_frames _)
  | flatMap source next' => exact deals_of_evalNode next rfl rfl (one_frame _ rfl)
  | recover source handler => exact deals_of_evalNode next rfl rfl (one_frame _ rfl)
  | ensuring source finalizer => exact deals_of_evalNode next rfl rfl (one_frame _ rfl)
  | uninterruptible source => exact deals_of_evalNode next rfl rfl (one_frame _ rfl)
  | retry source schedule => exact deals_of_evalNode next rfl rfl (one_frame _ rfl)
  | repeated source schedule attempt => exact deals_of_evalNode next rfl rfl (one_frame _ rfl)
  | span label source => exact deals_of_evalNode next rfl rfl (one_frame _ rfl)
  | _ => exact deals_of_evalNode next rfl rfl (no_frames _)

/-- An exit that reaches any other frame. -/
theorem deals_of_resumeFrame {x : Exit} {frame : Frame σ} {below : List (Frame σ)}
    (next : run.next = .done x) (top : run.stack = frame :: below) (plain : frame.isLayers = false)
    (same : result.machine.scopes = m.scopes)
    (frames : ∃ new, result.run.stack = new ++ below ∧
      ∀ frame ∈ new, frame.isLayers = false) : Deals m f s run result := by
  refine .plain same ?_ (fun l evaluates => ?_) fun y build below' _ top' => ?_
  · rw [RunState.rest, next, top]
    exact frames
  · cases next.symm.trans evaluates
  · obtain ⟨rfl, -⟩ := List.cons.inj (top.symm.trans top')
    cases plain

theorem deals_resumeFrame {x : Exit} {frame : Frame σ} {below : List (Frame σ)}
    (next : run.next = .done x) (top : run.stack = frame :: below) :
    Deals m f s run (m.resumeFrame f s { run with stack := below } frame x) := by
  unfold resumeFrame
  split
  case h_14 => exact .resumes next top rfl
  case h_1 => exact deals_of_resumeFrame next top rfl (m.spares_build _ _).scopes (no_frames _)
  case h_3 => exact deals_of_resumeFrame next top rfl (m.spares_build _ _).scopes (no_frames _)
  case h_12 => exact deals_of_resumeFrame next top rfl (m.spares_build _ _).scopes (no_frames _)
  case h_5 => exact deals_of_resumeFrame next top rfl rfl (one_frame _ rfl)
  case h_6 =>
    refine deals_of_resumeFrame next top rfl ?_ (no_frames _)
    unfold resumeFinalizing
    dsimp only
    split <;> rfl
  case h_10 =>
    unfold resumeRetry evalAfter
    split
    · dsimp only
      split
      · exact deals_of_resumeFrame next top rfl rfl (one_frame _ rfl)
      · refine deals_of_resumeFrame next top rfl rfl ⟨[_, _], rfl, fun frame listed => ?_⟩
        simp only [List.mem_cons, List.not_mem_nil, or_false] at listed
        rcases listed with rfl | rfl <;> rfl
    · exact deals_of_resumeFrame next top rfl rfl (no_frames _)
    · exact deals_of_resumeFrame next top rfl rfl (no_frames _)
  all_goals exact deals_of_resumeFrame next top rfl rfl (no_frames _)

/-- Every step is of one of the kinds. -/
theorem deals_stepRun (m : Machine σ) (f : FiberId) (s : ScopeId) (run : RunState σ) :
    Deals m f s run (m.stepRun f s run) := by
  cases next : run.next with
  | eval node =>
      rw [stepRun_eval next, eval]
      split
      · exact .notices next rfl
      · exact deals_evalNode node next
  | done x =>
      cases top : run.stack with
      | nil =>
          rw [stepRun_over next top]
          refine .plain rfl ⟨[], ?_, fun _ listed => nomatch listed⟩ (fun l evaluates => ?_)
            fun y build below _ top' => ?_
          · simp [RunState.rest, next, top]
          · cases next.symm.trans evaluates
          · cases top.symm.trans top'
      | cons frame below =>
          rw [stepRun_done next top]
          exact deals_resumeFrame next top

/-! ## Frames that wait -/

/-- A step leaves a frame that waits for the build of another fiber on top of the stack, if at all,
and the fiber goes on with the wait, with an exit for the frame, or by sleeping until it is told. -/
structure Poised (s : ScopeId) (result : StepResult σ) : Prop where
  below : ∀ frame ∈ result.run.stack.tail, frame.waits = false
  top : ∀ build below, result.run.stack = .layers build :: below → build.owning = false →
    ∃ layer rest, build.todo = layer :: rest ∧
      (result.control = .eval (.awaitBuild layer.id) ∨ (∃ x, result.control = .done x) ∨
        ∃ w, result.control = .suspend (.wait w .none) ∧
          (w ∈ (result.machine.memo s).waiters layer.id ∨ result.machine.isOpen w = false))

/-- Nothing waits. -/
theorem Poised.of_still (still : ∀ frame ∈ result.run.stack, frame.waits = false) :
    Poised s result where
  below frame listed := still frame (List.mem_of_mem_tail listed)
  top build below same waiting := by
    have busy := still (.layers build) (same ▸ List.mem_cons_self)
    simp [Frame.waits, waiting] at busy

theorem poised_advanceLayers (m : Machine σ) (build : LayerBuild σ) (todo : List (LayerNode σ))
    (still : ∀ frame ∈ run.stack, frame.waits = false) :
    Poised s (m.advanceLayers f s run build todo) := by
  induction todo generalizing build with
  | nil => exact .of_still still
  | cons layer rest ih =>
      unfold advanceLayers lookUpLayer
      cases found : (m.memo s).get? layer.id with
      | none =>
          refine .of_still fun frame listed => ?_
          rcases List.mem_cons.1 listed with rfl | below
          · rfl
          · exact still frame below
      | some entry =>
          cases entry with
          | building owner waiters =>
              refine ⟨still, fun build' below same waiting => ?_⟩
              obtain ⟨top, -⟩ := List.cons.inj same
              obtain rfl := Frame.layers.inj top
              exact ⟨layer, rest, rfl, .inl rfl⟩
          | built context => exact ih _

theorem isOpen_resume (m : Machine σ) (w : WaitId) (x : Exit) :
    (m.resume w x).isOpen w = false := by
  obtain ⟨same, closed⟩ | ⟨wait, -, -, same⟩ := m.resume_cases w x <;> rw [same]
  · exact closed
  · rw [isOpen, waits_deliver]
    exact m.isOpen_claim_snd w

/-- Who asks for the end of a build is registered for it, or is told at once. -/
theorem listed_or_shut_joinBuild (known : (m.scopes.get? s).isSome) (l : LayerId) (w : WaitId) :
    w ∈ ((m.joinBuild s l w).memo s).waiters l ∨ (m.joinBuild s l w).isOpen w = false := by
  unfold joinBuild
  split
  · left
    rw [memo_modifyMemo known, if_pos rfl, Evolves.waiters_insert, if_pos rfl]
    exact List.mem_append_right _ List.mem_cons_self
  · exact .inr (isOpen_resume m w _)

theorem poised_resumeLayers (m : Machine σ) (build : LayerBuild σ)
    (still : ∀ frame ∈ run.stack, frame.waits = false) (x : Exit) :
    Poised s (m.resumeLayers f s run build x) := by
  unfold resumeLayers
  split
  · split
    · exact .of_still still
    · unfold endBuild
      split
      · exact poised_advanceLayers _ _ _ still
      · exact .of_still still
      · exact .of_still still
      · exact .of_still still
  · split
    · exact poised_advanceLayers m build _ still
    · exact .of_still still

/-- Only who is about to wait evaluates a node with a frame that waits on top. -/
theorem still_of_eval (below : ∀ frame ∈ run.stack.tail, frame.waits = false)
    (top : ∀ build below, run.stack = .layers build :: below → build.owning = false →
      ∃ layer rest, build.todo = layer :: rest ∧
        (run.next = .eval (.awaitBuild layer.id) ∨ ∃ x, run.next = .done x))
    {node : Node σ} (next : run.next = .eval node) (plain : ∀ l, node ≠ .awaitBuild l) :
    ∀ frame ∈ run.stack, frame.waits = false := by
  intro frame listed
  cases stack : run.stack with
  | nil => simp [stack] at listed
  | cons first rest =>
      rw [stack] at listed
      rcases List.mem_cons.1 listed with rfl | later
      · by_contra waits
        cases frame with
        | layers build =>
            obtain ⟨layer, rest', -, asks | ⟨x, hands⟩⟩ := top build rest stack
              (by simpa [Frame.waits] using waits)
            · exact plain _ (Step.eval.inj (next.symm.trans asks))
            · cases next.symm.trans hands
        | _ => exact waits rfl
      · exact below frame (by rwa [stack])

/-- Every step keeps the frames that wait on top of the stack. -/
theorem poised_stepRun (known : (m.scopes.get? s).isSome)
    (below : ∀ frame ∈ run.stack.tail, frame.waits = false)
    (top : ∀ build below, run.stack = .layers build :: below → build.owning = false →
      ∃ layer rest, build.todo = layer :: rest ∧
        (run.next = .eval (.awaitBuild layer.id) ∨ ∃ x, run.next = .done x)) :
    Poised s (m.stepRun f s run) := by
  cases deals_stepRun m f s run with
  | plain same frames other done =>
      obtain ⟨new, stack, plain⟩ := frames
      refine .of_still fun frame listed => ?_
      rw [stack] at listed
      rcases List.mem_append.1 listed with pushed | kept
      · exact Frame.waits_of_plain (plain frame pushed)
      · cases next : run.next with
        | eval node =>
            rw [RunState.rest, next] at kept
            exact still_of_eval below top next
              (fun l asks => other l (next.trans (congrArg _ asks))) frame kept
        | done x =>
            rw [RunState.rest, next] at kept
            exact below frame kept
  | notices next goes =>
      rw [goes]
      refine ⟨below, fun build rest stack waiting => ?_⟩
      obtain ⟨layer, todo, same, -⟩ := top build rest stack waiting
      exact ⟨layer, todo, same, .inr (.inl ⟨_, rfl⟩)⟩
  | provides next goes =>
      rw [goes]
      refine poised_advanceLayers m _ _ fun frame listed => ?_
      rcases List.mem_cons.1 listed with rfl | before
      · rfl
      · exact still_of_eval below top next nofun frame before
  | @awaits l next goes =>
      rw [goes]
      refine ⟨below, fun build rest stack waiting => ?_⟩
      obtain ⟨layer, todo, same, asks | ⟨x, hands⟩⟩ := top build rest stack waiting
      · obtain rfl : l = layer.id := by simpa using next.symm.trans asks
        exact ⟨layer, todo, same, .inr (.inr ⟨_, rfl, listed_or_shut_joinBuild
          (m := (m.openWait f .build).2) known layer.id m.waits.nextId⟩)⟩
      · cases next.symm.trans hands
  | @resumes x build rest next stack goes =>
      rw [goes]
      refine poised_resumeLayers m build (fun frame listed => below frame ?_) x
      rwa [stack]

end Machine

/-! ## Frames that build -/

/-- A frame that waits for a build of its own fiber has the layer that is built. -/
def Frame.Listed (frame : Frame σ) : Prop :=
  ∀ build, frame = .layers build → build.owning = true → build.todo ≠ []

theorem Frame.listed_of_plain {frame : Frame σ} (plain : frame.isLayers = false) :
    frame.Listed := by
  rintro build rfl
  cases plain

namespace Machine

variable {m : Machine σ} {f : FiberId} {s : ScopeId} {run : RunState σ} {build : LayerBuild σ}

theorem listed_advanceLayers (listed : ∀ frame ∈ run.stack, frame.Listed) (m : Machine σ)
    (build : LayerBuild σ) (todo : List (LayerNode σ)) :
    ∀ frame ∈ (m.advanceLayers f s run build todo).run.stack, frame.Listed := by
  induction todo generalizing m build with
  | nil => exact listed
  | cons layer rest ih =>
      unfold advanceLayers
      split
      · exact ih _ _
      · refine List.forall_mem_cons.2 ⟨?_, listed⟩
        rintro build ⟨⟩ -
        exact List.cons_ne_nil layer rest
      · refine List.forall_mem_cons.2 ⟨?_, listed⟩
        rintro build ⟨⟩ ⟨⟩

theorem listed_resumeLayers (listed : ∀ frame ∈ run.stack, frame.Listed) (x : Exit) :
    ∀ frame ∈ (m.resumeLayers f s run build x).run.stack, frame.Listed := by
  unfold resumeLayers
  split
  · split
    · exact listed
    · unfold endBuild
      split
      · have listed' : ∀ frame ∈ ({ run with context := build.outer } : RunState σ).stack,
          frame.Listed := listed
        exact listed_advanceLayers listed' _ _ _
      · exact listed
      · exact listed
      · exact listed
  · split
    · exact listed_advanceLayers listed _ _ _
    · exact listed

/-- Every step keeps the layers that are built on their frames. -/
theorem listed_stepRun (listed : ∀ frame ∈ run.stack, frame.Listed) :
    ∀ frame ∈ (m.stepRun f s run).run.stack, frame.Listed := by
  cases deals_stepRun m f s run with
  | plain same frames other top =>
      obtain ⟨new, stack, plain⟩ := frames
      intro frame on
      rw [stack] at on
      rcases List.mem_append.1 on with pushed | kept
      · exact Frame.listed_of_plain (plain frame pushed)
      · refine listed frame ?_
        unfold RunState.rest at kept
        split at kept
        · exact kept
        · exact List.mem_of_mem_tail kept
  | notices next goes =>
      rw [goes]
      exact listed
  | provides next goes =>
      rw [goes]
      refine listed_advanceLayers (List.forall_mem_cons.2 ⟨?_, listed⟩) m _ _
      exact Frame.listed_of_plain rfl
  | awaits next goes =>
      rw [goes]
      exact listed
  | @resumes x build below next top goes =>
      rw [goes]
      exact listed_resumeLayers (List.forall_mem_cons.1 (top ▸ listed)).2 x

end Machine

/-- Whoever builds a layer has it on the frame that waits for the build. -/
theorem Moment.Reachable.listed {μ : Moment σ} {f : FiberId} (reachable : Reachable μ)
    {p : Position σ} (position : μ.position? f = some p) {run : RunState σ}
    (rest : p.run? = some run) : ∀ frame ∈ run.stack, frame.Listed := by
  refine reachable.kept (P := fun run => ∀ frame ∈ run.stack, frame.Listed) ?_ ?_ ?_ position rest
  · intro node context frame on
    exact absurd on List.not_mem_nil
  · intro run step listed
    exact listed
  · intro m f scope run listed
    exact Machine.listed_stepRun listed

end EffectFibers
