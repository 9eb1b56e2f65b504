import EffectFibers.Machine.Tick
import EffectFibers.Proofs.Services.Births

/-!
# What one step keeps

A fiber whose context, frames and next step fit together takes a step, and they go on fitting; so
does what the machine keeps for later.  A step may run user code, and user code may make layers, so
afterwards all of this is said with a later catalogue.

The frames of a `provide` carry the argument: what has been built so far, together with the context
around, has the inputs of the layer that is built next, and in the end the exports.

## Main definitions

* `StepResult.Sound` – after a step everything fits.

## Main statements

* `Machine.sound_advanceLayers` – going through a plan.
* `Machine.sound_stepRun` – any step.
-/

namespace EffectFibers

variable {σ : Type}

/-- After a step, what is left of the program fits, and what the machine keeps for later is fit for
its use. -/
def StepResult.Sound (strict : ScopeId → Prop) (s : ScopeId) (cat : Catalogue)
    (old : FiberId → Prop) (result : StepResult σ) : Prop :=
  ∃ later, cat.Within later ∧ result.machine.Lawful strict later old ∧
    result.control.Fits (strict s) later result.run

namespace Machine

variable {strict : ScopeId → Prop} {s : ScopeId} {cat : Catalogue} {old : FiberId → Prop}
  {m : Machine σ} {f : FiberId} {run : RunState σ} {goal : Option TagId} {row : Fiber σ}

/-- A step that makes no layers. -/
theorem sound_of_lawful {result : StepResult σ} (lawful : result.machine.Lawful strict cat old)
    (fits : result.control.Fits (strict s) cat result.run) : result.Sound strict s cat old :=
  ⟨cat, .refl cat, lawful, fits⟩

/-- A step that ends with an exit. -/
theorem sound_done (lawful : m.Lawful strict cat old)
    (frames : Stack.Fits (strict s) cat goal run.context run.stack) {x : Exit}
    (fits : x.Fits goal) : StepResult.Sound strict s cat old { control := .done x, run, machine := m } :=
  sound_of_lawful lawful ⟨goal, frames, fits⟩

/-- A step that goes on with a tree. -/
theorem sound_eval (lawful : m.Lawful strict cat old)
    (frames : Stack.Fits (strict s) cat goal run.context run.stack) {n : Node σ}
    (suits : n.Suits (strict s) cat goal run.context) :
    StepResult.Sound strict s cat old { control := .eval n, run, machine := m } :=
  sound_of_lawful lawful ⟨goal, frames, suits⟩

/-- A step that goes on with the tree that user code builds. -/
theorem sound_build (lawful : m.Lawful strict cat old)
    (frames : Stack.Fits (strict s) cat goal run.context run.stack) {code : Action σ (Node σ)}
    (suits : code.Suits (strict s) cat goal run.context) :
    (m.build run code).Sound strict s cat old := by
  obtain ⟨tags, covers, leads⟩ := suits
  obtain ⟨later, grown, lawful', needs⟩ := lawful_perform lawful leads.yields
  have frames' := frames.mono fun _ => grown
  unfold build
  generalize m.perform code = result at lawful' needs ⊢
  obtain ⟨built, n⟩ := result
  cases built with
  | ok node => exact ⟨later, grown, lawful', goal, frames', tags, covers, needs node rfl⟩
  | error p => exact ⟨later, grown, lawful', goal, frames', Exit.fits_error _⟩

/-! ## Layers -/

/-- With the context of a layer, its service has been built as well. -/
theorem covers_built {built c : Context Value} {ready : TagId → Prop} {goal : Option TagId}
    {l : LayerId} (covers : built.Covers ready) (listed : ∃ t, goal = some t ∧ cat l = some t)
    (has : ∃ t, cat l = some t ∧ c.contains t = true) :
    (built.merge c).Covers fun u => ready u ∨ goal = some u := by
  obtain ⟨t, rfl, listed⟩ := listed
  obtain ⟨u, listed', has⟩ := has
  obtain rfl : t = u := Option.some.inj (listed.symm.trans listed')
  rintro v (there | same)
  · exact Context.contains_merge.2 (.inl (covers v there))
  · obtain rfl := Option.some.inj same
    exact Context.contains_merge.2 (.inr has)

/-- What has been built and the context around have what the next layer needs, and what the body
needs when all layers are ready. -/
theorem sound_advanceLayers (lawful : m.Lawful strict cat old) {build : LayerBuild σ}
    {todo : List (LayerNode σ)} (suits : build.Suits (strict s) cat todo)
    {stack : List (Frame σ)} (frames : run.stack = .restore build.outer :: stack)
    (below : Stack.Fits (strict s) cat none build.outer stack) :
    (m.advanceLayers f s run build todo).Sound strict s cat old := by
  induction todo generalizing m build with
  | nil =>
      obtain ⟨tags, ready, covers, needs, exported⟩ := suits
      refine sound_eval lawful (frames ▸ .restore below) ⟨_, fun holds t needed => ?_, needs⟩
      obtain ⟨around, built⟩ := covers holds
      refine Context.contains_merge.2 (needed.imp (around t) fun exports => ?_)
      exact Context.contains_restrict.2 ⟨exports, built t (exported holds t exports)⟩
  | cons layer rest ih =>
      obtain ⟨tags, ready, covers, needs, need⟩ := suits
      obtain ⟨goal, listed, constructs, behind⟩ := id need
      obtain ⟨lawful', found⟩ := lawful_lookUpLayer lawful s layer f
      unfold advanceLayers
      generalize m.lookUpLayer s layer f = result at lawful' found ⊢
      obtain ⟨state, n⟩ := result
      cases state with
      | built c =>
          exact ih lawful' ⟨tags, _, fun holds => ⟨(covers holds).1,
            covers_built (covers holds).2 (listed holds) (found c holds rfl)⟩, needs, behind⟩
            frames below
      | claimed =>
          let claims : LayerBuild σ := { build with todo := layer :: rest, owning := true }
          have suits : claims.Suits (strict s) cat claims.todo := ⟨tags, ready, covers, needs, need⟩
          have frames' : Stack.Fits (strict s) cat goal (build.outer.merge build.built)
              (.layers claims :: run.stack) := frames ▸ .building rfl rfl listed suits below
          refine sound_of_lawful lawful' ⟨goal, frames', _, fun holds u needed => ?_, constructs⟩
          exact Context.contains_merge.2 (needed.imp ((covers holds).1 u) ((covers holds).2 u))
      | busy =>
          let waits : LayerBuild σ := { build with todo := layer :: rest, owning := false }
          have suits : waits.Suits (strict s) cat waits.todo := ⟨tags, ready, covers, needs, need⟩
          have frames' : Stack.Fits (strict s) cat none run.context (.layers waits :: run.stack) :=
            frames ▸ .waiting rfl suits below
          exact sound_of_lawful lawful'
            ⟨none, frames', fun _ => False, fun _ t needs => needs.elim, rfl⟩

/-- A fiber begins to provide layers. -/
theorem sound_provide (lawful : m.Lawful strict cat old)
    (frames : Stack.Fits (strict s) cat none run.context run.stack) {body : Node σ}
    {plan : LayerPlan σ} {exports : List TagId}
    (suits : (Node.provide body plan exports).Suits (strict s) cat none run.context) :
    (m.provide f s run body plan exports).Sound strict s cat old := by
  obtain ⟨tags, covers, -, needs, need⟩ := suits
  unfold provide
  cases plan with
  | error e => exact sound_done lawful frames (Exit.fits_none _)
  | ok layers =>
      refine sound_advanceLayers lawful ⟨tags, fun _ => False, ?_, needs, need⟩ rfl frames
      exact fun holds => ⟨covers holds, fun t ready => ready.elim⟩

/-- The build of a layer has an exit: the context that it brings has the service of the layer. -/
theorem sound_endBuild (lawful : m.Lawful strict cat old) {build : LayerBuild σ}
    {layer : LayerNode σ} {rest : List (LayerNode σ)}
    (listed : strict s → ∃ t, goal = some t ∧ cat layer.id = some t)
    (suits : build.Suits (strict s) cat (layer :: rest)) {stack : List (Frame σ)}
    (frames : run.stack = .restore build.outer :: stack)
    (below : Stack.Fits (strict s) cat none build.outer stack) {x : Exit} (fits : x.Fits goal) :
    (m.endBuild f s run build layer rest x).Sound strict s cat old := by
  have frames' : Stack.Fits (strict s) cat none run.context run.stack := frames ▸ .restore below
  unfold endBuild
  split
  · rename_i c
    have has : strict s → ∃ t, cat layer.id = some t ∧ c.contains t = true := by
      intro holds
      obtain ⟨t, rfl, known⟩ := listed holds
      obtain ⟨d, same, has⟩ := fits _ rfl
      obtain rfl := Value.context.inj same
      exact ⟨t, known, has⟩
    obtain ⟨tags, ready, covers, needs, goal', listed', -, behind⟩ := suits
    exact sound_advanceLayers (lawful_completeBuild lawful s has)
      ⟨tags, _, fun holds => ⟨(covers holds).1,
        covers_built (covers holds).2 (listed' holds) (has holds)⟩, needs, behind⟩ frames below
  · exact sound_done (lawful_forgetBuild lawful s layer _ _) frames' (Exit.fits_none _)
  · exact sound_done (lawful_forgetBuild lawful s layer _ _) frames' (Exit.fits_none _)
  · exact sound_done (lawful_forgetBuild (lawful_law.trace lawful _) s layer _ _) frames'
      (Exit.fits_none _)

/-! ## Evaluating a tree -/

/-- A fiber may wait for whatever the frames below can take. -/
theorem sound_suspend (lawful : m.Lawful strict cat old)
    (frames : Stack.Fits (strict s) cat none run.context run.stack) {pending : Pending σ}
    (tame : pending.Tame) :
    StepResult.Sound strict s cat old { control := .suspend pending, run, machine := m } :=
  sound_of_lawful lawful ⟨frames, tame⟩

theorem sound_evalAsync (lawful : m.Lawful strict cat old)
    (frames : Stack.Fits (strict s) cat none run.context run.stack)
    {register : WaitId → Action σ (Option (Cleanup σ))} (tame : Action.TameRegistration register) :
    (m.evalAsync f run register).Sound strict s cat old := by
  unfold evalAsync
  have opened : (m.openWait f .callback).2.Lawful strict cat old := lawful_law.openWait lawful f _
  generalize m.openWait f .callback = result at opened ⊢
  obtain ⟨w, n⟩ := result
  have performed := lawful_perform_of_tame opened (tame w).1
  have left : ∀ cleanup, (n.perform (register w)).1 = .ok (some cleanup) → cleanup.Tame :=
    fun cleanup => (tame w).2 _ _ cleanup
  dsimp only
  generalize n.perform (register w) = result at performed left ⊢
  obtain ⟨registered, n'⟩ := result
  cases registered with
  | ok cleanup =>
      cases cleanup with
      | none => exact sound_suspend performed frames trivial
      | some cleanup => exact sound_suspend performed frames (left cleanup rfl)
  | error p =>
      have claimed : (n'.claim w).2.Lawful strict cat old := lawful_law.claim performed w
      dsimp only
      split
      · exact sound_done claimed frames (Exit.fits_none _)
      · exact sound_suspend claimed frames trivial

theorem sound_evalWatch (lawful : m.Lawful strict cat old)
    (frames : Stack.Fits (strict s) cat none run.context run.stack) (target : FiberId)
    (how : Watch) : (m.evalWatch f run target how).Sound strict s cat old := by
  have opened : (m.openWait f .fiber).2.Lawful strict cat old := lawful_law.openWait lawful f _
  unfold evalWatch
  refine sound_suspend (lawful_law.watch ?_ target _ how) frames trivial
  split
  · exact lawful_law.interrupt opened target
  · exact opened

theorem sound_evalSleep (lawful : m.Lawful strict cat old)
    (frames : Stack.Fits (strict s) cat none run.context run.stack) (d : Duration) :
    (m.evalSleep f run d).Sound strict s cat old := by
  unfold evalSleep
  split
  · exact sound_of_lawful lawful (RunState.fits_done frames _)
  · refine sound_suspend ((lawful_law.openWait lawful f .timer).congr ?_ ?_ ?_ ?_) frames ?_
    all_goals first | rfl | trivial

/-- The children of a node can be run in the context of their parent. -/
theorem hosts_numbered (found : m.fiber? f = some row) {children : List (Node σ)}
    {context : Context Value} {tags : TagId → Prop}
    (covers : strict row.scope → context.Covers tags)
    (need : Node.AllNeed (strict row.scope) children cat tags) :
    m.Hosts strict cat f context (numbered children) := by
  refine ⟨row, found, fun entry listed => ?_⟩
  obtain ⟨i, inside, same⟩ := List.mem_mapIdx.1 listed
  exact ⟨tags, covers, Node.allNeed_iff.1 need _ (same ▸ List.getElem_mem inside)⟩

theorem sound_evalRace (lawful : m.Lawful strict cat old) {children : List (Node σ)}
    (hosts : m.Hosts strict cat f run.context (numbered children))
    (frames : Stack.Fits (strict s) cat none run.context run.stack) :
    (m.evalRace f run children).Sound strict s cat old := by
  unfold evalRace
  split
  · exact sound_done lawful frames (Exit.fits_none _)
  · exact sound_suspend (lawful_startRace lawful hosts) frames trivial

theorem sound_evalAll (lawful : m.Lawful strict cat old) {children : List (Node σ)}
    (hosts : m.Hosts strict cat f run.context (numbered children))
    (frames : Stack.Fits (strict s) cat none run.context run.stack) (options : AllOptions) :
    (m.evalAll f run children options).Sound strict s cat old := by
  unfold evalAll
  split
  · exact sound_done lawful frames (Exit.fits_none _)
  · exact sound_suspend (lawful_startAll lawful hosts options) frames trivial

/-- A fiber evaluates a tree that can be run in its context. -/
theorem sound_evalNode (lawful : m.Lawful strict cat old) (found : m.fiber? f = some row)
    (frames : Stack.Fits (strict row.scope) cat goal run.context run.stack) {n : Node σ}
    (suits : n.Suits (strict row.scope) cat goal run.context) :
    (m.evalNode f row.scope run n).Sound strict row.scope cat old := by
  obtain ⟨tags, covers, needs⟩ := suits
  cases n with
  | succeed v => exact sound_done lawful frames fun u same => Except.ok.inj same ▸ needs
  | fail c => exact sound_done lawful frames (Exit.fits_error c)
  | sync thunk =>
      obtain ⟨rfl, tame⟩ := needs
      have performed := lawful_perform_of_tame lawful tame
      unfold evalNode
      dsimp only
      generalize m.perform thunk = result at performed ⊢
      obtain ⟨x, n⟩ := result
      cases x with
      | ok x => exact sound_done performed frames x.fits_none
      | error p => exact sound_done performed frames (Exit.fits_none _)
  | once ticket x =>
      have performed := lawful_perform_of_tame lawful (Action.Tame.useTicket ticket)
      unfold evalNode
      dsimp only
      generalize m.perform (Action.useTicket ticket) = result at performed ⊢
      obtain ⟨good, n⟩ := result
      dsimp only
      split
      · exact sound_done performed frames needs
      · exact sound_done performed frames (Exit.fits_error _)
  | async register =>
      obtain ⟨rfl, tame⟩ := needs
      exact sound_evalAsync lawful frames tame
  | watch target how =>
      obtain rfl := needs
      exact sound_evalWatch lawful frames target how
  | awaitBuild layer =>
      obtain rfl := needs
      exact sound_suspend (lawful_joinBuild (lawful_law.openWait lawful f _) _ _ _) frames trivial
  | flatMap source next =>
      obtain ⟨first, goesOn⟩ := Node.needs_flatMap.1 needs
      exact sound_of_lawful lawful ⟨none, .flatMap (fun v => ⟨tags, covers, goesOn v⟩) frames,
        tags, covers, first⟩
  | recover source handler =>
      obtain ⟨first, goesOn⟩ := Node.needs_recover.1 needs
      exact sound_of_lawful lawful ⟨goal,
        .recover (fun failure => ⟨tags, covers, goesOn failure⟩) frames, tags, covers, first⟩
  | ensuring source finalizer =>
      obtain ⟨rfl, first, last⟩ := needs
      exact sound_of_lawful lawful
        ⟨none, .ensuring ⟨tags, covers, last⟩ frames, tags, covers, first⟩
  | uninterruptible source =>
      obtain ⟨rfl, inner⟩ := needs
      exact sound_of_lawful lawful ⟨none, .regionEnd frames, tags, covers, inner⟩
  | provide body plan exports =>
      obtain rfl := needs.1
      exact sound_provide lawful frames ⟨tags, covers, needs⟩
  | race children =>
      obtain ⟨rfl, need⟩ := needs
      exact sound_evalRace lawful (hosts_numbered found covers need) frames
  | all children options =>
      obtain ⟨rfl, need⟩ := needs
      exact sound_evalAll lawful (hosts_numbered found covers need) frames options
  | retry source schedule =>
      obtain ⟨rfl, inner⟩ := needs
      exact sound_of_lawful lawful ⟨none, .retry ⟨tags, covers, inner⟩ frames, tags, covers, inner⟩
  | repeated source schedule attempt =>
      obtain ⟨rfl, inner⟩ := needs
      exact sound_of_lawful lawful
        ⟨none, .repeated ⟨tags, covers, inner⟩ frames, tags, covers, inner⟩
  | sleep d =>
      obtain rfl := needs
      exact sound_evalSleep lawful frames d
  | access reader =>
      obtain ⟨-, leads⟩ := Node.needs_access.1 needs
      exact sound_build lawful frames ⟨tags, covers, leads run.context⟩
  | fork source =>
      obtain ⟨rfl, needs⟩ := needs
      exact sound_done (lawful_fork lawful found ⟨tags, covers, needs⟩) frames (Exit.fits_none _)
  | log level message =>
      obtain rfl := needs
      exact sound_done (lawful_law.write lawful _) frames (Exit.fits_none _)
  | span label source =>
      obtain ⟨rfl, inner⟩ := needs
      exact sound_of_lawful lawful ⟨none, .spanEnd frames, tags, covers, inner⟩
  | yield =>
      obtain rfl := needs
      exact sound_of_lawful lawful (RunState.fits_done frames _)

/-- A tree is evaluated, or an interrupt is noticed before it. -/
theorem sound_eval_node (lawful : m.Lawful strict cat old) (found : m.fiber? f = some row)
    (frames : Stack.Fits (strict row.scope) cat goal run.context run.stack) {n : Node σ}
    (suits : n.Suits (strict row.scope) cat goal run.context) :
    (m.eval f row.scope run n).Sound strict row.scope cat old := by
  unfold eval
  split
  · exact sound_done lawful frames (Exit.fits_error _)
  · exact sound_evalNode lawful found frames suits

/-! ## Handing an exit to a frame -/

/-- A source that is tried again finds what it needs, and it does so after every attempt. -/
theorem sound_resumeRetry (lawful : m.Lawful strict cat old)
    (frames : Stack.Fits (strict s) cat none run.context run.stack) {source : Node σ}
    (suits : source.Suits (strict s) cat none run.context) (schedule : Schedule Failure)
    (attempt : Nat) (failure : Failure) :
    (m.resumeRetry f run source schedule attempt failure).Sound strict s cat old := by
  unfold resumeRetry
  split
  · rename_i delay _
    have again : Stack.Fits (strict s) cat none run.context
        (.retry source schedule (Schedule.nextAttempt attempt) :: run.stack) := .retry suits frames
    unfold evalAfter
    split
    · exact sound_of_lawful (lawful_law.trace lawful _) ⟨none, again, suits⟩
    · obtain ⟨tags, covers, needs⟩ := suits
      exact sound_of_lawful (lawful_law.trace lawful _) ⟨none,
        .flatMap (fun _ => ⟨tags, covers, fun _ grown => .pure fun _ further =>
          needs.mono (fun holds => (grown holds).trans further) fun _ => id⟩) again,
        tags, covers, rfl⟩
  · exact sound_done (lawful_law.trace lawful _) frames (Exit.fits_none _)
  · exact sound_done lawful frames (Exit.fits_none _)

/-- A source that is repeated needs the same again. -/
theorem leads_repeatAfter {strict : Prop} {source : Node σ} {tags : TagId → Prop}
    (needs : source.Needs strict cat tags none) (schedule : Schedule Value) (attempt : Nat)
    (v : Value) : (repeatAfter source schedule attempt v).Leads strict cat tags none := by
  intro start grown
  have decided : (Action.ofExcept (schedule.decide? attempt v.known?) : Action σ Decision).Yields
      start fun _ _ => True := by
    cases schedule.decide? attempt v.known? with
    | ok decision => exact .pure fun _ _ => trivial
    | error p => exact .panic
  refine decided.bind fun later decision further _ => ?_
  have again : (Node.repeated source schedule (Schedule.nextAttempt attempt)).Needs strict later
      tags none :=
    ⟨rfl, needs.mono (fun holds => (grown holds).trans further) fun _ => id⟩
  have goesOn : ∀ {last}, later.Within last → (Node.repeated source schedule
      (Schedule.nextAttempt attempt)).Needs strict last tags none :=
    fun further => again.mono (fun _ => further) fun _ => id
  cases decision with
  | stop => exact (Node.leads_any _).yields
  | again delay =>
      dsimp only
      split
      · exact .pure fun _ further => goesOn further
      · exact .pure fun _ further => Node.needs_flatMap.2 ⟨rfl, fun _ _ grown =>
          .pure fun _ last => (goesOn further).mono (fun holds => (grown holds).trans last)
            fun _ => id⟩

/-- A frame takes an exit that brings what it expects. -/
theorem sound_resumeFrame (lawful : m.Lawful strict cat old) {frame : Frame σ}
    (frames : Stack.Fits (strict s) cat goal run.context (frame :: run.stack)) {x : Exit}
    (fits : x.Fits goal) : (m.resumeFrame f s run frame x).Sound strict s cat old := by
  obtain ⟨next, stack, context, shield, spans⟩ := run
  cases frames with
  | flatMap suits below =>
      cases x with
      | ok v => exact sound_build lawful below (suits v)
      | error c => exact sound_done lawful below (Exit.fits_error c)
  | recover suits below =>
      rcases x with (failure | d | _) | v
      · exact sound_build lawful below (suits failure)
      · exact sound_done lawful below (Exit.fits_error _)
      · exact sound_done lawful below (Exit.fits_error _)
      · exact sound_done lawful below fits
  | ensuring suits below => exact sound_of_lawful lawful ⟨none, .finalizing below, suits⟩
  | finalizing below =>
      cases x with
      | ok v => exact sound_done lawful below (Exit.fits_none _)
      | error c => exact sound_done (lawful_law.trace lawful _) below (Exit.fits_none _)
  | regionEnd below => exact sound_done lawful below fits
  | spanEnd below => exact sound_done lawful below fits
  | restore below => exact sound_done lawful below fits
  | retry suits below =>
      rcases x with (failure | d | _) | v
      · exact sound_resumeRetry lawful below suits _ _ failure
      · exact sound_done lawful below (Exit.fits_error _)
      · exact sound_done lawful below (Exit.fits_error _)
      · exact sound_done lawful below fits
  | repeated suits below =>
      obtain ⟨tags, covers, needs⟩ := suits
      cases x with
      | ok v => exact sound_build lawful below ⟨tags, covers, leads_repeatAfter needs _ _ v⟩
      | error c => exact sound_done lawful below (Exit.fits_error c)
  | @building _ _ build layer rest stack owning todo listed suits below =>
      rw [todo] at suits
      simp only [resumeFrame, resumeLayers, owning, if_true, todo]
      have ended : LayerBuild.Suits (strict s) cat
        { build with todo := layer :: rest, owning := false } (layer :: rest) := suits
      exact sound_endBuild lawful listed ended (by rfl) below fits
  | @waiting _ build stack waiting suits below =>
      simp only [resumeFrame, resumeLayers, waiting]
      cases x with
      | ok v => exact sound_advanceLayers lawful suits rfl below
      | error c => exact sound_done lawful (.restore below) (Exit.fits_none _)

/-- Any step of a fiber whose program fits. -/
theorem sound_stepRun (lawful : m.Lawful strict cat old) (found : m.fiber? f = some row)
    (fits : run.Fits (strict row.scope) cat) :
    (m.stepRun f row.scope run).Sound strict row.scope cat old := by
  obtain ⟨goal, frames, next⟩ := fits
  unfold stepRun
  split
  · rename_i n evaluates
    rw [evaluates] at next
    exact sound_eval_node lawful found frames next
  · rename_i x done
    rw [done] at next
    split
    · exact sound_of_lawful lawful trivial
    · rename_i frame stack split
      rw [split] at frames
      exact sound_resumeFrame lawful frames next

end Machine

end EffectFibers
