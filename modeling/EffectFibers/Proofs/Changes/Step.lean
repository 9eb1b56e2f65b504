import EffectFibers.Proofs.Changes.Children
import EffectFibers.Proofs.Coherence.Step

/-!
# Steps, change by change

A step of the fiber on the worker is done on its behalf: only for its sake waits are opened, groups
and children are started, and rows are changed in earnest.

## Main statements

* `Evolves.stepRun` – a step.
* `Evolves.follow`, `Evolves.dispatch` – what comes of it, and how a slice begins.
-/

namespace EffectFibers

variable {σ : Type}

namespace Evolves

variable {actor : Option FiberId} {deals : Bool} {m m' : Machine σ} {f g p : FiberId} {w : WaitId}
  {scope : ScopeId} {run : RunState σ}

/-- A change to what is neither a fiber nor a wait, a group or a layer, and not the worker. -/
theorem rest (fibers : m'.fibers = m.fibers) (waits : m'.waits = m.waits)
    (groups : m'.groups = m.groups) (running : m'.running = m.running)
    (budget : m'.stepBudget = m.stepBudget) (scopes : m'.scopes = m.scopes)
    (record : m'.record = m.record) : Evolves actor deals m m' :=
  of_change (.quiet (.of_scopes fibers waits groups running budget scopes) fun _ => by rw [record])

/-! ## Waiting -/

theorem openWait (m : Machine σ) (f : FiberId) (source : WaitSource) :
    Evolves (some f) deals m (m.openWait f source).2 :=
  of_change (.openWait m source rfl)

theorem untimed_openWait {source : WaitSource} (other : source ≠ .timer) :
    (m.openWait f source).2.Untimed (m.openWait f source).1 :=
  ⟨{ owner := f, source }, Table.get?_push_self _ _, other⟩

theorem evalAsync (m : Machine σ) (f : FiberId) (run : RunState σ)
    (register : WaitId → Action σ (Option (Cleanup σ))) :
    Evolves (some f) deals m (m.evalAsync f run register).machine := by
  have opened : Evolves (some f) deals m _ := openWait m f .callback
  have row : (m.openWait f .callback).2.waits.get? m.waits.nextId =
      some { owner := f, source := .callback } := Table.get?_push_self _ _
  unfold Machine.evalAsync
  simp only
  have ran : Evolves (some f) deals (m.openWait f .callback).2
      ((m.openWait f .callback).2.perform (register (m.openWait f .callback).1)).2 := perform _ _
  generalize (m.openWait f .callback).2.perform (register (m.openWait f .callback).1) = result
    at ran ⊢
  obtain ⟨reply, m'⟩ := result
  cases reply with
  | ok cleanup => exact opened.trans ran
  | error p =>
      refine (opened.trans ran).trans (of_change (.claim fun wait row' _ => ?_))
      obtain ⟨wait', row'', owner, -⟩ := ran.keepsWaits row
      obtain rfl := Option.some.inj (row''.symm.trans row')
      exact congrArg some owner.symm

/-- What a fiber does that has opened a wait to watch another one. -/
theorem evalWatch_opened (m : Machine σ) (f : FiberId) (run : RunState σ) (target : FiberId)
    (how : Watch) : Evolves actor true (m.openWait f .fiber).2
      (m.evalWatch f run target how).machine := by
  have untimed : (m.openWait f .fiber).2.Untimed m.waits.nextId := untimed_openWait nofun
  unfold Machine.evalWatch
  simp only
  split
  · have broken : Evolves actor true (m.openWait f .fiber).2
        ((m.openWait f .fiber).2.interrupt target) := interrupt _ target
    exact broken.trans (watch (untimed.mono broken.keepsWaits) target how)
  · exact watch untimed target how

theorem evalWatch (m : Machine σ) (f : FiberId) (run : RunState σ) (target : FiberId)
    (how : Watch) : Evolves (some f) true m (m.evalWatch f run target how).machine :=
  (openWait m f .fiber).trans (evalWatch_opened m f run target how)

theorem evalAwaitBuild (m : Machine σ) (f : FiberId) (scope : ScopeId) (run : RunState σ)
    (layer : LayerId) : Evolves (some f) deals m (m.evalAwaitBuild f scope run layer).machine :=
  (openWait m f .build).trans (joinBuild scope layer (untimed_openWait nofun))

theorem evalSleep (m : Machine σ) (f : FiberId) (run : RunState σ) (d : Duration) :
    Evolves (some f) deals m (m.evalSleep f run d).machine := by
  unfold Machine.evalSleep
  split
  · exact refl m
  · exact (openWait m f .timer).trans (rest rfl rfl rfl rfl rfl rfl rfl)

/-! ## Layers -/

theorem advanceLayers (m : Machine σ) (f : FiberId) (scope : ScopeId) (run : RunState σ)
    (build : LayerBuild σ) (layers : List (LayerNode σ)) :
    Evolves actor deals m (m.advanceLayers f scope run build layers).machine := by
  induction layers generalizing m build with
  | nil => exact refl m
  | cons layer layers ih =>
      have looked : Evolves actor deals m (m.lookUpLayer scope layer f).2 :=
        lookUpLayer m scope layer f
      unfold Machine.advanceLayers
      generalize m.lookUpLayer scope layer f = result at looked ⊢
      obtain ⟨state, m'⟩ := result
      cases state with
      | built context => exact looked.trans (ih m' _)
      | claimed => exact looked
      | busy => exact looked

theorem provide (m : Machine σ) (f : FiberId) (scope : ScopeId) (run : RunState σ) (body : Node σ)
    (plan : LayerPlan σ) (exports : List TagId) :
    Evolves actor deals m (m.provide f scope run body plan exports).machine := by
  cases plan with
  | error e => exact refl m
  | ok layers => exact advanceLayers m f scope _ _ layers

theorem endBuild (tidy : m.Tidy) (f : FiberId) (scope : ScopeId) (run : RunState σ)
    (build : LayerBuild σ) (layer : LayerNode σ) (rest : List (LayerNode σ)) (x : Exit) :
    Evolves actor deals m (m.endBuild f scope run build layer rest x).machine := by
  unfold Machine.endBuild
  split
  · exact (completeBuild m scope layer _).trans (advanceLayers _ f scope run _ rest)
  · exact forgetBuild tidy scope layer _ _
  · exact forgetBuild tidy scope layer _ _
  · rename_i cause _
    have told : Evolves actor deals m (m.trace (.buildFailed layer.name cause)) :=
      trace m (.inr rfl)
    exact told.trans (forgetBuild (told.tidy tidy) scope layer _ _)

theorem resumeLayers (tidy : m.Tidy) (f : FiberId) (scope : ScopeId) (run : RunState σ)
    (build : LayerBuild σ) (x : Exit) :
    Evolves actor deals m (m.resumeLayers f scope run build x).machine := by
  unfold Machine.resumeLayers
  split
  · split
    · exact refl m
    · exact endBuild tidy f scope _ _ _ _ x
  · split
    · exact advanceLayers m f scope run build build.todo
    · exact refl m

/-! ## Steps -/

theorem build (m : Machine σ) (run : RunState σ) (code : Action σ (Node σ)) :
    Evolves actor deals m (m.build run code).machine := perform m code

/-- Only a node that watches a fiber deals with an end. -/
theorem evalNode (row : (m.fiber? f).isSome) (scope : ScopeId) (run : RunState σ) (node : Node σ)
    (other : deals = true ∨ ∀ target how, node ≠ .watch target how) :
    Evolves (some f) deals m (m.evalNode f scope run node).machine := by
  cases node with
  | sync thunk =>
      have ran : Evolves (some f) deals m (m.perform thunk).2 := perform m thunk
      simp only [Machine.evalNode]
      generalize m.perform thunk = result at ran ⊢
      obtain ⟨reply, m'⟩ := result
      cases reply <;> exact ran
  | once ticket x => exact perform m (Action.useTicket ticket)
  | async register => exact evalAsync m f run register
  | watch target how =>
      obtain rfl := other.resolve_right fun never => never _ _ rfl
      exact evalWatch m f run target how
  | awaitBuild layer => exact evalAwaitBuild m f scope run layer
  | provide body plan exports => exact provide m f scope run body plan exports
  | race children =>
      simp only [Machine.evalNode, Machine.evalRace]
      split
      · exact refl m
      · exact startRace row run.context children
  | all children options =>
      simp only [Machine.evalNode, Machine.evalAll]
      split
      · exact refl m
      · exact startAll row run.context children options
  | sleep d => exact evalSleep m f run d
  | access reader => exact build m run (reader run.context)
  | fork source => exact fork source run.context
  | log level message => exact write m (.inr rfl)
  | _ => exact refl m

theorem resumeFrame (tidy : m.Tidy) (f : FiberId) (scope : ScopeId) (run : RunState σ)
    (frame : Frame σ) (x : Exit) :
    Evolves actor deals m (m.resumeFrame f scope run frame x).machine := by
  unfold Machine.resumeFrame
  split
  · exact build m run _
  · exact refl m
  · exact build m run _
  · exact refl m
  · exact refl m
  · unfold Machine.resumeFinalizing
    split
    · exact refl m
    · exact trace m (.inr rfl)
  · exact refl m
  · exact refl m
  · exact refl m
  · unfold Machine.resumeRetry
    split
    · exact trace m (.inr rfl)
    · exact trace m (.inr rfl)
    · exact refl m
  · exact refl m
  · exact build m run _
  · exact refl m
  · exact resumeLayers tidy f scope run _ x

theorem stepRun (tidy : m.Tidy) (row : (m.fiber? f).isSome) (scope : ScopeId) (run : RunState σ)
    (other : deals = true ∨ ∀ target how, run.next ≠ .eval (.watch target how)) :
    Evolves (some f) deals m (m.stepRun f scope run).machine := by
  unfold Machine.stepRun
  split
  · rename_i node next
    unfold Machine.eval
    split
    · exact refl m
    · refine evalNode row scope run _ (other.imp_right fun never target how same => ?_)
      exact never target how (same ▸ next)
  · split
    · exact refl m
    · exact resumeFrame tidy f scope _ _ _

/-! ## What comes of a step -/

/-- The actor changes its own row, but neither its mark nor what it knows of its end nor what it was
born with. -/
theorem own (change : Fiber σ → Fiber σ) (kept : ∀ fiber : Fiber σ,
    (change fiber).interrupted = fiber.interrupted ∧ fiber.SameBook (change fiber))
    (seat : ∀ fiber : Fiber σ, fiber.SameSeat (change fiber)) :
    Evolves (some f) deals m (m.modifyFiber f change) :=
  of_change (.own rfl kept seat)

theorem requeue (m : Machine σ) (f : FiberId) (run : RunState σ) :
    Evolves (some f) deals m (m.requeue f run) :=
  (own (fun fiber => { fiber with run := some run }) (fun _ => ⟨rfl, rfl, rfl, rfl⟩)
    fun _ => ⟨rfl, rfl, rfl⟩).trans (enqueue _ f)

theorem suspend (m : Machine σ) (f : FiberId) (run : RunState σ) (pending : Pending σ) :
    Evolves (some f) deals m (m.suspend f run pending) :=
  own (fun fiber => { fiber with run := some run, pending := some pending, status := .suspended })
    (fun _ => ⟨rfl, rfl, rfl, rfl⟩) fun _ => ⟨rfl, rfl, rfl⟩

theorem setRunning (m : Machine σ) (running : Option (Slice σ)) :
    Evolves (some f) deals m { m with running } := of_change (.worker m running rfl)

theorem park {slice : Slice σ} {pending : Pending σ} (owns : ∀ w c wait, pending = .wait w c →
      m.waits.get? w = some wait → wait.claimed = false → wait.owner = slice.fiber) :
    Evolves (some slice.fiber) deals m (m.park slice pending) := by
  unfold Machine.park
  simp only
  split
  · exact (own (fun fiber => { fiber with input := none }) (fun _ => ⟨rfl, rfl, rfl, rfl⟩)
      fun _ => ⟨rfl, rfl, rfl⟩).trans (setRunning _ _)
  · exact suspend m _ _ _
  · rename_i w canceler _
    have claimed : Evolves (some slice.fiber) deals m (m.claim w).2 :=
      of_change (.claim fun wait row free => congrArg some (owns w canceler wait rfl row free).symm)
    split
    · generalize m.claim w = result at claimed ⊢
      obtain ⟨won, m'⟩ := result
      cases won with
      | true => exact claimed.trans ((runCanceler _ _ _).trans (setRunning _ _))
      | false => exact claimed.trans (suspend m' _ _ _)
    · exact suspend m _ _ _

theorem follow (tidy : m.Tidy) {slice : Slice σ} {control : Control σ}
    (coherent : ∀ x, control = .finish x → Coherent m.core { held := some slice.fiber })
    (owns : ∀ w c wait, control = .suspend (.wait w c) → m.waits.get? w = some wait →
      wait.claimed = false → wait.owner = slice.fiber)
    (other : deals = true ∨ ∀ x, control ≠ .finish x) :
    Evolves (some slice.fiber) deals m (m.follow slice control) := by
  cases control with
  | next step =>
      simp only [Machine.follow]
      split
      · exact requeue m _ _
      · exact setRunning m _
  | yield step => exact requeue m _ _
  | suspend pending =>
      exact park fun w c wait waits => owns w c wait (congrArg Control.suspend waits)
  | finish x =>
      obtain rfl := other.resolve_right fun never => never x rfl
      exact finish tidy (coherent x rfl) x

/-- A slice begins on behalf of the fiber whose slice it is. -/
theorem dispatch (m : Machine σ) :
    Evolves (m.ready.toList.head?) deals m m.dispatch := by
  unfold Machine.dispatch
  split
  · exact refl m
  · rename_i f ready popped
    have first : m.ready.toList.head? = some f := by
      rw [ReadyQueue.toList_of_pop popped]
      rfl
    rw [first]
    have taken : Evolves (some f) deals m { m with ready } := rest rfl rfl rfl rfl rfl rfl rfl
    simp only
    split
    · exact taken
    · split
      · exact taken
      · exact taken.trans ((own (fun fiber => { fiber with run := none, input := none })
          (fun _ => ⟨rfl, rfl, rfl, rfl⟩) fun _ => ⟨rfl, rfl, rfl⟩).trans (setRunning _ _))

end Evolves

end EffectFibers
