import EffectFibers.Proofs.Timers.Queue
import EffectFibers.Proofs.Waits.Events

/-!
# Which timers an operation cancels

An interrupt takes a fiber out of a sleep in two moves.  First it claims the wait, and when it has
been through everything below the fiber it cancels the timer.  In between the timer is owed: its
wait is over, and it still stands in the queue.  Nothing else that is done on behalf of others has
anything to do with timers or with the waits that timers are to end.  Who answers a wait of another
fiber knows it as a callback, as a watcher or as somebody who waits for a layer, and these waits are
not for timers.

So two things can be said of every operation but the step that sets a timer, the fiber that gives up
a sleep of its own, and the timer that fires.  A timer is cancelled only if somebody slept on it
whose wait is over now; and if a wait for a timer is over now then somebody slept on it, and the
timer that he left behind is no longer pending.

## Main definitions

* `Machine.LeavesTimers` – a change that neither cancels a timer nor ends a wait for one.
* `Machine.Cancelling` – what has been done to timers so far, and which of them are owed.

## Main statements

* `Machine.Cancelling.interrupt` – an interrupt.
* `Machine.Cancelling.perform`, `Machine.Cancelling.finish` – user code, and the end of a program.
-/

namespace EffectFibers

variable {σ : Type}

namespace TimerRegistry

variable {β : Type}

theorem cancelAll_append (r : TimerRegistry β) (hs more : List TimerId) :
    r.cancelAll (hs ++ more) = (r.cancelAll hs).cancelAll more := List.foldl_append

theorem isPending_cancel (r : TimerRegistry β) (h g : TimerId) :
    (r.cancel h).2.queue.isPending g = (g ≠ h && r.queue.isPending g) := by
  show ((r.queue.cancel h).2.action? g).isSome = _
  rw [TimerQueue.action?_cancel]
  by_cases same : g = h
  · simp [same]
  · simp [same, TimerQueue.isPending]

/-- The handles in a registry are those of timers that it has set. -/
structure WellFormed (r : TimerRegistry β) : Prop where
  queue : r.queue.WellFormed
  issued : ∀ h ∈ r.queue.handles, h.raw ≤ r.handles.issued

theorem WellFormed.cancel {r : TimerRegistry β} (wf : r.WellFormed) (h : TimerId) :
    (r.cancel h).2.WellFormed where
  queue := wf.queue.cancel h
  issued g mem := wf.issued g (r.queue.handles_cancel_subset h mem)

/-- Several timers are cancelled: the others are left. -/
theorem WellFormed.cancelAll {r : TimerRegistry β} (wf : r.WellFormed) (hs : List TimerId) :
    (r.cancelAll hs).WellFormed ∧ (r.cancelAll hs).handles = r.handles ∧
      ∀ e, e ∈ (r.cancelAll hs).queue.pending ↔ e ∈ r.queue.pending ∧ e.1 ∉ hs := by
  induction hs generalizing r with
  | nil => exact ⟨wf, rfl, fun e => by simp [TimerRegistry.cancelAll]⟩
  | cons h hs ih =>
      obtain ⟨kept, handles, pending⟩ := ih (wf.cancel h)
      refine ⟨kept, handles, fun e => (pending e).trans ?_⟩
      rw [show e ∈ (r.cancel h).2.queue.pending ↔ e ∈ r.queue.pending ∧ e.1 ≠ h from
        TimerQueue.mem_removePending, List.mem_cons, not_or, and_assoc]

end TimerRegistry

/-- The timer that a canceler cancels. -/
def Canceler.timers : Canceler σ → List TimerId
  | .timer h => [h]
  | _ => []

namespace Machine

variable {m₀ m m' m'' : Machine σ} {owed : List TimerId} {f g p : FiberId} {fiber : Fiber σ}
  {w : WaitId} {scope : ScopeId} {run : RunState σ}

/-! ## Changes that leave timers alone -/

/-- A change that neither cancels a timer nor claims a wait for one, nor puts a fiber to sleep, nor
makes a wait known to others that is for a timer. -/
structure LeavesTimers (m m' : Machine σ) : Prop where
  waits : m.KeepsWaits m'
  sleeps : ∀ ⦃g after p⦄, m'.fiber? g = some after → after.pending = some p →
    ∃ before, m.fiber? g = some before ∧ before.pending = some p
  watchers : ∀ ⦃g after w how⦄, m'.fiber? g = some after → .watcher w how ∈ after.observers →
    m'.Untimed w ∨ ∃ before, m.fiber? g = some before ∧ .watcher w how ∈ before.observers
  builders : ∀ ⦃w⦄, m'.AwaitsBuild w → m.AwaitsBuild w ∨ m'.Untimed w
  timers : m'.timers = m.timers
  spared : ∀ ⦃w wait⦄, m.waits.get? w = some wait → wait.source = .timer → m'.Claimed w →
    wait.claimed = true

theorem Claimed.mono (claimed : m.Claimed w) (kept : m.KeepsWaits m') : m'.Claimed w := by
  obtain ⟨wait, found, was⟩ := claimed
  obtain ⟨wait', found', -, -, still⟩ := kept found
  exact ⟨wait', found', still was⟩

theorem Claimed.row {wait : Wait} (claimed : m.Claimed w) (found : m.waits.get? w = some wait) :
    wait.claimed = true := by
  obtain ⟨wait', found', was⟩ := claimed
  obtain rfl := Option.some.inj (found.symm.trans found')
  exact was

theorem KeepsWaits.trans (first : m.KeepsWaits m') (second : m'.KeepsWaits m'') :
    m.KeepsWaits m'' := by
  intro w wait found
  obtain ⟨wait', found', owner, source, still⟩ := first found
  obtain ⟨wait'', found'', owner', source', still'⟩ := second found'
  exact ⟨wait'', found'', owner'.trans owner, source'.trans source, still' ∘ still⟩

namespace LeavesTimers

theorem refl (m : Machine σ) : m.LeavesTimers m where
  waits := .of_eq rfl
  sleeps _ after _ row asleep := ⟨after, row, asleep⟩
  watchers _ after _ _ row listed := .inr ⟨after, row, listed⟩
  builders _ := .inl
  timers := rfl
  spared _ _ found _ claimed := claimed.row found

theorem trans (first : m.LeavesTimers m') (second : m'.LeavesTimers m'') :
    m.LeavesTimers m'' where
  waits := first.waits.trans second.waits
  sleeps _ _ _ row asleep := by
    obtain ⟨middle, row', asleep'⟩ := second.sleeps row asleep
    exact first.sleeps row' asleep'
  watchers _ _ _ _ row listed := by
    rcases second.watchers row listed with untimed | ⟨middle, row', listed'⟩
    · exact .inl untimed
    · exact (first.watchers row' listed').imp_left fun untimed => untimed.mono second.waits
  builders _ awaits := by
    rcases second.builders awaits with awaits | untimed
    · exact (first.builders awaits).imp_right fun untimed => untimed.mono second.waits
    · exact .inr untimed
  timers := second.timers.trans first.timers
  spared _ _ found source claimed := by
    obtain ⟨wait', found', -, source', -⟩ := first.waits found
    refine first.spared found source ⟨wait', found', ?_⟩
    exact second.spared found' (source'.trans source) claimed

theorem of_eq (fibers : m'.fibers = m.fibers) (waits : m'.waits = m.waits)
    (timers : m'.timers = m.timers) (scopes : m'.scopes = m.scopes) : m.LeavesTimers m' := by
  have rows : ∀ g, m'.fiber? g = m.fiber? g := fun g => by rw [fiber?, fibers, fiber?]
  have start := refl m
  refine ⟨.of_eq waits, fun g after p row => ?_, fun g after w how row => ?_, fun w awaits => ?_,
    timers, fun w wait found source claimed => ?_⟩
  · exact start.sleeps (rows g ▸ row)
  · exact fun listed => .inr ⟨after, rows g ▸ row, listed⟩
  · obtain ⟨scope, layer, listed⟩ := awaits
    refine .inl ⟨scope, layer, ?_⟩
    rwa [memo, scopes] at listed
  · refine start.spared found source ?_
    rwa [Claimed, waits] at claimed

/-- A change to one row, in which the fiber is not put to sleep and gets no watcher that waits for a
timer. -/
theorem of_modify (g : FiberId) {change : Fiber σ → Fiber σ}
    (pending : ∀ fiber : Fiber σ, (change fiber).pending = fiber.pending ∨
      (change fiber).pending = none)
    (watchers : ∀ fiber w how, .watcher w how ∈ (change fiber).observers →
      .watcher w how ∈ fiber.observers ∨ m.Untimed w) :
    m.LeavesTimers (m.modifyFiber g change) where
  waits := .of_eq rfl
  sleeps f after p row asleep := by
    obtain ⟨before, row', rfl | ⟨-, rfl⟩⟩ := fiber?_of_modifyFiber row
    · exact ⟨_, row', asleep⟩
    · rcases pending before with same | awake
      · exact ⟨before, row', same ▸ asleep⟩
      · cases awake.symm.trans asleep
  watchers f after w how row listed := by
    obtain ⟨before, row', rfl | ⟨-, rfl⟩⟩ := fiber?_of_modifyFiber row
    · exact .inr ⟨_, row', listed⟩
    · rcases watchers before w how listed with old | untimed
      · exact .inr ⟨before, row', old⟩
      · exact .inl untimed
  builders _ := .inl
  timers := rfl
  spared := (refl m).spared

/-- A change to one row that keeps the watchers. -/
theorem of_row (g : FiberId) {change : Fiber σ → Fiber σ}
    (kept : ∀ fiber : Fiber σ, ((change fiber).pending = fiber.pending ∨
      (change fiber).pending = none) ∧ (change fiber).observers ⊆ fiber.observers) :
    m.LeavesTimers (m.modifyFiber g change) :=
  of_modify g (fun fiber => (kept fiber).1) fun fiber _ _ listed => .inl ((kept fiber).2 listed)

theorem push {newborn : Fiber σ} (awake : newborn.pending = none)
    (unwatched : newborn.observers = []) :
    m.LeavesTimers { m with fibers := m.fibers.push newborn } := by
  have rows : ∀ g after, { m with fibers := m.fibers.push newborn }.fiber? g = some after →
      after = newborn ∨ m.fiber? g = some after := by
    intro g after row
    rw [fiber?, Table.get?_push] at row
    split at row
    · exact .inl (Option.some.inj row).symm
    · exact .inr row
  refine ⟨.of_eq rfl, fun g after p row asleep => ?_, fun g after w how row listed => ?_,
    fun _ => .inl, rfl, (refl m).spared⟩
  · rcases rows g after row with rfl | old
    · cases awake.symm.trans asleep
    · exact ⟨after, old, asleep⟩
  · rcases rows g after row with rfl | old
    · rw [unwatched] at listed
      cases listed
    · exact .inr ⟨after, old, listed⟩

theorem openWait (m : Machine σ) (f : FiberId) (source : WaitSource) :
    m.LeavesTimers (m.openWait f source).2 where
  waits _ wait found := ⟨wait, Table.get?_push_of_some _ found, rfl, rfl, id⟩
  sleeps := (refl m).sleeps
  watchers _ after _ _ row listed := .inr ⟨after, row, listed⟩
  builders _ := .inl
  timers := rfl
  spared _ _ found _ claimed := claimed.row (Table.get?_push_of_some _ found)

/-- A claim of a wait that is not for a timer. -/
theorem claim (untimed : m.Untimed w) : m.LeavesTimers (m.claim w).2 := by
  have fibers : ∀ g, (m.claim w).2.fiber? g = m.fiber? g := fun g => m.fiber?_claim w g
  obtain ⟨waits, same⟩ := m.claim_eq w
  refine ⟨m.keepsWaits_claim w, fun g after p row => ?_, fun g after v how row listed => ?_,
    fun v awaits => .inl ?_, by rw [same], fun v wait found source claimed => ?_⟩
  · exact (refl m).sleeps (fibers g ▸ row)
  · exact .inr ⟨after, fibers g ▸ row, listed⟩
  · rw [same] at awaits
    exact awaits
  · have other : w ≠ v := by
      rintro rfl
      obtain ⟨wait', found', not_timer⟩ := untimed
      obtain rfl := Option.some.inj (found.symm.trans found')
      exact not_timer source
    exact claimed.row ((get?_claim_of_ne other m).trans found)

theorem enqueue (m : Machine σ) (f : FiberId) : m.LeavesTimers (m.enqueue f) :=
  of_eq rfl rfl rfl rfl

theorem write (m : Machine σ) (entry : Entry) : m.LeavesTimers (m.write entry) :=
  of_eq rfl rfl rfl rfl

theorem trace (m : Machine σ) (event : TraceEvent) : m.LeavesTimers (m.trace event) :=
  write m _

theorem mark (m : Machine σ) (f : FiberId) : m.LeavesTimers (m.mark f) :=
  of_row f fun _ => ⟨.inl rfl, List.Subset.refl _⟩

theorem foldl {α : Type} {step : Machine σ → α → Machine σ} (m : Machine σ)
    (steps : ∀ (m : Machine σ) a, m.LeavesTimers (step m a)) (as : List α) :
    m.LeavesTimers (as.foldl step m) := by
  induction as generalizing m with
  | nil => exact refl m
  | cons a as ih => exact (steps m a).trans (ih _)

theorem deliver (m : Machine σ) (f : FiberId) (x : Exit) : m.LeavesTimers (m.deliver f x) := by
  unfold Machine.deliver
  split
  · refine (of_row f fun fiber => ?_).trans (enqueue _ f)
    exact ⟨.inr rfl, List.Subset.refl _⟩
  · exact of_row f fun _ => ⟨.inl rfl, List.Subset.refl _⟩
  · exact refl m

theorem resume (untimed : m.Untimed w) (x : Exit) : m.LeavesTimers (m.resume w x) := by
  obtain ⟨same, -⟩ | ⟨wait, -, -, same⟩ := m.resume_cases w x <;> rw [same]
  · exact refl m
  · exact (claim untimed).trans (deliver _ _ x)

theorem resumeCallback (m : Machine σ) (w : WaitId) (x : Exit) :
    m.LeavesTimers (m.resumeCallback w x) := by
  unfold Machine.resumeCallback
  split
  · rename_i callback
    obtain ⟨wait, found, source⟩ := (Option.any_eq_true _ _).1 callback
    refine resume ⟨wait, found, ?_⟩ x
    rw [eq_of_beq source]
    exact nofun
  · exact refl m

theorem wake {waiters : List WaitId} (untimed : ∀ w ∈ waiters, m.Untimed w) (x : Exit) :
    m.LeavesTimers (m.wake waiters x) := by
  induction waiters generalizing m with
  | nil => exact refl m
  | cons w waiters ih =>
      have first : m.LeavesTimers (m.resume w x) := resume (untimed w List.mem_cons_self) x
      exact first.trans (ih fun v listed => (untimed v (.tail w listed)).mono first.waits)

theorem runCleanup (m : Machine σ) (f : FiberId) (cleanup : Cleanup σ) :
    m.LeavesTimers (m.runCleanup f cleanup) := by
  have changed : m.LeavesTimers { m with world := (cleanup (statusOf m.fibers) m.world).world } :=
    of_eq rfl rfl rfl rfl
  unfold Machine.runCleanup
  dsimp only
  generalize noted : List.foldl _ _ _ = served
  have kept : m.LeavesTimers served := by
    subst noted
    refine changed.trans (foldl _ (fun n request => ?_) _)
    cases request with
    | note v => exact write n _
    | _ => exact refl n
  split
  · exact kept
  · exact kept.trans (trace _ _)

/-- A change to what a run knows about its layers. -/
theorem modifyMemo (m : Machine σ) (scope : ScopeId) {change : Memo → Memo}
    (kept : ∀ layer w, w ∈ (change (m.memo scope)).waiters layer →
      w ∈ (m.memo scope).waiters layer ∨ m.Untimed w) :
    m.LeavesTimers (m.modifyMemo scope change) where
  waits := .of_eq rfl
  sleeps := (refl m).sleeps
  watchers := (refl m).watchers
  builders w awaits := by
    obtain ⟨s, layer, listed⟩ := awaits
    simp only [memo, Machine.modifyMemo, Table.get?_modify] at listed
    split at listed
    · rename_i same
      subst same
      cases row : m.scopes.get? scope with
      | none => simp [row, Memo.waiters, Memo.get?] at listed
      | some memo =>
          have known : m.memo scope = memo := by simp [Machine.memo, row]
          rw [row] at listed
          refine (kept layer w (known.symm ▸ listed)).imp_left fun old => ⟨scope, layer, old⟩
    · exact .inl ⟨s, layer, listed⟩
  timers := rfl
  spared := (refl m).spared

theorem lookUpLayer (m : Machine σ) (scope : ScopeId) (layer : LayerNode σ) (f : FiberId) :
    m.LeavesTimers (m.lookUpLayer scope layer f).2 := by
  unfold Machine.lookUpLayer
  split
  · exact refl m
  · exact refl m
  · refine (modifyMemo m scope fun k w listed => .inl ?_).trans (trace _ _)
    rw [Evolves.waiters_insert] at listed
    split at listed
    · cases listed
    · exact listed

theorem advanceLayers (m : Machine σ) (f : FiberId) (scope : ScopeId) (run : RunState σ)
    (build : LayerBuild σ) (layers : List (LayerNode σ)) :
    m.LeavesTimers (m.advanceLayers f scope run build layers).machine := by
  induction layers generalizing m build with
  | nil => exact refl m
  | cons layer layers ih =>
      have looked : m.LeavesTimers (m.lookUpLayer scope layer f).2 := lookUpLayer m scope layer f
      unfold Machine.advanceLayers
      generalize m.lookUpLayer scope layer f = result at looked ⊢
      obtain ⟨state, n⟩ := result
      cases state with
      | built context => exact looked.trans (ih n _)
      | claimed => exact looked
      | busy => exact looked

/-! ### New fibers -/

theorem spawnChild (m : Machine σ) (p : FiberId) (node : Node σ) (context : Context Value)
    (reader : ExitReader) : m.LeavesTimers (m.spawnChild p node context reader).2 := by
  refine (push ?_ ?_).trans ((of_row p fun fiber => ?_).trans (trace _ _))
  · rfl
  · rfl
  · exact ⟨.inl rfl, List.Subset.refl _⟩

theorem spawnMembers (m : Machine σ) (p : FiberId) (context : Context Value) (k : GroupId)
    (nodes : List (Nat × Node σ)) : m.LeavesTimers (m.spawnMembers p context k nodes).2 := by
  induction nodes generalizing m with
  | nil => exact refl m
  | cons node nodes ih =>
      exact (spawnChild m p node.2 context (.group k node.1)).trans (ih _)

theorem setGroup (m : Machine σ) (k : GroupId) (group : Group σ) :
    m.LeavesTimers (m.setGroup k group) := of_eq rfl rfl rfl rfl

theorem enqueueAll (m : Machine σ) (fibers : List FiberId) :
    m.LeavesTimers (m.enqueueAll fibers) := foldl m (fun m f => enqueue m f) fibers

theorem fill (m : Machine σ) (k : GroupId) (all : Gathering σ) : m.LeavesTimers (m.fill k all) := by
  unfold Machine.fill
  dsimp only
  split
  · exact refl m
  · exact (spawnMembers m _ _ k _).trans ((setGroup _ k _).trans (enqueueAll _ _))

theorem startRace (m : Machine σ) (p : FiberId) (context : Context Value) (nodes : List (Node σ)) :
    m.LeavesTimers (m.startRace p context nodes).2 := by
  have pushed : ∀ group, m.LeavesTimers { m with groups := m.groups.push group } :=
    fun group => of_eq rfl rfl rfl rfl
  exact (pushed _).trans ((spawnMembers _ p context _ _).trans
    ((setGroup _ _ _).trans (enqueueAll _ _)))

theorem startAll (m : Machine σ) (p : FiberId) (context : Context Value) (nodes : List (Node σ))
    (options : AllOptions) : m.LeavesTimers (m.startAll p context nodes options).2 := by
  let all := Gathering.task p context nodes options
  have pushed : m.LeavesTimers { m with groups := m.groups.push (.all all) } :=
    of_eq rfl rfl rfl rfl
  exact pushed.trans (fill _ m.groups.nextId all)

theorem startRoot (m : Machine σ) (node : Node σ) : m.LeavesTimers (m.startRoot node).2 := by
  have noted : m.LeavesTimers { m with scopes := m.scopes.push [] } := by
    refine { refl m with builders := fun w awaits => .inl ?_ }
    obtain ⟨scope, layer, listed⟩ := awaits
    refine ⟨scope, layer, ?_⟩
    simp only [memo, Table.get?_push] at listed ⊢
    split at listed
    · cases listed
    · exact listed
  have born : { m with scopes := m.scopes.push [] }.LeavesTimers (m.spawnRoot node).2 :=
    (push rfl rfl).trans (trace _ _)
  exact (noted.trans born).trans (of_eq rfl rfl rfl rfl)

/-! ### The ends of fibers -/

theorem takeExit (m : Machine σ) (f : FiberId) : m.LeavesTimers (m.takeExit f).2 := by
  unfold Machine.takeExit
  split
  · exact of_row f fun _ => ⟨.inl rfl, List.Subset.refl _⟩
  · exact refl m

theorem tellWatcher (untimed : m.Untimed w) (f : FiberId) (how : Watch) :
    m.LeavesTimers (m.tellWatcher f w how) := by
  have taken := takeExit m f
  have still := untimed.mono taken.waits
  cases how with
  | join => exact taken.trans (resume still _)
  | await => exact taken.trans (resume still _)
  | interrupt => exact resume untimed _

theorem watch (untimed : m.Untimed w) (f : FiberId) (how : Watch) :
    m.LeavesTimers (m.watch f w how) := by
  unfold Machine.watch
  split
  · exact tellWatcher untimed f how
  · refine of_modify f (fun _ => .inl rfl) fun fiber v how' listed => ?_
    rcases List.mem_append.1 listed with old | new
    · exact .inl old
    · obtain ⟨rfl, -⟩ := Observer.watcher.inj (List.mem_singleton.1 new)
      exact .inr untimed

theorem detach (m : Machine σ) (f : FiberId) (parent : Option FiberId) :
    m.LeavesTimers (m.detach f parent) := by
  cases parent with
  | none => exact of_eq rfl rfl rfl rfl
  | some parent => exact of_row parent fun _ => ⟨.inl rfl, List.Subset.refl _⟩

theorem childGone (m : Machine σ) (p : FiberId) : m.LeavesTimers (m.childGone p).2 := by
  unfold Machine.childGone
  split
  · exact refl m
  · exact of_row p fun _ => ⟨.inl rfl, List.Subset.refl _⟩

end LeavesTimers

/-! ## Timers that are cancelled -/

/-- What has been done to timers since an earlier machine.  Timers were cancelled on which somebody
slept whose wait is over.  Whoever slept on a timer whose wait is over has left a timer that is no
longer pending, or it is owed. -/
structure Cancelling (m₀ : Machine σ) (owed : List TimerId) (m : Machine σ) : Prop where
  waits : m₀.KeepsWaits m
  sleeps : ∀ ⦃g after p⦄, m.fiber? g = some after → after.pending = some p →
    ∃ before, m₀.fiber? g = some before ∧ before.pending = some p
  watchers : ∀ ⦃g after w how⦄, m.fiber? g = some after → .watcher w how ∈ after.observers →
    m.Untimed w
  builders : ∀ ⦃w⦄, m.AwaitsBuild w → m.Untimed w
  timers : ∃ hs, m.timers = m₀.timers.cancelAll hs ∧ ∀ h ∈ hs, ∃ g fiber w,
    m₀.fiber? g = some fiber ∧ fiber.pending = some (.wait w (.timer h)) ∧ m.Claimed w
  debts : ∀ h ∈ owed, ∃ g fiber w,
    m₀.fiber? g = some fiber ∧ fiber.pending = some (.wait w (.timer h)) ∧ m.Claimed w
  ends : ∀ ⦃w wait⦄, m₀.waits.get? w = some wait → wait.source = .timer → wait.claimed = false →
    m.Claimed w → ∃ g fiber c, m₀.fiber? g = some fiber ∧ fiber.pending = some (.wait w c) ∧
      ∀ h ∈ c.timers, h ∈ owed ∨ m.timers.queue.isPending h = false

namespace Cancelling

/-- Nothing has been done, and watchers and those who wait for a layer do not wait for timers. -/
theorem start
    (watchers : ∀ ⦃g after w how⦄, m.fiber? g = some after → .watcher w how ∈ after.observers →
      m.Untimed w)
    (builders : ∀ ⦃w⦄, m.AwaitsBuild w → m.Untimed w) : m.Cancelling [] m where
  waits := .of_eq rfl
  sleeps _ after _ row asleep := ⟨after, row, asleep⟩
  watchers := watchers
  builders := builders
  timers := ⟨[], rfl, nofun⟩
  debts := nofun
  ends _ _ found _ free claimed := by cases free.symm.trans (claimed.row found)

theorem refl (tidy : m.Tidy) : m.Cancelling [] m :=
  start (fun _ _ _ _ => tidy.watchers) fun _ => tidy.builders

/-- The same from here on. -/
theorem again (cancelling : m₀.Cancelling owed m) : m.Cancelling [] m :=
  start cancelling.watchers cancelling.builders

/-- A change that has nothing to do with timers. -/
theorem leaves (cancelling : m₀.Cancelling owed m) (leaves : m.LeavesTimers m') :
    m₀.Cancelling owed m' where
  waits := cancelling.waits.trans leaves.waits
  sleeps _ _ _ row asleep := by
    obtain ⟨middle, row', asleep'⟩ := leaves.sleeps row asleep
    exact cancelling.sleeps row' asleep'
  watchers _ _ _ _ row listed := by
    rcases leaves.watchers row listed with untimed | ⟨before, row', listed'⟩
    · exact untimed
    · exact (cancelling.watchers row' listed').mono leaves.waits
  builders _ awaits := by
    rcases leaves.builders awaits with awaits | untimed
    · exact (cancelling.builders awaits).mono leaves.waits
    · exact untimed
  timers := by
    obtain ⟨hs, timers, slept⟩ := cancelling.timers
    refine ⟨hs, leaves.timers.trans timers, fun h listed => ?_⟩
    obtain ⟨g, fiber, w, row, asleep, claimed⟩ := slept h listed
    exact ⟨g, fiber, w, row, asleep, claimed.mono leaves.waits⟩
  debts h listed := by
    obtain ⟨g, fiber, w, row, asleep, claimed⟩ := cancelling.debts h listed
    exact ⟨g, fiber, w, row, asleep, claimed.mono leaves.waits⟩
  ends w wait found source free claimed := by
    obtain ⟨wait', found', -, source', -⟩ := cancelling.waits found
    have before : m.Claimed w :=
      ⟨wait', found', leaves.spared found' (source'.trans source) claimed⟩
    rw [leaves.timers]
    exact cancelling.ends found source free before

/-- A fiber is taken out of its wait, and its timer is owed. -/
theorem breakWait (cancelling : m₀.Cancelling owed m) (row : m.fiber? f = some fiber) :
    m₀.Cancelling (((m.breakWait f fiber).1.map Canceler.timers).getD [] ++ owed)
      (m.breakWait f fiber).2 := by
  obtain ⟨same, -⟩ | ⟨w, c, breakable, opened, same⟩ := m.breakWait_cases f fiber <;> rw [same]
  · exact cancelling
  · simp only [Option.map_some, Option.getD_some]
    obtain ⟨-, asleep, -⟩ := Fiber.breakable?_eq_some_iff.1 breakable
    obtain ⟨before, row₀, asleep₀⟩ := cancelling.sleeps row asleep
    have claimed : (m.claim w).2.Claimed w := claimed_claim opened
    have kept : m.KeepsWaits (m.claim w).2 := m.keepsWaits_claim w
    obtain ⟨waits, same⟩ := m.claim_eq w
    have rows : ∀ g after,
        ((m.claim w).2.modifyFiber f (Coherent.answered .interrupted)).fiber? g = some after →
        ∃ middle, m.fiber? g = some middle ∧
          (after = middle ∨ after = Coherent.answered .interrupted middle) := by
      intro g after row
      obtain ⟨middle, row', kept⟩ := fiber?_of_modifyFiber row
      exact ⟨middle, (m.fiber?_claim w g).symm.trans row', kept.imp_right And.right⟩
    refine ⟨cancelling.waits.trans kept, fun g after p row asleep => ?_,
      fun g after v how row listed => ?_, fun v awaits => ?_, ?_, fun h listed => ?_,
      fun v wait found source free claimed' => ?_⟩
    · obtain ⟨middle, row', rfl | rfl⟩ := rows g after row
      · exact cancelling.sleeps row' asleep
      · cases asleep
    · obtain ⟨middle, row', rfl | rfl⟩ := rows g after row
      · exact (cancelling.watchers row' listed).mono kept
      · exact (cancelling.watchers row' listed).mono kept
    · have awaits' : m.AwaitsBuild v := by
        rw [same] at awaits
        exact awaits
      exact (cancelling.builders awaits').mono kept
    · obtain ⟨hs, timers, slept⟩ := cancelling.timers
      refine ⟨hs, ?_, fun h listed => ?_⟩
      · rw [same]
        exact timers
      · obtain ⟨g, fiber, v, row, asleep, claimed⟩ := slept h listed
        exact ⟨g, fiber, v, row, asleep, claimed.mono kept⟩
    · rcases List.mem_append.1 listed with own | old
      · cases c with
        | timer h' =>
            obtain rfl := List.mem_singleton.1 own
            exact ⟨f, before, w, row₀, asleep₀, claimed⟩
        | _ => cases own
      · obtain ⟨g, fiber, v, row, asleep, claimed⟩ := cancelling.debts h old
        exact ⟨g, fiber, v, row, asleep, claimed.mono kept⟩
    · by_cases here : w = v
      · subst here
        exact ⟨f, before, c, row₀, asleep₀, fun h own => .inl (List.mem_append_left _ own)⟩
      · obtain ⟨wait', found', was⟩ := claimed'
        have found'' : m.waits.get? v = some wait' :=
          (get?_claim_of_ne here m).symm.trans found'
        obtain ⟨g, fiber, c', row, asleep, gone⟩ :=
          cancelling.ends found source free ⟨wait', found'', was⟩
        refine ⟨g, fiber, c', row, asleep, fun h listed => ?_⟩
        rw [same]
        exact (gone h listed).imp_left (List.mem_append_right _)

/-- What is owed for a wait is paid. -/
theorem runCanceler {c : Canceler σ} (cancelling : m₀.Cancelling (c.timers ++ owed) m)
    (f : FiberId) : m₀.Cancelling owed (m.runCanceler f c) := by
  cases c with
  | none => exact cancelling
  | code cleanup => exact Cancelling.leaves cancelling (.runCleanup m f cleanup)
  | timer h =>
      have pending : ∀ g, ((m.timers.cancel h).2.queue.isPending g) =
          (g ≠ h && m.timers.queue.isPending g) := m.timers.isPending_cancel h
      refine ⟨cancelling.waits, cancelling.sleeps, cancelling.watchers, cancelling.builders, ?_,
        fun g listed => cancelling.debts g (.tail h listed), ?_⟩
      · obtain ⟨hs, timers, slept⟩ := cancelling.timers
        refine ⟨hs ++ [h], ?_, fun g listed => ?_⟩
        · rw [TimerRegistry.cancelAll_append, ← timers]
          rfl
        · rcases List.mem_append.1 listed with old | new
          · exact slept g old
          · obtain rfl := List.mem_singleton.1 new
            exact cancelling.debts g List.mem_cons_self
      · intro w wait found source free claimed
        obtain ⟨g, fiber, c, row, asleep, gone⟩ := cancelling.ends found source free claimed
        refine ⟨g, fiber, c, row, asleep, fun h' listed => ?_⟩
        show h' ∈ owed ∨ (m.timers.cancel h).2.queue.isPending h' = false
        rw [pending]
        rcases gone h' listed with due | none
        · rcases List.mem_cons.1 due with rfl | due
          · exact .inr (by simp)
          · exact .inl due
        · exact .inr (by simp [none])

theorem foldl {α : Type} {step : Machine σ → α → Machine σ} (as : List α)
    (steps : ∀ m, m₀.Cancelling owed m → ∀ a ∈ as, m₀.Cancelling owed (step m a))
    (cancelling : m₀.Cancelling owed m) : m₀.Cancelling owed (as.foldl step m) := by
  induction as generalizing m with
  | nil => exact cancelling
  | cons a as ih =>
      exact ih (fun m cancelling b listed => steps m cancelling b (.tail a listed))
        (steps m cancelling a List.mem_cons_self)

/-! ### Interrupts -/

theorem interruptWithin (cancelling : m₀.Cancelling owed m) (depth : Nat) (f : FiberId) :
    m₀.Cancelling owed (m.interruptWithin depth f) := by
  induction depth generalizing m f owed with
  | zero => exact cancelling
  | succ depth ih =>
      have marked : m₀.Cancelling owed (m.mark f) := cancelling.leaves (.mark m f)
      unfold Machine.interruptWithin
      dsimp only
      split
      · exact marked
      rename_i fiber row
      split
      · exact marked
      -- the timer is owed while the children are interrupted
      have broken := marked.breakWait row
      generalize (m.mark f).breakWait f fiber = result at broken ⊢
      obtain ⟨canceler, n⟩ := result
      have below := foldl fiber.children (fun _ sofar c _ => ih sofar c)
        (broken.leaves (.trace n (.interrupting f fiber.children.length)))
      cases canceler with
      | none => exact below
      | some canceler => exact (below.runCanceler f).leaves (.enqueue _ f)

theorem interrupt (cancelling : m₀.Cancelling owed m) (f : FiberId) :
    m₀.Cancelling owed (m.interrupt f) := cancelling.interruptWithin _ f

theorem interruptAll (cancelling : m₀.Cancelling owed m) (fibers : List FiberId) :
    m₀.Cancelling owed (m.interruptAll fibers) :=
  foldl fibers (fun _ sofar f _ => sofar.interrupt f) cancelling

/-! ### User code -/

theorem serve (cancelling : m₀.Cancelling owed m) (request : Request) :
    m₀.Cancelling owed (m.serve request) := by
  cases request with
  | note v => exact cancelling.leaves (.write m _)
  | resume w x => exact cancelling.leaves (.resumeCallback m w x)
  | resumeLater w x => exact cancelling.leaves (.of_eq rfl rfl rfl rfl)
  | interrupt f => exact cancelling.interrupt f
  | shutdown => exact (cancelling.interruptAll m.roots).leaves (.of_eq rfl rfl rfl rfl)

theorem perform {α : Type} (cancelling : m₀.Cancelling owed m) (code : Action σ α) :
    m₀.Cancelling owed (m.perform code).2 := by
  have changed : m₀.Cancelling owed { m with world := (code (statusOf m.fibers) m.world).world } :=
    cancelling.leaves (.of_eq rfl rfl rfl rfl)
  exact foldl _ (fun _ sofar request _ => sofar.serve request) changed

/-! ### Layers -/

theorem joinBuild (cancelling : m₀.Cancelling owed m) (scope : ScopeId) (layer : LayerId)
    (untimed : m.Untimed w) : m₀.Cancelling owed (m.joinBuild scope layer w) := by
  unfold Machine.joinBuild
  split
  · rename_i owner waiters building
    refine cancelling.leaves (.modifyMemo m scope fun k v listed => ?_)
    rw [Evolves.waiters_insert] at listed
    split at listed
    · rename_i same
      rcases List.mem_append.1 listed with old | new
      · left
        rwa [Memo.waiters, ← same, building]
      · obtain rfl := List.mem_singleton.1 new
        exact .inr untimed
    · exact .inl listed
  · exact cancelling.leaves (.resume untimed _)

theorem completeBuild (cancelling : m₀.Cancelling owed m) (scope : ScopeId) (layer : LayerNode σ)
    (context : Context Value) : m₀.Cancelling owed (m.completeBuild scope layer context) := by
  have noted : m.LeavesTimers (m.modifyMemo scope (·.insert layer.id (.built context))) := by
    refine .modifyMemo m scope fun k w listed => .inl ?_
    rw [Evolves.waiters_insert] at listed
    split at listed
    · cases listed
    · exact listed
  have told := noted.trans (.trace _ (.built layer.name ((m.memo scope).waiters layer.id).length))
  refine cancelling.leaves (told.trans (.wake (fun w listed => ?_) _))
  exact (cancelling.builders ⟨scope, layer.id, listed⟩).mono told.waits

theorem forgetBuild (cancelling : m₀.Cancelling owed m) (scope : ScopeId) (layer : LayerNode σ)
    (outcome : BuildOutcome) (x : Exit) :
    m₀.Cancelling owed (m.forgetBuild scope layer outcome x) := by
  unfold Machine.forgetBuild
  split
  · rename_i owner waiters building
    have erased : m.LeavesTimers (m.modifyMemo scope (·.erase layer.id)) := by
      refine .modifyMemo m scope fun k w listed => .inl ?_
      unfold Memo.waiters at listed ⊢
      rw [Memo.get?_erase] at listed
      by_cases same : layer.id = k
      · rw [if_pos same] at listed
        cases listed
      · rwa [if_neg same] at listed
    have told := erased.trans (.trace _ (.buildForgotten layer.name owner waiters.length outcome))
    refine cancelling.leaves (told.trans (.wake (fun w listed => ?_) x))
    have known : m.AwaitsBuild w := by
      refine ⟨scope, layer.id, ?_⟩
      rwa [Memo.waiters, building]
    exact (cancelling.builders known).mono told.waits
  · exact cancelling

theorem endBuild (cancelling : m₀.Cancelling owed m) (f : FiberId) (scope : ScopeId)
    (run : RunState σ) (build : LayerBuild σ) (layer : LayerNode σ) (rest : List (LayerNode σ))
    (x : Exit) : m₀.Cancelling owed (m.endBuild f scope run build layer rest x).machine := by
  unfold Machine.endBuild
  split
  · exact (cancelling.completeBuild scope layer _).leaves (.advanceLayers _ f scope run _ rest)
  · exact cancelling.forgetBuild scope layer _ _
  · exact cancelling.forgetBuild scope layer _ _
  · exact (cancelling.leaves (.trace m _)).forgetBuild scope layer _ _

theorem resumeLayers (cancelling : m₀.Cancelling owed m) (f : FiberId) (scope : ScopeId)
    (run : RunState σ) (build : LayerBuild σ) (x : Exit) :
    m₀.Cancelling owed (m.resumeLayers f scope run build x).machine := by
  unfold Machine.resumeLayers
  split
  · split
    · exact cancelling
    · exact cancelling.endBuild f scope _ _ _ _ x
  · split
    · exact cancelling.leaves (.advanceLayers m f scope run build build.todo)
    · exact cancelling

/-! ### Groups -/

theorem raceExit (cancelling : m₀.Cancelling owed m) (k : GroupId) (race : Race) (x : Exit) :
    m₀.Cancelling owed (m.raceExit k race x) := by
  let settled : Race := { race with
    remaining := race.remaining - 1, winner := some (race.winner.getD x) }
  have told : m₀.Cancelling owed (if race.winner.isSome then m.setGroup k (.race settled)
      else ((m.setGroup k (.race settled)).trace
        (.raceSettled race.parent (race.members.length - 1))).interruptAll race.members) := by
    have set : m₀.Cancelling owed (m.setGroup k (.race settled)) :=
      cancelling.leaves (.setGroup m k _)
    split
    · exact set
    · exact (set.leaves (.trace _ _)).interruptAll _
  unfold Machine.raceExit
  dsimp only
  split
  · exact told.leaves (.deliver _ _ _)
  · exact told

theorem allExit (cancelling : m₀.Cancelling owed m) (k : GroupId) (all : Gathering σ) (i : Nat)
    (x : Exit) : m₀.Cancelling owed (m.allExit k all i x) := by
  unfold Machine.allExit
  generalize all.settle i x (m.isInterrupted all.parent) = result
  obtain ⟨siblings, after⟩ := result
  have set : m₀.Cancelling owed (m.setGroup k (.all after)) := cancelling.leaves (.setGroup m k _)
  have told : m₀.Cancelling owed (if siblings.isEmpty then m.setGroup k (.all after)
      else ((m.setGroup k (.all after)).trace
        (.allFailed after.parent siblings.length)).interruptAll siblings) := by
    split
    · exact set
    · exact (set.leaves (.trace _ _)).interruptAll _
  dsimp only
  split
  · exact told.leaves (.deliver _ _ _)
  · exact told.leaves (.fill _ k after)

theorem memberExit (cancelling : m₀.Cancelling owed m) (k : GroupId) (i : Nat) (x : Exit) :
    m₀.Cancelling owed (m.memberExit k i x) := by
  unfold Machine.memberExit
  split
  · exact cancelling.raceExit k _ x
  · exact cancelling.allExit k _ i x
  · exact cancelling

/-! ### The end of a fiber -/

theorem handOver (cancelling : m₀.Cancelling owed m) (f : FiberId) (reader : ExitReader)
    (x : Exit) : m₀.Cancelling owed (m.handOver f reader x) := by
  cases reader with
  | joiner => exact cancelling
  | group k place => exact cancelling.memberExit k place x
  | handle => exact cancelling.leaves (.of_eq rfl rfl rfl rfl)

/-- The observers of a fiber that has ended are told one after the other. -/
theorem tellAll {tell : Machine σ → Observer → Machine σ} (observers : List Observer)
    (untimed : ∀ w how, .watcher w how ∈ observers → m.Untimed w)
    (watchers : ∀ {m : Machine σ} {w how}, m.Untimed w → m.LeavesTimers (tell m (.watcher w how)))
    (parents : ∀ {m₀ m : Machine σ} {owed p}, m₀.Cancelling owed m →
      m₀.Cancelling owed (tell m (.closing p)))
    (cancelling : m₀.Cancelling owed m) : m₀.Cancelling owed (observers.foldl tell m) := by
  induction observers generalizing m with
  | nil => exact cancelling
  | cons observer observers ih =>
      -- the waits of the others are still for something else than timers
      have told : m.KeepsWaits (tell m observer) ∧ m₀.Cancelling owed (tell m observer) := by
        cases observer with
        | watcher w how =>
            have first : m.LeavesTimers (tell m (.watcher w how)) :=
              watchers (untimed w how List.mem_cons_self)
            exact ⟨first.waits, cancelling.leaves first⟩
        | closing p => exact ⟨(parents cancelling.again).waits, parents cancelling⟩
      exact ih (fun w how listed => (untimed w how (.tail _ listed)).mono told.1) told.2

/-- A fiber ends whose program has ended, and with it perhaps some of the fibers above it. -/
theorem completeWithin (cancelling : m₀.Cancelling owed m) (height : Nat) (f : FiberId)
    (x : Exit) : m₀.Cancelling owed (m.completeWithin height f x) := by
  induction height generalizing m₀ owed m f x with
  | zero => exact cancelling
  | succ height ih =>
      unfold Machine.completeWithin
      split
      · exact cancelling
      rename_i fiber row
      have left : m.LeavesTimers (((m.modifyFiber f (·.ended x)).trace (.exited f x)).detach f
          fiber.parent) :=
        ((LeavesTimers.of_row f fun fiber => ⟨.inr rfl, List.nil_subset _⟩).trans
          (.trace _ _)).trans (.detach _ f fiber.parent)
      have gone := (cancelling.leaves left).handOver f fiber.reader x
      refine tellAll fiber.observers (fun w how listed => ?_) (fun untimed => ?_)
        (fun {m₀ m owed p} sofar => ?_) gone
      · have untimed := (cancelling.watchers row listed).mono left.waits
        exact untimed.mono ((cancelling.leaves left).again.handOver f fiber.reader x).waits
      · exact .tellWatcher untimed f _
      · have heard := sofar.leaves (.childGone m p)
        dsimp only
        generalize m.childGone p = result at heard ⊢
        obtain ⟨last, n⟩ := result
        cases last with
        | none => exact heard
        | some last => exact ih heard p last

/-- The program of a fiber has an exit. -/
theorem finish (cancelling : m₀.Cancelling owed m) (f : FiberId) (x : Exit) :
    m₀.Cancelling owed (m.finish f x) := by
  have heard : ∀ (n : Machine σ) (c : FiberId), n.LeavesTimers (n.awaitChild f c) := by
    intro n c
    refine .of_modify c (fun _ => .inl rfl) fun fiber w how listed => .inl ?_
    rcases List.mem_append.1 listed with old | new
    · exact old
    · cases List.mem_singleton.1 new
  unfold Machine.finish
  dsimp only
  split
  · exact cancelling.completeWithin _ f x
  · refine ((cancelling.leaves ?_).interruptAll _).leaves (.foldl _ heard _)
    refine (LeavesTimers.trace m _).trans (.of_row f fun _ => ?_)
    exact ⟨.inl rfl, List.Subset.refl _⟩

end Cancelling

end Machine

end EffectFibers
