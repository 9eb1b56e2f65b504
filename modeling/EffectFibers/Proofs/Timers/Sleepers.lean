import EffectFibers.Proofs.Timers.Steps

/-!
# Timers and those who wait for them

Every pending timer is there for one fiber, which waits for it: it sleeps, or it has set the timer
in its last step and is about to sleep.  And every fiber that waits for a timer has it pending.
This is an invariant because an event does to the pending timers what it does to waits: it takes out
those whose waits are claimed in it, and adds the one that a step sets, with its wait.

Three kinds of events claim waits for timers.  A timer fires, and claims its own wait; a fiber gives
its sleep up when it notices an interrupt, and has its timer cancelled; and an interrupt takes
fibers out of their sleeps, and has all their timers cancelled before the event is over.

## Main definitions

* `Moment.Sets` – an event sets a timer for a wait.
* `Moment.WaitsUntil` – a fiber waits for a timer.
* `Machine.KeepsTimers` – what becomes of the pending timers.
* `Moment.Timely` – timers and those who wait for them belong together.

## Main statements

* `Moment.Timely.keepsTimers` – what an event does to the pending timers.
* `Moment.Reachable.timely` – at every reachable moment timers and sleepers belong together.
-/

namespace EffectFibers

variable {σ : Type}

/-! ## Pending timers from one machine to the next -/

/-- The timers that are pending have been set before, and their waits are open; or they are new, and
younger than all timers before. -/
structure Machine.KeepsTimers (sets : TimerId → WaitId → Prop) (m m' : Machine σ) : Prop where
  wellFormed : m'.timers.WellFormed
  later : m.timers.handles.issued ≤ m'.timers.handles.issued
  fresh : ∀ ⦃h w⦄, sets h w → m.timers.handles.issued < h.raw
  pending : ∀ h w, (h, w) ∈ m'.timers.queue.pending ↔
    (h, w) ∈ m.timers.queue.pending ∧ ¬ m'.Claimed w ∨ sets h w

namespace Machine

variable {m : Machine σ} {v w : WaitId}

/-- A claim claims one wait. -/
theorem claimed_claim_iff (opened : m.isOpen w = true) :
    (m.claim w).2.Claimed v ↔ m.Claimed v ∨ v = w := by
  by_cases here : v = w
  · subst here
    exact iff_of_true (claimed_claim opened) (.inr rfl)
  · rw [Claimed, get?_claim_of_ne (Ne.symm here), or_iff_left here]
    rfl

theorem timers_runCanceler (m : Machine σ) (f : FiberId) (c : Canceler σ) :
    (m.runCanceler f c).timers = m.timers.cancelAll c.timers := by
  cases c with
  | none => rfl
  | timer h => rfl
  | code cleanup => exact (LeavesTimers.runCleanup m f cleanup).timers

theorem waits_resume (m : Machine σ) (w : WaitId) (x : Exit) :
    (m.resume w x).waits = (m.claim w).2.waits := by
  obtain ⟨same, closed⟩ | ⟨wait, -, -, same⟩ := m.resume_cases w x <;> rw [same]
  · rw [claim_of_closed closed]
  · exact waits_deliver _ _ _

theorem timers_resume (m : Machine σ) (w : WaitId) (x : Exit) :
    (m.resume w x).timers = m.timers := by
  obtain ⟨same, -⟩ | ⟨wait, -, -, same⟩ := m.resume_cases w x <;> rw [same]
  obtain ⟨_, same⟩ := m.claim_eq w
  have claimed : (m.claim w).2.timers = m.timers := by rw [same]
  exact (LeavesTimers.deliver _ _ x).timers.trans claimed

/-- The first timer fires, and the others are left. -/
inductive Fires (m : Machine σ) : Machine σ → Prop
  | first {e rest queue now} (entries : m.timers.queue.entries = e :: rest)
      (wellFormed : queue.WellFormed) (left : queue.entries = rest)
      (handles : queue.handles ⊆ m.timers.queue.handles) :
    Fires m ({ m with timers := { m.timers with queue }, now }.resume e.2 (.ok .null))
  | none {queue} (entries : m.timers.queue.entries = []) (wellFormed : queue.WellFormed)
      (left : queue.entries = []) (handles : queue.handles ⊆ m.timers.queue.handles) :
    Fires m { m with timers := { m.timers with queue } }

theorem fires_fireNext (wellFormed : m.timers.queue.WellFormed) : m.Fires m.fireNext := by
  have first := TimerQueue.fireFirst_firedFirst wellFormed
  unfold fireNext
  generalize m.timers.queue.fireFirst = result at first ⊢
  obtain ⟨answer, queue⟩ := result
  obtain ⟨kept, same, left, handles⟩ := first
  dsimp only at same left handles ⊢
  cases entries : m.timers.queue.entries with
  | nil =>
      rw [entries] at same left
      subst same
      exact .none entries kept left handles
  | cons e rest =>
      rw [entries] at same left
      subst same
      exact .first entries kept left handles

end Machine

namespace Moment

/-- An event sets a timer, for a wait: a fiber takes a step in it that sleeps. -/
def Sets (μ : Moment σ) (event : Event σ) (h : TimerId) (w : WaitId) : Prop :=
  ∃ f s d, μ.strideAt f event = some s ∧ s.Sleeps d ∧ h = s.timer ∧ w = s.wait

/-- A fiber waits for a timer: it sleeps, or it is about to. -/
def WaitsUntil (μ : Moment σ) (f : FiberId) (w : WaitId) (h : TimerId) : Prop :=
  ∃ p run, μ.position? f = some p ∧ p.Awaits run w (.timer h)

/-- Timers and those who wait for them belong together, and only waits for timers are ended by
timers. -/
structure Timely (μ : Moment σ) : Prop where
  wellFormed : μ.machine.timers.WellFormed
  slept : ∀ ⦃h w⦄, (h, w) ∈ μ.machine.timers.queue.pending → ∃ f, μ.WaitsUntil f w h
  pending : ∀ ⦃f w h⦄, μ.WaitsUntil f w h → (h, w) ∈ μ.machine.timers.queue.pending
  timed : ∀ ⦃f p run w c⦄, μ.position? f = some p → p.Awaits run w c →
    ∃ wait, μ.machine.waits.get? w = some wait ∧ (wait.source = .timer ↔ ∃ h, c = .timer h)

variable {μ : Moment σ} {f g : FiberId} {fiber : Fiber σ} {p : Position σ} {run : RunState σ}
  {w v : WaitId} {c : Canceler σ} {h : TimerId} {event : Event σ} {s : Stride σ}

/-! ## Fibers that wait, before and after an event -/

/-- A fiber that waits has its wait open. -/
theorem Reachable.openFor_of_awaits (reachable : Reachable μ) (position : μ.position? f = some p)
    (awaits : p.Awaits run w c) : μ.machine.OpenFor f w :=
  (openFor_iff reachable.isCoherent position).2 awaits.openWait?

theorem not_claimed_of_openFor {m : Machine σ} (opened : m.OpenFor f w) : ¬ m.Claimed w := by
  intro claimed
  obtain ⟨wait, found, free, -⟩ := opened
  cases free.symm.trans (claimed.row found)

/-- Whoever waits for the same waits in the same way. -/
theorem Reachable.awaits_unique (reachable : Reachable μ) {q : Position σ} {run' : RunState σ}
    {c' : Canceler σ} (position : μ.position? f = some p) (awaits : p.Awaits run w c)
    (position' : μ.position? g = some q) (awaits' : q.Awaits run' w c') : f = g ∧ c = c' := by
  obtain ⟨wait, found, -, rfl⟩ := reachable.openFor_of_awaits position awaits
  obtain ⟨wait', found', -, rfl⟩ := reachable.openFor_of_awaits position' awaits'
  obtain rfl := Option.some.inj (found.symm.trans found')
  obtain rfl := Option.some.inj (position.symm.trans position')
  cases awaits with
  | asks =>
      cases awaits'
      exact ⟨rfl, rfl⟩
  | sleeps =>
      cases awaits'
      exact ⟨rfl, rfl⟩

/-- A fiber that sleeps waits. -/
theorem Reachable.position_of_pending (reachable : Reachable μ)
    (row : μ.machine.fiber? f = some fiber) (asleep : fiber.pending = some (.wait w c)) :
    ∃ run, μ.position? f = some (.asleep run (.wait w c)) := by
  have coherent := reachable.isCoherent
  have free : μ.held ≠ some f := fun held => by
    cases (row_of_held coherent held row).2.2.1.symm.trans asleep
  obtain ⟨run, -, stands⟩ := Moment.position_of_pending (shaped_of_isCoherent coherent row) asleep
  exact ⟨run, (position?_of_saved row free).trans (congrArg some stands)⟩

/-- A fiber that waits after an event waited before, or has asked in it. -/
theorem Reachable.awaits_before (reachable : Reachable μ)
    (position : (μ.apply event).position? f = some p) (awaits : p.Awaits run w c) :
    (∃ q, μ.position? f = some q ∧ q.Awaits run w c) ∨
      ∃ s, μ.strideAt f event = some s ∧ s.result.control = .suspend (.wait w c) := by
  cases stride : μ.strideAt f event with
  | some s =>
      obtain ⟨-, -, answer, stepped, -⟩ := reachable.stride stride
      obtain rfl := Option.some.inj (stepped.symm.trans position)
      refine .inr ⟨s, rfl, ?_⟩
      generalize s.result.control = control at awaits
      cases awaits
      rfl
  | none =>
      left
      cases stood : μ.position? f with
      | none =>
          obtain ⟨fiber, row, -⟩ := Option.map_eq_some_iff.1 position
          obtain ⟨⟨node, context, -, ready⟩, -⟩ :=
            reachable.born (Option.map_eq_none_iff.1 stood) row
          obtain rfl := Option.some.inj (ready.symm.trans position)
          cases awaits
      | some q =>
          obtain ⟨p', position', moves⟩ := reachable.moves stood stride
          obtain rfl := Option.some.inj (position'.symm.trans position)
          cases moves with
          | stays => exact ⟨_, rfl, awaits⟩
          | sleeps =>
              cases awaits
              exact ⟨_, rfl, .asks⟩
          | _ => cases awaits

/-- A fiber waits on until its wait is claimed. -/
theorem Reachable.awaits_after (reachable : Reachable μ) (position : μ.position? f = some p)
    (awaits : p.Awaits run w c) (free : ¬ (μ.apply event).machine.Claimed w) :
    ∃ q, (μ.apply event).position? f = some q ∧ q.Awaits run w c := by
  have course := reachable.course_of_awaits position awaits event
  have silent : (μ.waitLogAt event).on w = [] := by
    by_contra claims
    exact free (reachable.claimed_of_awaits position awaits claims)
  rw [silent] at course
  cases course with
  | waits position' awaits' => exact ⟨_, position', awaits'⟩

theorem Reachable.tidy_of_stride (reachable : Reachable μ) (stride : μ.strideAt f event = some s) :
    s.machine.Tidy := by
  rw [(machine_of_stride stride).1]
  obtain ⟨watchers, builders, parents⟩ := reachable.tidy
  exact ⟨watchers, builders, parents⟩

/-- The fiber that sets a timer waits for it. -/
theorem Reachable.waitsUntil_of_sleeps (reachable : Reachable μ) {d : Duration}
    (stride : μ.strideAt f event = some s) (sleeps : s.Sleeps d) :
    (μ.apply event).WaitsUntil f s.wait s.timer := by
  obtain ⟨own, -, answer, position, -⟩ := reachable.stride stride
  have result := sleeps.result
  -- the wait is open, so that there is no answer yet
  have opened : (μ.apply event).machine.OpenFor f s.wait := by
    rw [(machine_of_stride stride).2, result]
    exact ⟨_, Table.get?_push_self _ _, rfl, own⟩
  have waits := (openFor_iff (reachable.apply event).isCoherent position).1 opened
  rw [result] at position waits
  cases answer with
  | some x => cases waits
  | none => exact ⟨_, _, position, .asks⟩

/-- A new timer is younger than all timers before. -/
theorem raw_timer (stride : μ.strideAt f event = some s) :
    s.timer.raw = μ.machine.timers.handles.issued + 1 := by
  rw [Stride.timer, (machine_of_stride stride).1]
  rfl

namespace Timely

/-! ## What is pending -/

/-- The wait that a pending timer is to end is open, and it is for a timer. -/
theorem openWait (timely : μ.Timely) (reachable : Reachable μ)
    (pending : (h, w) ∈ μ.machine.timers.queue.pending) :
    ∃ wait, μ.machine.waits.get? w = some wait ∧ wait.source = .timer ∧ wait.claimed = false := by
  obtain ⟨f, p, run, position, awaits⟩ := timely.slept pending
  obtain ⟨wait, found, source⟩ := timely.timed position awaits
  obtain ⟨wait', found', free, -⟩ := reachable.openFor_of_awaits position awaits
  obtain rfl := Option.some.inj (found.symm.trans found')
  exact ⟨wait, found, source.2 ⟨h, rfl⟩, free⟩

theorem not_claimed (timely : μ.Timely) (reachable : Reachable μ)
    (pending : (h, w) ∈ μ.machine.timers.queue.pending) : ¬ μ.machine.Claimed w := by
  obtain ⟨f, p, run, position, awaits⟩ := timely.slept pending
  exact not_claimed_of_openFor (reachable.openFor_of_awaits position awaits)

/-- Only the timer that a fiber waits for ends its wait. -/
theorem canceler_eq (timely : μ.Timely) (reachable : Reachable μ)
    (pending : (h, w) ∈ μ.machine.timers.queue.pending) (position : μ.position? f = some p)
    (awaits : p.Awaits run w c) : c = .timer h := by
  obtain ⟨g, q, run', position', awaits'⟩ := timely.slept pending
  exact (reachable.awaits_unique position awaits position' awaits').2

/-- A timer ends one wait. -/
theorem wait_unique (timely : μ.Timely) (pending : (h, w) ∈ μ.machine.timers.queue.pending)
    (pending' : (h, v) ∈ μ.machine.timers.queue.pending) : w = v := by
  have same := List.inj_on_of_nodup_map timely.wellFormed.queue.single pending pending' rfl
  exact congrArg Prod.snd same

/-! ## One event -/

/-- One wait is claimed, and the timer is taken out that was to end it, if there is one. -/
theorem keepsTimers_of_claim (timely : μ.Timely) (reachable : Reachable μ) {m' : Machine σ}
    (position : μ.position? f = some p) (awaits : p.Awaits run w c)
    (claims : ∀ v, m'.Claimed v ↔ μ.machine.Claimed v ∨ v = w)
    (wellFormed : m'.timers.WellFormed) (handles : m'.timers.handles = μ.machine.timers.handles)
    (pending : ∀ e, e ∈ m'.timers.queue.pending ↔
      e ∈ μ.machine.timers.queue.pending ∧ e.1 ∉ c.timers) :
    μ.machine.KeepsTimers (fun _ _ => False) m' := by
  refine ⟨wellFormed, handles ▸ Nat.le_refl _, nofun, fun h v => (pending (h, v)).trans ?_⟩
  rw [or_false]
  refine and_congr_right fun set => ?_
  rw [claims, or_iff_right (timely.not_claimed reachable set), not_iff_not]
  constructor
  · intro own
    cases c with
    | timer h' =>
        obtain rfl := List.mem_singleton.1 own
        exact timely.wait_unique set (timely.pending ⟨p, run, position, awaits⟩)
    | _ => cases own
  · rintro rfl
    rw [timely.canceler_eq reachable set position awaits]
    exact List.mem_singleton_self h

/-- Nobody sets a timer, and those are cancelled whose waits are over. -/
theorem keepsTimers_of_cancelling (timely : μ.Timely) (reachable : Reachable μ) {m' : Machine σ}
    (cancelling : μ.machine.Cancelling [] m') : μ.machine.KeepsTimers (fun _ _ => False) m' := by
  obtain ⟨hs, timers, slept⟩ := cancelling.timers
  obtain ⟨wellFormed, handles, pending⟩ := timely.wellFormed.cancelAll hs
  rw [← timers] at wellFormed handles pending
  refine ⟨wellFormed, handles ▸ Nat.le_refl _, nofun, fun h w => (pending (h, w)).trans ?_⟩
  rw [or_false]
  refine and_congr_right fun set => not_iff_not.2 ⟨fun cancelled => ?_, fun claimed => ?_⟩
  · obtain ⟨g, fiber, v, row, asleep, claimed⟩ := slept h cancelled
    obtain ⟨run, position⟩ := reachable.position_of_pending row asleep
    obtain rfl := timely.wait_unique set (timely.pending ⟨_, run, position, .sleeps⟩)
    exact claimed
  · -- whoever slept on the wait slept until this timer, and has left nothing pending
    obtain ⟨wait, found, source, free⟩ := timely.openWait reachable set
    obtain ⟨g, fiber, c, row, asleep, gone⟩ := cancelling.ends found source free claimed
    obtain ⟨run, position⟩ := reachable.position_of_pending row asleep
    obtain rfl := timely.canceler_eq reachable set position .sleeps
    by_contra left
    have pending' : m'.timers.queue.isPending h = true :=
      TimerQueue.isPending_iff.2 ⟨w, wellFormed.queue.action?_eq_some_iff.2
        ((pending (h, w)).2 ⟨set, left⟩)⟩
    rcases gone h (List.mem_singleton_self h) with due | none
    · cases due
    · cases none.symm.trans pending'

theorem timer_not_mem (timely : μ.Timely) (stride : μ.strideAt f event = some s) :
    s.timer ∉ μ.machine.timers.queue.handles := by
  intro known
  have bound := timely.wellFormed.issued _ known
  rw [raw_timer stride] at bound
  omega

/-- The timer is set for the delay from now on. -/
theorem mem_entries_of_sleeps (timely : μ.Timely) {d : Duration}
    (stride : μ.strideAt f event = some s) (sleeps : s.Sleeps d) :
    (⟨deadlineAfter μ.machine.now d, s.timer⟩, s.wait) ∈
      (μ.apply event).machine.timers.queue.entries := by
  obtain ⟨before, after⟩ := machine_of_stride stride
  have timers : s.machine.timers = μ.machine.timers := by rw [before]
  have now : s.machine.now = μ.machine.now := by rw [before]
  rw [after, sleeps.result]
  show _ ∈ (s.machine.timers.queue.insert (deadlineAfter s.machine.now d) s.timer s.wait).entries
  rw [timers, now]
  have inserted := TimerQueue.entries_insert (timely.timer_not_mem stride)
    (deadlineAfter μ.machine.now d) s.wait
  exact inserted.mem_iff.2 List.mem_cons_self

/-- A step sets a timer. -/
theorem keepsTimers_of_sleeps (timely : μ.Timely) (reachable : Reachable μ) {d : Duration}
    (stride : μ.strideAt f event = some s) (sleeps : s.Sleeps d) :
    μ.machine.KeepsTimers (fun h w => h = s.timer ∧ w = s.wait) (μ.apply event).machine := by
  obtain ⟨before, after⟩ := machine_of_stride stride
  have timers : s.machine.timers = μ.machine.timers := by rw [before]
  have waits : s.machine.waits = μ.machine.waits := by rw [before]
  rw [after, sleeps.result]
  have raw := raw_timer stride
  have unknown := timely.timer_not_mem stride
  refine ⟨⟨?_, ?_⟩, ?_, ?_, fun h w => ?_⟩
  · show (s.machine.timers.queue.insert _ s.timer s.wait).WellFormed
    rw [timers]
    exact timely.wellFormed.queue.insert unknown _ _
  · intro h mem
    show h.raw ≤ s.machine.timers.handles.issued + 1
    have known := (TimerQueue.handles_insert s.machine.timers.queue _ s.timer s.wait).mem_iff.1 mem
    rw [timers] at known ⊢
    rcases List.mem_cons.1 known with rfl | known
    · exact Nat.le_of_eq raw
    · exact Nat.le_succ_of_le (timely.wellFormed.issued h known)
  · show _ ≤ s.machine.timers.handles.issued + 1
    rw [timers]
    exact Nat.le_succ _
  · rintro h w ⟨rfl, rfl⟩
    omega
  · show (h, w) ∈ (s.timer, s.wait) :: s.machine.timers.queue.pending ↔ _
    rw [timers, List.mem_cons, Prod.mk.injEq, or_comm]
    refine or_congr_left ⟨fun set => ⟨set, ?_⟩, And.left⟩
    -- the waits of the others are as they were
    obtain ⟨wait, found, -, free⟩ := timely.openWait reachable set
    intro claimed
    have kept : (s.machine.openWait s.slice.fiber .timer).2.waits.get? w = some wait :=
      Table.get?_push_of_some _ (by rw [waits]; exact found)
    cases free.symm.trans (claimed.row kept)

/-- Nothing happens to timers and to waits. -/
theorem keepsTimers_of_eq (timely : μ.Timely) (reachable : Reachable μ) {m' : Machine σ}
    (waits : m'.waits = μ.machine.waits) (timers : m'.timers = μ.machine.timers) :
    μ.machine.KeepsTimers (fun _ _ => False) m' := by
  refine ⟨timers ▸ timely.wellFormed, timers ▸ Nat.le_refl _, nofun, fun h w => ?_⟩
  rw [timers, or_false, Machine.Claimed, waits]
  exact ⟨fun set => ⟨set, timely.not_claimed reachable set⟩, And.left⟩

/-- A fiber goes to sleep, or finds its answer, or notices an interrupt and gives its sleep up. -/
theorem keepsTimers_park (timely : μ.Timely) (reachable : Reachable μ) {slice : Slice σ}
    {pending : Pending σ} (taken : μ.taken = some (slice, .suspend pending)) :
    μ.machine.KeepsTimers (fun _ _ => False) μ.work.machine := by
  have parks : μ.work.machine = μ.machine.park slice pending := by
    simp only [Moment.work, taken, Machine.follow]
  have held : μ.held = some slice.fiber := by simp [Moment.held, taken]
  obtain ⟨fiber, row, -⟩ :=
    Table.exists_row_of_view ((agenda_of_isCoherent reachable.isCoherent).held_works held)
  have input : (μ.machine.fiber? slice.fiber).bind (·.input) = fiber.input :=
    congrArg (fun known : Option (Fiber σ) => known.bind (·.input)) row
  cases answer : fiber.input with
  | some x =>
      rw [answer] at input
      rw [parks]
      simp only [Machine.park, input]
      exact timely.keepsTimers_of_eq reachable rfl rfl
  | none =>
      rw [answer] at input
      cases pending with
      | group k =>
          rw [parks]
          simp only [Machine.park, input]
          exact timely.keepsTimers_of_eq reachable rfl rfl
      | wait w c =>
          have position : μ.position? slice.fiber =
              some (.stepped slice.run (.suspend (.wait w c)) none) := by
            rw [position?_of_row row]
            simp [Moment.grip, taken, Fiber.positionOn, answer]
          obtain ⟨slice', -, -, -, -, opened, work⟩ := reachable.work_of_asks position
          rw [work]
          dsimp only
          split
          · -- the fiber cancels its own timer
            have waits : ((μ.machine.claim w).2.runCanceler slice.fiber c).waits =
                (μ.machine.claim w).2.waits :=
              congrArg (fun core : Core σ => core.waits)
                (Coherent.core_runCanceler (μ.machine.claim w).2 slice.fiber c)
            have timers := (μ.machine.claim w).2.timers_runCanceler slice.fiber c
            obtain ⟨_, same⟩ := μ.machine.claim_eq w
            rw [congrArg Machine.timers same] at timers
            obtain ⟨wellFormed, handles, pending⟩ := timely.wellFormed.cancelAll c.timers
            rw [← timers] at wellFormed handles pending
            refine timely.keepsTimers_of_claim reachable position .asks (fun v => ?_) wellFormed
              handles pending
            rw [← Machine.claimed_claim_iff opened, Machine.Claimed, Machine.Claimed, ← waits]
          · exact timely.keepsTimers_of_eq reachable rfl rfl

/-- A timer fires, and claims the wait that it is to end. -/
theorem keepsTimers_fire (timely : μ.Timely) (reachable : Reachable μ) :
    μ.machine.KeepsTimers (fun _ _ => False) μ.machine.fireNext := by
  have wf := timely.wellFormed
  have fires := Machine.fires_fireNext wf.queue
  generalize μ.machine.fireNext = m' at fires ⊢
  cases fires with
  | none entries wellFormed left handles =>
      refine ⟨⟨wellFormed, fun h mem => wf.issued h (handles mem)⟩, Nat.le_refl _, nofun,
        fun h w => ?_⟩
      simp only [wf.queue.mem_pending_iff, wellFormed.mem_pending_iff, entries, left]
      simp
  | @first e rest queue now entries wellFormed left handles =>
      obtain ⟨⟨deadline, h⟩, w⟩ := e
      have pending : (h, w) ∈ μ.machine.timers.queue.pending :=
        wf.queue.mem_pending_iff.2 ⟨deadline, by simp [entries]⟩
      obtain ⟨f, p, run, position, awaits⟩ := timely.slept pending
      have opened : μ.machine.isOpen w = true := by
        obtain ⟨wait, found, -, free⟩ := timely.openWait reachable pending
        simp [Machine.isOpen, found, free]
      let n : Machine σ := { μ.machine with timers := { μ.machine.timers with queue }, now }
      have timers : (n.resume w (.ok .null)).timers = n.timers := n.timers_resume w _
      refine timely.keepsTimers_of_claim (c := .timer h) reachable position awaits (fun v => ?_)
        ?_ ?_ fun x => ?_
      · rw [Machine.Claimed, n.waits_resume w, ← Machine.Claimed]
        exact Machine.claimed_claim_iff (m := n) opened
      · rw [timers]
        exact ⟨wellFormed, fun g mem => wf.issued g (handles mem)⟩
      · rw [timers]
      · rw [timers, show x.1 ∉ (Canceler.timer h : Canceler σ).timers ↔ x.1 ≠ h from
          not_congr List.mem_singleton]
        subst left
        exact wf.queue.mem_pending_tail wellFormed entries x

/-- What an event does to the pending timers. -/
theorem keepsTimers (timely : μ.Timely) (reachable : Reachable μ) (event : Event σ) :
    μ.machine.KeepsTimers (μ.Sets event) (μ.apply event).machine := by
  have tidy := reachable.tidy
  have start : μ.machine.Cancelling [] μ.machine := .refl tidy
  by_cases sets : ∃ h w, μ.Sets event h w
  · obtain ⟨-, -, f, s, d, stride, sleeps, -, -⟩ := sets
    have same : μ.Sets event = fun h w => h = s.timer ∧ w = s.wait := by
      funext h w
      refine propext ⟨?_, fun own => ⟨f, s, d, stride, sleeps, own⟩⟩
      rintro ⟨g, t, -, stride', -, own⟩
      obtain ⟨-, rfl⟩ := stride_unique stride stride'
      exact own
    rw [same]
    exact timely.keepsTimers_of_sleeps reachable stride sleeps
  have same : μ.Sets event = fun _ _ => False := by
    funext h w
    exact eq_false fun own => sets ⟨h, w, own⟩
  have calm : ∀ {m' : Machine σ}, μ.machine.Cancelling [] m' →
      μ.machine.KeepsTimers (fun _ _ => False) m' := timely.keepsTimers_of_cancelling reachable
  rw [same]
  cases event with
  | start node => exact calm (start.leaves (.startRoot _ node))
  | request request => exact calm (start.serve request)
  | host change => exact calm (start.leaves (.of_eq rfl rfl rfl rfl))
  | receive => exact calm (.receive tidy)
  | fire => exact timely.keepsTimers_fire reachable
  | elapse instant => exact calm (start.leaves (.of_eq rfl rfl rfl rfl))
  | takeResult g => exact calm (.takeResult tidy g)
  | work =>
      cases taken : μ.taken with
      | some step =>
          obtain ⟨slice, control⟩ := step
          by_cases waits : ∃ pending, control = .suspend pending
          · obtain ⟨pending, rfl⟩ := waits
            exact timely.keepsTimers_park reachable taken
          · have follows : μ.work.machine = μ.machine.follow slice control := by
              simp only [Moment.work, taken]
            show μ.machine.KeepsTimers _ μ.work.machine
            rw [follows]
            exact calm (.follow tidy slice fun pending same => waits ⟨pending, same⟩)
      | none =>
          cases running : μ.machine.running with
          | none =>
              have begins : μ.work.machine = μ.machine.dispatch := by
                simp only [Moment.work, taken, running]
              show μ.machine.KeepsTimers _ μ.work.machine
              rw [begins]
              exact calm (.dispatch tidy)
          | some slice =>
              have stride : μ.strideAt slice.fiber .work =
                  some ⟨{ μ.machine with running := none }, slice⟩ :=
                strideAt_eq_some_iff.2 ⟨rfl, taken, running, rfl, rfl⟩
              have awake := Stride.setsNone (reachable.tidy_of_stride stride) fun d sleeps =>
                sets ⟨_, _, _, _, d, stride, sleeps, rfl, rfl⟩
              rw [(machine_of_stride stride).2]
              obtain ⟨waits, asleep, watchers, builders, timers, debts, ends⟩ := awake.cancels
              exact calm ⟨waits, asleep, watchers, builders, timers, debts, ends⟩

/-! ## Every event -/

/-- A step asks for a timer if and only if it sleeps, and then it waits for its own. -/
theorem timed_of_stride (reachable : Reachable μ) (stride : μ.strideAt f event = some s)
    (asks : s.result.control = .suspend (.wait w c)) :
    ∃ wait, (μ.apply event).machine.waits.get? w = some wait ∧
      (wait.source = .timer ↔ ∃ h, c = .timer h) ∧ ∀ h, c = .timer h → μ.Sets event h w := by
  rw [(machine_of_stride stride).2]
  by_cases sleeps : ∃ d, s.Sleeps d
  · obtain ⟨d, sleeps⟩ := sleeps
    have result := sleeps.result
    rw [result] at asks ⊢
    obtain ⟨rfl, rfl⟩ := Pending.wait.inj (Control.suspend.inj asks)
    refine ⟨_, Table.get?_push_self _ _, iff_of_true rfl ⟨_, rfl⟩, fun h own => ?_⟩
    exact ⟨f, s, d, stride, sleeps, (Canceler.timer.inj own).symm, rfl⟩
  · obtain ⟨⟨wait, found, source⟩, none⟩ := (Stride.setsNone (reachable.tidy_of_stride stride)
      fun d awake => sleeps ⟨d, awake⟩).asks asks
    have other : ∀ h, c ≠ .timer h := fun h own => by
      subst own
      cases none
    exact ⟨wait, found, iff_of_false source fun ⟨h, own⟩ => other h own,
      fun h own => absurd own (other h)⟩

theorem apply (timely : μ.Timely) (reachable : Reachable μ) (event : Event σ) :
    (μ.apply event).Timely := by
  have kept := timely.keepsTimers reachable event
  have evolves := evolves reachable.isCoherent reachable.tidy event
  refine ⟨kept.wellFormed, fun h w pending => ?_, fun f w h waits => ?_,
    fun f p run w c position awaits => ?_⟩
  · rcases (kept.pending h w).1 pending with ⟨before, free⟩ | sets
    · obtain ⟨f, p, run, position, awaits⟩ := timely.slept before
      obtain ⟨q, position', awaits'⟩ := reachable.awaits_after position awaits free
      exact ⟨f, q, run, position', awaits'⟩
    · obtain ⟨f, s, d, stride, sleeps, rfl, rfl⟩ := sets
      exact ⟨f, reachable.waitsUntil_of_sleeps stride sleeps⟩
  · obtain ⟨p, run, position, awaits⟩ := waits
    refine (kept.pending h w).2 ?_
    rcases reachable.awaits_before position awaits with ⟨q, before, awaits'⟩ | ⟨s, stride, asks⟩
    · refine .inl ⟨timely.pending ⟨q, run, before, awaits'⟩, ?_⟩
      exact not_claimed_of_openFor ((reachable.apply event).openFor_of_awaits position awaits)
    · obtain ⟨wait, -, -, sets⟩ := timed_of_stride reachable stride asks
      exact .inr (sets h rfl)
  · rcases reachable.awaits_before position awaits with ⟨q, before, awaits'⟩ | ⟨s, stride, asks⟩
    · obtain ⟨wait, found, source⟩ := timely.timed before awaits'
      obtain ⟨wait', found', -, source', -⟩ := evolves.keepsWaits found
      exact ⟨wait', found', source' ▸ source⟩
    · obtain ⟨wait, found, source, -⟩ := timed_of_stride reachable stride asks
      exact ⟨wait, found, source⟩

end Timely

/-- At every reachable moment timers and those who wait for them belong together. -/
theorem Reachable.timely (reachable : Reachable μ) : μ.Timely := by
  induction reachable with
  | initial world budget =>
      refine ⟨⟨TimerQueue.wellFormed_empty, nofun⟩, nofun, ?_, ?_⟩
      · rintro f w h ⟨p, run, position, -⟩
        cases position?_initial.symm.trans position
      · intro f p run w c position
        cases position?_initial.symm.trans position
  | apply event reachable ih => exact ih.apply reachable event

end Moment

end EffectFibers
