import EffectFibers.Timer.Queue
import EffectFibers.Timer.Clock
import EffectFibers.Cause

/-!
# Setting timers by delay

The registry is what everyone sets timers with: it turns delays into deadlines, hands out the
handles and keeps the queue.  A single timer can also be looked at by itself, and the timer thread
polls the queue again and again until it is stopped.

## Main definitions

* `TimerRegistry` – the queue with the supply of handles.
* `TimerEntry` – one timer and its deadline.
* `TimerThread` – the counters of a thread that polls the queue.
-/

namespace EffectFibers

/-- Timers that are set by delay. -/
structure TimerRegistry (β : Type) where
  queue : TimerQueue β := {}
  handles : Supply .timer := {}

namespace TimerRegistry

variable {β : Type}

/-- Set a timer; the answer is its handle. -/
def schedule (r : TimerRegistry β) (now : Nat) (d : Duration) (action : β) :
    TimerId × TimerRegistry β :=
  let (h, handles) := r.handles.next
  (h, { queue := r.queue.insert (deadlineAfter now d) h action, handles })

def cancel (r : TimerRegistry β) (h : TimerId) : Bool × TimerRegistry β :=
  let (removed, queue) := r.queue.cancel h
  (removed, { r with queue })

/-- Whether the earliest deadline comes within a delay; nothing without a timer. -/
def dueWithin (r : TimerRegistry β) (now : Nat) (d : Duration) : Option Bool × TimerRegistry β :=
  let (deadline, queue) := r.queue.nextDeadline
  let limit := Int.ofNat (deadlineAfter now d)
  (deadline.map fun deadline => decide (deadline ≤ limit), { r with queue })

end TimerRegistry

/-- One timer, by its deadline on the clock. -/
structure TimerEntry where
  deadline : Nat

namespace TimerEntry

/-- A timer that is due now, or was due some time ago. -/
def past (now : Nat) (ago : Duration) : TimerEntry := ⟨now - ago.nanos⟩

/-- A timer that is due after a delay; there is none if the clock cannot represent its
deadline. -/
def after (now : Nat) (d : Duration) : Except Panic TimerEntry :=
  match instantAfter? now d with
  | some deadline => .ok ⟨deadline⟩
  | none => .error (.text "overflow when adding duration to instant")

def isExpired (e : TimerEntry) (now : Nat) : Bool := e.deadline ≤ now

/-- The time left, or nothing once the deadline has passed. -/
def remaining (e : TimerEntry) (now : Nat) : Duration := .ofNanos (e.deadline - now)

end TimerEntry

/-- What a thread that polls a queue has counted. -/
structure TimerThread where
  polls : Nat := 0
  fired : Nat := 0
  maxBatch : Nat := 0
  deriving DecidableEq, Repr

/-- One poll: the timers that are due fire in order. -/
def TimerThread.poll {β : Type} (t : TimerThread) (r : TimerRegistry β) (now : Nat) :
    List β × TimerThread × TimerRegistry β :=
  let (fired, queue) := r.queue.pollExpired now
  (fired,
    { polls := t.polls + 1
      fired := t.fired + fired.length
      maxBatch := max t.maxBatch fired.length },
    { r with queue })

/-! ## A thread from its start to its end -/

/-- What happens around a timer thread: timers that are due when it starts, timers far ahead of
which the first few are cancelled, and perhaps a timer that is set after the start. -/
structure TimerPlan (β : Type) where
  due : List β
  far : List β
  cancelled : Nat
  late : Option β

/-- Set several timers; the answer lists their handles. -/
def TimerRegistry.scheduleAll {β : Type} (r : TimerRegistry β) (now : Nat) (d : Duration) :
    List β → List TimerId × TimerRegistry β
  | [] => ([], r)
  | action :: rest =>
    let (h, r) := r.schedule now d action
    let (hs, r) := r.scheduleAll now d rest
    (h :: hs, r)

/-- Cancel several timers. -/
def TimerRegistry.cancelAll {β : Type} (r : TimerRegistry β) (hs : List TimerId) :
    TimerRegistry β :=
  hs.foldl (fun r h => (r.cancel h).2) r

/-- Run a thread that polls before and after the late timer is set, until all but the far timers
have fired.  The answer is what fired in order, the thread and its registry at the end. -/
def TimerPlan.run {β : Type} (p : TimerPlan β) (start : Nat) :
    List β × TimerThread × TimerRegistry β :=
  let (_, r) := ({} : TimerRegistry β).scheduleAll start .zero p.due
  let (handles, r) := r.scheduleAll start (.ofSecs 3600) p.far
  let r := r.cancelAll (handles.take p.cancelled)
  let (first, t, r) := ({} : TimerThread).poll r start
  let (_, r) := r.scheduleAll start (.ofMillis 2) p.late.toList
  let (second, t, r) := t.poll r (deadlineAfter start (.ofMillis 2))
  (first ++ second, t, r)

end EffectFibers
