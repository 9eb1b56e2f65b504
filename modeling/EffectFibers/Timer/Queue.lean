import EffectFibers.Ident

/-!
# The timer queue

Timers wait for their deadlines in a queue ordered by deadline and then by handle.  Cancelling a
timer takes away what it would have done, at once, but leaves its key in the queue; such a stale
key is dropped when it comes to the front, and all keys are dropped when the last timer goes.

Deadlines are nanoseconds from some fixed instant and may lie before it.

## Main definitions

* `TimerQueue β` – keys in order, and what each pending timer does.
* `TimerQueue.insert`, `cancel`, `pollExpired`, `nextDeadline`.
* `TimerStats` – the counters.
-/

namespace EffectFibers

/-- The place of a timer in the queue. -/
structure TimerKey where
  deadline : Int
  handle : TimerId
  deriving DecidableEq, Repr

/-- Whether a key comes before another one: an earlier deadline, or the same and an older
handle. -/
def TimerKey.before (a b : TimerKey) : Bool :=
  a.deadline < b.deadline || (a.deadline == b.deadline && a.handle.raw < b.handle.raw)

/-- The counters of a timer queue. -/
structure TimerStats where
  active : Nat
  stale : Nat
  inserted : Nat
  fired : Nat
  cancelled : Nat
  deriving DecidableEq, Repr

/-- Timers that do something of type `β`. -/
structure TimerQueue (β : Type) where
  /-- Keys in order, of pending and of cancelled timers. -/
  keys : List TimerKey := []
  /-- What the pending timers do. -/
  pending : List (TimerId × β) := []
  inserted : Nat := 0
  fired : Nat := 0
  cancelled : Nat := 0

namespace TimerQueue

variable {β : Type}

/-- The name of this kind of queue. -/
def name : String := "binary_heap"

/-- Put a key in its place. -/
def insertKey (k : TimerKey) : List TimerKey → List TimerKey
  | [] => [k]
  | l :: rest => if k.before l then k :: l :: rest else l :: insertKey k rest

/-- What a pending timer does. -/
def action? (q : TimerQueue β) (h : TimerId) : Option β :=
  (q.pending.find? fun entry => entry.1 = h).map (·.2)

/-- Whether a timer is pending. -/
def isPending (q : TimerQueue β) (h : TimerId) : Bool := (q.action? h).isSome

/-- Pending timers without one of them. -/
def removePending (h : TimerId) (pending : List (TimerId × β)) : List (TimerId × β) :=
  pending.filter fun entry => entry.1 ≠ h

/-- Add a timer under a fresh handle. -/
def insert (q : TimerQueue β) (deadline : Int) (h : TimerId) (action : β) : TimerQueue β :=
  { q with
    keys := insertKey ⟨deadline, h⟩ q.keys
    pending := (h, action) :: q.pending
    inserted := q.inserted + 1 }

/-- Cancel a timer; the answer says whether it was pending. -/
def cancel (q : TimerQueue β) (h : TimerId) : Bool × TimerQueue β :=
  let removed := q.isPending h
  let pending := removePending h q.pending
  (removed,
    { q with
      keys := if pending.isEmpty then [] else q.keys
      pending
      cancelled := if removed then q.cancelled + 1 else q.cancelled })

/-- Take the first key away, and the timer with it if it is still pending. -/
def dropFirst (q : TimerQueue β) (k : TimerKey) (rest : List TimerKey) :
    Option β × TimerQueue β :=
  match q.action? k.handle with
  | some action =>
    (some action,
      { q with keys := rest, pending := removePending k.handle q.pending, fired := q.fired + 1 })
  | none => (none, { q with keys := rest })

/-- Fire the timers among the given keys, which stand at the front of the queue, up to the first
deadline that has not passed. -/
def pollKeys (now : Int) : List TimerKey → TimerQueue β → List β × TimerQueue β
  | [], q => ([], q)
  | k :: rest, q =>
    if now < k.deadline then ([], q)
    else
      let (fired, q) := q.dropFirst k rest
      let (others, q) := pollKeys now rest q
      (fired.toList ++ others, q)

/-- Fire every timer whose deadline has passed; the answer lists what they do, in order. -/
def pollExpired (q : TimerQueue β) (now : Int) : List β × TimerQueue β := pollKeys now q.keys q

/-- Drop stale keys at the front. -/
def skipStale (q : TimerQueue β) : TimerQueue β :=
  { q with keys := q.keys.dropWhile fun k => !q.isPending k.handle }

/-- The earliest deadline of a pending timer. -/
def nextDeadline (q : TimerQueue β) : Option Int × TimerQueue β :=
  let q := q.skipStale
  (q.keys.head?.map (·.deadline), q)

/-- Fire the first pending timer, if there is one: its deadline, and what it does. -/
def fireFirst (q : TimerQueue β) : Option (Int × β) × TimerQueue β :=
  let q := q.skipStale
  match q.keys with
  | [] => (none, q)
  | k :: rest =>
    let (fired, q) := q.dropFirst k rest
    (fired.map fun action => (k.deadline, action), q)

/-- The number of pending timers. -/
def size (q : TimerQueue β) : Nat := q.pending.length

def stats (q : TimerQueue β) : TimerStats :=
  { active := q.pending.length
    stale := q.keys.length - q.pending.length
    inserted := q.inserted
    fired := q.fired
    cancelled := q.cancelled }

end TimerQueue

end EffectFibers
