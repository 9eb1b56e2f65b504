import EffectFibers.ReadyQueue

/-!
# The queue of the workers

Workers take items from a ready queue, and sleep at it while it is empty.  The queue counts those
who sleep: a worker is counted from the moment it decides to sleep until it is awake again.
-/

namespace EffectFibers

/-- A ready queue, and how many workers sleep at it. -/
structure WorkQueue (α : Type) where
  items : ReadyQueue α := .empty
  parked : Nat := 0

namespace WorkQueue

variable {α : Type}

def push (q : WorkQueue α) (a : α) : WorkQueue α := { q with items := q.items.push a }

/-- The first item, if there is one. -/
def pop (q : WorkQueue α) : Option α × WorkQueue α :=
  match q.items.pop with
  | some (a, items) => (some a, { q with items })
  | none => (none, q)

/-- A worker goes to sleep. -/
def fallAsleep (q : WorkQueue α) : WorkQueue α := { q with parked := q.parked + 1 }

/-- A worker wakes up. -/
def wakeUp (q : WorkQueue α) : WorkQueue α := { q with parked := q.parked - 1 }

/-- A worker sleeps until there is work, somebody wakes it, or its time is up. -/
def park (q : WorkQueue α) : WorkQueue α := q.fallAsleep.wakeUp

def size (q : WorkQueue α) : Nat := q.items.size

def isEmpty (q : WorkQueue α) : Bool := q.items.isEmpty

theorem park_eq (q : WorkQueue α) : q.park = q := rfl

end WorkQueue

end EffectFibers
