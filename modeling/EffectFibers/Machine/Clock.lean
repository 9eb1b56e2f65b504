import EffectFibers.Machine.Tick

/-!
# Time

Time passes only while every fiber waits.  Then the callbacks that other threads are about to make
come first, and after them the timers, one by one in the order of their deadlines.

A program that never waits does not keep the others from their timers: after some rounds of the
queue its time is up and the next timer fires.

## Main definitions

* `Machine.settle` – let everything run that can run without time passing.
* `Machine.fireNext` – let time pass up to the next timer.
* `Machine.waitUntil` – run until a condition holds or a time limit is reached.
-/

namespace EffectFibers.Machine

variable {σ : Type}

/-- One slice: begin it, and step until it has ended. -/
def slice (m : Machine σ) : Machine σ :=
  let rec steps : Nat → Machine σ → Machine σ
    | 0, m => m
    | n + 1, m => if m.running.isNone then m else steps n m.tick
  steps (8 * m.stepBudget + 8) m.tick

/-- That many slices, or fewer if nothing can go on. -/
def slices : Nat → Machine σ → Machine σ
  | 0, m => m
  | n + 1, m => if m.isIdle then m else slices n m.slice

/-- Let the next callback of another thread come in. -/
def receive (m : Machine σ) : Machine σ :=
  match m.outside with
  | [] => m
  | (w, exit) :: outside => { m with outside }.resumeCallback w exit

/-- A round of the queue: every fiber in it gets a slice.  When nobody can go on, the next
callback of another thread comes in, unless the machine has stopped by then. -/
def round (m : Machine σ) : Machine σ :=
  if m.isIdle then (if m.stopping then m else m.receive) else m.slices (max m.ready.size 1)

/-- Whether nothing can happen before time passes. -/
def isSettled (m : Machine σ) : Bool := m.isIdle && (m.stopping || m.outside.isEmpty)

/-- Up to that many rounds. -/
def rounds : Nat → Machine σ → Machine σ
  | 0, m => m
  | n + 1, m => if m.isSettled then m else rounds n m.round

/-- How many rounds a program gets that never waits. -/
def patience : Nat := 300

/-- Let everything run that can run without time passing. -/
def settle (m : Machine σ) : Machine σ := m.rounds patience

/-- The deadline of the next timer.  A machine that was told to shut down has no more timers. -/
def nextDeadline? (m : Machine σ) : Option Int :=
  if m.stopping then none else (m.timers.queue.nextDeadline).1

/-- Let time pass up to the next timer, and let it fire. -/
def fireNext (m : Machine σ) : Machine σ :=
  match m.timers.queue.fireFirst with
  | (some (deadline, w), queue) =>
    { m with timers := { m.timers with queue }, now := max m.now deadline.toNat }.resume w
      (.ok .null)
  | (none, queue) => { m with timers := { m.timers with queue } }

/-- Settle again and again, and let timers fire up to a time limit, until a condition holds or
nothing more can happen in time.  A program that neither ends nor waits for a timer settles some
more times before it is given up. -/
def runUntil (holds : Machine σ → Bool) (limit : Nat) (m : Machine σ) :
    (timers chances : Nat) → Machine σ
  | 0, _ => m.settle
  | timers + 1, chances =>
    let m := m.settle
    if holds m then m
    else
      match m.nextDeadline?.filter (·.toNat ≤ limit), chances with
      | some _, _ => runUntil holds limit m.fireNext timers chances
      | none, 0 => { m with now := max m.now limit }
      | none, chances + 1 =>
        if m.isSettled then { m with now := max m.now limit }
        else runUntil holds limit m timers chances

/-- How many timers may fire while somebody waits. -/
def maxFirings : Nat := 20000

/-- How many times a program may settle that somebody waits for. -/
def maxChances : Nat := 12

/-- Wait for a while until a condition holds. -/
def waitUntil (m : Machine σ) (d : Duration) (holds : Machine σ → Bool) : Machine σ :=
  runUntil holds (m.now + d.nanos) m maxFirings maxChances

end EffectFibers.Machine
