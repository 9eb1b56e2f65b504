import EffectFibers.Machine.Wait

/-!
# Interrupts

An interrupt marks a fiber and everything below it.  A marked fiber that waits for a callback, a
timer, a layer or another fiber, outside every uninterruptible region, is taken out of its wait at
once: the wait is claimed, the fiber's children are interrupted, its cleanup runs, and it becomes
runnable.  Any other fiber notices its mark later by itself.

The mark is set before the children are visited, and a new child inherits it, so no fiber below
is missed.

## Main definitions

* `Machine.runCanceler` – tidy up after a wait that is given up.
* `Machine.breakWait` – take a fiber out of its wait.
* `Machine.interrupt` – interrupt a fiber and everything below it.

## Main statements

* `Machine.breakWait_cases` – what an interrupt can do to the wait of a fiber.
-/

namespace EffectFibers

/-- The wait that an interrupt may end, and what tidies up after it: that of a suspended fiber
outside every uninterruptible region. -/
def Fiber.breakable? {σ : Type} (fiber : Fiber σ) : Option (WaitId × Canceler σ) :=
  match fiber.status, fiber.pending, fiber.run with
  | .suspended, some (.wait w canceler), some run =>
    if run.shield = 0 then some (w, canceler) else none
  | _, _, _ => none

/-- A fiber that can be taken out of its wait sleeps on it, outside every region. -/
theorem Fiber.breakable?_eq_some_iff {σ : Type} {fiber : Fiber σ} {w : WaitId}
    {canceler : Canceler σ} : fiber.breakable? = some (w, canceler) ↔ fiber.status = .suspended ∧
      fiber.pending = some (.wait w canceler) ∧ ∃ run, fiber.run = some run ∧ run.shield = 0 := by
  unfold Fiber.breakable?
  split
  · rename_i status pending run
    simp [status, pending, run, and_comm]
  · grind

namespace Machine

variable {σ : Type}

/-- Run a cleanup.  Of its requests only the notes count. -/
def runCleanup (m : Machine σ) (f : FiberId) (cleanup : Cleanup σ) : Machine σ :=
  let reply := cleanup (statusOf m.fibers) m.world
  let m := reply.requests.foldl
    (fun m request => match request with
      | .note v => m.write (.note v)
      | _ => m)
    { m with world := reply.world }
  match reply.result with
  | .ok () => m
  | .error _ => m.trace (.cleanupPanicked f)

/-- Tidy up after a wait that a fiber gives up. -/
def runCanceler (m : Machine σ) (f : FiberId) (canceler : Canceler σ) : Machine σ :=
  match canceler with
  | .none => m
  | .timer handle => { m with timers := (m.timers.cancel handle).2 }
  | .code cleanup => m.runCleanup f cleanup

/-- Take a fiber out of its wait, if an interrupt may end the wait and nobody else has claimed it.
The answer is what tidies up; the fiber is not runnable yet. -/
def breakWait (m : Machine σ) (f : FiberId) (fiber : Fiber σ) : Option (Canceler σ) × Machine σ :=
  match fiber.breakable? with
  | none => (none, m)
  | some (w, canceler) =>
    let (won, m) := m.claim w
    if won then
      (some canceler, m.modifyFiber f fun fiber =>
        { fiber with input := some .interrupted, status := .running, pending := none })
    else (none, m)

/-- A fiber is left as it is, or its wait is claimed and the fiber goes on with an interrupt. -/
theorem breakWait_cases (m : Machine σ) (f : FiberId) (fiber : Fiber σ) :
    (m.breakWait f fiber = (none, m) ∧
      ∀ w canceler, fiber.breakable? = some (w, canceler) → m.isOpen w = false) ∨
    ∃ w canceler, fiber.breakable? = some (w, canceler) ∧ m.isOpen w = true ∧
      m.breakWait f fiber = (some canceler, (m.claim w).2.modifyFiber f fun fiber =>
        { fiber with input := some .interrupted, status := .running, pending := none }) := by
  cases breakable : fiber.breakable? with
  | none => exact .inl ⟨by rw [breakWait, breakable], nofun⟩
  | some sleep =>
      obtain ⟨w, canceler⟩ := sleep
      cases opened : m.isOpen w with
      | false =>
          refine .inl ⟨by simp [breakWait, breakable, claim_of_closed opened], fun v other same => ?_⟩
          obtain ⟨rfl, rfl⟩ := Prod.mk.inj (Option.some.inj same)
          exact opened
      | true =>
          refine .inr ⟨w, canceler, rfl, opened, ?_⟩
          simp only [breakWait, breakable, claim_fst, opened, if_true]

/-- Mark a fiber as interrupted. -/
def mark (m : Machine σ) (f : FiberId) : Machine σ :=
  m.modifyFiber f fun fiber => { fiber with interrupted := true }

/-- Interrupt a fiber and those below it, down to a depth. -/
def interruptWithin (depth : Nat) (m : Machine σ) (f : FiberId) : Machine σ :=
  match depth with
  | 0 => m
  | depth + 1 =>
    let m := m.mark f
    match m.fiber? f with
    | none => m
    | some fiber =>
      if fiber.status.isTerminal then m
      else
        let (canceler, m) := m.breakWait f fiber
        let m := m.trace (.interrupting f fiber.children.length)
        let m := fiber.children.foldl (interruptWithin depth) m
        match canceler with
        | none => m
        | some canceler => (m.runCanceler f canceler).enqueue f

/-- Interrupt a fiber and everything below it.  No chain of children is longer than the number of
fibers. -/
def interrupt (m : Machine σ) (f : FiberId) : Machine σ := interruptWithin (m.fibers.size + 1) m f

end Machine

end EffectFibers
