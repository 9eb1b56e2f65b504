import EffectFibers.Machine.State

/-!
# Waits

A fiber that cannot go on asks a question and hands the right to answer it to someone else: a
callback, a timer, the builder of a layer or the end of a fiber.  An interrupt may answer as well.
Whoever claims the wait first decides how it ends; a later claim has no effect at all.

An answer may arrive before the fiber has gone to sleep.  Then it is kept as the fiber's input and
is found when the fiber is about to park.

## Main definitions

* `Machine.openWait` – ask a question.
* `Machine.claim` – the right to answer, given away once.
* `Machine.deliver` – hand an answer to a fiber.
* `Machine.resume` – claim and deliver.

## Main statements

* `Machine.resume_cases` – what the end of a wait can do.
-/

namespace EffectFibers.Machine

variable {σ : Type}

/-- Open a wait of a fiber; the answer is its identifier. -/
def openWait (m : Machine σ) (owner : FiberId) (source : WaitSource) : WaitId × Machine σ :=
  (m.waits.nextId, { m with waits := m.waits.push { owner, source } })

/-- Whether nobody has claimed a wait. -/
def isOpen (m : Machine σ) (w : WaitId) : Bool := (m.waits.get? w).any fun wait => !wait.claimed

/-- Claim a wait; the answer says whether this is the first claim. -/
def claim (m : Machine σ) (w : WaitId) : Bool × Machine σ :=
  if m.isOpen w then
    (true, { m with waits := m.waits.modify w fun wait => { wait with claimed := true } })
  else (false, m)

/-- Hand an exit to a fiber: a suspended one becomes runnable, a running one will find the exit
when it parks, and one that has ended takes no notice. -/
def deliver (m : Machine σ) (f : FiberId) (exit : Exit) : Machine σ :=
  match m.status f with
  | .suspended =>
    (m.modifyFiber f fun fiber =>
      { fiber with input := some exit, status := .running, pending := none }).enqueue f
  | .running => m.modifyFiber f fun fiber => { fiber with input := some exit }
  | _ => m

/-- End a wait with an exit, unless it was claimed before. -/
def resume (m : Machine σ) (w : WaitId) (exit : Exit) : Machine σ :=
  match m.waits.get? w with
  | none => m
  | some wait =>
    let (won, m) := m.claim w
    if won then m.deliver wait.owner exit else m

/-- End a wait for a callback with an exit.  Waits of other kinds are not for user code to
end. -/
def resumeCallback (m : Machine σ) (w : WaitId) (exit : Exit) : Machine σ :=
  if (m.waits.get? w).any (·.source == .callback) then m.resume w exit else m

/-! ## A claim succeeds once -/

/-- A claim that comes too late changes nothing. -/
theorem claim_of_closed {m : Machine σ} {w : WaitId} (closed : m.isOpen w = false) :
    m.claim w = (false, m) := by
  rw [claim, closed]
  rfl

theorem claim_fst (m : Machine σ) (w : WaitId) : (m.claim w).1 = m.isOpen w := by
  unfold claim
  split <;> simp_all

theorem isOpen_claim_snd (m : Machine σ) (w : WaitId) : (m.claim w).2.isOpen w = false := by
  unfold claim
  split
  · unfold isOpen
    simp only [Table.get?_modify, if_pos]
    cases m.waits.get? w <;> simp
  · simp_all

/-- A claim leaves the other waits alone. -/
theorem get?_claim_of_ne {v w : WaitId} (other : v ≠ w) (m : Machine σ) :
    (m.claim v).2.waits.get? w = m.waits.get? w := by
  unfold claim
  split
  · exact (Table.get?_modify _ _ _ _).trans (if_neg other)
  · rfl

/-! ## A wait ends once -/

/-- An end that comes too late changes nothing. -/
theorem resume_of_claimed {m : Machine σ} {w : WaitId} (closed : m.isOpen w = false)
    (exit : Exit) : m.resume w exit = m := by
  unfold resume
  rw [claim_of_closed closed]
  cases m.waits.get? w <;> rfl

theorem resume_of_open {m : Machine σ} {w : WaitId} {wait : Wait}
    (found : m.waits.get? w = some wait) (free : wait.claimed = false) (exit : Exit) :
    m.resume w exit = (m.claim w).2.deliver wait.owner exit := by
  have opened : m.isOpen w = true := by simp [isOpen, found, free]
  simp only [resume, found, claim_fst, opened, if_true]

/-- Nothing changes, or the wait is claimed and its owner has the exit. -/
theorem resume_cases (m : Machine σ) (w : WaitId) (exit : Exit) :
    (m.resume w exit = m ∧ m.isOpen w = false) ∨
    ∃ wait, m.waits.get? w = some wait ∧ wait.claimed = false ∧
      m.resume w exit = (m.claim w).2.deliver wait.owner exit := by
  cases opened : m.isOpen w with
  | false => exact .inl ⟨resume_of_claimed opened exit, rfl⟩
  | true =>
      obtain ⟨wait, found, free⟩ := (Option.any_eq_true _ _).1 opened
      have free : wait.claimed = false := by simpa using free
      exact .inr ⟨wait, found, free, resume_of_open found free exit⟩

end EffectFibers.Machine
