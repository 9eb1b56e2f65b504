import EffectFibers.Proofs.Changes.Moment

/-!
# What others do to a fiber

The program of a fiber, its wait and its status are its own.  Others can do no more to it than
answer it: they end the wait that it has open, a group that it sleeps on tells it, or an interrupt
takes it out of its sleep.  A fiber whose program has ended may also end itself, when others do.

## Main definitions

* `Fiber.Kept` – a row whose program, wait and status are left alone.
* `Machine.Answers` – why a fiber is answered.
* `Machine.Beside` – a fiber that others have left alone, answered, or ended.

## Main statements

* `Machine.Beside.evolves` – others leave a fiber alone, answer it, or end it.
* `Machine.Unborn.evolves` – what others make of a fiber that there is not yet.
-/

namespace EffectFibers

variable {σ : Type}

/-- A row whose program, wait and status are left alone. -/
structure Fiber.Kept (before after : Fiber σ) : Prop where
  run : after.run = before.run
  input : after.input = before.input
  pending : after.pending = before.pending
  status : after.status = before.status
  closing : after.closing.isSome = before.closing.isSome

namespace Fiber.Kept

variable {a b c : Fiber σ}

theorem refl (a : Fiber σ) : a.Kept a := ⟨rfl, rfl, rfl, rfl, rfl⟩

theorem trans (first : a.Kept b) (second : b.Kept c) : a.Kept c :=
  ⟨second.run.trans first.run, second.input.trans first.input,
    second.pending.trans first.pending, second.status.trans first.status,
    second.closing.trans first.closing⟩

theorem of_mild (mild : a.Mild b) : a.Kept b :=
  ⟨mild.run, mild.input, mild.pending, mild.status, mild.closing⟩

/-- An answer comes to a row in the same way whatever was done to it before. -/
theorem answered (kept : a.Kept b) (x : Exit) :
    (Coherent.answered x a).Kept (Coherent.answered x b) :=
  ⟨kept.run, rfl, rfl, rfl, kept.closing⟩

/-- And so does its end. -/
theorem ended (a b : Fiber σ) (x : Exit) : (a.ended x).Kept (b.ended x) := ⟨rfl, rfl, rfl, rfl, rfl⟩

end Fiber.Kept

namespace Machine

/-- A wait of a fiber that nobody has claimed. -/
def OpenFor (m : Machine σ) (f : FiberId) (w : WaitId) : Prop :=
  ∃ wait, m.waits.get? w = some wait ∧ wait.claimed = false ∧ wait.owner = f

instance (m : Machine σ) (f : FiberId) (w : WaitId) : Decidable (m.OpenFor f w) :=
  decidable_of_iff ((m.waits.get? w).any fun wait => !wait.claimed && wait.owner = f)
    (by simp [OpenFor, Option.any_eq_true])

/-- Why a fiber with a given row is answered, which may have a wait open: an interrupt has taken it
out of its sleep, the wait has ended, or the group that it sleeps on. -/
inductive Answers (m : Machine σ) (f : FiberId) (fiber : Fiber σ) (asks : Option WaitId) :
    Exit → Prop
  | interrupt (mark : m.isInterrupted f = true) (breakable : fiber.breakable?.isSome) :
    Answers m f fiber asks .interrupted
  | wait {w wait x} (asked : asks = some w) (found : m.waits.get? w = some wait)
    (rightful : wait.source = .timer → x = .ok .null) : Answers m f fiber asks x
  | group {g x} (asleep : fiber.pending = some (.group g)) : Answers m f fiber asks x

/-- What others have done to a fiber with a given row that may have a wait open. -/
inductive Beside (f : FiberId) (fiber : Fiber σ) (asks : Option WaitId) (m : Machine σ) : Prop
  | spared {after} (row : m.fiber? f = some after) (kept : fiber.Kept after)
    (opens : ∀ w, m.OpenFor f w → asks = some w)
    (children : ¬ m.LeadsGroup f → after.children ⊆ fiber.children)
  | answered {after x} (row : m.fiber? f = some after)
      (kept : (Coherent.answered x fiber).Kept after)
    (why : m.Answers f fiber asks x) (closed : ∀ w, ¬ m.OpenFor f w)
    (children : ¬ m.LeadsGroup f → after.children ⊆ fiber.children)
  | ended {after x} (row : m.fiber? f = some after) (closing : fiber.closing.isSome)
    (kept : (fiber.ended x).Kept after) (closed : ∀ w, ¬ m.OpenFor f w)

/-- A fiber has the wait open that it sleeps on, or, on the worker, the one that it has just asked
for. -/
structure Expects (fiber : Fiber σ) (asks : Option WaitId) : Prop where
  awake : fiber.status = .running → fiber.pending = none
  sleeps : ∀ pending, fiber.pending = some pending → asks = pending.wait?
  closing : fiber.closing.isSome → fiber.status = .running ∧ asks = none

/-- A fiber that is running and has just asked is answered. -/
theorem input_resume {m : Machine σ} {w : WaitId} {wait : Wait} {fiber : Fiber σ}
    (found : m.waits.get? w = some wait) (opened : wait.claimed = false)
    (row : m.fiber? wait.owner = some fiber) (running : fiber.status = .running) (x : Exit) :
    ((m.resume w x).fiber? wait.owner).bind (·.input) = some x := by
  have row' : (m.claim w).2.fiber? wait.owner = some fiber := (m.fiber?_claim w _).trans row
  have status : (m.claim w).2.status wait.owner = .running :=
    (Coherent.status_of_row row').trans running
  rw [resume_of_open found opened, deliver]
  simp only [status, fiber?_modifyFiber, row', Option.map_some, Option.bind_some, if_true]

end Machine

open Machine

namespace Change

variable {actor : Option FiberId} {deals : Bool} {m m' : Machine σ} {f : FiberId} {w : WaitId}
  {fiber : Fiber σ}

/-- Nobody opens a wait for someone else. -/
theorem openFor (change : Change actor deals m m') (other : actor ≠ some f)
    (opened : m'.OpenFor f w) :
    m.OpenFor f w := by
  obtain ⟨wait, row, free, owner⟩ := opened
  have claim : ∀ v, (m.claim v).2.waits.get? w = some wait → m.OpenFor f w := by
    intro v row
    unfold Machine.claim at row
    split at row
    · rw [Table.get?_modify] at row
      split at row
      · obtain ⟨before, row, rfl⟩ := Option.map_eq_some_iff.1 row
        cases free
      · exact ⟨wait, row, free, owner⟩
    · exact ⟨wait, row, free, owner⟩
  cases change with
  | quiet same => exact ⟨wait, same.waits ▸ row, free, owner⟩
  | @breakWait m g fiber _ _ =>
      obtain ⟨same, -⟩ | ⟨w, canceler, -, -, same⟩ := m.breakWait_cases g fiber
      · rw [same] at row
        exact ⟨wait, row, free, owner⟩
      · rw [same] at row
        exact claim _ row
  | @resume m v x _ =>
      obtain ⟨same, -⟩ | ⟨_, -, -, same⟩ := m.resume_cases v x
      · rw [same] at row
        exact ⟨wait, row, free, owner⟩
      · rw [same, waits_deliver] at row
        exact claim _ row
  | @deliver m p g x _ _ => exact ⟨wait, m.waits_deliver p x ▸ row, free, owner⟩
  | @openWait p m source own =>
      rw [Machine.openWait, Table.get?_push] at row
      split at row
      · obtain rfl := Option.some.inj row
        exact absurd (own.trans (congrArg some owner)) other
      · exact ⟨wait, row, free, owner⟩
  | @claim m v own => exact claim v row
  | _ => exact ⟨wait, row, free, owner⟩

/-- A wait ends: its owner has an answer, or has ended. -/
theorem row_resume {x : Exit} (row : m.fiber? f = some fiber)
    (awake : fiber.status = .running → fiber.pending = none) :
    (m.resume w x).fiber? f = some fiber ∨
      ∃ wait after, m.OpenFor f w ∧ m.waits.get? w = some wait ∧ (m.resume w x).isOpen w = false ∧
        (m.resume w x).fiber? f = some after ∧ (Coherent.answered x fiber).Kept after ∧
        after.children = fiber.children := by
  obtain ⟨same, -⟩ | ⟨wait, found, free, same⟩ := m.resume_cases w x <;> rw [same]
  · exact .inl row
  have row' : (m.claim w).2.fiber? f = some fiber := (m.fiber?_claim w f).trans row
  have closed := m.isOpen_claim_snd w
  by_cases owner : wait.owner = f
  · have status : (m.claim w).2.status wait.owner = fiber.status := by
      rw [owner]
      exact Coherent.status_of_row row'
    have told : ∀ change : Fiber σ → Fiber σ,
        ((m.claim w).2.modifyFiber wait.owner change).fiber? f = some (change fiber) := by
      intro change
      rw [Machine.fiber?_modifyFiber, if_pos owner, row']
      rfl
    rw [Machine.deliver, status]
    cases known : fiber.status with
    | suspended =>
        exact .inr ⟨wait, _, ⟨wait, found, free, owner⟩, found, closed, told _, .refl _, rfl⟩
    | running =>
        refine .inr ⟨wait, _, ⟨wait, found, free, owner⟩, found, closed, told _, ?_, rfl⟩
        exact ⟨rfl, rfl, awake known, known, rfl⟩
    | _ => exact .inl row'
  · exact .inl ((Machine.fiber?_deliver (Ne.symm owner) _ x).trans row')

/-- An interrupt takes a fiber out of its sleep if it can, and ends its wait. -/
theorem row_breakWait (row : m.fiber? f = some fiber) :
    (m.breakWait f fiber).2.fiber? f = some fiber ∨
      ∃ w c, fiber.breakable? = some (w, c) ∧ fiber.pending = some (.wait w c) ∧
        (m.breakWait f fiber).2.isOpen w = false ∧
        (m.breakWait f fiber).2.fiber? f = some (Coherent.answered .interrupted fiber) := by
  obtain ⟨same, -⟩ | ⟨w, c, breakable, -, same⟩ := m.breakWait_cases f fiber <;> rw [same]
  · exact .inl row
  · obtain ⟨-, asleep, -⟩ := Fiber.breakable?_eq_some_iff.1 breakable
    refine .inr ⟨w, c, breakable, asleep, m.isOpen_claim_snd w, ?_⟩
    rw [Machine.fiber?_modifyFiber, if_pos rfl, Machine.fiber?_claim, row]
    rfl

/-- A group that tells its parent wakes it, if the parent still sleeps. -/
theorem row_deliver (row : m.fiber? f = some fiber) (x : Exit) :
    (m.deliver f x).fiber? f = some fiber ∨ fiber.status = .running ∨
      (m.deliver f x).fiber? f = some (Coherent.answered x fiber) := by
  have status : m.status f = fiber.status := Coherent.status_of_row row
  unfold Machine.deliver
  rw [status]
  cases fiber.status with
  | suspended =>
      refine .inr (.inr ?_)
      show (m.modifyFiber f _).fiber? f = _
      rw [Machine.fiber?_modifyFiber, if_pos rfl, row]
      rfl
  | running => exact .inr (.inl rfl)
  | _ => exact .inl row

/-! ### What a bystander sees -/

section Beside

variable {asks : Option WaitId}

/-- Whoever expects one answer at most has nothing open once that wait has been claimed. -/
theorem closed_of_asked (opens : ∀ v, m.OpenFor f v → asks = some v) (asked : asks = some w)
    (closed : m.isOpen w = false) : ∀ v, ¬ m.OpenFor f v := by
  intro v opened
  obtain rfl := Option.some.inj (asked.symm.trans (opens v opened))
  obtain ⟨wait, found, free, -⟩ := opened
  simp [isOpen, found, free] at closed

theorem beside_of_row (opens : ∀ w, m.OpenFor f w → asks = some w)
    (row : m.fiber? f = some fiber) : Beside f fiber asks m :=
  .spared row (.refl fiber) opens fun _ _ listed => listed

/-- A change to the row of someone else, or a harmless one to this one. -/
theorem beside_of_modify {g : FiberId} {change : Fiber σ → Fiber σ}
    (row : m.fiber? f = some fiber) (opens : ∀ w, m'.OpenFor f w → asks = some w)
    (same : m'.fiber? f = (m.modifyFiber g change).fiber? f)
    (kept : g = f → fiber.Kept (change fiber) ∧
      (¬ m'.LeadsGroup f → (change fiber).children ⊆ fiber.children)) :
    Beside f fiber asks m' := by
  rw [Machine.fiber?_modifyFiber] at same
  split at same
  · rename_i here
    rw [row] at same
    exact .spared same (kept here).1 opens (kept here).2
  · exact beside_of_row opens (same.trans row)

theorem beside_breakWait {g : FiberId} {taken : Fiber σ} (row : m.fiber? f = some fiber)
    (expects : Expects fiber asks) (known : m.fiber? g = some taken)
    (marked : taken.interrupted = true)
    (opens : ∀ w, (m.breakWait g taken).2.OpenFor f w → asks = some w) :
    Beside f fiber asks (m.breakWait g taken).2 := by
  by_cases here : f = g
  · subst here
    obtain rfl := Option.some.inj (row.symm.trans known)
    rcases row_breakWait row with same | ⟨w, c, breakable, pending, closed, row'⟩
    · exact beside_of_row opens same
    · have asked : asks = some w := expects.sleeps _ pending
      refine .answered row' (.refl _) (.interrupt ?_ ?_) (closed_of_asked opens asked closed)
        fun _ _ listed => listed
      · rw [isInterrupted, row']
        exact marked
      · rw [breakable]
        rfl
  · exact beside_of_row opens ((Machine.fiber?_breakWait here m taken).trans row)

theorem beside_resume {x : Exit} (row : m.fiber? f = some fiber) (expects : Expects fiber asks)
    (rightful : ∀ wait, m.waits.get? w = some wait → wait.source = .timer → x = .ok .null)
    (opens : ∀ w, m.OpenFor f w → asks = some w)
    (opens' : ∀ v, (m.resume w x).OpenFor f v → asks = some v) :
    Beside f fiber asks (m.resume w x) := by
  rcases row_resume (w := w) (x := x) row expects.awake with
    same | ⟨wait, after, opened, found, closed, row', kept, children⟩
  · exact beside_of_row opens' same
  · have change : Change none false m (m.resume w x) := .resume rightful
    obtain ⟨wait', found', -, source, -⟩ := change.keepsWaits found
    refine .answered row' kept (.wait (opens w opened) found' ?_)
      (closed_of_asked opens' (opens w opened) closed) fun _ => children ▸ List.Subset.refl _
    rw [source]
    exact rightful wait found

theorem beside_deliver {p : FiberId} {g : GroupId} {x : Exit} (row : m.fiber? f = some fiber)
    (expects : Expects fiber asks) (asleep : m.core.awaits p = some g)
    (opens : ∀ w, (m.deliver p x).OpenFor f w → asks = some w) :
    Beside f fiber asks (m.deliver p x) := by
  by_cases here : f = p
  · subst here
    have pending : fiber.pending = some (.group g) := by
      have awaits : fiber.awaits = some g := (Table.find_of_row _ row).symm.trans asleep
      unfold Fiber.awaits at awaits
      obtain ⟨pending, waits, known⟩ := Option.bind_eq_some_iff.1 awaits
      cases pending with
      | wait w c => cases known
      | group k =>
          obtain rfl := Option.some.inj known
          exact waits
    rcases row_deliver row x with same | running | row'
    · exact beside_of_row opens same
    · cases (expects.awake running).symm.trans pending
    · refine .answered row' (.refl _) (.group pending) (fun w opened => ?_) fun _ _ listed => listed
      have asked := opens w opened
      rw [expects.sleeps _ pending] at asked
      cases asked
  · exact beside_of_row opens ((Machine.fiber?_deliver here m x).trans row)

theorem beside_ended {g : FiberId} {x : Exit} (row : m.fiber? f = some fiber)
    (expects : Expects fiber asks) (other : actor ≠ some f)
    (gone : actor = some g ∨ ∃ fiber, m.fiber? g = some fiber ∧ fiber.closing.isSome)
    (opens : ∀ w, (m.modifyFiber g fun fiber => fiber.ended x).OpenFor f w → asks = some w) :
    Beside f fiber asks (m.modifyFiber g fun fiber => fiber.ended x) := by
  by_cases here : g = f
  · subst here
    rcases gone with own | ⟨fiber', row', closing⟩
    · exact absurd own other
    · obtain rfl := Option.some.inj (row.symm.trans row')
      refine .ended (x := x) ?_ closing (.refl _) fun w opened => ?_
      · rw [Machine.fiber?_modifyFiber, if_pos rfl, row]
        rfl
      · have asked := opens w opened
        rw [(expects.closing closing).2] at asked
        cases asked
  · exact beside_of_modify row opens rfl fun same => absurd same here

/-- What one change on behalf of someone else does to the row of a fiber. -/
theorem beside (change : Change actor deals m m') (other : actor ≠ some f)
    (row : m.fiber? f = some fiber) (expects : Expects fiber asks)
    (opens : ∀ w, m.OpenFor f w → asks = some w) : Beside f fiber asks m' := by
  have opens' : ∀ w, m'.OpenFor f w → asks = some w := fun w opened =>
    opens w (change.openFor other opened)
  cases change with
  | quiet same =>
      exact beside_of_row opens' (by rw [fiber?, same.fibers]; exact row)
  | mark m g =>
      exact beside_of_modify row opens' rfl fun _ =>
        ⟨⟨rfl, rfl, rfl, rfl, rfl⟩, fun _ _ listed => listed⟩
  | breakWait known marked => exact beside_breakWait row expects known marked opens'
  | resume rightful => exact beside_resume row expects rightful opens opens'
  | deliver x leads asleep => exact beside_deliver row expects asleep opens'
  | @claim m w own => exact beside_of_row opens' ((m.fiber?_claim w f).trans row)
  | @pushFiber m newborn _ _ => exact beside_of_row opens' (Table.get?_push_of_some newborn row)
  | @adopt m p c own =>
      refine beside_of_modify row opens' rfl fun here => ⟨⟨rfl, rfl, rfl, rfl, rfl⟩, fun alone => ?_⟩
      rcases own with own | leads
      · exact absurd (here ▸ own) other
      · exact absurd (here ▸ leads) alone
  | mild mild kept =>
      refine beside_of_modify row opens' rfl fun here => ?_
      subst here
      exact ⟨.of_mild (mild fiber row), fun _ => (mild fiber row).children⟩
  | watch g how untimed allowed =>
      exact beside_of_modify row opens' rfl fun _ =>
        ⟨⟨rfl, rfl, rfl, rfl, rfl⟩, fun _ _ listed => listed⟩
  | own own kept =>
      exact beside_of_modify row opens' rfl fun here => absurd (here ▸ own) other
  | ended x allowed gone => exact beside_ended row expects other gone opens'
  | _ => exact beside_of_row opens' row

end Beside

end Change

namespace Machine

variable {actor : Option FiberId} {deals : Bool} {m m' : Machine σ} {f : FiberId} {fiber : Fiber σ}
  {asks : Option WaitId}

theorem Beside.of_row (row : m.fiber? f = some fiber)
    (opens : ∀ w, m.OpenFor f w → asks = some w) : Beside f fiber asks m :=
  .spared row (.refl fiber) opens fun _ _ listed => listed

theorem Expects.kept {after : Fiber σ} (expects : Expects fiber asks) (kept : fiber.Kept after) :
    Expects after asks := by
  obtain ⟨awake, sleeps, closing⟩ := expects
  constructor
  · rw [kept.status, kept.pending]
    exact awake
  · rw [kept.pending]
    exact sleeps
  · rw [kept.closing, kept.status]
    exact closing

/-- A fiber that has no wait open and sleeps on nothing. -/
theorem Expects.of_awake (awake : fiber.pending = none)
    (closing : fiber.closing.isSome → fiber.status = .running) :
    Expects fiber none where
  awake _ := awake
  sleeps _ sleeps := nomatch awake.symm.trans sleeps
  closing ends := ⟨closing ends, rfl⟩

/-- Only a fiber whose program has not ended is answered. -/
theorem Answers.going {x : Exit} (why : m.Answers f fiber asks x) (expects : Expects fiber asks) :
    fiber.closing = none := by
  by_contra ends
  obtain ⟨running, unasked⟩ := expects.closing (Option.isSome_iff_ne_none.2 ends)
  cases why with
  | interrupt mark breakable => simp [Fiber.breakable?, running] at breakable
  | wait asked _ _ => cases unasked.symm.trans asked
  | group asleep => cases (expects.awake running).symm.trans asleep

theorem Answers.evolves {x : Exit} (why : m.Answers f fiber asks x)
    (evolves : Evolves actor deals m m') :
    m'.Answers f fiber asks x := by
  cases why with
  | interrupt mark breakable => exact .interrupt (evolves.marked mark) breakable
  | wait asked found rightful =>
      obtain ⟨wait', found', -, source, -⟩ := evolves.keepsWaits found
      exact .wait asked found' (source ▸ rightful)
  | group asleep => exact .group asleep

/-- Others leave a fiber alone that has neither an answer to get nor a child to wait for. -/
theorem beside_silent (change : Change actor deals m m') (other : actor ≠ some f)
    (row : m.fiber? f = some fiber) (awake : fiber.pending = none)
    (going : fiber.closing = none) (closed : ∀ w, ¬ m.OpenFor f w) :
    (∃ after, m'.fiber? f = some after ∧ fiber.Kept after ∧
      (¬ m'.LeadsGroup f → after.children ⊆ fiber.children)) ∧ ∀ w, ¬ m'.OpenFor f w := by
  have expects : Expects fiber none := .of_awake awake (by simp [going])
  have still : ∀ w, ¬ m'.OpenFor f w := fun w opened => closed w (change.openFor other opened)
  refine ⟨?_, still⟩
  cases change.beside other row expects fun w opened => absurd opened (closed w) with
  | spared row' kept _ children => exact ⟨_, row', kept, children⟩
  | @answered after x row' kept why _ children =>
      cases why with
      | interrupt mark breakable => simp [Fiber.breakable?, awake] at breakable
      | wait asked _ _ => cases asked
      | group asleep => cases awake.symm.trans asleep
  | ended row' closing _ _ =>
      rw [going] at closing
      cases closing

theorem Beside.change (expects : Expects fiber asks) (other : actor ≠ some f)
    (beside : Beside f fiber asks m) (change : Change actor deals m m') :
    Beside f fiber asks m' := by
  have leads : m.LeadsGroup f → m'.LeadsGroup f := change.leadsGroup_after
  cases beside with
  | @spared before row kept opens children =>
      cases change.beside other row (expects.kept kept) opens with
      | spared row' kept' opens' children' =>
          exact .spared row' (kept.trans kept') opens' fun alone =>
            List.Subset.trans (children' alone) (children fun led => alone (leads led))
      | @answered after x row' kept' why closed children' =>
          -- the reason is one for the first row as well, since the rows agree on what they wait for
          refine .answered row' ((kept.answered x).trans kept') ?_ closed fun alone =>
            List.Subset.trans (children' alone) (children fun led => alone (leads led))
          cases why with
          | interrupt mark breakable =>
              refine .interrupt mark ?_
              unfold Fiber.breakable? at breakable ⊢
              rwa [kept.status, kept.pending, kept.run] at breakable
          | wait asked found rightful => exact .wait asked found rightful
          | group asleep => exact .group (kept.pending ▸ asleep)
      | @ended after x row' closing kept' closed =>
          exact .ended row' (kept.closing ▸ closing) ((Fiber.Kept.ended fiber before x).trans kept')
            closed
  | @answered before x row kept why closed children =>
      have going : before.closing = none := by
        have same := kept.closing
        rw [show (Coherent.answered x fiber).closing = none from why.going expects] at same
        simpa using same
      obtain ⟨⟨after, row', kept', children'⟩, closed'⟩ :=
        beside_silent change other row kept.pending going closed
      exact .answered row' (kept.trans kept') (why.evolves (.of_change change)) closed' fun alone =>
        List.Subset.trans (children' alone) (children fun led => alone (leads led))
  | @ended before x row closing kept closed =>
      have going : before.closing = none := by
        have same := kept.closing
        rw [show (fiber.ended x).closing = none from rfl] at same
        simpa using same
      obtain ⟨⟨after, row', kept', -⟩, closed'⟩ :=
        beside_silent change other row kept.pending going closed
      exact .ended row' closing (kept.trans kept') closed'

/-- Others leave a fiber alone, answer it, or end it. -/
theorem Beside.evolves (beside : Beside f fiber asks m) (expects : Expects fiber asks)
    (evolves : Evolves actor deals m m') (other : actor ≠ some f) : Beside f fiber asks m' := by
  induction evolves with
  | refl => exact beside
  | tail _ change ih => exact ih.change expects other change

/-- Nobody starts a group for someone else. -/
theorem alone_after (alone : ¬ m.LeadsGroup f) (evolves : Evolves actor deals m m')
    (other : actor ≠ some f) : ¬ m'.LeadsGroup f := by
  induction evolves with
  | refl => exact alone
  | tail _ change ih =>
      exact fun leads => (change.leadsGroup leads).elim ih fun own => other own.1

/-! ## The fiber on the worker -/

section

variable {w : WaitId} {φ : Focus}

/-- The row of the fiber on the worker. -/
theorem status_of_held (coherent : Coherent m.core φ) (held : φ.held = some f)
    (row : m.fiber? f = some fiber) :
    fiber.status = .running ∧ fiber.pending = none ∧ fiber.closing = none := by
  obtain ⟨fiber', row', running, -, closing⟩ := coherent.row_of_held held
  obtain rfl := Option.some.inj (row.symm.trans row')
  exact ⟨running, (coherent.shaped row).pending_of_running running, closing⟩

theorem input_of_row (row : m.fiber? f = some fiber) : m.core.input f = fiber.input :=
  Table.find_of_row Fiber.input row

/-- The fiber on the worker has at most the wait open that it has asked for. -/
theorem asking_of_openFor (coherent : Coherent m.core φ) (held : φ.held = some f)
    (opened : m.OpenFor f w) : φ.asking = some w ∧ m.core.input f = none := by
  obtain ⟨wait, found, free, owner⟩ := opened
  have own : m.core.owner w = some f :=
    (Table.find_of_row Wait.openOwner found).trans (by simp [Wait.openOwner, free, owner])
  rcases coherent.waiting.of_owner own with asleep | ⟨-, asking, silent⟩
  · rw [coherent.waiting.held_awake held] at asleep
    cases asleep
  · exact ⟨asking, silent⟩

end

/-! ## Interrupts -/

/-- What is not marked in the end was not marked before. -/
theorem unmarked_before (evolves : Evolves actor deals m m') (calm : m'.isInterrupted f = false) :
    m.isInterrupted f = false := by
  by_contra marked
  have := evolves.marked (by simpa using marked)
  rw [calm] at this
  cases this

/-- Interrupts leave alone whom they do not mark. -/
theorem fiber?_interruptWithin_of_unmarked {depth : Nat} {g : FiberId}
    (row : m.fiber? f = some fiber) (calm : (m.interruptWithin depth g).isInterrupted f = false) :
    (m.interruptWithin depth g).fiber? f = some fiber := by
  induction depth generalizing m g with
  | zero => exact row
  | succ depth ih =>
      have below : ∀ (children : List FiberId) (n : Machine σ), n.fiber? f = some fiber →
          (children.foldl (interruptWithin depth) n).isInterrupted f = false →
            (children.foldl (interruptWithin depth) n).fiber? f = some fiber := by
        intro children
        induction children with
        | nil => exact fun _ row _ => row
        | cons c children ih' =>
            intro n row calm
            have rest : Evolves none false (n.interruptWithin depth c)
                (children.foldl (interruptWithin depth) (n.interruptWithin depth c)) :=
              .foldl _ (fun n c => .interruptWithin depth n c) children
            exact ih' _ (ih row (unmarked_before rest calm)) calm
      have onward : Evolves none false (m.mark g) (m.interruptWithin (depth + 1) g) :=
        .interruptWithin_of_mark (fun n c => .interruptWithin depth n c) m g
      have unmarked := unmarked_before onward calm
      have other : f ≠ g := by
        rintro rfl
        simp [isInterrupted, mark, fiber?_modifyFiber, row] at unmarked
      have row' : (m.mark g).fiber? f = some fiber := by
        rw [mark, fiber?_modifyFiber, if_neg (Ne.symm other), row]
      unfold interruptWithin at calm ⊢
      simp only at calm ⊢
      split
      · exact row'
      rename_i broken found
      simp only [found] at calm
      split
      · exact row'
      rename_i live
      rw [if_neg live] at calm
      have row'' := (fiber?_breakWait other (m.mark g) broken).trans row'
      generalize (m.mark g).breakWait g broken = result at row'' calm ⊢
      obtain ⟨canceler, m'⟩ := result
      cases canceler with
      | none => exact below broken.children _ row'' calm
      | some canceler =>
          have same : ∀ n : Machine σ,
            ((n.runCanceler g canceler).enqueue g).fiber? f = n.fiber? f :=
            fun n => congrArg (fun core : Core σ => core.fibers.get? f)
              (Coherent.core_runCanceler n g canceler)
          rw [isInterrupted, same] at calm
          exact (same _).trans (below broken.children _ row'' calm)

/-! ## New fibers -/

/-- A fiber that there is not yet: it has no wait open and has started no group. -/
structure Unborn (f : FiberId) (m : Machine σ) : Prop where
  row : m.fiber? f = none
  closed : ∀ w, ¬ m.OpenFor f w
  alone : ¬ m.LeadsGroup f

/-- A row that appears is a row that is pushed. -/
theorem row_of_change (missing : m.fiber? f = none) (change : Change actor deals m m') :
    m'.fiber? f = none ∨ ∃ fiber, fiber.Newborn ∧ m.Admits fiber ∧ f = m.fibers.nextId ∧
      m' = { m with fibers := m.fibers.push fiber } := by
  have modified : ∀ (n : Machine σ), n.fiber? f = none → ∀ g change,
      (n.modifyFiber g change).fiber? f = none := by
    intro n missing g change
    rw [fiber?_modifyFiber, missing]
    split <;> rfl
  have delivered : ∀ (n : Machine σ), n.fiber? f = none → ∀ p x,
      (n.deliver p x).fiber? f = none := by
    intro n missing p x
    rcases n.deliver_cases p x with same | ⟨change, ready, same, -⟩
    · rwa [same]
    · rw [same]
      exact modified n missing p change
  cases change with
  | quiet same => exact .inl (by rw [fiber?, same.fibers]; exact missing)
  | @breakWait m g fiber row _ =>
      have here : f ≠ g := by
        rintro rfl
        cases missing.symm.trans row
      exact .inl ((fiber?_breakWait here m fiber).trans missing)
  | @resume m w x _ =>
      refine .inl ?_
      obtain ⟨same, -⟩ | ⟨wait, -, -, same⟩ := m.resume_cases w x <;> rw [same]
      · exact missing
      · exact delivered _ ((m.fiber?_claim w f).trans missing) _ _
  | @deliver m p g x _ _ => exact .inl (delivered m missing p x)
  | @claim m w _ => exact .inl ((m.fiber?_claim w f).trans missing)
  | @pushFiber m fiber newborn admitted =>
      by_cases here : f = m.fibers.nextId
      · exact .inr ⟨fiber, newborn, admitted, here, rfl⟩
      · refine .inl ?_
        rw [fiber?, Table.get?_push, if_neg here]
        exact missing
  | mark m g => exact .inl (modified m missing g _)
  | adopt c _ => exact .inl (modified m missing _ _)
  | mild _ => exact .inl (modified m missing _ _)
  | watch g how _ => exact .inl (modified m missing _ _)
  | own _ _ => exact .inl (modified m missing _ _)
  | ended x _ => exact .inl (modified m missing _ _)
  | _ => exact .inl missing

/-- Others leave a fiber unborn, or it is born and from then on they do with it as with any
other. -/
theorem Unborn.evolves (unborn : Unborn f m) (other : actor ≠ some f)
    (evolves : Evolves actor deals m m') :
    Unborn f m' ∨ ∃ fiber, fiber.Newborn ∧ Beside f fiber none m' ∧ ¬ m'.LeadsGroup f := by
  induction evolves with
  | refl => exact .inl unborn
  | @tail n m' _ change ih =>
      have alone : ¬ n.LeadsGroup f → ¬ m'.LeadsGroup f := fun alone leads =>
        (change.leadsGroup leads).elim alone fun own => other own.1
      rcases ih with ⟨row, closed, lone⟩ | ⟨fiber, newborn, beside, lone⟩
      · have closed' : ∀ w, ¬ m'.OpenFor f w := fun w opened =>
          closed w (change.openFor other opened)
        rcases row_of_change row change with row' | ⟨fiber, newborn, -, rfl, rfl⟩
        · exact .inl ⟨row', closed', alone lone⟩
        · refine .inr ⟨fiber, newborn, .of_row (Table.get?_push_self _ _) fun w opened => ?_,
            alone lone⟩
          exact absurd opened (closed' w)
      · have expects : Expects fiber none := .of_awake newborn.pending (by simp [newborn.closing])
        exact .inr ⟨fiber, newborn, beside.change expects other change, alone lone⟩

end Machine

end EffectFibers
