import EffectFibers.Proofs.Changes.Bystander
import EffectFibers.Proofs.Waits.Acts

/-!
# What an operation does to a wait

Others can end the wait of a fiber in two ways only.  They answer it, and then the fiber has their
answer; or an interrupt takes the fiber out of its wait, and then the canceler runs that the fiber
has left.  Nothing more is done about a wait that has been claimed.

These are statements about an operation and its log together.  They hold of one operation after the
other if they hold of each, because a fiber that has its answer is left alone.

## Main definitions

* `Machine.Pends` – a fiber waits for something that is open.
* `Machine.Outcome` – what has become of a wait, and the acts that have brought it about.
* `Machine.Accounts`, `Machine.Does` – an operation does to waits what its log says.

## Main statements

* `Machine.Does.trans` – one operation after the other.
* `Machine.Does.still` – an operation that leaves waits alone.
-/

namespace EffectFibers

variable {σ : Type}

/-- An exit takes a fiber out of its sleep or reaches it before it sleeps; then it waits for nothing
more. -/
theorem Fiber.expects_of_answered {before after : Fiber σ} {x : Exit}
    (kept : (Coherent.answered x before).Kept after) (going : before.closing = none) :
    after.pending = none ∧ after.closing = none := by
  refine ⟨kept.pending, ?_⟩
  have same := kept.closing
  rw [show (Coherent.answered x before).closing = before.closing from rfl, going] at same
  simpa using same

theorem Fiber.breakable?_of_kept {before after : Fiber σ} (kept : before.Kept after) :
    after.breakable? = before.breakable? := by
  unfold Fiber.breakable?
  rw [kept.status, kept.pending, kept.run]

namespace Machine

/-- A fiber waits for something that is open, and neither has it another wait open nor does anybody
else sleep on this one. -/
structure Pends (m : Machine σ) (f : FiberId) (fiber : Fiber σ) (w : WaitId) : Prop where
  row : m.fiber? f = some fiber
  live : fiber.status.isTerminal = false
  expects : Expects fiber (some w)
  opened : m.OpenFor f w
  only : ∀ v, m.OpenFor f v → v = w
  sole : ∀ g other, m.fiber? g = some other → other.sleepsOn = some w → g = f

/-- What has become of the wait of a fiber, and the acts that have brought it about. -/
inductive Outcome (m : Machine σ) (f : FiberId) (fiber : Fiber σ) (w : WaitId) :
    List (WaitAct σ) → Prop
  /-- The fiber still waits.  If it was marked meanwhile, then no interrupt may end its wait. -/
  | pending {after} (row : m.fiber? f = some after) (kept : fiber.Kept after)
    (opened : m.OpenFor f w)
    (marks : fiber.breakable?.isSome → after.interrupted = true → fiber.interrupted = true) :
    Outcome m f fiber w []
  | answered {after x} (row : m.fiber? f = some after)
    (kept : (Coherent.answered x fiber).Kept after) (closed : ∀ v, ¬ m.OpenFor f v) :
    Outcome m f fiber w [.claims (.answer x)]
  | broken {after canceler} (row : m.fiber? f = some after)
    (kept : (Coherent.answered .interrupted fiber).Kept after) (marked : after.interrupted = true)
    (breakable : fiber.breakable? = some (w, canceler)) (closed : ∀ v, ¬ m.OpenFor f v) :
    Outcome m f fiber w [.claims .interrupt, .cancels canceler]

/-- Whoever sleeps on a wait did so before. -/
def OnlyWakes (m m' : Machine σ) : Prop :=
  ∀ ⦃g after w⦄, m'.fiber? g = some after → after.sleepsOn = some w →
    ∃ before, m.fiber? g = some before ∧ before.sleepsOn = some w

/-- A log accounts for what an operation on behalf of a fiber does to waits: nothing to those that
have been claimed, and to the wait of any other fiber what has become of it. -/
structure Accounts (actor : Option FiberId) (m : Machine σ) (log : WaitLog σ) (m' : Machine σ) :
    Prop where
  late : ∀ ⦃w wait⦄, m.waits.get? w = some wait → wait.claimed = true → log.on w = []
  outcome : ∀ ⦃f fiber w⦄, actor ≠ some f → m.Pends f fiber w → m'.Outcome f fiber w (log.on w)

/-- An operation on behalf of a fiber does to waits what its log says, and puts nobody to sleep. -/
structure Does (actor : Option FiberId) (m : Machine σ) (log : WaitLog σ) (m' : Machine σ) : Prop
    extends Accounts actor m log m' where
  evolves : Evolves actor true m m'
  sleeps : OnlyWakes m m'

/-- An operation that neither claims a wait nor marks a fiber, nor puts one to sleep. -/
structure Still (m m' : Machine σ) : Prop where
  waits : ∀ ⦃w wait⦄, m.waits.get? w = some wait → m'.waits.get? w = some wait
  marks : ∀ ⦃f fiber⦄, m.fiber? f = some fiber →
    ∃ after, m'.fiber? f = some after ∧ (after.interrupted = true → fiber.interrupted = true)
  sleeps : OnlyWakes m m'

variable {actor : Option FiberId} {m m' m'' : Machine σ} {log more : WaitLog σ} {f g : FiberId}
  {fiber : Fiber σ} {w : WaitId}

theorem OnlyWakes.trans (first : OnlyWakes m m') (second : OnlyWakes m' m'') :
    OnlyWakes m m'' := by
  intro g after w row asleep
  obtain ⟨middle, row', asleep'⟩ := second row asleep
  exact first row' asleep'

/-- Nobody opens a wait for someone else. -/
theorem openFor_of_evolves {deals : Bool} (evolves : Evolves actor deals m m')
    (other : actor ≠ some f) (opened : m'.OpenFor f w) : m.OpenFor f w := by
  induction evolves with
  | refl => exact opened
  | tail _ change ih => exact ih (change.openFor other opened)

/-- A wait that is open no more has been claimed. -/
theorem claimed_of_openFor {deals : Bool} (opened : m.OpenFor f w) (evolves : Evolves actor deals m m')
    (closed : ¬ m'.OpenFor f w) :
    ∃ wait, m'.waits.get? w = some wait ∧ wait.claimed = true := by
  obtain ⟨wait, found, -, owner⟩ := opened
  obtain ⟨wait', found', owner', -⟩ := evolves.keepsWaits found
  refine ⟨wait', found', ?_⟩
  by_contra free
  exact closed ⟨wait', found', by simpa using free, owner'.trans owner⟩

/-- A fiber that has its answer is left alone. -/
theorem kept_of_closed {deals : Bool} (row : m.fiber? f = some fiber) (awake : fiber.pending = none)
    (going : fiber.closing = none) (closed : ∀ v, ¬ m.OpenFor f v)
    (evolves : Evolves actor deals m m') (other : actor ≠ some f) :
    (∃ after, m'.fiber? f = some after ∧ fiber.Kept after) ∧ ∀ v, ¬ m'.OpenFor f v := by
  induction evolves with
  | refl => exact ⟨⟨fiber, row, .refl fiber⟩, closed⟩
  | @tail n n' _ change ih =>
      obtain ⟨⟨middle, row', kept⟩, closed'⟩ := ih
      have going' : middle.closing = none := by
        have same := kept.closing
        rw [going] at same
        simpa using same
      obtain ⟨⟨after, row'', kept', -⟩, closed''⟩ :=
        beside_silent change other row' (kept.pending.trans awake) going' closed'
      exact ⟨⟨after, row'', kept.trans kept'⟩, closed''⟩

theorem isInterrupted_of_row (row : m.fiber? f = some fiber) :
    m.isInterrupted f = fiber.interrupted := by
  rw [isInterrupted, row]
  rfl

namespace Pends

/-- The program of a fiber that waits has not ended. -/
theorem going (pends : m.Pends f fiber w) : fiber.closing = none := by
  by_contra ends
  cases (pends.expects.closing (Option.isSome_iff_ne_none.2 ends)).2

theorem isOpen (pends : m.Pends f fiber w) : m.isOpen w = true := by
  obtain ⟨wait, found, free, -⟩ := pends.opened
  simp [Machine.isOpen, found, free]

/-- A fiber that still waits after an operation on behalf of someone else. -/
theorem later (pends : m.Pends f fiber w) (other : actor ≠ some f)
    (evolves : Evolves actor true m m') (sleeps : OnlyWakes m m') {after : Fiber σ}
    (row : m'.fiber? f = some after) (kept : fiber.Kept after) (opened : m'.OpenFor f w) :
    m'.Pends f after w where
  row := row
  live := kept.status ▸ pends.live
  expects := pends.expects.kept kept
  opened := opened
  only v still := pends.only v (openFor_of_evolves evolves other still)
  sole g other row' asleep := by
    obtain ⟨before, row'', asleep'⟩ := sleeps row' asleep
    exact pends.sole g before row'' asleep'

end Pends

namespace Outcome

/-- What has become of a wait counts from any earlier row of its fiber. -/
theorem of_kept {before : Fiber σ} {acts : List (WaitAct σ)} (outcome : m.Outcome f fiber w acts)
    (kept : before.Kept fiber)
    (marks : before.breakable?.isSome → fiber.interrupted = true → before.interrupted = true) :
    m.Outcome f before w acts := by
  have breakable := Fiber.breakable?_of_kept kept
  cases outcome with
  | pending row kept' opened marks' =>
      refine .pending row (kept.trans kept') opened fun sleeps marked => ?_
      exact marks sleeps (marks' (breakable ▸ sleeps) marked)
  | answered row kept' closed => exact .answered row ((kept.answered _).trans kept') closed
  | broken row kept' marked broken closed =>
      exact .broken row ((kept.answered _).trans kept') marked (breakable ▸ broken) closed

/-- A wait that has been claimed is left alone. -/
theorem later (outcome : m.Outcome f fiber w (log.on w)) (claims : log.on w ≠ [])
    (going : fiber.closing = none) (other : actor ≠ some f) (evolves : Evolves actor true m m') :
    m'.Outcome f fiber w (log.on w) := by
  generalize log.on w = acts at outcome claims ⊢
  cases outcome with
  | pending => exact absurd rfl claims
  | answered row kept closed =>
      obtain ⟨awake, going'⟩ := Fiber.expects_of_answered kept going
      obtain ⟨⟨after, row', kept'⟩, closed'⟩ :=
        kept_of_closed row awake going' closed evolves other
      exact .answered row' (kept.trans kept') closed'
  | broken row kept marked breakable closed =>
      obtain ⟨awake, going'⟩ := Fiber.expects_of_answered kept going
      obtain ⟨⟨after, row', kept'⟩, closed'⟩ :=
        kept_of_closed row awake going' closed evolves other
      have mark := evolves.marked ((isInterrupted_of_row row).trans marked)
      rw [isInterrupted_of_row row'] at mark
      exact .broken row' (kept.trans kept') mark breakable closed'

theorem closed (outcome : m.Outcome f fiber w (log.on w)) (claims : log.on w ≠ []) :
    ∀ v, ¬ m.OpenFor f v := by
  generalize log.on w = acts at outcome claims
  cases outcome with
  | pending => exact absurd rfl claims
  | answered row kept closed => exact closed
  | broken row kept marked breakable closed => exact closed

end Outcome

namespace Does

/-- One operation after the other. -/
theorem trans (first : Does actor m log m') (second : Does actor m' more m'') :
    Does actor m (log ++ more) m'' := by
  refine ⟨⟨fun w wait found claimed => ?_, fun f fiber w other pends => ?_⟩,
    first.evolves.trans second.evolves, first.sleeps.trans second.sleeps⟩
  · obtain ⟨wait', found', -, -, claimed'⟩ := first.evolves.keepsWaits found
    rw [WaitLog.on_append, first.late found claimed, second.late found' (claimed' claimed)]
    rfl
  · have outcome := first.outcome other pends
    rw [WaitLog.on_append]
    by_cases claims : log.on w = []
    · rw [claims] at outcome ⊢
      cases outcome with
      | @pending after row kept opened marks =>
          have pends' := pends.later other first.evolves first.sleeps row kept opened
          exact (second.outcome other pends').of_kept kept marks
    · obtain ⟨wait, found, claimed⟩ :=
        claimed_of_openFor pends.opened first.evolves (outcome.closed claims w)
      rw [second.late found claimed, List.append_nil]
      exact outcome.later claims pends.going other second.evolves

/-- An operation that leaves waits alone. -/
theorem still (evolves : Evolves actor true m m') (still : Still m m') : Does actor m [] m' := by
  refine ⟨⟨fun _ _ _ _ => rfl, fun f fiber w other pends => ?_⟩, evolves, still.sleeps⟩
  obtain ⟨wait, found, free, owner⟩ := pends.opened
  have opened : m'.OpenFor f w := ⟨wait, still.waits found, free, owner⟩
  obtain ⟨after, row, marks⟩ := still.marks pends.row
  have beside : Beside f fiber (some w) m' :=
    (Beside.of_row pends.row fun v opened => congrArg some (pends.only v opened).symm).evolves
      pends.expects evolves other
  cases beside with
  | spared row' kept _ _ =>
      obtain rfl := Option.some.inj (row.symm.trans row')
      exact .pending row kept opened fun _ => marks
  | answered row' kept why closed _ => exact absurd opened (closed w)
  | ended row' closing kept closed => exact absurd opened (closed w)

theorem before (first : Does actor m [] m') (second : Does actor m' log m'') :
    Does actor m log m'' := first.trans second

theorem after (first : Does actor m log m') (second : Does actor m' [] m'') :
    Does actor m log m'' := by
  have both := first.trans second
  rwa [List.append_nil] at both

theorem refl (m : Machine σ) : Does actor m [] m :=
  still (.refl m) ⟨fun _ _ => id, fun _ fiber row => ⟨fiber, row, id⟩,
    fun _ after _ row asleep => ⟨after, row, asleep⟩⟩

/-- Doing one thing after the other. -/
theorem foldl {α : Type} {step : Machine σ → α → Machine σ} {log : Machine σ → α → WaitLog σ}
    (m : Machine σ) (steps : ∀ m a, Does actor m (log m a) (step m a)) (as : List α) :
    Does actor m (logOver step log m as) (as.foldl step m) := by
  induction as generalizing m with
  | nil => exact refl m
  | cons a as ih => exact (steps m a).trans (ih _)

end Does

end Machine

end EffectFibers
