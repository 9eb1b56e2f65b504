import EffectFibers.Machine.Memo
import EffectFibers.Machine.Perform
import EffectFibers.Proofs.Coherence.Core

/-!
# Answers and interrupts keep a machine coherent

An answer reaches a fiber through an open wait, and an open wait belongs to a fiber that sleeps on
it or to the fiber on the worker that has just asked; so no answer is lost and none comes twice.
An interrupt takes a fiber out of its wait by claiming it first.  While the fibers below it are
interrupted, the fiber can go on already and is on its way to the queue.

Both can happen in the middle of other operations, so they keep the invariant up to every focus.

## Main statements

* `Coherent.resume` – ending a wait.
* `Coherent.interrupt` – interrupting a fiber and everything below it.
* `Coherent.perform` – running user code.
-/

namespace EffectFibers

variable {σ : Type}

namespace Coherent

variable {κ : Core σ} {m : Machine σ} {φ : Focus} {f : FiberId} {w : WaitId} {fiber : Fiber σ}

/-- A wait after its first claim. -/
def claimed (wait : Wait) : Wait := { wait with claimed := true }

/-- A fiber whose wait has ended with an exit. -/
def answered (x : Exit) (fiber : Fiber σ) : Fiber σ :=
  { fiber with input := some x, status := .running, pending := none }

/-- A fiber that finds an exit when it is about to sleep. -/
def informed (x : Exit) (fiber : Fiber σ) : Fiber σ := { fiber with input := some x }

theorem owner_claimed {wait : Wait} (row : κ.waits.get? w = some wait) :
    (κ.waits.modify w claimed).find Wait.openOwner = Function.update κ.owner w none := by
  rw [Table.find_modify _ _ _ _ row]
  rfl

/-- A wait that is open belongs to the fiber that it was opened for. -/
theorem owner_of_isOpen {wait : Wait} (row : m.waits.get? w = some wait) (free : m.isOpen w) :
    m.core.owner w = some wait.owner := by
  have unclaimed : wait.claimed = false := by simpa [Machine.isOpen, row] using free
  have owned : m.waits.find Wait.openOwner w = some wait.owner := by
    rw [Table.find_of_row _ row, Wait.openOwner, if_neg (by simp [unclaimed])]
  exact owned

/-- The row of a fiber that sleeps on a wait. -/
theorem row_of_sleeps (asleep : κ.sleeps f = some w) :
    ∃ fiber c, κ.fibers.get? f = some fiber ∧ fiber.pending = some (.wait w c) := by
  obtain ⟨fiber, row, sleeps⟩ := Table.exists_row_of_find asleep
  refine ⟨fiber, ?_⟩
  obtain ⟨pending, waits, this⟩ := Option.bind_eq_some_iff.1 sleeps
  cases pending with
  | wait v c =>
      obtain rfl : v = w := by simpa [Pending.wait?] using this
      exact ⟨c, row, waits⟩
  | group g => simp [Pending.wait?] at this

theorem sleeps_of_row {c : Canceler σ} (row : κ.fibers.get? f = some fiber)
    (waits : fiber.pending = some (.wait w c)) : κ.sleeps f = some w := by
  rw [Core.sleeps, Table.find_of_row _ row, Fiber.sleepsOn, waits]
  rfl

/-- A suspended fiber whose wait has ended makes sense. -/
theorem shaped_answered {x : Exit} (shaped : fiber.Shaped) (asleep : fiber.status = .suspended) :
    (answered x fiber).Shaped := by
  constructor
  · intro ended
    cases ended
  · intro closing
    obtain ⟨running, -⟩ := shaped.closed closing
    rw [asleep] at running
    cases running
  · simp [answered]
  · intro suspended
    cases suspended

/-- What there is to do for a suspended fiber, and what is then. -/
theorem task_of_suspended (asleep : fiber.status = .suspended) : fiber.task = .resting := by
  simp [Fiber.task, asleep]

theorem task_answered {x : Exit} (shaped : fiber.Shaped) (asleep : fiber.status = .suspended) :
    (answered x fiber).task = .runnable := by
  simp [Fiber.task, answered, (shaped.parked asleep).1]

/-- A fiber that sleeps on a wait gets its answer, and the wait is claimed. -/
theorem answerSleeper (coherent : Coherent κ φ) (row : κ.fibers.get? f = some fiber)
    {c : Canceler σ} (waits : fiber.pending = some (.wait w c)) (x : Exit) :
    Coherent ⟨κ.fibers.modify f (answered x), κ.ready, κ.waits.modify w claimed, κ.groups,
      κ.births, κ.exits, κ.worker⟩ { φ with waking := f :: φ.waking } := by
  have shaped := coherent.shaped row
  have asleep : fiber.status = .suspended := shaped.asleep.2 (by simp [waits])
  have sleeps := sleeps_of_row row waits
  have task : κ.task f = some .resting := by
    rw [Core.task, Table.view_of_row _ row, task_of_suspended asleep]
  obtain ⟨wait, rowW, -⟩ := Table.exists_row_of_find (coherent.waiting.owner_of_sleeps sleeps)
  refine coherent.of_row row _ _ coherent.worker rfl rfl rfl
    (coherent.heirs_of_row row rfl (List.Subset.refl _)) (shaped_answered shaped asleep) ?_ ?_ ?_ ?_
  · have same : (answered x fiber).kin = fiber.kin := by
      simp [answered, Fiber.kin, Fiber.verdict, asleep, FiberStatus.isTerminal]
    rw [Core.kin, Table.update_view row same]
    exact coherent.family
  · rw [task_answered shaped asleep]
    refine coherent.agenda.wake (by simp [task]) fun held => ?_
    have working := coherent.agenda.held_works held
    simp [task] at working
  · rw [owner_claimed rowW]
    exact coherent.waiting.answerSleeper sleeps
  · have same : (answered x fiber).live = fiber.live := by
      simp [answered, Fiber.live, asleep, FiberStatus.isTerminal]
    have same' : (answered x fiber).awaits = fiber.awaits := by
      simp [answered, Fiber.awaits, waits, Pending.group?]
    rw [Core.live, Core.awaits, Table.update_view row same, Table.update_find row same']
    exact coherent.seating

/-- The fiber on the worker is live, its program has not ended, and nobody keeps the rest of it. -/
theorem row_of_held (coherent : Coherent κ φ) (held : φ.held = some f) :
    ∃ fiber, κ.fibers.get? f = some fiber ∧ fiber.status = .running ∧ fiber.run = none ∧
      fiber.closing = none := by
  obtain ⟨fiber, row, working⟩ := Table.exists_row_of_view (coherent.agenda.held_works held)
  exact ⟨fiber, row, Fiber.task_eq_working_iff.1 working⟩

/-- The fiber on the worker gets an answer before it sleeps, and the wait is claimed. -/
theorem answerAsker (coherent : Coherent κ φ) (held : φ.held = some f) (asking : φ.asking = some w)
    (early : κ.input f = none) (x : Exit) :
    Coherent ⟨κ.fibers.modify f (informed x), κ.ready, κ.waits.modify w claimed, κ.groups,
      κ.births, κ.exits, κ.worker⟩ φ := by
  obtain ⟨fiber, row, running, unsaved, unended⟩ := coherent.row_of_held held
  obtain ⟨wait, rowW, -⟩ :=
    Table.exists_row_of_find (coherent.waiting.owner_of_asking held asking early)
  refine coherent.of_row row _ _ coherent.worker rfl rfl rfl
    (coherent.heirs_of_row row rfl (List.Subset.refl _)) ?_ ?_ ?_ ?_ ?_
  · have asleep := (coherent.shaped row).asleep
    constructor <;> simp_all [informed, FiberStatus.isTerminal]
  · have same : (informed x fiber).kin = fiber.kin := rfl
    rw [Core.kin, Table.update_view row same]
    exact coherent.family
  · have same : (informed x fiber).task = fiber.task := rfl
    rw [Core.task, Table.update_view row same]
    exact coherent.agenda
  · have same : (informed x fiber).sleepsOn = fiber.sleepsOn := rfl
    rw [owner_claimed rowW, Core.sleeps, Table.update_find row same]
    have waiting := coherent.waiting
    rw [held, asking] at waiting ⊢
    exact waiting.answerAsker early
  · have same : (informed x fiber).live = fiber.live := rfl
    have same' : (informed x fiber).awaits = fiber.awaits := rfl
    rw [Core.live, Core.awaits, Table.update_view row same, Table.update_find row same']
    exact coherent.seating

/-- A fiber on its way is queued. -/
theorem enqueue (coherent : Coherent m.core { φ with waking := f :: φ.waking }) :
    Coherent (m.enqueue f).core φ := by
  rw [Machine.core_enqueue]
  obtain ⟨worker, shaped, family, heirs, agenda, waiting, seating⟩ := coherent
  exact ⟨worker, shaped, family, heirs, agenda.enqueue, waiting, seating⟩

theorem status_of_row (row : m.fibers.get? f = some fiber) : m.status f = fiber.status := by
  simp [Machine.status, Machine.statusOf, row]

/-- Ending a wait. -/
theorem resume (coherent : Coherent m.core φ) (w : WaitId) (x : Exit) :
    Coherent (m.resume w x).core φ := by
  obtain ⟨same, -⟩ | ⟨wait, rowW, unclaimed, same⟩ := m.resume_cases w x <;> rw [same]
  · exact coherent
  · have free : m.isOpen w := by simp [Machine.isOpen, rowW, unclaimed]
    have owner := owner_of_isOpen rowW free
    simp only [Machine.claim, if_pos free, Machine.deliver]
    obtain asleep | ⟨held, asking, silent⟩ := coherent.waiting.of_owner owner
    · obtain ⟨fiber, c, row, waits⟩ := row_of_sleeps asleep
      have status : fiber.status = .suspended :=
        (coherent.shaped row).asleep.2 (by simp [waits])
      have seen : m.status wait.owner = .suspended := (status_of_row row).trans status
      simp only [Machine.status] at seen ⊢
      rw [seen]
      exact enqueue (coherent.answerSleeper row waits x)
    · obtain ⟨fiber, row, running, -⟩ := coherent.row_of_held held
      have seen : m.status wait.owner = .running := (status_of_row row).trans running
      simp only [Machine.status] at seen ⊢
      rw [seen]
      exact coherent.answerAsker held asking silent x

/-- Ending a wait for a callback. -/
theorem resumeCallback (coherent : Coherent m.core φ) (w : WaitId) (x : Exit) :
    Coherent (m.resumeCallback w x).core φ := by
  unfold Machine.resumeCallback
  split
  · exact coherent.resume w x
  · exact coherent

/-! ## Interrupts -/

/-- Marking a fiber.  Its children are to follow. -/
theorem mark (coherent : Coherent m.core φ) (f : FiberId) :
    Coherent (m.mark f).core { φ with visiting := f :: φ.visiting } := by
  show Coherent (m.core.modify f fun fiber => { fiber with interrupted := true }) _
  cases row : m.core.fibers.get? f with
  | none =>
      rw [Core.modify, Table.modify_of_none _ row]
      obtain ⟨worker, shaped, family, heirs, agenda, waiting, seating⟩ := coherent
      exact ⟨worker, shaped, family, heirs.await f, agenda, waiting, seating⟩
  | some fiber =>
      exact coherent.modify_alike_of_row row ⟨rfl, rfl, rfl, rfl, rfl, rfl⟩ (coherent.heirs.mark f)

/-- A fiber that is taken out of its wait is on its way to the queue. -/
theorem breakWait (coherent : Coherent m.core φ) (row : m.fiber? f = some fiber) :
    Coherent (m.breakWait f fiber).2.core
      (if (m.breakWait f fiber).1.isSome then { φ with waking := f :: φ.waking } else φ) := by
  obtain ⟨same, -⟩ | ⟨w, c, breakable, free, same⟩ := m.breakWait_cases f fiber
  · rw [same]
    exact coherent
  · rw [same]
    obtain ⟨-, waits, -⟩ := Fiber.breakable?_eq_some_iff.1 breakable
    simp only [Machine.claim, if_pos free, ↓reduceIte, Option.isSome_some]
    exact coherent.answerSleeper row waits .interrupted

theorem core_foldl {α : Type} {step : Machine σ → α → Machine σ}
    (quiet : ∀ m a, (step m a).core = m.core) (as : List α) (m : Machine σ) :
    (as.foldl step m).core = m.core := by
  induction as generalizing m with
  | nil => rfl
  | cons a as ih => rw [List.foldl_cons, ih, quiet]

theorem core_note (m : Machine σ) (request : Request) :
    (match request with
      | .note v => m.write (.note v)
      | _ => m).core = m.core := by
  cases request with
  | note v => exact m.core_write_of_quiet rfl rfl
  | _ => rfl

/-- Cleaning up writes nothing but notes. -/
theorem core_runCleanup (m : Machine σ) (f : FiberId) (cleanup : Cleanup σ) :
    (m.runCleanup f cleanup).core = m.core := by
  unfold Machine.runCleanup
  dsimp only
  split
  · exact core_foldl core_note _ _
  · exact (Machine.core_trace_of_quiet _ rfl rfl).trans (core_foldl core_note _ _)

theorem core_runCanceler (m : Machine σ) (f : FiberId) (canceler : Canceler σ) :
    (m.runCanceler f canceler).core = m.core := by
  cases canceler with
  | none => rfl
  | timer handle => rfl
  | code cleanup => exact core_runCleanup m f cleanup

/-! ## What interrupts leave alone -/

/-- Families, groups and those who wait for groups are the same in two states, and no mark is
lost. -/
structure Calm (before after : Core σ) : Prop where
  kin : after.kin = before.kin
  marked : ∀ g, before.marked g = some true → after.marked g = some true
  place : after.place = before.place
  awaits : after.awaits = before.awaits
  groups : after.groups = before.groups

theorem Calm.refl (κ : Core σ) : Calm κ κ := ⟨rfl, fun _ h => h, rfl, rfl, rfl⟩

theorem Calm.trans {a b c : Core σ} (first : Calm a b) (second : Calm b c) : Calm a c :=
  ⟨second.kin.trans first.kin, fun g h => second.marked g (first.marked g h),
    second.place.trans first.place, second.awaits.trans first.awaits,
    second.groups.trans first.groups⟩

theorem Calm.row {before after : Core σ} (calm : Calm before after) {g : GroupId} {G : Group σ}
    (row : before.groups.get? g = some G) : after.groups.get? g = some G := by
  rw [calm.groups]
  exact row

/-- A change to a row that takes no mark away. -/
theorem marked_modify {t : Table .fiber (Fiber σ)} {change : Fiber σ → Fiber σ}
    (keeps : ∀ fiber, fiber.interrupted = true → (change fiber).interrupted = true) (g : FiberId)
    (mark : t.view Fiber.interrupted g = some true) :
    (t.modify f change).view Fiber.interrupted g = some true := by
  obtain ⟨fiber, row, mark⟩ := Table.exists_row_of_view mark
  rw [Table.view, Table.get?_modify, row]
  split
  · simp [keeps fiber mark]
  · simp [mark]

theorem calm_mark (m : Machine σ) (f : FiberId) : Calm m.core (m.mark f).core :=
  ⟨Table.view_modify_of_eq _ _ _ _ fun _ _ => rfl, marked_modify fun _ _ => rfl,
    Table.find_modify_of_eq _ _ _ _ fun _ _ => rfl,
    Table.find_modify_of_eq _ _ _ _ fun _ _ => rfl, rfl⟩

theorem calm_breakWait (row : m.fiber? f = some fiber) :
    Calm m.core (m.breakWait f fiber).2.core := by
  obtain ⟨same, -⟩ | ⟨w, c, breakable, free, same⟩ := m.breakWait_cases f fiber
  · rw [same]
    exact .refl _
  · rw [same]
    obtain ⟨suspended, sleeps, -⟩ := Fiber.breakable?_eq_some_iff.1 breakable
    simp only [Machine.claim, if_pos free]
    have only : ∀ a, m.fibers.get? f = some a → a = fiber := fun a h =>
      Option.some.inj (h.symm.trans row)
    refine ⟨Table.view_modify_of_eq _ _ _ _ fun a h => ?_, marked_modify fun _ mark => mark,
      Table.find_modify_of_eq _ _ _ _ fun _ _ => rfl,
      Table.find_modify_of_eq _ _ _ _ fun a h => ?_, rfl⟩
    · obtain rfl := only a h
      simp [Fiber.kin, Fiber.verdict, suspended, FiberStatus.isTerminal]
    · obtain rfl := only a h
      simp [Fiber.awaits, sleeps, Pending.group?]

theorem calm_foldl {α : Type} {step : Machine σ → α → Machine σ}
    (steps : ∀ m a, Calm m.core (step m a).core) (m : Machine σ) (as : List α) :
    Calm m.core (as.foldl step m).core := by
  induction as generalizing m with
  | nil => exact .refl _
  | cons a as ih => exact (steps m a).trans (ih _)

/-- After the mark on its first fiber an interrupt is calm if it is calm below. -/
theorem calm_interruptWithin_succ {depth : Nat}
    (below : ∀ m f, Calm m.core (Machine.interruptWithin (σ := σ) depth m f).core) (m : Machine σ)
    (f : FiberId) : Calm (m.mark f).core (m.interruptWithin (depth + 1) f).core := by
  unfold Machine.interruptWithin
  simp only
  split
  · exact .refl _
  rename_i fiber row
  split
  · exact .refl _
  have broken := calm_breakWait row
  generalize (m.mark f).breakWait f fiber = result at broken ⊢
  obtain ⟨canceler, m'⟩ := result
  have below := calm_foldl below (m'.trace (.interrupting f fiber.children.length)) fiber.children
  rw [Machine.core_trace_of_quiet _ rfl rfl] at below
  have calm := broken.trans below
  cases canceler with
  | none => exact calm
  | some canceler =>
      refine ⟨?_, ?_, ?_, ?_, ?_⟩ <;> rw [Machine.core_enqueue, core_runCanceler]
      · exact calm.kin
      · exact calm.marked
      · exact calm.place
      · exact calm.awaits
      · exact calm.groups

theorem calm_interruptWithin (depth : Nat) (m : Machine σ) (f : FiberId) :
    Calm m.core (m.interruptWithin depth f).core := by
  induction depth generalizing m f with
  | zero => exact .refl _
  | succ depth ih => exact (calm_mark m f).trans (calm_interruptWithin_succ ih m f)

theorem calm_interruptAll (m : Machine σ) (fibers : List FiberId) :
    Calm m.core (m.interruptAll fibers).core :=
  calm_foldl (fun m f => calm_interruptWithin _ m f) m fibers

/-! ## Interrupting a whole family -/

/-- How far an interrupt may have to go: no fiber is as young as that. -/
def Deep (κ : Core σ) (depth : Nat) (f : FiberId) : Prop :=
  ∀ c k, κ.kin c = some k → c.raw < depth + f.raw

theorem Calm.deep {before after : Core σ} (calm : Calm before after) {depth : Nat}
    (deep : Deep before depth f) : Deep after depth f := by
  unfold Deep
  rw [calm.kin]
  exact deep

/-- A fiber that is interrupted has a mark afterwards. -/
theorem marked_interruptWithin (depth : Nat) {k : Kin} (known : m.core.kin f = some k) :
    (m.interruptWithin (depth + 1) f).core.marked f = some true := by
  obtain ⟨fiber, row, -⟩ := Table.exists_row_of_view known
  have first : (m.mark f).core.marked f = some true := by
    rw [Core.marked, show (m.mark f).core.fibers = m.core.fibers.modify f _ from rfl,
      Table.view_modify _ _ _ _ row, Function.update_self]
  exact (calm_interruptWithin_succ (calm_interruptWithin depth) m f).marked f first

/-- All fibers that are interrupted have a mark afterwards. -/
theorem marked_foldl (depth : Nat) {c : FiberId} {children : List FiberId} (listed : c ∈ children)
    {k : Kin} (known : m.core.kin c = some k) :
    (children.foldl (Machine.interruptWithin (depth + 1)) m).core.marked c = some true := by
  induction children generalizing m with
  | nil => cases listed
  | cons d children ih =>
      rw [List.foldl_cons]
      have calm := calm_interruptWithin (depth + 1) m d
      rcases List.mem_cons.1 listed with rfl | later
      · exact (calm_foldl (fun m c => calm_interruptWithin _ m c) _ children).marked c
          (marked_interruptWithin depth known)
      · refine ih later ?_
        rw [calm.kin]
        exact known

/-- The children of a fiber have all been marked. -/
theorem leave (coherent : Coherent κ { φ with visiting := f :: φ.visiting })
    (all : ∀ k c, κ.kin f = some k → c ∈ k.children → κ.marked c = some true) : Coherent κ φ := by
  obtain ⟨worker, shaped, family, heirs, agenda, waiting, seating⟩ := coherent
  exact ⟨worker, shaped, family, heirs.leave all, agenda, waiting, seating⟩

/-- Interrupting fibers that are young enough. -/
theorem interruptEach {depth : Nat} {children : List FiberId}
    (one : ∀ {m : Machine σ} {c : FiberId}, Coherent m.core φ → Deep m.core depth c →
      Coherent (m.interruptWithin depth c).core φ)
    (coherent : Coherent m.core φ) (deep : ∀ c ∈ children, Deep m.core depth c) :
    Coherent (children.foldl (Machine.interruptWithin depth) m).core φ := by
  induction children generalizing m with
  | nil => exact coherent
  | cons c children ih =>
      refine ih (one coherent (deep c (by simp))) fun d listed => ?_
      exact (calm_interruptWithin depth m c).deep (deep d (by simp [listed]))

/-- Interrupting a fiber and those below it, down to the youngest one. -/
theorem interruptWithin (coherent : Coherent m.core φ) (depth : Nat) (f : FiberId)
    (deep : Deep m.core depth f) : Coherent (m.interruptWithin depth f).core φ := by
  induction depth generalizing m φ f with
  | zero => exact coherent
  | succ depth ih =>
      have marked := coherent.mark f
      have deep := (calm_mark m f).deep deep
      unfold Machine.interruptWithin
      simp only
      split
      · rename_i none
        refine marked.leave fun k c row _ => ?_
        obtain ⟨fiber, row, -⟩ := Table.exists_row_of_view row
        cases (show (m.mark f).fiber? f = some fiber from row).symm.trans none
      rename_i fiber row
      have kin : (m.mark f).core.kin f = some fiber.kin := Table.view_of_row _ row
      split
      · rename_i ended
        refine marked.leave fun k c row listed => ?_
        obtain rfl := Option.some.inj (kin.symm.trans row)
        rw [(marked.family.ended_alone kin (by simp [Fiber.kin, Fiber.verdict, ended])).1] at listed
        cases listed
      have broken := marked.breakWait row
      have calm := calm_breakWait row
      -- a child is younger, so that much less depth is enough for it
      have young : ∀ c ∈ fiber.children, (∃ k, (m.mark f).core.kin c = some k) ∧ f.raw < c.raw := by
        intro c listed
        obtain ⟨k, row', child, -⟩ := (marked.family.mem_children kin).1 listed
        exact ⟨⟨k, row'⟩, (marked.family.parent_older row' child).1⟩
      generalize (m.mark f).breakWait f fiber = result at broken calm ⊢
      obtain ⟨canceler, m'⟩ := result
      have below : ∀ φ, Coherent m'.core { φ with visiting := f :: φ.visiting } →
          Coherent (fiber.children.foldl (Machine.interruptWithin depth)
            (m'.trace (.interrupting f fiber.children.length))).core φ := by
        intro φ before
        refine leave (φ := φ) (f := f) ?_ fun k c row' listed => ?_
        · refine interruptEach (fun h deep => ih h _ deep) (before.trace rfl rfl) fun c listed => ?_
          rw [Machine.core_trace_of_quiet _ rfl rfl]
          refine calm.deep fun d k row' => ?_
          have := deep d k row'
          have := (young c listed).2
          omega
        · have whole := calm_foldl (fun m c => calm_interruptWithin depth m c)
            (m'.trace (.interrupting f fiber.children.length)) fiber.children
          rw [Machine.core_trace_of_quiet _ rfl rfl] at whole
          rw [whole.kin, calm.kin, kin] at row'
          obtain rfl := Option.some.inj row'
          obtain ⟨⟨kc, rowC⟩, older⟩ := young c listed
          have room := deep c kc rowC
          obtain ⟨d, rfl⟩ : ∃ d, depth = d + 1 := ⟨depth - 1, by omega⟩
          refine marked_foldl d listed (k := kc) ?_
          rw [Machine.core_trace_of_quiet _ rfl rfl, calm.kin]
          exact rowC
      cases canceler with
      | none => exact below φ broken
      | some canceler =>
          refine enqueue ?_
          rw [core_runCanceler]
          exact below _ broken

/-- Interrupting a fiber and everything below it. -/
theorem interrupt (coherent : Coherent m.core φ) (f : FiberId) :
    Coherent (m.interrupt f).core φ := by
  refine coherent.interruptWithin _ f fun c k row => ?_
  obtain ⟨fiber, row, -⟩ := Table.exists_row_of_view row
  have bound : c.raw < m.fibers.size + 1 := Table.raw_lt_nextId row
  omega

/-- Interrupting fibers, one after the other. -/
theorem interruptAll (coherent : Coherent m.core φ) (fibers : List FiberId) :
    Coherent (fibers.foldl Machine.interrupt m).core φ :=
  coherent.foldl (fun _ f h => h.interrupt f) fibers

/-! ## User code -/

/-- Serving a request of user code. -/
theorem serve (coherent : Coherent m.core φ) (request : Request) :
    Coherent (m.serve request).core φ := by
  cases request with
  | note v =>
      rw [Machine.serve, Machine.core_write_of_quiet _ rfl rfl]
      exact coherent
  | resume w x => exact coherent.resumeCallback w x
  | resumeLater w x => exact coherent
  | interrupt f => exact coherent.interrupt f
  | shutdown => exact coherent.interruptAll _

/-- Running user code. -/
theorem perform {α : Type} (coherent : Coherent m.core φ) (code : Action σ α) :
    Coherent (m.perform code).2.core φ :=
  foldl (m := { m with world := (code (Machine.statusOf m.fibers) m.world).world }) coherent
    (fun _ request h => h.serve request) _

/-! ## Layers of a run -/

/-- Waking everyone who waits for a build. -/
theorem wake (coherent : Coherent m.core φ) (waiters : List WaitId) (x : Exit) :
    Coherent (m.wake waiters x).core φ :=
  coherent.foldl (fun _ w h => h.resume w x) waiters

/-- Looking a layer up. -/
theorem lookUpLayer (coherent : Coherent m.core φ) (scope : ScopeId) (layer : LayerNode σ)
    (f : FiberId) : Coherent (m.lookUpLayer scope layer f).2.core φ := by
  unfold Machine.lookUpLayer
  split
  · exact coherent
  · exact coherent
  · exact Coherent.trace coherent rfl rfl

/-- Waiting for the end of a build. -/
theorem joinBuild (coherent : Coherent m.core φ) (scope : ScopeId) (layer : LayerId) (w : WaitId) :
    Coherent (m.joinBuild scope layer w).core φ := by
  unfold Machine.joinBuild
  split
  · exact coherent
  · exact coherent.resume w _

/-- A build has produced a context. -/
theorem completeBuild (coherent : Coherent m.core φ) (scope : ScopeId) (layer : LayerNode σ)
    (context : Context Value) : Coherent (m.completeBuild scope layer context).core φ := by
  refine wake ?_ _ _
  exact Coherent.trace coherent rfl rfl

/-- A build is forgotten. -/
theorem forgetBuild (coherent : Coherent m.core φ) (scope : ScopeId) (layer : LayerNode σ)
    (outcome : BuildOutcome) (x : Exit) :
    Coherent (m.forgetBuild scope layer outcome x).core φ := by
  unfold Machine.forgetBuild
  split
  · refine wake ?_ _ _
    exact Coherent.trace coherent rfl rfl
  · exact coherent

end Coherent

end EffectFibers
