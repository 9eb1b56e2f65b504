import EffectFibers.Proofs.Changes.Bystander
import EffectFibers.Proofs.Endings.Passing

/-!
# A fiber that sleeps through the end of another one

When a fiber ends, its group takes note, and that may interrupt many others.  To a fiber that sleeps
on a wait of its own no more can happen by this than that the interrupt takes it out of its sleep;
and a fiber that has its answer keeps it.

## Main definitions

* `Machine.Hangs` – a fiber sleeps on a wait, has its answer, or an interrupt in its place.

## Main statements

* `Machine.Hangs.leave` – another fiber ends.
* `Machine.Hangs.resume_own`, `Machine.Hangs.resume_other` – a wait ends.
-/

namespace EffectFibers

variable {σ : Type}

/-- An interrupt has taken a fiber out of its sleep. -/
def Fiber.Broken (fiber : Fiber σ) : Prop :=
  fiber.pending = none ∧ fiber.input = some .interrupted ∧ fiber.interrupted = true

namespace Machine

/-- A fiber sleeps on a wait, on which nobody else sleeps; or, when the answer has been given, has
this answer.  In either case an interrupt may have come first. -/
structure Hangs (m : Machine σ) (p : FiberId) (w : WaitId) (given : Option Exit) : Prop where
  sole : ∀ g fiber, m.fiber? g = some fiber → fiber.sleepsOn = some w → g = p
  stands : ∃ fiber, m.fiber? p = some fiber ∧ (fiber.Broken ∨ match given with
    | none => fiber.sleepsOn = some w ∧ m.OpenFor p w
    | some x => fiber.pending = none ∧ fiber.input = some x)

namespace Hangs

variable {m m' : Machine σ} {p g : FiberId} {w v : WaitId} {given : Option Exit} {fiber : Fiber σ}
  {change : Fiber σ → Fiber σ}

/-- A change to rows that leaves alone what fibers sleep on, or takes others out of their sleep, and
keeps the answers and the marks. -/
theorem of_rows (hangs : m.Hangs p w given)
    (opens : m.OpenFor p w → m'.OpenFor p w)
    (sleeps : ∀ f fiber, m'.fiber? f = some fiber → fiber.sleepsOn = some w →
      ∃ before, m.fiber? f = some before ∧ before.sleepsOn = some w)
    (row : ∀ fiber, m.fiber? p = some fiber → ∃ after, m'.fiber? p = some after ∧
      after.pending = fiber.pending ∧ after.input = fiber.input ∧
      (fiber.interrupted = true → after.interrupted = true)) : m'.Hangs p w given := by
  obtain ⟨sole, fiber, known, stands⟩ := hangs
  obtain ⟨after, known', pending, input, marked⟩ := row fiber known
  refine ⟨fun f other found asleep => ?_, after, known', ?_⟩
  · obtain ⟨before, found', asleep'⟩ := sleeps f other found asleep
    exact sole f before found' asleep'
  · rcases stands with ⟨awake, answered, mark⟩ | stands
    · exact .inl ⟨pending.trans awake, input.trans answered, marked mark⟩
    · right
      cases given with
      | none =>
          refine ⟨?_, opens stands.2⟩
          rw [Fiber.sleepsOn, pending]
          exact stands.1
      | some x => exact ⟨pending.trans stands.1, input.trans stands.2⟩

theorem of_eq (hangs : m.Hangs p w given) (fibers : m'.fibers = m.fibers)
    (waits : m'.waits = m.waits) : m'.Hangs p w given := by
  have row : ∀ f, m'.fiber? f = m.fiber? f := fun f => by rw [fiber?, fibers]; rfl
  refine hangs.of_rows (fun opened => ?_)
    (fun f fiber found asleep => ⟨fiber, row f ▸ found, asleep⟩) fun fiber known => ?_
  · obtain ⟨wait, found, rest⟩ := opened
    exact ⟨wait, waits ▸ found, rest⟩
  · exact ⟨fiber, (row p).trans known, rfl, rfl, id⟩

/-- A change to one row that leaves its sleep, its answer and its mark alone. -/
theorem modify (hangs : m.Hangs p w given)
    (kept : ∀ fiber, (change fiber).pending = fiber.pending ∧ (change fiber).input = fiber.input ∧
      (fiber.interrupted = true → (change fiber).interrupted = true)) :
    (m.modifyFiber g change).Hangs p w given := by
  refine hangs.of_rows id (fun f fiber found asleep => ?_) fun fiber known => ?_
  · rw [fiber?_modifyFiber] at found
    split at found
    · obtain ⟨before, found', rfl⟩ := Option.map_eq_some_iff.1 found
      refine ⟨before, found', ?_⟩
      rw [Fiber.sleepsOn, (kept before).1] at asleep
      exact asleep
    · exact ⟨fiber, found, asleep⟩
  · rw [fiber?_modifyFiber]
    split
    · exact ⟨change fiber, by rw [known]; rfl, kept fiber⟩
    · exact ⟨fiber, known, rfl, rfl, id⟩

/-- Another fiber wakes up, or ends. -/
theorem modify_other (hangs : m.Hangs p w given) (other : g ≠ p)
    (awake : ∀ fiber, (change fiber).pending = none) :
    (m.modifyFiber g change).Hangs p w given := by
  refine hangs.of_rows id (fun f fiber found asleep => ?_) fun fiber known => ?_
  · rw [fiber?_modifyFiber] at found
    split at found
    · obtain ⟨before, -, rfl⟩ := Option.map_eq_some_iff.1 found
      rw [Fiber.sleepsOn, awake before] at asleep
      cases asleep
    · exact ⟨fiber, found, asleep⟩
  · rw [fiber?_modifyFiber, if_neg other]
    exact ⟨fiber, known, rfl, rfl, id⟩

theorem push (hangs : m.Hangs p w given) (newborn : fiber.Newborn) :
    Hangs { m with fibers := m.fibers.push fiber } p w given := by
  refine hangs.of_rows id (fun f other found asleep => ?_) fun before known => ?_
  · rw [fiber?, Table.get?_push] at found
    split at found
    · obtain rfl := Option.some.inj found
      rw [Fiber.sleepsOn, newborn.pending] at asleep
      cases asleep
    · exact ⟨other, found, asleep⟩
  · exact ⟨before, Table.get?_push_of_some fiber known, rfl, rfl, id⟩

theorem foldl {α : Type} {step : Machine σ → α → Machine σ} (hangs : m.Hangs p w given)
    (steps : ∀ (m : Machine σ) a, m.Hangs p w given → (step m a).Hangs p w given) (as : List α) :
    (as.foldl step m).Hangs p w given := by
  induction as generalizing m with
  | nil => exact hangs
  | cons a as ih => exact ih (steps m a hangs)

/-! ## Claims -/

/-- A claim of another wait. -/
theorem claim (hangs : m.Hangs p w given) (other : v ≠ w) : (m.claim v).2.Hangs p w given := by
  refine hangs.of_rows (fun ⟨wait, found, free, owner⟩ => ?_)
    (fun f fiber found asleep => ⟨fiber, (m.fiber?_claim v f).symm.trans found, asleep⟩)
    fun fiber known => ⟨fiber, (m.fiber?_claim v p).trans known, rfl, rfl, id⟩
  unfold Machine.claim
  split
  · refine ⟨wait, ?_, free, owner⟩
    rw [Table.get?_modify, if_neg other]
    exact found
  · exact ⟨wait, found, free, owner⟩

/-- Another fiber is told. -/
theorem deliver (hangs : m.Hangs p w given) (other : g ≠ p) (x : Exit) :
    (m.deliver g x).Hangs p w given := by
  unfold Machine.deliver
  split
  · exact (hangs.modify_other other fun _ => rfl).of_eq rfl rfl
  · refine hangs.of_rows id (fun f fiber found asleep => ?_) fun fiber known => ?_
    · rw [fiber?_modifyFiber] at found
      split at found
      · obtain ⟨before, found', rfl⟩ := Option.map_eq_some_iff.1 found
        exact ⟨before, found', asleep⟩
      · exact ⟨fiber, found, asleep⟩
    · rw [fiber?_modifyFiber, if_neg other]
      exact ⟨fiber, known, rfl, rfl, id⟩
  · exact hangs

/-- Another wait ends, which is not one of the fiber. -/
theorem resume_other (hangs : m.Hangs p w given) (other : v ≠ w) (closed : ¬ m.OpenFor p v)
    (x : Exit) : (m.resume v x).Hangs p w given := by
  obtain ⟨same, -⟩ | ⟨wait, found, free, same⟩ := m.resume_cases v x <;> rw [same]
  · exact hangs
  · have unequal : wait.owner ≠ p := fun owner => closed ⟨wait, found, free, owner⟩
    exact (hangs.claim other).deliver unequal x

/-- The wait ends: the fiber has the answer, unless an interrupt came first. -/
theorem resume_own (hangs : m.Hangs p w none) {φ : Focus} (coherent : Coherent m.core φ)
    (free : φ.held = none) (x : Exit) : (m.resume w x).Hangs p w (some x) := by
  obtain ⟨sole, fiber, row, stands⟩ := hangs
  rcases stands with broken | ⟨asleep, wait, found, unclaimed, owner⟩
  · -- the interrupt has claimed the wait
    have shut : m.isOpen w = false := by
      by_contra still
      have opened : m.isOpen w = true := by simpa using still
      obtain ⟨wait, found, -⟩ := (Option.any_eq_true _ _).1 opened
      have owner := Coherent.owner_of_isOpen found opened
      rcases coherent.waiting.of_owner owner with asleep | ⟨held, -⟩
      · obtain ⟨sleeper, c, row', sleeps⟩ := Coherent.row_of_sleeps asleep
        have sleeps' : sleeper.sleepsOn = some w := by rw [Fiber.sleepsOn, sleeps]; rfl
        have same := sole _ sleeper row' sleeps'
        rw [same] at row'
        obtain rfl := Option.some.inj (row.symm.trans row')
        cases sleeps.symm.trans broken.1
      · rw [free] at held
        cases held
    rw [resume_of_claimed shut]
    exact ⟨sole, fiber, row, .inl broken⟩
  · have suspended : fiber.status = .suspended := by
      refine (coherent.shaped row).asleep.2 ?_
      obtain ⟨pending, sleeps, -⟩ := Option.bind_eq_some_iff.1 asleep
      rw [sleeps]
      rfl
    have row' : (m.claim w).2.fiber? p = some fiber := (m.fiber?_claim w p).trans row
    have status : (m.claim w).2.status p = .suspended :=
      (Coherent.status_of_row row').trans suspended
    have same : (m.resume w x).fibers = m.fibers.modify p (Coherent.answered x) := by
      rw [resume_of_open found unclaimed, owner, Machine.deliver, status]
      obtain ⟨waits, claimed⟩ := m.claim_eq w
      rw [claimed]
      rfl
    have rows : ∀ f, (m.resume w x).fiber? f = (m.modifyFiber p (Coherent.answered x)).fiber? f :=
      fun f => by rw [fiber?, same]; rfl
    refine ⟨fun f other found' asleep' => ?_, Coherent.answered x fiber, ?_, .inr ⟨rfl, rfl⟩⟩
    · rw [rows, fiber?_modifyFiber] at found'
      split at found'
      · rename_i here
        exact here.symm
      · exact sole f other found' asleep'
    · rw [rows, fiber?_modifyFiber, if_pos rfl, row]
      rfl

/-- An interrupt takes a marked fiber out of its sleep. -/
theorem breakWait (hangs : m.Hangs p w given) (row : m.fiber? g = some fiber)
    (marked : fiber.interrupted = true) : (m.breakWait g fiber).2.Hangs p w given := by
  obtain ⟨left, -⟩ | ⟨v, canceler, breakable, -, taken⟩ := m.breakWait_cases g fiber
  · rw [left]
    exact hangs
  rw [taken]
  by_cases same : g = p
  · -- the fiber itself is taken out of its sleep
    subst same
    refine ⟨fun f other found asleep' => ?_, Coherent.answered .interrupted fiber, ?_,
      .inl ⟨rfl, rfl, marked⟩⟩
    · rw [fiber?_modifyFiber, fiber?_claim] at found
      split at found
      · rename_i here
        exact here.symm
      · exact hangs.sole f other found asleep'
    · rw [fiber?_modifyFiber, if_pos rfl, fiber?_claim, row]
      rfl
  · have unequal : v ≠ w := by
      rintro rfl
      obtain ⟨-, asleep, -⟩ := Fiber.breakable?_eq_some_iff.1 breakable
      exact same (hangs.sole g fiber row (by rw [Fiber.sleepsOn, asleep]; rfl))
    exact (hangs.claim unequal).modify_other same fun _ => rfl

/-! ## Interrupts -/

theorem interruptWithin (depth : Nat) (hangs : m.Hangs p w given) (g : FiberId) :
    (m.interruptWithin depth g).Hangs p w given := by
  induction depth generalizing m g with
  | zero => exact hangs
  | succ depth ih =>
      have marked : (m.mark g).Hangs p w given := hangs.modify fun _ => ⟨rfl, rfl, fun _ => rfl⟩
      unfold Machine.interruptWithin
      dsimp only
      split
      · exact marked
      rename_i fiber row
      split
      · exact marked
      have mark : fiber.interrupted = true := by
        simp only [Machine.mark, fiber?_modifyFiber, ↓reduceIte] at row
        obtain ⟨before, -, rfl⟩ := Option.map_eq_some_iff.1 row
        rfl
      have broken := marked.breakWait row mark
      generalize (m.mark g).breakWait g fiber = result at broken ⊢
      obtain ⟨canceler, n⟩ := result
      have told : (n.trace (.interrupting g fiber.children.length)).Hangs p w given :=
        broken.of_eq rfl rfl
      have below := told.foldl (fun m c hangs => ih hangs c) fiber.children
      cases canceler with
      | none => exact below
      | some canceler =>
          have same := Coherent.core_runCanceler (fiber.children.foldl
            (Machine.interruptWithin depth) (n.trace (.interrupting g fiber.children.length))) g
            canceler
          exact below.of_eq (congrArg Core.fibers same) (congrArg Core.waits same)

theorem interruptAll (hangs : m.Hangs p w given) (fibers : List FiberId) :
    (m.interruptAll fibers).Hangs p w given :=
  hangs.foldl (fun _ g hangs => hangs.interruptWithin _ g) fibers

theorem enqueue (hangs : m.Hangs p w given) (f : FiberId) : (m.enqueue f).Hangs p w given :=
  hangs.of_eq rfl rfl

theorem enqueueAll (hangs : m.Hangs p w given) (fibers : List FiberId) :
    (m.enqueueAll fibers).Hangs p w given :=
  hangs.foldl (fun _ f hangs => hangs.enqueue f) fibers

/-! ## Groups -/

theorem spawnMembers (hangs : m.Hangs p w given) (parent : FiberId) (context : Context Value)
    (k : GroupId) (nodes : List (Nat × Node σ)) :
    (m.spawnMembers parent context k nodes).2.Hangs p w given := by
  induction nodes generalizing m with
  | nil => exact hangs
  | cons node nodes ih =>
      obtain ⟨index, node⟩ := node
      refine ih (m := (m.spawnChild parent node context (.group k index)).2) ?_
      let child : Fiber σ := {
        parent := some parent
        scope := ((m.fiber? parent).map (·.scope)).getD .none
        interrupted := m.isInterrupted parent
        reader := .group k index
        run := some { next := .eval node, context } }
      have born : Hangs { m with fibers := m.fibers.push child } p w given :=
        hangs.push ⟨⟨node, context, rfl⟩, rfl, rfl, rfl, rfl, rfl, rfl, rfl⟩
      have adopted : (({ m with fibers := m.fibers.push child } : Machine σ).modifyFiber parent
          fun fiber => { fiber with children := fiber.children ++ [m.fibers.nextId] }).Hangs p w
          given := born.modify fun _ => ⟨rfl, rfl, id⟩
      exact adopted.of_eq rfl rfl

theorem fill (hangs : m.Hangs p w given) (k : GroupId) (all : Gathering σ) :
    (m.fill k all).Hangs p w given := by
  unfold Machine.fill
  dsimp only
  split
  · exact hangs
  · have born := hangs.spawnMembers all.parent all.context k
      (all.queue.take (all.limit - all.running.length))
    generalize m.spawnMembers all.parent all.context k
      (all.queue.take (all.limit - all.running.length)) = result at born ⊢
    obtain ⟨children, n⟩ := result
    refine Hangs.enqueueAll ?_ _
    exact born.of_eq rfl rfl

theorem raceExit {race : Race} (hangs : m.Hangs p w given) (other : race.parent ≠ p) (k : GroupId)
    (x : Exit) : (m.raceExit k race x).Hangs p w given := by
  have settled : ∀ group, (m.setGroup k group).Hangs p w given := fun group => hangs.of_eq rfl rfl
  have told : ∀ group event, ((m.setGroup k group).trace event).Hangs p w given :=
    fun group event => (settled group).of_eq rfl rfl
  unfold Machine.raceExit
  dsimp only
  split
  · refine Hangs.deliver ?_ other _
    split
    · exact settled _
    · exact (told _ _).interruptAll _
  · split
    · exact settled _
    · exact (told _ _).interruptAll _

theorem allExit {all : Gathering σ} (hangs : m.Hangs p w given) (other : all.parent ≠ p)
    (k : GroupId) (index : Nat) (x : Exit) : (m.allExit k all index x).Hangs p w given := by
  have parent := Evolves.parent_settle all index x (m.isInterrupted all.parent)
  have settled : ∀ group, (m.setGroup k group).Hangs p w given := fun group => hangs.of_eq rfl rfl
  have told : ∀ group event, ((m.setGroup k group).trace event).Hangs p w given :=
    fun group event => (settled group).of_eq rfl rfl
  unfold Machine.allExit
  generalize all.settle index x (m.isInterrupted all.parent) = result at parent ⊢
  obtain ⟨siblings, after⟩ := result
  dsimp only at parent ⊢
  split
  · refine Hangs.deliver ?_ (parent ▸ other) _
    split
    · exact settled _
    · exact (told _ _).interruptAll _
  · refine Hangs.fill ?_ k after
    split
    · exact settled _
    · exact (told _ _).interruptAll _

theorem memberExit {k : GroupId} (hangs : m.Hangs p w given)
    (other : ∀ group, m.groups.get? k = some group → group.parent ≠ p) (index : Nat) (x : Exit) :
    (m.memberExit k index x).Hangs p w given := by
  unfold Machine.memberExit
  split
  · rename_i race row
    exact hangs.raceExit (other _ row) k x
  · rename_i all row
    exact hangs.allExit (other _ row) k index x
  · exact hangs

/-! ## Ends -/

/-- Whoever sleeps on a wait or has an answer is not about to end, and leads no group that waits. -/
theorem not_ends (hangs : m.Hangs p w given) {φ : Focus} (coherent : Coherent m.core φ)
    (ends : Coherent.Ends m.core g) : g ≠ p := by
  rintro rfl
  obtain ⟨fiber, row, running, -, silent⟩ := ends
  obtain ⟨-, fiber', row', stands⟩ := hangs
  obtain rfl := Option.some.inj (row'.symm.trans row)
  have awake := (coherent.shaped row).pending_of_running running
  rcases stands with ⟨-, answered, -⟩ | stands
  · cases silent.symm.trans answered
  · cases given with
    | none =>
        rw [Fiber.sleepsOn, awake] at stands
        cases stands.1
    | some x => cases silent.symm.trans stands.2

/-- Another fiber ends. -/
theorem leave {f : FiberId} {x : Exit} (hangs : m.Hangs p w given)
    (coherent : Coherent m.core { leaving := some f }) (ends : Coherent.Ends m.core f)
    (row : m.fiber? f = some fiber) : (m.leave f fiber x).Hangs p w given := by
  have other := hangs.not_ends coherent ends
  obtain ⟨fiber', row', running, unsaved, silent⟩ := ends
  obtain rfl := Option.some.inj (row'.symm.trans row)
  have ended : ((m.modifyFiber f fun fiber => fiber.ended x).trace (.exited f x)).Hangs p w given :=
    (hangs.modify_other other fun _ => rfl).of_eq rfl rfl
  have detached : (((m.modifyFiber f fun fiber => fiber.ended x).trace (.exited f x)).detach f
      fiber'.parent).Hangs p w given := by
    cases fiber'.parent with
    | none => exact ended.of_eq rfl rfl
    | some q => exact ended.modify fun _ => ⟨rfl, rfl, id⟩
  unfold Machine.leave
  cases reader : fiber'.reader with
  | joiner => exact detached
  | handle => exact detached.of_eq rfl rfl
  | group k place =>
      refine detached.memberExit (fun group known => ?_) place x
      -- the parent of the group sleeps on it, and so on no wait
      rintro rfl
      have retired := coherent.retire row' running unsaved silent x (by simp) (.inl rfl)
      obtain ⟨placed, -⟩ := Coherent.place_retired row' x fiber'.parent
      have settling : fiber'.place = some (k, place) := by simp [Fiber.place, ExitReader.place, reader]
      rw [settling] at retired placed
      rcases retired.seating.awaited placed (.inr rfl) known with asleep | ⟨held, -⟩
      · obtain ⟨parent, rowP, sleeps⟩ := Coherent.row_of_awaits asleep
        obtain ⟨-, parent', rowP', stands⟩ := detached
        obtain rfl := Option.some.inj (rowP'.symm.trans rowP)
        rcases stands with ⟨awake, -⟩ | stands
        · cases sleeps.symm.trans awake
        · cases given with
          | none =>
              rw [Fiber.sleepsOn, sleeps] at stands
              cases stands.1
          | some y => cases sleeps.symm.trans stands.1
      · cases held

end Hangs

end Machine

end EffectFibers
