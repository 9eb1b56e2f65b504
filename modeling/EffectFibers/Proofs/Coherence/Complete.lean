import EffectFibers.Machine.Complete
import EffectFibers.Proofs.Coherence.Group

/-!
# The end of a fiber keeps a machine coherent

A fiber whose program has an exit and that has no live child ends: its row becomes terminal, its
parent forgets it, its group takes note, and its observers are told.  One of the observers may be
its parent, if the parent's program has ended before; when the last child of such a parent has
ended, the parent ends in the same operation, and so on upwards.  A parent is older than its
children, so this comes to an end.

## Main statements

* `Coherent.completeWithin` – a fiber ends, and perhaps some of the fibers above it.
* `Coherent.finish` – the program of the fiber on the worker has an exit.
-/

namespace EffectFibers

variable {σ : Type}

namespace Coherent

variable {κ : Core σ} {m : Machine σ} {φ : Focus} {f p : FiberId} {fiber : Fiber σ}
  {promise promise' kept : Option (FiberId × Exit)}

/-! ## Observers -/

/-- Taking the exit of a fiber that has ended. -/
theorem takeExit (coherent : Coherent m.core φ) (f : FiberId) :
    Coherent (m.takeExit f).2.core φ := by
  unfold Machine.takeExit
  split
  · exact coherent.modify_alike (fun _ => ⟨rfl, rfl, rfl, rfl, rfl, rfl⟩) fun _ => rfl
  · exact coherent

/-- Telling a watcher that a fiber has ended. -/
theorem tellWatcher (coherent : Coherent m.core φ) (f : FiberId) (w : WaitId) (how : Watch) :
    Coherent (m.tellWatcher f w how).core φ := by
  cases how with
  | join => exact (coherent.takeExit f).resume w _
  | await => exact (coherent.takeExit f).resume w _
  | interrupt => exact coherent.resume w _

/-- Asking to be told when a fiber has ended. -/
theorem watch (coherent : Coherent m.core φ) (f : FiberId) (w : WaitId) (how : Watch) :
    Coherent (m.watch f w how).core φ := by
  unfold Machine.watch
  split
  · exact coherent.tellWatcher f w how
  · refine coherent.modify_alike (fun fiber => ⟨?_, rfl, rfl, rfl, rfl, rfl⟩) fun _ => rfl
    simp [Fiber.kin, Fiber.verdict, Observer.asker?]

/-! ## A row becomes terminal -/

/-- The ending fiber that is to hear of the end of a fiber. -/
def asker (observers : List Observer) : Option FiberId :=
  (observers.filterMap Observer.asker?).head?

/-- What the family of a fiber looks like after its end. -/
theorem kin_ended (fiber : Fiber σ) (exit : Exit) :
    (fiber.ended exit).kin = ⟨fiber.parent, [], some (Exit.status exit), none, []⟩ := by
  have terminal : (Exit.status exit).isTerminal := by
    rcases exit with (_ | _ | _) | _ <;> rfl
  simp [Fiber.ended, Fiber.kin, Fiber.verdict, terminal]

theorem live_ended (fiber : Fiber σ) (exit : Exit) : (fiber.ended exit).live = false := by
  rcases exit with (_ | _ | _) | _ <;> rfl

theorem task_ended (fiber : Fiber σ) (exit : Exit) : (fiber.ended exit).task = .resting := by
  rcases exit with (_ | _ | _) | _ <;> rfl

theorem shaped_ended (fiber : Fiber σ) (exit : Exit) : (fiber.ended exit).Shaped := by
  constructor
  · exact fun _ => ⟨rfl, rfl, rfl⟩
  · exact fun closing => nomatch closing
  · rcases exit with (_ | _ | _) | _ <;> simp [Fiber.ended, Exit.status]
  · rcases exit with (_ | _ | _) | _ <;> simp [Fiber.ended, Exit.status]

/-- A fiber with one child less. -/
def orphaning (child : FiberId) (fiber : Fiber σ) : Fiber σ :=
  { fiber with children := fiber.children.filter (· != child) }

theorem core_ended (m : Machine σ) (f : FiberId) (exit : Exit) :
    ((m.modifyFiber f fun fiber => fiber.ended exit).trace (.exited f exit)).core =
      { m.core with
        fibers := m.fibers.modify f fun fiber => fiber.ended exit
        exits := m.core.exits ++ [(f, exit)] } := by
  rw [Machine.trace, Machine.core_write]
  simp only [Entry.birth?, Entry.exit?, Option.toList_some, Option.toList_none, List.append_nil]
  rfl

/-- The worker has nothing to do with a fiber that has ended. -/
theorem agenda_ended (agenda : Agenda m.core.task m.core.ready [] none (some f))
    (row : m.core.fibers.get? f = some fiber) (unsaved : fiber.run = none) (exit : Exit) :
    Agenda (Function.update m.core.task f (some (fiber.ended exit).task)) m.core.ready [] none
      none := by
  rw [task_ended]
  refine agenda.retire ?_ nofun
  rw [Core.task, Table.view_of_row _ row]
  intro runnable
  have saved := (Fiber.task_eq_runnable_iff.1 (Option.some.inj runnable)).2
  simp [unsaved] at saved

/-- A fiber that has ended waits for as little as before. -/
theorem waiting_ended (waiting : Waiting m.core.owner m.core.sleeps m.core.input none none kept)
    (row : m.core.fibers.get? f = some fiber) (awake : fiber.pending = none)
    (silent : fiber.input = none) (exit : Exit) :
    Waiting m.core.owner (Function.update m.core.sleeps f (fiber.ended exit).sleepsOn)
      (Function.update m.core.input f (fiber.ended exit).input) none none kept := by
  have sleeps : (fiber.ended exit).sleepsOn = fiber.sleepsOn := by
    simp [Fiber.ended, Fiber.sleepsOn, awake]
  have input : (fiber.ended exit).input = fiber.input := by simp [Fiber.ended, silent]
  rw [Core.sleeps, Core.input, Table.update_find row sleeps, Table.update_find row input]
  exact waiting

/-- The group of a fiber that has ended is to hear of it. -/
theorem seating_ended
    (seating : Seating m.core.groups.get? m.core.parent m.core.place m.core.live m.core.awaits none
      none none none none)
    (row : m.core.fibers.get? f = some fiber) (running : fiber.status = .running)
    (awake : fiber.pending = none) (exit : Exit) :
    Seating m.core.groups.get? m.core.parent m.core.place
      (Function.update m.core.live f (some (fiber.ended exit).live))
      (Function.update m.core.awaits f (fiber.ended exit).awaits) none none
      (fiber.place.map fun _ => f) (fiber.place.map (·.1)) none := by
  have alive : m.core.live f = some true := by
    rw [Core.live, Table.view_of_row _ row]
    simp [Fiber.live, running, FiberStatus.isTerminal]
  have place : m.core.place f = fiber.place := Table.find_of_row _ row
  have awaits : (fiber.ended exit).awaits = fiber.awaits := by
    simp [Fiber.ended, Fiber.awaits, awake]
  rw [live_ended, Core.awaits, Table.update_find row awaits, ← place]
  exact seating.retire alive

/-- Nobody but the parent of a live fiber is to hear of its end. -/
theorem asker_eq_ite (family : Family m.core.kin m.core.births m.core.exits leaving late unasked
      promise)
    (kin : m.core.kin f = some fiber.kin) (live : fiber.kin.verdict = none) :
    asker fiber.observers =
      fiber.parent.bind fun p => if p ∈ fiber.kin.askers then some p else none := by
  rcases family.askers_eq kin live with none | ⟨p, child, askers⟩
  · have unasked : asker fiber.observers = Option.none := by
      simp only [Fiber.kin] at none
      simp [asker, none]
    rw [unasked]
    cases fiber.parent <;> simp [none]
  · rw [show fiber.parent = some p from child, askers]
    simp only [Fiber.kin] at askers
    simp [asker, askers]

/-- A fiber without a parent ends. -/
theorem retire_root (coherent : Coherent m.core { leaving := some f, promise, kept })
    (row : m.core.fibers.get? f = some fiber) (running : fiber.status = .running)
    (unsaved : fiber.run = none) (silent : fiber.input = none) (exit : Exit)
    (same : ∀ x, promise = some (f, x) → x = exit)
    (next : promise' = promise ∨ promise' = some (f, exit)) (parent : fiber.parent = none) :
    Coherent (((m.modifyFiber f fun fiber => fiber.ended exit).trace (.exited f exit)).core) {
        settling := fiber.place.map fun _ => f
        idle := fiber.place.map (·.1)
        promise := promise'
        kept } := by
  have awake := (coherent.shaped row).pending_of_running running
  have kin : m.core.kin f = some fiber.kin := Table.view_of_row _ row
  rw [core_ended]
  refine of_row coherent row _ _ coherent.worker rfl rfl rfl
    (coherent.heirs_of_row row rfl (List.nil_subset _)) (shaped_ended fiber exit) ?_
    (agenda_ended coherent.agenda row unsaved exit)
    (waiting_ended coherent.waiting row awake silent exit)
    (seating_ended coherent.seating row running awake exit)
  rw [kin_ended, parent]
  exact coherent.family.retireRoot kin parent same next

theorem shaped_orphaning (shaped : fiber.Shaped) : (orphaning f fiber).Shaped := by
  obtain ⟨ended, closed, asleep, parked⟩ := shaped
  exact ⟨ended, closed, asleep, parked⟩

/-- A child ends, and its parent forgets it. -/
theorem retire_child (coherent : Coherent m.core { leaving := some f, promise, kept })
    (row : m.core.fibers.get? f = some fiber) (running : fiber.status = .running)
    (unsaved : fiber.run = none) (silent : fiber.input = none) (exit : Exit)
    (same : ∀ x, promise = some (f, x) → x = exit)
    (next : promise' = promise ∨ promise' = some (f, exit)) (parent : fiber.parent = some p) :
    Coherent ((((m.modifyFiber f fun fiber => fiber.ended exit).trace
      (.exited f exit)).modifyFiber p (orphaning f)).core) {
        settling := fiber.place.map fun _ => f
        idle := fiber.place.map (·.1)
        late := if p ∈ fiber.kin.askers then some p else none
        promise := promise'
        kept } := by
  have awake := (coherent.shaped row).pending_of_running running
  have kin : m.core.kin f = some fiber.kin := Table.view_of_row _ row
  obtain ⟨older, known⟩ := coherent.family.parent_older kin parent
  obtain ⟨kp, kinP⟩ := Option.isSome_iff_exists.1 known
  obtain ⟨fiberP, rowP, rfl⟩ := Table.exists_row_of_view kinP
  have unequal : p ≠ f := fun same => absurd (same ▸ older) (Nat.lt_irrefl _)
  have rowP' : (m.core.fibers.modify f fun fiber => fiber.ended exit).get? p = some fiberP := by
    rw [Table.get?_modify, if_neg (Ne.symm unequal)]
    exact rowP
  -- the parent has lost a child, and nothing else is seen of that
  have views : ∀ {β : Type} (q : Fiber σ → β), (∀ a, q (orphaning f a) = q a) →
      ((m.core.fibers.modify f fun fiber => fiber.ended exit).modify p (orphaning f)).view q =
        Function.update (m.core.fibers.view q) f (some (q (fiber.ended exit))) := by
    intro β q unseen
    rw [Table.view_modify_of_eq _ _ _ _ fun a _ => unseen a, Table.view_modify _ _ _ _ row]
  have finds : ∀ {β : Type} (q : Fiber σ → Option β), (∀ a, q (orphaning f a) = q a) →
      ((m.core.fibers.modify f fun fiber => fiber.ended exit).modify p (orphaning f)).find q =
        Function.update (m.core.fibers.find q) f (q (fiber.ended exit)) := by
    intro β q unseen
    rw [Table.find_modify_of_eq _ _ _ _ fun a _ => unseen a, Table.find_modify _ _ _ _ row]
  have core : (((m.modifyFiber f fun fiber => fiber.ended exit).trace
      (.exited f exit)).modifyFiber p (orphaning f)).core = { m.core with
        fibers := (m.core.fibers.modify f fun fiber => fiber.ended exit).modify p (orphaning f)
        exits := m.core.exits ++ [(f, exit)] } := by
    rw [Machine.core_modifyFiber, core_ended]
    rfl
  rw [core]
  constructor
  · exact coherent.worker
  · refine shaped_modify (shaped_modify coherent.shaped fun before _ => shaped_ended before exit)
      fun before row' => shaped_orphaning ?_
    obtain rfl := Option.some.inj (rowP'.symm.trans row')
    exact coherent.shaped rowP
  · rw [Core.kin, Table.view_modify _ _ _ _ rowP', Table.view_modify _ _ _ _ row, kin_ended, parent]
    exact coherent.family.retireChild kin parent kinP same next
  · have mark : (fiber.ended exit).interrupted = fiber.interrupted := rfl
    rw [Core.marked, views _ fun _ => rfl, Table.update_view row mark, Core.kin,
      Table.view_modify _ _ _ _ rowP', Table.view_modify _ _ _ _ row]
    refine (coherent.heirs.update kin (List.nil_subset _)).update (f := p) (k := fiberP.kin) ?_
      (List.filter_subset_self _)
    rw [Function.update_of_ne unequal]
    exact kinP
  · rw [Core.task, views _ fun _ => rfl]
    exact agenda_ended coherent.agenda row unsaved exit
  · rw [Core.sleeps, Core.input, finds _ fun _ => rfl, finds _ fun _ => rfl]
    exact waiting_ended coherent.waiting row awake silent exit
  · have parents : (fiber.ended exit).parent = fiber.parent := rfl
    have places : (fiber.ended exit).place = fiber.place := rfl
    rw [Core.parent, Core.place, Core.live, Core.awaits, finds _ fun _ => rfl,
      finds _ fun _ => rfl, views _ fun _ => rfl, finds _ fun _ => rfl,
      Table.update_find row parents, Table.update_find row places]
    exact seating_ended coherent.seating row running awake exit

/-- A fiber without children that waits for nothing ends.  Its group and, if it has asked, its
parent have yet to hear of it. -/
theorem retire (coherent : Coherent m.core { leaving := some f, promise, kept })
    (row : m.core.fibers.get? f = some fiber) (running : fiber.status = .running)
    (unsaved : fiber.run = none) (silent : fiber.input = none) (exit : Exit)
    (same : ∀ x, promise = some (f, x) → x = exit)
    (next : promise' = promise ∨ promise' = some (f, exit)) :
    Coherent ((((m.modifyFiber f fun fiber => fiber.ended exit).trace
      (.exited f exit)).detach f fiber.parent).core) {
        settling := fiber.place.map fun _ => f
        idle := fiber.place.map (·.1)
        late := asker fiber.observers
        promise := promise'
        kept } := by
  have kin : m.core.kin f = some fiber.kin := Table.view_of_row _ row
  have live : fiber.kin.verdict = none := by
    simp [Fiber.kin, Fiber.verdict, running, FiberStatus.isTerminal]
  rw [asker_eq_ite coherent.family kin live]
  cases parent : fiber.parent with
  | none => exact coherent.retire_root row running unsaved silent exit same next parent
  | some p => exact coherent.retire_child row running unsaved silent exit same next parent

/-- The row of a fiber that has just ended. -/
theorem place_retired (row : m.core.fibers.get? f = some fiber) (exit : Exit)
    (parent : Option FiberId) :
    let m' := ((m.modifyFiber f fun fiber => fiber.ended exit).trace (.exited f exit)).detach f
      parent
    m'.core.place f = fiber.place ∧ m'.core.live f = some false := by
  have ended : (m.core.fibers.modify f fun fiber => fiber.ended exit).get? f =
      some (fiber.ended exit) := by
    simp [Table.get?_modify, row]
  have place : (fiber.ended exit).place = fiber.place := rfl
  cases parent with
  | none =>
      exact ⟨(Table.find_of_row _ ended).trans place,
        (Table.view_of_row _ ended).trans (congrArg some (live_ended fiber exit))⟩
  | some p =>
      have places := Table.find_modify_of_eq (m.core.fibers.modify f fun fiber => fiber.ended exit)
        p (orphaning f) Fiber.place fun _ _ => rfl
      have lives := Table.view_modify_of_eq (m.core.fibers.modify f fun fiber => fiber.ended exit)
        p (orphaning f) Fiber.live fun _ _ => rfl
      exact ⟨(congrFun places f).trans ((Table.find_of_row _ ended).trans place),
        (congrFun lives f).trans ((Table.view_of_row _ ended).trans
          (congrArg some (live_ended fiber exit)))⟩

/-! ## Telling others -/

/-- The reader of an exit gets it. -/
theorem handOver (reader : ExitReader) {late : Option FiberId} (coherent : Coherent m.core {
      settling := reader.place.map fun _ => f
      idle := reader.place.map (·.1)
      late, promise, kept })
    (placed : m.core.place f = reader.place) (gone : m.core.live f = some false) (exit : Exit) :
    Coherent (m.handOver f reader exit).core { late, promise, kept } := by
  cases reader with
  | joiner => exact coherent
  | handle => exact coherent
  | group g i => exact memberExit (f := f) coherent placed gone exit

/-- An ending fiber with another count of the children that are still to end. -/
def counting (c : Closing) (fiber : Fiber σ) : Fiber σ := { fiber with closing := some c }

/-- What an ending fiber hears concerns only its family. -/
theorem modify_counting {late leaving : Option FiberId} {c : Closing}
    (coherent : Coherent m.core { late := some p, promise, kept })
    (row : m.core.fibers.get? p = some fiber) (closing : fiber.closing.isSome)
    (family : Family (Function.update m.core.kin p (some (counting c fiber).kin)) m.core.births
      m.core.exits leaving late [] promise) :
    Coherent (m.modifyFiber p (counting c)).core { late, leaving, promise, kept } := by
  obtain ⟨running, unsaved, silent⟩ := (coherent.shaped row).closed closing
  have awake := (coherent.shaped row).asleep
  refine coherent.of_row row _ _ coherent.worker rfl rfl rfl
    (coherent.heirs_of_row row rfl (List.Subset.refl _)) ?_ family ?_ ?_ ?_
  · exact ⟨fun _ => by simp_all [counting, FiberStatus.isTerminal],
      fun _ => ⟨running, unsaved, silent⟩, awake, fun _ => by simp_all [counting]⟩
  · have same : (counting c fiber).task = fiber.task := by
      simp [Fiber.task, counting, running, unsaved, closing]
    rw [Core.task, Table.update_view row same]
    obtain ⟨nodup, mem, held, working⟩ := coherent.agenda
    refine ⟨nodup, mem, held, fun works => ?_⟩
    rcases working works with h | h <;> cases h
  · have same : (counting c fiber).sleepsOn = fiber.sleepsOn := rfl
    have same' : (counting c fiber).input = fiber.input := rfl
    rw [Core.sleeps, Core.input, Table.update_find row same, Table.update_find row same']
    exact coherent.waiting
  · have same : (counting c fiber).live = fiber.live := rfl
    have same' : (counting c fiber).awaits = fiber.awaits := rfl
    rw [Core.live, Core.awaits, Table.update_view row same, Table.update_find row same']
    exact coherent.seating

/-- A fiber that is about to end, with nothing left to do but to end. -/
def Ends (κ : Core σ) (f : FiberId) : Prop :=
  ∃ fiber, κ.fibers.get? f = some fiber ∧ fiber.status = .running ∧ fiber.run = none ∧
    fiber.input = none

/-- An ending fiber hears of the end of a child; after the last one it is about to end itself,
with the exit that it keeps. -/
theorem childGone (coherent : Coherent m.core { late := some p, promise, kept })
    {result : Option Exit × Machine σ} (result_eq : m.childGone p = result) :
    match result.1 with
    | none => Coherent result.2.core { promise, kept }
    | some exit => Coherent result.2.core { leaving := some p, promise, kept } ∧
        (∀ x, promise = some (p, x) → x = exit) ∧ Ends result.2.core p := by
  subst result_eq
  have unhear : (∀ fiber, m.fiber? p = some fiber → fiber.closing = none) →
      Coherent m.core { promise, kept } := by
    intro running
    obtain ⟨worker, shaped, family, heirs, agenda, waiting, seating⟩ := coherent
    refine ⟨worker, shaped, family.unhear fun k kin => ?_, heirs, agenda, waiting, seating⟩
    obtain ⟨fiber, row, rfl⟩ := Table.exists_row_of_view kin
    exact running fiber row
  unfold Machine.childGone
  cases row : m.fiber? p with
  | none => exact unhear fun fiber h => by simp [row] at h
  | some fiber =>
      cases closing : fiber.closing with
      | none =>
          simp only [Option.bind_some, closing]
          refine unhear fun fiber' h => ?_
          obtain rfl := Option.some.inj (row.symm.trans h)
          exact closing
      | some c =>
          have row' : m.core.fibers.get? p = some fiber := row
          have kin : m.core.kin p = some fiber.kin := Table.view_of_row _ row'
          have closing' : fiber.kin.closing = some c := closing
          obtain ⟨running, unsaved, silent⟩ :=
            (coherent.shaped row').closed (by simp [closing])
          simp only [Option.bind_some, closing]
          by_cases last : c.remaining - 1 = 0
          · simp only [if_pos last]
            refine ⟨coherent.modify_counting row' (by simp [closing])
              (coherent.family.hearLast kin closing' last), fun x promised => ?_, ?_⟩
            · have live : fiber.kin.verdict = none := by
                simp [Fiber.kin, Fiber.verdict, running, FiberStatus.isTerminal]
              obtain ⟨c', h, rfl⟩ := coherent.family.promised_eq kin live promised
              obtain rfl := Option.some.inj (closing'.symm.trans h)
              rfl
            · refine ⟨counting { c with remaining := c.remaining - 1 } fiber, ?_, running, unsaved,
                silent⟩
              simp only [Machine.core_modifyFiber, Core.modify, Table.get?_modify, row']
              rfl
          · simp only [if_neg last]
            exact coherent.modify_counting row' (by simp [closing])
              (coherent.family.hear kin closing' last (by simp))

/-! ## Ending upwards -/

/-- An observer of a fiber that has ended is told. -/
def tell (height : Nat) (f : FiberId) (m : Machine σ) : Observer → Machine σ
  | .watcher w how => m.tellWatcher f w how
  | .closing parent =>
    match m.childGone parent with
    | (some exit, m) => m.completeWithin height parent exit
    | (none, m) => m

/-- A fiber ends: its row, its parent, its reader and its observers, one after the other. -/
theorem completeWithin_succ (row : m.fiber? f = some fiber) (height : Nat) (exit : Exit) :
    m.completeWithin (height + 1) f exit = fiber.observers.foldl (tell height f)
      ((((m.modifyFiber f fun fiber => fiber.ended exit).trace (.exited f exit)).detach f
        fiber.parent).handOver f fiber.reader exit) := by
  rw [Machine.completeWithin]
  simp only [row]
  congr 1

/-- At most one of the observers has asked, and it is not too young. -/
def Heard (height : Nat) (observers : List Observer) : Prop :=
  (observers.filterMap Observer.asker?).length ≤ 1 ∧
    ∀ q ∈ observers.filterMap Observer.asker?, q.raw ≤ height

/-- At most the parent of a live fiber has asked, and it is older. -/
theorem heard_of_row (coherent : Coherent κ φ) (row : κ.fibers.get? f = some fiber)
    (live : fiber.verdict = none) {height : Nat} (enough : f.raw ≤ height + 1) :
    Heard height fiber.observers := by
  have kin : κ.kin f = some fiber.kin := Table.view_of_row _ row
  rcases coherent.family.askers_eq kin live with none | ⟨p, child, askers⟩
  · simp only [Fiber.kin] at none
    simp [Heard, none]
  · have older := (coherent.family.parent_older kin child).1
    simp only [Fiber.kin] at askers
    rw [Heard, askers]
    refine ⟨Nat.le_refl _, fun q mem => ?_⟩
    obtain rfl := List.mem_singleton.1 mem
    omega

/-- Telling one observer, if fibers can end that are as old as the one who may hear. -/
theorem tell_observer {height : Nat} {observer : Observer} {observers : List Observer}
    (ends : ∀ {m : Machine σ} {p : FiberId} {exit : Exit},
      Coherent m.core { leaving := some p, promise, kept } → p.raw ≤ height → Ends m.core p →
      (∀ x, promise = some (p, x) → x = exit) →
      Coherent (m.completeWithin height p exit).core { promise, kept })
    (coherent : Coherent m.core { late := asker (observer :: observers), promise, kept })
    (heard : Heard height (observer :: observers)) :
    Coherent (tell height f m observer).core { late := asker observers, promise, kept } ∧
      Heard height observers := by
  obtain ⟨few, low⟩ := heard
  cases observer with
  | watcher w how => exact ⟨coherent.tellWatcher f w how, few, low⟩
  | closing p =>
      have none : observers.filterMap Observer.asker? = [] := by
        simpa [Observer.asker?] using few
      have unasked : asker observers = Option.none := by simp [asker, none]
      refine ⟨?_, by simp [Heard, none]⟩
      have heard := childGone (p := p) coherent rfl
      rw [unasked, tell]
      generalize m.childGone p = result at heard ⊢
      obtain ⟨exit, m'⟩ := result
      cases exit with
      | none => exact heard
      | some exit =>
          obtain ⟨leaving, same, last⟩ := heard
          exact ends leaving (low p (by simp [Observer.asker?])) last same

/-- Whose program has ended and who has no live child can end. -/
theorem handed_of_ends {exit : Exit}
    (coherent : Coherent m.core { leaving := some f, promise, kept })
    (row : m.core.fibers.get? f = some fiber) (running : fiber.status = .running)
    (unsaved : fiber.run = none) (silent : fiber.input = none)
    (same : ∀ x, promise = some (f, x) → x = exit)
    (next : promise' = promise ∨ promise' = some (f, exit)) :
    Coherent ((((m.modifyFiber f fun fiber => fiber.ended exit).trace (.exited f exit)).detach f
      fiber.parent).handOver f fiber.reader exit).core
        { late := asker fiber.observers, promise := promise', kept } := by
  have retired := coherent.retire row running unsaved silent exit same next
  obtain ⟨placed, gone⟩ := place_retired row exit fiber.parent
  exact handOver fiber.reader retired placed gone exit

/-- A fiber ends, and perhaps some of the fibers above it. -/
theorem completeWithin (height : Nat) {exit : Exit}
    (coherent : Coherent m.core { leaving := some f, promise, kept }) (enough : f.raw ≤ height)
    (ends : Ends m.core f) (same : ∀ x, promise = some (f, x) → x = exit)
    (next : promise' = promise ∨ promise' = some (f, exit)) :
    Coherent (m.completeWithin height f exit).core { promise := promise', kept } := by
  induction height generalizing m f exit promise with
  | zero =>
      obtain ⟨fiber, row, -⟩ := ends
      obtain ⟨raw⟩ := f
      obtain rfl : raw = 0 := Nat.le_zero.1 enough
      cases row
  | succ height ih =>
      obtain ⟨fiber, row, running, unsaved, silent⟩ := ends
      have handed := coherent.handed_of_ends row running unsaved silent same next
      have live : fiber.verdict = none := by
        simp [Fiber.verdict, running, FiberStatus.isTerminal]
      have heard := coherent.heard_of_row row live enough
      rw [completeWithin_succ (show m.fiber? f = some fiber from row)]
      -- the fold runs over what is left of the observers; the first one who has asked is late
      generalize Machine.handOver _ f fiber.reader exit = m' at handed ⊢
      generalize fiber.observers = observers at handed heard ⊢
      induction observers generalizing m' with
      | nil => exact handed
      | cons observer observers ih' =>
          obtain ⟨told, heard⟩ := tell_observer (f := f)
            (fun leaving low last same => ih leaving low last same (.inl rfl)) handed heard
          exact ih' _ told heard

/-- A fiber ends. -/
theorem complete {exit : Exit} (coherent : Coherent m.core { leaving := some f, promise, kept })
    (ends : Ends m.core f) (same : ∀ x, promise = some (f, x) → x = exit)
    (next : promise' = promise ∨ promise' = some (f, exit)) :
    Coherent (m.complete f exit).core { promise := promise', kept } := by
  refine coherent.completeWithin _ ?_ ends same next
  obtain ⟨fiber, row, -⟩ := ends
  have bound := Table.raw_lt_nextId row
  show f.raw ≤ m.fibers.size + 1
  exact Nat.le_of_lt bound

/-! ## The program of a fiber ends -/

/-- An ending fiber waits for its children, one after the other. -/
theorem awaitChildren (children : List FiberId)
    (coherent : Coherent m.core { unasked := children, promise, kept }) (nodup : children.Nodup)
    (parents : ∀ c ∈ children, ∃ k, m.core.kin c = some k ∧ k.parent = some f ∧ k.verdict = none)
    (closing : ∃ k, m.core.kin f = some k ∧ k.closing.isSome) :
    Coherent (children.foldl (Machine.awaitChild f) m).core { promise, kept } := by
  induction children generalizing m with
  | nil => exact coherent
  | cons c children ih =>
      obtain ⟨kc, kinC, child, live⟩ := parents c (by simp)
      obtain ⟨fiber, row, rfl⟩ := Table.exists_row_of_view kinC
      obtain ⟨kf, kinF, closed⟩ := closing
      rw [List.nodup_cons] at nodup
      let asked : Fiber σ := { fiber with observers := fiber.observers ++ [.closing f] }
      have kin : (m.awaitChild f c).core.kin = Function.update m.core.kin c (some asked.kin) :=
        Table.view_modify _ _ _ _ row
      have asked_kin : asked.kin = { fiber.kin with askers := fiber.kin.askers ++ [f] } := by
        simp [asked, Fiber.kin, Fiber.verdict, Observer.asker?]
      refine ih (m := Machine.awaitChild f m c) ?_ nodup.2 (fun d listed => ?_) ?_
      · refine coherent.of_row row _ asked coherent.worker rfl rfl rfl
          (coherent.heirs_of_row row rfl (List.Subset.refl _)) ?_ ?_ ?_ ?_ ?_
        · obtain ⟨h1, h2, h3, h4⟩ := coherent.shaped row
          exact ⟨h1, h2, h3, h4⟩
        · rw [asked_kin]
          exact coherent.family.ask kinC child live kinF closed nodup.1
        · have same : asked.task = fiber.task := rfl
          rw [Core.task, Table.update_view row same]
          exact coherent.agenda
        · have same : asked.sleepsOn = fiber.sleepsOn := rfl
          have same' : asked.input = fiber.input := rfl
          rw [Core.sleeps, Core.input, Table.update_find row same, Table.update_find row same']
          exact coherent.waiting
        · have same : asked.live = fiber.live := rfl
          have same' : asked.awaits = fiber.awaits := rfl
          rw [Core.live, Core.awaits, Table.update_view row same, Table.update_find row same']
          exact coherent.seating
      · have other : d ≠ c := fun same => nodup.1 (same ▸ listed)
        rw [kin, Function.update_of_ne other]
        exact parents d (by simp [listed])
      · rw [kin]
        by_cases same : f = c
        · subst same
          refine ⟨asked.kin, Function.update_self _ _ _, ?_⟩
          rw [asked_kin]
          obtain rfl := Option.some.inj (kinC.symm.trans kinF)
          exact closed
        · exact ⟨kf, (Function.update_of_ne same _ _).trans kinF, closed⟩

/-- The fiber on the worker has no answer that it has not been given. -/
theorem silent_of_held (coherent : Coherent m.core { held := some f, promise, kept })
    (row : m.core.fibers.get? f = some fiber) : fiber.input = none := by
  by_contra answered
  refine coherent.waiting.held_input rfl ?_ rfl
  rwa [Core.input, Table.find_of_row _ row]

/-- The fiber on the worker can end if it has no live child. -/
theorem leave_of_held (coherent : Coherent m.core { held := some f, promise, kept })
    (row : m.core.fibers.get? f = some fiber) (alone : fiber.children = []) :
    Coherent m.core { leaving := some f, promise, kept } ∧ Ends m.core f := by
  obtain ⟨fiber', row', running, unsaved, unended⟩ := coherent.row_of_held rfl
  obtain rfl := Option.some.inj (row.symm.trans row')
  have silent := coherent.silent_of_held row
  have kin : m.core.kin f = some fiber.kin := Table.view_of_row _ row
  have live : fiber.kin.verdict = none := by
    simp [Fiber.kin, Fiber.verdict, running, FiberStatus.isTerminal]
  obtain ⟨worker, shaped, family, heirs, agenda, waiting, seating⟩ := coherent
  exact ⟨⟨worker, shaped, family.leave kin live alone, heirs, agenda.leave, waiting.release,
    seating.hold⟩, fiber, row, running, unsaved, silent⟩

/-- The program of the fiber on the worker has an exit, and its children are still to be asked for
theirs. -/
theorem close (coherent : Coherent m.core { held := some f, promise, kept })
    (row : m.core.fibers.get? f = some fiber) (running : fiber.status = .running)
    (unsaved : fiber.run = none) (unended : fiber.closing = none) (parents : fiber.children ≠ [])
    (exit : Exit) (next : promise' = promise ∨ promise' = some (f, exit)) :
    Coherent ((m.trace (.waitingForChildren f fiber.children.length)).modifyFiber f
      fun fiber' => { fiber' with
        closing := some { remaining := fiber.children.length, exit } }).core
      { unasked := fiber.children, promise := promise', kept } := by
  let closed : Fiber σ :=
    { fiber with closing := some { remaining := fiber.children.length, exit } }
  have kin : m.core.kin f = some fiber.kin := Table.view_of_row _ row
  have live : fiber.kin.verdict = none := by
    simp [Fiber.kin, Fiber.verdict, running, FiberStatus.isTerminal]
  have silent := coherent.silent_of_held row
  have awake := (coherent.shaped row).asleep
  rw [Machine.core_modifyFiber, Machine.core_trace_of_quiet _ rfl rfl]
  refine coherent.of_row row _ closed coherent.worker rfl rfl rfl
    (coherent.heirs_of_row row rfl (List.Subset.refl _)) ?_ ?_ ?_ ?_ ?_
  · exact ⟨fun _ => by simp_all [closed, FiberStatus.isTerminal],
      fun _ => ⟨running, unsaved, silent⟩, awake, fun _ => by simp_all [closed]⟩
  · exact coherent.family.close kin live unended parents next
  · have task : closed.task = .resting := by
      simp [closed, Fiber.task, running, unsaved]
    rw [task]
    exact coherent.agenda.rest
  · have same : closed.sleepsOn = fiber.sleepsOn := rfl
    have same' : closed.input = fiber.input := rfl
    rw [Core.sleeps, Core.input, Table.update_find row same, Table.update_find row same']
    exact coherent.waiting.release
  · have same : closed.live = fiber.live := rfl
    have same' : closed.awaits = fiber.awaits := rfl
    rw [Core.live, Core.awaits, Table.update_view row same, Table.update_find row same']
    exact coherent.seating.hold

/-- The program of the fiber on the worker has an exit.  From then on the exit of the fiber is
known. -/
theorem finish (coherent : Coherent m.core { held := some f, promise, kept }) (exit : Exit)
    (next : promise' = promise ∨ promise' = some (f, exit)) :
    Coherent (m.finish f exit).core { promise := promise', kept } := by
  obtain ⟨fiber, row, running, unsaved, unended⟩ := coherent.row_of_held rfl
  have row' : m.fiber? f = some fiber := row
  have kin : m.core.kin f = some fiber.kin := Table.view_of_row _ row
  have live : fiber.kin.verdict = none := by
    simp [Fiber.kin, Fiber.verdict, running, FiberStatus.isTerminal]
  have unpromised : ∀ x, promise = some (f, x) → x = exit := by
    intro x promised
    obtain ⟨c, closing, -⟩ := coherent.family.promised_eq kin live promised
    rw [show fiber.kin.closing = none from unended] at closing
    cases closing
  unfold Machine.finish
  simp only [row', Option.map_some, Option.getD_some]
  split
  · rename_i alone
    obtain ⟨leaving, ends⟩ := coherent.leave_of_held row (List.isEmpty_iff.1 alone)
    exact leaving.complete ends unpromised next
  · rename_i parents
    have closing := coherent.close row running unsaved unended (by simpa using parents) exit next
    have calm := calm_interruptAll ((m.trace (.waitingForChildren f
      fiber.children.length)).modifyFiber f fun fiber' => { fiber' with
        closing := some { remaining := fiber.children.length, exit } }) fiber.children
    have kin' : ((m.trace (.waitingForChildren f fiber.children.length)).modifyFiber f
        fun fiber' => { fiber' with
          closing := some { remaining := fiber.children.length, exit } }).core.kin =
        Function.update m.core.kin f (some { fiber.kin with
          closing := some { remaining := fiber.children.length, exit } }) := by
      rw [Machine.core_modifyFiber, Machine.core_trace_of_quiet _ rfl rfl]
      exact Table.view_modify _ _ _ _ row
    refine awaitChildren fiber.children (closing.interruptAll _)
      (coherent.family.nodup_children kin) (fun c listed => ?_) ?_
    · obtain ⟨kc, kinC, child, alive⟩ := (coherent.family.mem_children kin).1 listed
      have other : c ≠ f := by
        rintro rfl
        exact absurd (coherent.family.parent_older kinC child).1 (Nat.lt_irrefl _)
      refine ⟨kc, ?_, child, alive⟩
      rw [show Core.kin _ = _ from calm.kin, kin', Function.update_of_ne other]
      exact kinC
    · refine ⟨{ fiber.kin with closing := some { remaining := fiber.children.length, exit } }, ?_,
        rfl⟩
      rw [show Core.kin _ = _ from calm.kin, kin', Function.update_self]

end Coherent

end EffectFibers
