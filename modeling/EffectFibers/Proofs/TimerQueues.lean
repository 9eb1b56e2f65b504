import EffectFibers.Proofs.Timers.Queue
import Mathlib.Data.List.Sort
import Mathlib.Order.Basic

/-!
# A timer queue is a map from handles to timers

Whoever uses a timer queue cannot tell that cancelled timers leave their keys behind.  The answers
are those of a plain map, which holds for every handle the deadline of its timer and what it does,
and nothing about timers that are gone.  The map has no order of its own: a poll sorts what is due,
and the next deadline is the least of all.

The two run side by side through any sequence of operations that inserts every timer under a handle
of its own.  A handle must not be used again even after its timer is gone, because its old key may
still be in the queue.

## Main definitions

* `TimerMap` – timers by their handles, and how many there have been.
* `TimerOp`, `TimerAnswer` – the operations and what they answer.
* `TimerQueue.Represents` – a queue holds the timers of a map.

## Main statements

* `TimerQueue.Represents.step` – one operation answers alike, and the queue goes on to hold the
  timers of the map.
* `TimerQueue.answers_like_a_map` – the answers to every sequence of operations, and the counters.
-/

namespace EffectFibers

/-- An operation on timers. -/
inductive TimerOp (β : Type)
  | insert (deadline : Int) (handle : TimerId) (action : β)
  | cancel (handle : TimerId)
  | poll (now : Int)
  | nextDeadline
  | size
  | stats

/-- The handle under which an operation inserts a timer. -/
def TimerOp.inserted? {β : Type} : TimerOp β → Option TimerId
  | .insert _ h _ => some h
  | _ => none

/-- What an operation answers. -/
inductive TimerAnswer (β : Type)
  | done
  | cancelled (pending : Bool)
  | expired (actions : List β)
  | deadline (next : Option Int)
  | size (pending : Nat)
  | stats (active inserted fired cancelled : Nat)

/-- Timers by their handles, and the numbers of timers that were inserted, have fired and were
cancelled. -/
structure TimerMap (β : Type) where
  timers : List (TimerKey × β) := []
  inserted : Nat := 0
  fired : Nat := 0
  cancelled : Nat := 0

namespace TimerMap

variable {β : Type}

/-- The order in which timers fire: by deadline and then by handle. -/
def firesUpTo (e f : TimerKey × β) : Bool := !f.1.before e.1

theorem firesUpTo_iff (e f : TimerKey × β) : firesUpTo e f = true ↔ ¬ f.1.before e.1 = true := by
  simp [firesUpTo]

theorem firesUpTo_trans (e f g : TimerKey × β) (first : firesUpTo e f = true)
    (second : firesUpTo f g = true) : firesUpTo e g = true := by
  simp only [firesUpTo_iff, TimerKey.before_iff] at *
  omega

theorem firesUpTo_total (e f : TimerKey × β) : (firesUpTo e f || firesUpTo f e) = true := by
  simp only [Bool.or_eq_true, firesUpTo_iff, TimerKey.before_iff]
  omega

/-- The map with the timer of a handle replaced. -/
def insert (m : TimerMap β) (deadline : Int) (h : TimerId) (action : β) : TimerMap β :=
  { m with
    timers := (⟨deadline, h⟩, action) :: m.timers.filter fun e => e.1.handle ≠ h
    inserted := m.inserted + 1 }

/-- The map without a handle, and whether it was there. -/
def cancel (m : TimerMap β) (h : TimerId) : Bool × TimerMap β :=
  let present := m.timers.any fun e => e.1.handle = h
  (present,
    { m with
      timers := m.timers.filter fun e => e.1.handle ≠ h
      cancelled := if present then m.cancelled + 1 else m.cancelled })

/-- What the timers do whose deadlines have passed, in their order, and the map without them. -/
def poll (m : TimerMap β) (now : Int) : List β × TimerMap β :=
  let due := m.timers.filter fun e => e.1.deadline ≤ now
  ((due.mergeSort firesUpTo).map (·.2),
    { m with
      timers := m.timers.filter fun e => ¬ e.1.deadline ≤ now
      fired := m.fired + due.length })

/-- The least deadline. -/
def nextDeadline (m : TimerMap β) : Option Int := (m.timers.map (·.1.deadline)).min?

/-- One operation on a map. -/
def step (m : TimerMap β) : TimerOp β → TimerAnswer β × TimerMap β
  | .insert deadline h action => (.done, m.insert deadline h action)
  | .cancel h => (.cancelled (m.cancel h).1, (m.cancel h).2)
  | .poll now => (.expired (m.poll now).1, (m.poll now).2)
  | .nextDeadline => (.deadline m.nextDeadline, m)
  | .size => (.size m.timers.length, m)
  | .stats => (.stats m.timers.length m.inserted m.fired m.cancelled, m)

/-- Operations on a map, one after the other. -/
def run (m : TimerMap β) : List (TimerOp β) → List (TimerAnswer β) × TimerMap β
  | [] => ([], m)
  | op :: ops =>
    let (answer, m) := m.step op
    let (answers, m) := m.run ops
    (answer :: answers, m)

end TimerMap

namespace TimerQueue

variable {β : Type} {q : TimerQueue β} {m : TimerMap β}

/-- One operation on a queue. -/
def step (q : TimerQueue β) : TimerOp β → TimerAnswer β × TimerQueue β
  | .insert deadline h action => (.done, q.insert deadline h action)
  | .cancel h => (.cancelled (q.cancel h).1, (q.cancel h).2)
  | .poll now => (.expired (q.pollExpired now).1, (q.pollExpired now).2)
  | .nextDeadline => (.deadline q.nextDeadline.1, q.nextDeadline.2)
  | .size => (.size q.size, q)
  | .stats => (.stats q.stats.active q.stats.inserted q.stats.fired q.stats.cancelled, q)

/-- Operations on a queue, one after the other. -/
def run (q : TimerQueue β) : List (TimerOp β) → List (TimerAnswer β) × TimerQueue β
  | [] => ([], q)
  | op :: ops =>
    let (answer, q) := q.step op
    let (answers, q) := q.run ops
    (answer :: answers, q)

/-- A queue holds the timers of a map, and has counted the same. -/
structure Represents (q : TimerQueue β) (m : TimerMap β) : Prop where
  wellFormed : q.WellFormed
  timers : q.entries.Perm m.timers
  inserted : q.inserted = m.inserted
  fired : q.fired = m.fired
  cancelled : q.cancelled = m.cancelled

theorem represents_empty : ({} : TimerQueue β).Represents {} :=
  ⟨wellFormed_empty, .refl _, rfl, rfl, rfl⟩

namespace Represents

/-! ## One operation -/

variable (represents : q.Represents m)

include represents

theorem size_eq : q.size = m.timers.length := by
  rw [← represents.wellFormed.length_entries]
  exact represents.timers.length_eq

theorem insert {h : TimerId} (fresh : h ∉ q.handles) (d : Int) (a : β) :
    (q.insert d h a).Represents (m.insert d h a) where
  wellFormed := represents.wellFormed.insert fresh d a
  timers := by
    have others : m.timers.filter (fun e => e.1.handle ≠ h) = m.timers := by
      refine List.filter_eq_self.2 fun e mem => decide_eq_true fun own => fresh ?_
      have entry : e ∈ q.entries := represents.timers.mem_iff.2 mem
      exact List.mem_map.2 ⟨e.1, (mem_entriesAt.1 entry).1, own⟩
    show (q.insert d h a).entries.Perm (_ :: m.timers.filter fun e => e.1.handle ≠ h)
    rw [others]
    exact (entries_insert fresh d a).trans (represents.timers.cons _)
  inserted := congrArg (· + 1) represents.inserted
  fired := represents.fired
  cancelled := represents.cancelled

theorem cancel_fst (h : TimerId) : (q.cancel h).1 = (m.cancel h).1 := by
  show q.isPending h = m.timers.any _
  rw [represents.wellFormed.isPending_eq]
  exact represents.timers.any_eq

theorem cancel (h : TimerId) : (q.cancel h).2.Represents (m.cancel h).2 where
  wellFormed := represents.wellFormed.cancel h
  timers := by
    rw [entries_cancel represents.wellFormed]
    exact represents.timers.filter _
  inserted := represents.inserted
  fired := represents.fired
  cancelled := by
    show (if (q.cancel h).1 then q.cancelled + 1 else q.cancelled) =
      if (m.cancel h).1 then m.cancelled + 1 else m.cancelled
    rw [represents.cancel_fst, represents.cancelled]

/-- Sorting the timers of the map that are due gives them in the order of the queue. -/
theorem poll_fst (now : Int) : (q.pollExpired now).1 = (m.poll now).1 := by
  have polled := pollExpired_polled represents.wellFormed now
  have due := represents.timers.filter fun e => e.1.deadline ≤ now
  have sorted : (q.entries.filter fun e => e.1.deadline ≤ now).Pairwise fun e f =>
      TimerMap.firesUpTo e f = true := by
    refine (represents.wellFormed.entries_sorted.imp ?_).sublist List.filter_sublist
    intro e f before
    exact (TimerMap.firesUpTo_iff e f).2 (TimerKey.not_before_of_before before)
  rw [polled.answer]
  refine congrArg (List.map _) (List.Perm.eq_of_pairwise ?_ sorted
    (List.pairwise_mergeSort TimerMap.firesUpTo_trans TimerMap.firesUpTo_total _)
    (due.trans (List.mergeSort_perm _ _).symm))
  -- No two timers of the queue are on a par, because they have different handles.
  intro e f mem mem' up down
  have entry : e ∈ q.entries := List.mem_of_mem_filter mem
  have entry' : f ∈ q.entries :=
    represents.timers.mem_iff.2 (List.mem_of_mem_filter (List.mem_mergeSort.1 mem'))
  refine List.inj_on_of_nodup_map represents.wellFormed.entries_distinct entry entry' ?_
  by_contra other
  exact (TimerMap.firesUpTo_iff e f).1 up
    (TimerKey.before_of_not_before other ((TimerMap.firesUpTo_iff f e).1 down))

theorem poll (now : Int) : (q.pollExpired now).2.Represents (m.poll now).2 := by
  have polled := pollExpired_polled represents.wellFormed now
  refine ⟨polled.wellFormed, ?_, polled.inserted.trans represents.inserted, ?_,
    polled.cancelled.trans represents.cancelled⟩
  · rw [polled.entries]
    exact represents.timers.filter _
  · have fired := polled.counted
    rw [polled.answer, List.length_map, (represents.timers.filter _).length_eq,
      represents.fired] at fired
    exact fired

/-- The first deadline is the least. -/
theorem nextDeadline_fst : q.nextDeadline.1 = m.nextDeadline := by
  rw [nextDeadline_eq]
  cases entries : q.entries with
  | nil =>
      have none : m.timers = [] := (entries ▸ represents.timers).nil_eq.symm
      rw [TimerMap.nextDeadline, none]
      rfl
  | cons e rest =>
      have sorted := represents.wellFormed.entries_sorted
      rw [entries] at sorted
      refine (List.min?_eq_some_iff.2 ⟨?_, fun d mem => ?_⟩).symm
      · refine List.mem_map.2 ⟨e, represents.timers.mem_iff.1 ?_, rfl⟩
        rw [entries]
        exact List.mem_cons_self
      · obtain ⟨f, timer, rfl⟩ := List.mem_map.1 mem
        have entry := represents.timers.mem_iff.2 timer
        rw [entries] at entry
        rcases List.mem_cons.1 entry with rfl | later
        · exact Int.le_refl _
        · exact TimerKey.deadline_le_of_before ((List.pairwise_cons.1 sorted).1 f later)

theorem nextDeadline : q.nextDeadline.2.Represents m where
  wellFormed := represents.wellFormed.skipStale
  timers := by
    show q.skipStale.entries.Perm m.timers
    rw [entries_skipStale]
    exact represents.timers
  inserted := represents.inserted
  fired := represents.fired
  cancelled := represents.cancelled

/-- An operation answers alike, and the queue goes on to hold the timers of the map. -/
theorem step (op : TimerOp β) (fresh : ∀ h, op.inserted? = some h → h ∉ q.handles) :
    (q.step op).1 = (m.step op).1 ∧ (q.step op).2.Represents (m.step op).2 := by
  cases op with
  | insert d h a => exact ⟨rfl, represents.insert (fresh h rfl) d a⟩
  | cancel h =>
      exact ⟨congrArg TimerAnswer.cancelled (represents.cancel_fst h), represents.cancel h⟩
  | poll now => exact ⟨congrArg TimerAnswer.expired (represents.poll_fst now), represents.poll now⟩
  | nextDeadline =>
      exact ⟨congrArg TimerAnswer.deadline represents.nextDeadline_fst, represents.nextDeadline⟩
  | size => exact ⟨congrArg TimerAnswer.size represents.size_eq, represents⟩
  | stats =>
      refine ⟨?_, represents⟩
      show TimerAnswer.stats q.size q.inserted q.fired q.cancelled = _
      rw [represents.size_eq, represents.inserted, represents.fired, represents.cancelled]
      rfl

end Represents

/-- An operation leaves no keys but those it found and the one it inserts. -/
theorem handles_step (wf : q.WellFormed) (op : TimerOp β) {h : TimerId}
    (mem : h ∈ (q.step op).2.handles) : op.inserted? = some h ∨ h ∈ q.handles := by
  cases op with
  | insert d g a =>
      rcases List.mem_cons.1 ((handles_insert q d g a).mem_iff.1 mem) with rfl | mem
      · exact .inl rfl
      · exact .inr mem
  | cancel g => exact .inr (handles_cancel_subset q g mem)
  | poll now => exact .inr ((pollExpired_polled wf now).handles mem)
  | nextDeadline => exact .inr (handles_skipStale_subset q mem)
  | size => exact .inr mem
  | stats => exact .inr mem

/-! ## Sequences of operations -/

/-- The induction is on the operations; the keys of the queue belong to none of the handles that are
still to come. -/
theorem Represents.run (represents : q.Represents m) (ops : List (TimerOp β))
    (distinct : (ops.filterMap TimerOp.inserted?).Nodup)
    (fresh : ∀ h ∈ ops.filterMap TimerOp.inserted?, h ∉ q.handles) :
    (q.run ops).1 = (m.run ops).1 ∧ (q.run ops).2.Represents (m.run ops).2 := by
  induction ops generalizing q m with
  | nil => exact ⟨rfl, represents⟩
  | cons op ops ih =>
      have own : ∀ h, op.inserted? = some h → h ∉ q.handles := by
        intro h inserted
        refine fresh h ?_
        rw [List.filterMap_cons_some inserted]
        exact List.mem_cons_self
      have later : ∀ h ∈ ops.filterMap TimerOp.inserted?,
          h ∈ (op :: ops).filterMap TimerOp.inserted? ∧ op.inserted? ≠ some h := by
        intro h mem
        cases inserted : op.inserted? with
        | none =>
            rw [List.filterMap_cons_none inserted]
            exact ⟨mem, nofun⟩
        | some g =>
            rw [List.filterMap_cons_some inserted] at distinct ⊢
            refine ⟨.tail _ mem, fun same => ?_⟩
            exact (List.nodup_cons.1 distinct).1 (Option.some.inj same ▸ mem)
      have rest : (ops.filterMap TimerOp.inserted?).Nodup :=
        distinct.sublist ((List.sublist_cons_self op ops).filterMap _)
      obtain ⟨answer, represents'⟩ := represents.step op own
      obtain ⟨answers, final⟩ := ih represents' rest fun h mem kept => by
        rcases handles_step represents.wellFormed op kept with inserted | old
        · exact (later h mem).2 inserted
        · exact fresh h (later h mem).1 old
      refine ⟨?_, final⟩
      show (q.step op).1 :: ((q.step op).2.run ops).1 = (m.step op).1 :: ((m.step op).2.run ops).1
      rw [answer, answers]

/-- Through every sequence of operations that inserts timers under different handles, a queue that
starts empty answers as a map does, and holds the timers that the map holds.  Every timer that was
inserted has fired, was cancelled or is pending, and the keys that are counted as stale are those
whose timers are no longer pending. -/
theorem answers_like_a_map (ops : List (TimerOp β))
    (distinct : (ops.filterMap TimerOp.inserted?).Nodup) :
    let queue := (({} : TimerQueue β).run ops).2
    let map := (({} : TimerMap β).run ops).2
    (({} : TimerQueue β).run ops).1 = (({} : TimerMap β).run ops).1 ∧
    (∀ h a, (h, a) ∈ queue.pending ↔ ∃ deadline, (⟨deadline, h⟩, a) ∈ map.timers) ∧
    queue.stats.inserted = queue.stats.fired + queue.stats.cancelled + queue.stats.active ∧
    queue.stats.stale = queue.keys.countP fun k => !queue.isPending k.handle := by
  intro queue map
  obtain ⟨answers, final⟩ := represents_empty.run ops distinct fun h mem => nofun
  refine ⟨answers, fun h a => ?_, final.wellFormed.accounted, final.wellFormed.stale_eq⟩
  rw [final.wellFormed.mem_pending_iff]
  exact exists_congr fun d => final.timers.mem_iff

/-- Two of three timers have the same deadline.  One of them is cancelled, and its key, which is the
first, goes with the next look at the front; then the clock runs forwards and backwards. -/
theorem cancelled_timer_answers_like_a_map :
    let ops : List (TimerOp Nat) :=
      [.insert 30 ⟨1⟩ 100, .insert 10 ⟨2⟩ 200, .insert 10 ⟨3⟩ 300, .cancel ⟨2⟩, .cancel ⟨2⟩,
        .nextDeadline, .poll 20, .insert 5 ⟨4⟩ 400, .poll 7, .poll (-1), .stats, .poll 30]
    (ops.filterMap TimerOp.inserted?).Nodup ∧
    (({} : TimerMap Nat).run ops).1 =
      [.done, .done, .done, .cancelled true, .cancelled false, .deadline (some 10), .expired [300],
        .done, .expired [400], .expired [], .stats 1 4 2 1, .expired [100]] ∧
    ∀ h a, (h, a) ∉ (({} : TimerQueue Nat).run ops).2.pending := by
  intro ops
  have distinct : (ops.filterMap TimerOp.inserted?).Nodup := by decide
  obtain ⟨answers, -, -, -⟩ := answers_like_a_map ops distinct
  exact ⟨distinct, answers.symm, nofun⟩

end TimerQueue

end EffectFibers
