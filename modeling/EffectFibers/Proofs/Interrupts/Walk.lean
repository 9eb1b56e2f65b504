import EffectFibers.Proofs.Regions
import EffectFibers.Proofs.StructuredConcurrency
import Mathlib.Data.List.Induction

/-!
# The walk of an interrupt

An interrupt walks down the tree of live fibers.  It reaches a fiber, walks below each of its
children in turn, and on the way back it releases the fiber, if the interrupt has ended its wait.
The fibers below a fiber are found from the machine as it was before the interrupt, so the whole
walk is a list of visits that is known in advance, and the interrupt is what these visits do one
after the other.

What a visit finds does not depend on the visits before it, as long as these do not reach the same
fiber: two fibers never sleep on one wait, so no visit ends the wait of another fiber.

## Main definitions

* `Machine.visits` – the visits of an interrupt, read off the machine before it.
* `Machine.visit`, `Machine.after` – what one visit does, and what several do.
* `Machine.Grove` – what the walk needs to know of the machine.

## Main statements

* `Machine.Walked` – the machine after some visits, seen from the one before them.
* `Machine.interruptWithin_after` – an interrupt is what its visits do.
-/

namespace EffectFibers

variable {σ : Type}

/-- A fiber that was taken out of its wait by an interrupt. -/
def Fiber.roused (fiber : Fiber σ) : Fiber σ :=
  { fiber with interrupted := true, input := some .interrupted, status := .running, pending := none }

/-- A visit of an interrupt to a fiber. -/
inductive Visit (σ : Type)
  /-- On the way down: the fiber is marked and taken out of its wait, if it can be. -/
  | reach (f : FiberId)
  /-- On the way back: what its wait has left behind is tidied up, and the fiber is queued. -/
  | release (f : FiberId) (canceler : Canceler σ)

namespace Visit

/-- The fiber that is visited. -/
def fiber : Visit σ → FiberId
  | .reach f => f
  | .release f _ => f

/-- The fiber that the visit queues. -/
def released? : Visit σ → Option FiberId
  | .reach _ => none
  | .release f _ => some f

end Visit

namespace Machine

/-- The live children of a fiber. -/
def childrenOf (m : Machine σ) (f : FiberId) : List FiberId :=
  ((m.fiber? f).map (·.children)).getD []

/-- What tidies up after the wait of a fiber, if an interrupt would end the wait now: the fiber is
suspended outside every uninterruptible region, and nobody has claimed the wait. -/
def gives? (m : Machine σ) (f : FiberId) : Option (Canceler σ) :=
  match (m.fiber? f).bind Fiber.breakable? with
  | none => none
  | some (w, canceler) => if m.isOpen w then some canceler else none

/-- What becomes of the row of a fiber that is reached. -/
def reached (m : Machine σ) (f : FiberId) (fiber : Fiber σ) : Fiber σ :=
  if (m.gives? f).isSome then fiber.roused else fiber.marked

/-- One visit. -/
def visit (m : Machine σ) : Visit σ → Machine σ
  | .reach f =>
    let m := m.mark f
    match m.fiber? f with
    | none => m
    | some fiber =>
      if fiber.status.isTerminal then m
      else (m.breakWait f fiber).2.trace (.interrupting f fiber.children.length)
  | .release f canceler => (m.runCanceler f canceler).enqueue f

/-- Several visits, one after the other. -/
def after (m : Machine σ) (visits : List (Visit σ)) : Machine σ := visits.foldl visit m

/-- The visits of an interrupt of `f` that goes down to a depth. -/
def visits (m : Machine σ) : Nat → FiberId → List (Visit σ)
  | 0, _ => []
  | depth + 1, f =>
    .reach f :: ((m.childrenOf f).flatMap (m.visits depth) ++ (m.gives? f).toList.map (.release f))

/-- A fiber is reached from another one through live children. -/
def Under (m : Machine σ) : FiberId → FiberId → Prop :=
  Relation.ReflTransGen fun p c => c ∈ m.childrenOf p

/-- The live fibers are trees in which children are younger than their parents, fibers that have
ended have no live children, and no two fibers sleep on one wait. -/
structure Grove (m : Machine σ) : Prop where
  older : ∀ {p c}, c ∈ m.childrenOf p → p.raw < c.raw
  parent_eq : ∀ {p q c}, c ∈ m.childrenOf p → c ∈ m.childrenOf q → p = q
  nodup : ∀ p, (m.childrenOf p).Nodup
  ended_alone : ∀ {f fiber}, m.fiber? f = some fiber → fiber.status.isTerminal →
    fiber.children = []
  sleeper_eq : ∀ {f g w}, m.core.sleeps f = some w → m.core.sleeps g = some w → f = g

variable {m n : Machine σ} {f g p c : FiberId} {w : WaitId} {fiber : Fiber σ}
  {canceler : Canceler σ}

theorem mem_childrenOf :
    c ∈ m.childrenOf p ↔ ∃ fiber, m.fiber? p = some fiber ∧ c ∈ fiber.children := by
  unfold childrenOf
  cases m.fiber? p <;> simp

theorem childrenOf_of_row (row : m.fiber? f = some fiber) : m.childrenOf f = fiber.children := by
  simp [childrenOf, row]

theorem after_append (V W : List (Visit σ)) : m.after (V ++ W) = (m.after V).after W :=
  List.foldl_append ..

theorem after_singleton (v : Visit σ) : m.after [v] = m.visit v := rfl

/-! ## Who would be taken out of a wait -/

theorem gives?_of_row (row : m.fiber? f = some fiber) (breakable : fiber.breakable? = some (w, canceler)) :
    m.gives? f = if m.isOpen w then some canceler else none := by
  simp only [gives?, row, Option.bind_some, breakable]

theorem gives?_of_unbreakable (unbreakable : (m.fiber? f).bind Fiber.breakable? = none) :
    m.gives? f = none := by
  simp only [gives?, unbreakable]

theorem gives?_eq_some_iff : m.gives? f = some canceler ↔
    ∃ fiber w, m.fiber? f = some fiber ∧ fiber.breakable? = some (w, canceler) ∧ m.isOpen w := by
  cases row : m.fiber? f with
  | none => simp [gives?, row]
  | some fiber =>
      cases breakable : fiber.breakable? with
      | none => simp [gives?, row, breakable]
      | some what =>
          obtain ⟨w, c⟩ := what
          rw [gives?_of_row row breakable]
          by_cases free : m.isOpen w
          · simp [free, breakable, and_assoc, and_comm]
          · simp [free, breakable]

/-- A fiber whose wait can be broken sleeps on that wait. -/
theorem sleeps_of_breakable (row : m.fiber? f = some fiber)
    (breakable : fiber.breakable? = some (w, canceler)) : m.core.sleeps f = some w :=
  Coherent.sleeps_of_row row (Fiber.breakable?_eq_some_iff.1 breakable).2.1

/-- A fiber that gives up a wait is suspended. -/
theorem suspended_of_gives (gives : (m.gives? f).isSome) :
    ∃ fiber, m.fiber? f = some fiber ∧ fiber.status = .suspended := by
  obtain ⟨canceler, gives⟩ := Option.isSome_iff_exists.1 gives
  obtain ⟨fiber, w, row, breakable, -⟩ := gives?_eq_some_iff.1 gives
  exact ⟨fiber, row, (Fiber.breakable?_eq_some_iff.1 breakable).1⟩

theorem live_of_gives (gives : (m.gives? f).isSome) : (m.status f).isTerminal = false := by
  obtain ⟨fiber, row, suspended⟩ := suspended_of_gives gives
  rw [Coherent.status_of_row row, suspended]
  rfl

/-- A fiber that has ended gives up nothing. -/
theorem gives?_of_ended (row : m.fiber? f = some fiber) (ended : fiber.status.isTerminal) :
    m.gives? f = none := by
  refine Option.not_isSome_iff_eq_none.1 fun gives => ?_
  have live := live_of_gives gives
  rw [Coherent.status_of_row row, ended] at live
  cases live

/-- A fiber without a row has nothing left to do. -/
theorem exists_row_of_live (live : (m.status f).isTerminal = false) :
    ∃ fiber, m.fiber? f = some fiber := by
  cases row : m.fiber? f with
  | none => simp [status, statusOf, show m.fibers.get? f = none from row,
      FiberStatus.isTerminal] at live
  | some fiber => exact ⟨fiber, rfl⟩

theorem reached_of_gives (gives : (m.gives? f).isSome) : m.reached f = Fiber.roused := by
  funext fiber
  exact if_pos gives

theorem interrupted_reached (fiber : Fiber σ) : (m.reached f fiber).interrupted = true := by
  unfold reached
  split <;> rfl

/-- What a fiber gives up is decided by its row and by the wait that it sleeps on. -/
theorem gives?_congr (row : n.fiber? f = m.fiber? f)
    (same : ∀ w, m.core.sleeps f = some w → n.isOpen w = m.isOpen w) : n.gives? f = m.gives? f := by
  cases row' : m.fiber? f with
  | none => simp only [gives?, row, row', Option.bind_none]
  | some fiber =>
      cases breakable : fiber.breakable? with
      | none => simp only [gives?, row, row', Option.bind_some, breakable]
      | some what =>
          obtain ⟨w, canceler⟩ := what
          rw [gives?_of_row (row.trans row') breakable, gives?_of_row row' breakable,
            same w (sleeps_of_breakable row' breakable)]

/-! ## What a visit does -/

/-- A fiber that was marked is left in its wait, or what it gives up is taken from it. -/
theorem breakWait_marked (row : m.fiber? f = some fiber) :
    (m.gives? f = none ∧ (m.mark f).breakWait f fiber.marked = (none, m.mark f)) ∨
    ∃ w canceler, m.gives? f = some canceler ∧ m.core.sleeps f = some w ∧
      (m.mark f).breakWait f fiber.marked = (some canceler,
        ((m.mark f).claim w).2.modifyFiber f (Coherent.answered .interrupted)) := by
  obtain ⟨left, lost⟩ | ⟨w, canceler, breakable, opened, taken⟩ :=
    (m.mark f).breakWait_cases f fiber.marked
  · refine .inl ⟨Option.eq_none_iff_forall_not_mem.2 fun canceler gives => ?_, left⟩
    obtain ⟨fiber', w, row', breakable, opened⟩ := gives?_eq_some_iff.1 gives
    obtain rfl := Option.some.inj (row.symm.trans row')
    exact Bool.false_ne_true ((lost w canceler breakable).symm.trans opened)
  · exact .inr ⟨w, canceler, gives?_eq_some_iff.2 ⟨fiber, w, row, breakable, opened⟩,
      sleeps_of_breakable row breakable, taken⟩

/-- Whether an interrupt takes a fiber out of its wait. -/
theorem fst_breakWait (row : m.fiber? f = some fiber) :
    ((m.mark f).breakWait f fiber.marked).1 = m.gives? f := by
  obtain ⟨keeps, same⟩ | ⟨w, canceler, gives, -, same⟩ := breakWait_marked row
  · rw [same, keeps]
  · rw [same, gives]

/-- What is left when a fiber was marked and perhaps taken out of its wait. -/
theorem snd_breakWait (row : m.fiber? f = some fiber) :
    ((m.mark f).breakWait f fiber.marked).2.fiber? f = some (m.reached f fiber) ∧
      ((m.mark f).breakWait f fiber.marked).2.ready = m.ready ∧
      ∀ w, m.core.sleeps f ≠ some w →
        ((m.mark f).breakWait f fiber.marked).2.isOpen w = m.isOpen w := by
  have marked : (m.mark f).fiber? f = some fiber.marked := row_of_mark row
  obtain ⟨keeps, same⟩ | ⟨w, canceler, gives, asleep, same⟩ := breakWait_marked row
  · rw [same, reached, keeps]
    exact ⟨marked, rfl, fun w _ => rfl⟩
  · rw [same, reached, gives]
    refine ⟨?_, ?_, fun w' other => ?_⟩
    · rw [fiber?_modifyFiber, if_pos rfl, fiber?_claim, marked]
      rfl
    · exact (claim_eq (m.mark f) w).elim fun waits claimed => by rw [claimed]; rfl
    · have unequal : w ≠ w' := fun here => other (here ▸ asleep)
      show (((m.mark f).claim w).2.waits.get? w').any _ = (m.waits.get? w').any _
      rw [get?_claim_of_ne unequal]
      rfl

/-- A visit on the way down, by the row that it finds. -/
theorem visit_reach_of_row (row : m.fiber? f = some fiber) :
    m.visit (.reach f) = if fiber.status.isTerminal then m.mark f
      else ((m.mark f).breakWait f fiber.marked).2.trace
        (.interrupting f fiber.children.length) := by
  have marked : (m.mark f).fiber? f = some fiber.marked := row_of_mark row
  simp only [visit, marked]
  rfl

/-- A visit on the way down changes the row of its fiber only, and claims its wait only. -/
theorem visit_reach (f : FiberId) :
    (∀ g, (m.visit (.reach f)).fiber? g =
        if f = g then (m.fiber? g).map (m.reached g) else m.fiber? g) ∧
      (m.visit (.reach f)).ready = m.ready ∧
      ∀ w, m.core.sleeps f ≠ some w → (m.visit (.reach f)).isOpen w = m.isOpen w := by
  cases row : m.fiber? f with
  | none =>
      have untouched : m.visit (.reach f) = m.mark f := by
        have gone : (m.mark f).fiber? f = none := by rw [fiber?_mark, if_pos rfl, row, Option.map_none]
        simp only [visit, gone]
      rw [untouched]
      refine ⟨fun g => ?_, rfl, fun w _ => rfl⟩
      rw [fiber?_mark]
      split
      · rename_i same
        rw [← same, row, Option.map_none, Option.map_none]
      · rfl
  | some fiber =>
      rw [visit_reach_of_row row]
      split
      · rename_i ended
        refine ⟨fun g => ?_, rfl, fun w _ => rfl⟩
        rw [fiber?_mark]
        split
        · rename_i same
          rw [← same, row, Option.map_some, Option.map_some, reached, gives?_of_ended row ended]
          rfl
        · rfl
      · obtain ⟨here, ready, open_⟩ := snd_breakWait row
        refine ⟨fun g => ?_, ready, open_⟩
        show ((m.mark f).breakWait f fiber.marked).2.fiber? g = _
        split
        · rename_i same
          rw [← same, here, row, Option.map_some]
        · rename_i other
          rw [fiber?_breakWait (Ne.symm other), fiber?_mark, if_neg other]

/-- A visit on the way back queues its fiber, and changes no row and no wait. -/
theorem visit_release (f : FiberId) (canceler : Canceler σ) :
    (∀ g, (m.visit (.release f canceler)).fiber? g = m.fiber? g) ∧
      (m.visit (.release f canceler)).ready.toList = m.ready.toList ++ [f] ∧
      ∀ w, (m.visit (.release f canceler)).isOpen w = m.isOpen w := by
  have core := Coherent.core_runCanceler m f canceler
  have rows : (m.runCanceler f canceler).fibers = m.fibers := congrArg Core.fibers core
  have waits : (m.runCanceler f canceler).waits = m.waits := congrArg Core.waits core
  have ready : (m.runCanceler f canceler).ready.toList = m.ready.toList := congrArg Core.ready core
  refine ⟨fun g => ?_, ?_, fun w => ?_⟩
  · exact congrArg (fun rows : Table .fiber (Fiber σ) => rows.get? g) rows
  · rw [visit, enqueue, ReadyQueue.toList_push, ready]
  · exact congrArg (fun waits : Table .wait Wait => (waits.get? w).any fun wait => !wait.claimed) waits

/-! ## What several visits do -/

/-- The machine `n` after some visits, seen from the machine `m` before them. -/
structure Walked (m : Machine σ) (V : List (Visit σ)) (n : Machine σ) : Prop where
  /-- The row of a fiber that was reached is what its own visit has made of it. -/
  reached : ∀ {g}, .reach g ∈ V → n.fiber? g = (m.fiber? g).map (m.reached g)
  /-- No other row has changed. -/
  row : ∀ {g}, .reach g ∉ V → n.fiber? g = m.fiber? g
  /-- A fiber that was not reached would still give up what it would have given up before. -/
  gives : ∀ {g}, .reach g ∉ V → n.gives? g = m.gives? g
  /-- The fibers that were released are queued, in this order. -/
  ready : n.ready.toList = m.ready.toList ++ V.filterMap Visit.released?

theorem sleeps_congr (row : n.fiber? g = m.fiber? g) : n.core.sleeps g = m.core.sleeps g :=
  congrArg (fun row : Option (Fiber σ) => row.bind Fiber.sleepsOn) row

theorem reached_congr (gives : n.gives? g = m.gives? g) : n.reached g = m.reached g := by
  unfold reached
  rw [gives]

/-- One more visit, which is not made again. -/
theorem Walked.visit {V : List (Visit σ)} (grove : m.Grove) (walked : Walked m V n) (v : Visit σ)
    (fresh : v ∉ V) : Walked m (V ++ [v]) (n.visit v) := by
  cases v with
  | reach f =>
      obtain ⟨rows, ready, waits⟩ := n.visit_reach f
      refine ⟨fun {g} listed => ?_, fun {g} unlisted => ?_, fun {g} unlisted => ?_, ?_⟩
      · rw [rows]
        split
        · rename_i same
          rw [← same, walked.row fresh, reached_congr (walked.gives fresh)]
        · rename_i other
          exact walked.reached (by simpa [Ne.symm other] using listed)
      · have ⟨away, other⟩ : .reach g ∉ V ∧ g ≠ f := by simpa using unlisted
        rw [rows, if_neg (Ne.symm other), walked.row away]
      · have ⟨away, other⟩ : .reach g ∉ V ∧ g ≠ f := by simpa using unlisted
        rw [← walked.gives away]
        refine gives?_congr (by rw [rows, if_neg (Ne.symm other)]) fun w asleep => waits w ?_
        rw [sleeps_congr (walked.row fresh)]
        rw [sleeps_congr (walked.row away)] at asleep
        exact fun also => other (grove.sleeper_eq asleep also)
      · rw [ready, walked.ready, List.filterMap_append]
        simp [Visit.released?]
  | release f canceler =>
      obtain ⟨rows, ready, waits⟩ := n.visit_release f canceler
      have listed_iff (g : FiberId) : .reach g ∈ V ++ [.release f canceler] ↔ .reach g ∈ V := by simp
      refine ⟨fun {g} listed => ?_, fun {g} unlisted => ?_, fun {g} unlisted => ?_, ?_⟩
      · rw [rows, walked.reached ((listed_iff g).1 listed)]
      · rw [rows, walked.row (mt (listed_iff g).2 unlisted)]
      · rw [gives?_congr (rows g) fun w _ => waits w, walked.gives (mt (listed_iff g).2 unlisted)]
      · rw [ready, walked.ready, List.filterMap_append, List.append_assoc]
        rfl

theorem nodup_and_fresh {V : List (Visit σ)} {v : Visit σ} (nodup : (V ++ [v]).Nodup) :
    V.Nodup ∧ v ∉ V := by
  rw [← List.concat_eq_append, List.nodup_concat] at nodup
  exact nodup.symm

/-- Any number of visits, none made twice. -/
theorem walked_after (grove : m.Grove) {V : List (Visit σ)} (nodup : V.Nodup) :
    Walked m V (m.after V) := by
  induction V using List.reverseRecOn with
  | nil => exact ⟨nofun, fun _ => rfl, fun _ => rfl, by simp [after]⟩
  | append_singleton V v ih =>
      obtain ⟨nodup, fresh⟩ := nodup_and_fresh nodup
      rw [after_append, after_singleton]
      exact (ih nodup).visit grove v fresh

/-! ## An interrupt is what its visits do -/

/-- One level of an interrupt: it reaches the fiber, goes below its children and releases it. -/
theorem interruptWithin_succ (depth : Nat)
    (alone : ∀ {fiber}, m.fiber? f = some fiber → fiber.status.isTerminal → fiber.children = []) :
    m.interruptWithin (depth + 1) f =
      ((m.childrenOf f).foldl (interruptWithin depth) (m.visit (.reach f))).after
        ((m.gives? f).toList.map (.release f)) := by
  cases row : m.fiber? f with
  | none =>
      have gone : (m.mark f).fiber? f = none := by rw [fiber?_mark, if_pos rfl, row, Option.map_none]
      have keeps : m.gives? f = none := gives?_of_unbreakable (by rw [row, Option.bind_none])
      simp only [interruptWithin, visit, gone, childrenOf, row, keeps]
      rfl
  | some fiber =>
      have marked : (m.mark f).fiber? f = some fiber.marked := row_of_mark row
      rw [visit_reach_of_row row, childrenOf_of_row row]
      simp only [interruptWithin, marked]
      by_cases ended : fiber.status.isTerminal
      · rw [if_pos ended, if_pos (show fiber.marked.status.isTerminal from ended),
          alone row ended, gives?_of_ended row ended]
        rfl
      · rw [if_neg ended, if_neg (show ¬ fiber.marked.status.isTerminal from ended),
          ← fst_breakWait row]
        cases ((m.mark f).breakWait f fiber.marked).1 <;> rfl

/-- The children of a fiber, one after the other. -/
theorem foldl_after {V : List (Visit σ)} {children : List FiberId} {depth : Nat}
    (one : ∀ {V : List (Visit σ)} {c}, (V ++ m.visits depth c).Nodup →
      interruptWithin depth (m.after V) c = m.after (V ++ m.visits depth c))
    (nodup : (V ++ children.flatMap (m.visits depth)).Nodup) :
    children.foldl (interruptWithin depth) (m.after V) =
      m.after (V ++ children.flatMap (m.visits depth)) := by
  induction children generalizing V with
  | nil => simp
  | cons c children ih =>
      rw [List.flatMap_cons, ← List.append_assoc] at nodup ⊢
      rw [List.foldl_cons, one (List.nodup_append.1 nodup).1, ih nodup]

/-- After other visits an interrupt is what its own visits do, if none of them was made before. -/
theorem interruptWithin_after (grove : m.Grove) {depth : Nat} {V : List (Visit σ)}
    (nodup : (V ++ m.visits depth f).Nodup) :
    interruptWithin depth (m.after V) f = m.after (V ++ m.visits depth f) := by
  induction depth generalizing V f with
  | zero => simp [interruptWithin, visits]
  | succ depth ih =>
      rw [visits, List.append_cons, ← List.append_assoc] at nodup ⊢
      have below := (List.nodup_append.1 nodup).1
      have reach := (List.nodup_append.1 below).1
      obtain ⟨before, fresh⟩ := nodup_and_fresh reach
      -- the visits before this one have left the row and the wait of the fiber alone
      have walked := walked_after grove before
      have children : (m.after V).childrenOf f = m.childrenOf f := by
        rw [childrenOf, walked.row fresh, childrenOf]
      calc interruptWithin (depth + 1) (m.after V) f
          = ((m.childrenOf f).foldl (interruptWithin depth) (m.after (V ++ [.reach f]))).after
              ((m.gives? f).toList.map (.release f)) := by
            rw [interruptWithin_succ depth fun row => grove.ended_alone (walked.row fresh ▸ row),
              children, walked.gives fresh, after_append V, after_singleton]
        _ = m.after (V ++ [.reach f] ++ (m.childrenOf f).flatMap (m.visits depth) ++
              (m.gives? f).toList.map (.release f)) := by
            rw [foldl_after ih below, ← after_append]

end Machine

end EffectFibers
