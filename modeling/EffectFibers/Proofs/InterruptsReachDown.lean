import EffectFibers.Proofs.Interrupts.Walk

/-!
# Interrupts reach down

The children of a marked fiber are marked, whenever they were started.  An interrupt visits the live
fibers below its fiber and that fiber itself, each once: it marks all of them, and those that wait
for anything but a group outside every uninterruptible region are taken out of their wait, tidied up
after and queued, children before their parents.  No other fiber changes.

The subtree is the one of the record: the fiber, and all fibers that were started below it.  That the
walk finds every live one of them rests on structured concurrency.  A fiber that was forgotten by its
parent could not be reached, but the parents of a live fiber are all live, and each of them lists it.

## Main definitions

* `Machine.Within` – the subtree of a fiber.
* `Machine.Interrupted` – what an interrupt has done when it is over.

## Main statements

* `Coherent.interrupted` – an interrupt does that in every machine that is in order.
* `Moment.Reachable.interrupts_reach_down` – the same for the machines that come about, and the marks
  that are there between interrupts.
-/

namespace EffectFibers

variable {σ : Type}

namespace Machine

/-- A fiber is in the subtree of another one: it is that fiber, or was started below it. -/
def Within (m : Machine σ) (f g : FiberId) : Prop := g = f ∨ m.Below f g

/-- What an interrupt of `f` has done to the machine `m` when it is over: it has made the visits `V`
and is now `m'`. -/
structure Interrupted (m : Machine σ) (f : FiberId) (V : List (Visit σ)) (m' : Machine σ) :
    Prop where
  made : m' = m.after V
  once : V.Nodup
  /-- The fiber and the live fibers below it are reached. -/
  reach_iff : ∀ g, .reach g ∈ V ↔ g = f ∨ m.Below f g ∧ (m.status g).isTerminal = false
  /-- Those of the subtree that give up a wait are tidied up after, and nobody else. -/
  release_iff : ∀ g canceler,
    .release g canceler ∈ V ↔ m.Within f g ∧ m.gives? g = some canceler
  marked : ∀ g, m.Within f g → (m.status g).isTerminal = false → m'.isInterrupted g
  /-- Those that give up a wait have the interrupt as their input and can go on. -/
  roused : ∀ g, m.Within f g → (m.gives? g).isSome → m'.fiber? g = (m.fiber? g).map Fiber.roused
  kept : ∀ g, ¬ m.Within f g → m'.fiber? g = m.fiber? g
  queue : m'.ready.toList = m.ready.toList ++ V.filterMap Visit.released?
  queued_once : ∀ g, m.Within f g → (m.gives? g).isSome → m'.ready.toList.count g = 1
  /-- Children stand in the queue before their parents. -/
  queued_in_order : ∀ d g, m.Within f g → (m.gives? g).isSome → m.Below g d → (m.gives? d).isSome →
    m'.ready.toList.idxOf d < m'.ready.toList.idxOf g

variable {m : Machine σ} {f g a b c d p : FiberId}

/-! ## Trees of live fibers -/

namespace Grove

theorem le_of_under (grove : m.Grove) (under : m.Under f g) : f.raw ≤ g.raw := by
  induction under with
  | refl => exact Nat.le_refl _
  | tail _ child ih => exact Nat.le_trans ih (Nat.le_of_lt (grove.older child))

/-- No fiber is below its own children. -/
theorem not_under_parent (grove : m.Grove) (child : c ∈ m.childrenOf p) : ¬ m.Under c p :=
  fun under => Nat.not_le_of_lt (grove.older child) (grove.le_of_under under)

/-- Two fibers above the same one lie on one branch. -/
theorem under_or_under (grove : m.Grove) (left : m.Under a g) (right : m.Under b g) :
    m.Under a b ∨ m.Under b a := by
  have upwards : Relator.RightUnique (Function.swap fun p c => c ∈ m.childrenOf p) :=
    fun _ _ _ first second => grove.parent_eq first second
  have left := Relation.reflTransGen_swap.2 left
  have right := Relation.reflTransGen_swap.2 right
  rcases left.total_of_right_unique upwards right with down | up
  · exact .inr (Relation.reflTransGen_swap.1 down)
  · exact .inl (Relation.reflTransGen_swap.1 up)

/-- A child is below no other child of its parent. -/
theorem sibling_eq_of_under (grove : m.Grove) (first : c ∈ m.childrenOf p)
    (second : d ∈ m.childrenOf p) (under : m.Under c d) : c = d := by
  rcases Relation.ReflTransGen.cases_tail under with same | ⟨q, above, child⟩
  · exact same.symm
  · rw [grove.parent_eq child second] at above
    exact absurd above (grove.not_under_parent first)

/-- The subtrees of two children have no fiber in common. -/
theorem child_eq_of_under (grove : m.Grove) (first : c ∈ m.childrenOf p)
    (second : d ∈ m.childrenOf p) (left : m.Under c g) (right : m.Under d g) : c = d := by
  rcases grove.under_or_under left right with down | up
  · exact grove.sibling_eq_of_under first second down
  · exact (grove.sibling_eq_of_under second first up).symm

end Grove

/-! ## Which visits are made -/

/-- All visits of an interrupt are to live fibers of the subtree. -/
theorem under_of_mem_visits {depth : Nat} {v : Visit σ} (listed : v ∈ m.visits depth f) :
    m.Under f v.fiber := by
  induction depth generalizing f with
  | zero => cases listed
  | succ depth ih =>
      simp only [visits, List.mem_cons, List.mem_append, List.mem_flatMap, List.mem_map] at listed
      rcases listed with rfl | ⟨c, child, below⟩ | ⟨canceler, -, rfl⟩
      · exact .refl
      · exact .head child (ih below)
      · exact .refl

/-- The live fibers of the subtree are reached, if the depth is enough. -/
theorem reach_mem_visits (grove : m.Grove) {depth : Nat} (deep : g.raw < depth + f.raw)
    (under : m.Under f g) : .reach g ∈ m.visits depth f := by
  induction under using Relation.ReflTransGen.head_induction_on generalizing depth with
  | refl =>
      obtain ⟨depth, rfl⟩ : ∃ d, depth = d + 1 := ⟨depth - 1, by omega⟩
      simp [visits]
  | @head f c child under ih =>
      have younger := grove.older child
      have := grove.le_of_under under
      obtain ⟨depth, rfl⟩ : ∃ d, depth = d + 1 := ⟨depth - 1, by omega⟩
      have below : .reach g ∈ m.visits depth c := ih (by omega)
      simp only [visits, List.mem_cons, List.mem_append, List.mem_flatMap]
      exact .inr (.inl ⟨c, child, below⟩)

/-- The fibers that are released are those that are reached and give up a wait. -/
theorem release_mem_visits {depth : Nat} {canceler : Canceler σ} :
    .release g canceler ∈ m.visits depth f ↔
      .reach g ∈ m.visits depth f ∧ m.gives? g = some canceler := by
  induction depth generalizing f with
  | zero => simp [visits]
  | succ depth ih =>
      simp only [visits, List.mem_cons, List.mem_append, List.mem_flatMap, List.mem_map,
        Option.mem_toList, reduceCtorEq, false_or, Visit.reach.injEq, Visit.release.injEq, and_false,
        exists_false, or_false, ih]
      constructor
      · rintro (⟨c, child, reached, gives⟩ | ⟨_, gives, rfl, rfl⟩)
        · exact ⟨.inr ⟨c, child, reached⟩, gives⟩
        · exact ⟨.inl rfl, gives⟩
      · rintro ⟨rfl | ⟨c, child, reached⟩, gives⟩
        · exact .inr ⟨canceler, gives, rfl, rfl⟩
        · exact .inl ⟨c, child, reached, gives⟩

/-- The fibers that are queued are those that are released. -/
theorem mem_released_iff {V : List (Visit σ)} :
    g ∈ V.filterMap Visit.released? ↔ ∃ canceler, .release g canceler ∈ V := by
  rw [List.mem_filterMap]
  constructor
  · rintro ⟨v, listed, same⟩
    cases v with
    | reach _ => cases same
    | release g' canceler =>
        obtain rfl := Option.some.inj same
        exact ⟨canceler, listed⟩
  · rintro ⟨canceler, listed⟩
    exact ⟨_, listed, rfl⟩

/-- No visit is made twice. -/
theorem nodup_visits (grove : m.Grove) (depth : Nat) (f : FiberId) :
    (m.visits depth f).Nodup := by
  induction depth generalizing f with
  | zero => exact .nil
  | succ depth ih =>
      -- what is visited below a child is not the fiber itself
      have away {v : Visit σ} (below : v ∈ (m.childrenOf f).flatMap (m.visits depth)) :
          v.fiber ≠ f := by
        obtain ⟨c, child, listed⟩ := List.mem_flatMap.1 below
        rintro rfl
        exact grove.not_under_parent child (under_of_mem_visits listed)
      have below : ((m.childrenOf f).flatMap (m.visits depth)).Nodup := by
        refine List.nodup_flatMap.2 ⟨fun c _ => ih c, ?_⟩
        refine (grove.nodup f).imp_of_mem fun first second other v left right => other ?_
        exact grove.child_eq_of_under first second (under_of_mem_visits left)
          (under_of_mem_visits right)
      rw [visits, List.nodup_cons, List.nodup_append]
      refine ⟨fun again => ?_, below, ?_, fun u left v right same => ?_⟩
      · rcases List.mem_append.1 again with listed | listed
        · exact away listed rfl
        · simp at listed
      · cases m.gives? f <;> simp
      · obtain ⟨_, -, rfl⟩ := List.mem_map.1 right
        exact away left (by rw [same, Visit.fiber])

/-- Fibers are released before those above them. -/
theorem pairwise_released (grove : m.Grove) (depth : Nat) (f : FiberId) :
    ((m.visits depth f).filterMap Visit.released?).Pairwise fun a b => ¬ m.Under a b := by
  induction depth generalizing f with
  | zero => exact .nil
  | succ depth ih =>
      have under {c a : FiberId} (released : a ∈ (m.visits depth c).filterMap Visit.released?) :
          m.Under c a := by
        obtain ⟨canceler, listed⟩ := mem_released_iff.1 released
        exact under_of_mem_visits listed
      have self : ((m.gives? f).toList.map (Visit.release f)).filterMap Visit.released? =
          (m.gives? f).toList.map fun _ => f := by
        cases m.gives? f <;> rfl
      rw [visits, List.filterMap_cons, List.filterMap_append, self, List.filterMap_flatMap]
      show List.Pairwise _ (_ ++ _)
      rw [List.pairwise_append]
      refine ⟨List.pairwise_flatMap.2 ⟨fun c _ => ih c, ?_⟩, ?_, fun a left b right => ?_⟩
      · refine (grove.nodup f).imp_of_mem fun first second other a left b right below => other ?_
        exact grove.child_eq_of_under first second ((under left).trans below) (under right)
      · cases m.gives? f <;> simp
      · obtain ⟨_, -, rfl⟩ := List.mem_map.1 right
        obtain ⟨c, child, released⟩ := List.mem_flatMap.1 left
        exact fun above => grove.not_under_parent child ((under released).trans above)

/-- Where a later item never goes before an earlier one, the order of two items is known. -/
theorem idxOf_lt_of_pairwise {R : FiberId → FiberId → Prop} {l : List FiberId}
    (ordered : l.Pairwise R) (first : a ∈ l) (second : b ∈ l) (apart : ¬ R b a) (other : a ≠ b) :
    l.idxOf a < l.idxOf b := by
  have left := List.idxOf_lt_length_of_mem first
  have right := List.idxOf_lt_length_of_mem second
  rcases Nat.lt_trichotomy (l.idxOf a) (l.idxOf b) with before | same | later
  · exact before
  · exact absurd (List.idxOf_inj first |>.1 same) other
  · have := List.pairwise_iff_getElem.1 ordered _ _ right left later
    rw [List.getElem_idxOf, List.getElem_idxOf] at this
    exact absurd this apart

end Machine

/-! ## Machines that are in order -/

namespace Coherent

open Machine

variable {m : Machine σ} {φ : Focus} {f g p c : FiberId} {fiber : Fiber σ}

/-- The live children of a fiber are its children that have not ended. -/
theorem mem_childrenOf_iff (coherent : Coherent m.core φ) :
    c ∈ m.childrenOf p ↔ m.Started p c ∧ (m.status c).isTerminal = false := by
  have family := coherent.family
  constructor
  · intro listed
    obtain ⟨fiber, row, child⟩ := mem_childrenOf.1 listed
    have kin : m.core.kin p = some fiber.kin := Table.view_of_row _ row
    obtain ⟨k, kinC, parent, live⟩ := (family.mem_children kin).1 child
    obtain ⟨fiberC, rowC, rfl⟩ := Table.exists_row_of_view kinC
    rw [status_of_row rowC]
    exact ⟨family.born kinC parent, Moment.verdict_eq_none_iff.1 live⟩
  · rintro ⟨started, live⟩
    obtain ⟨k, kinC, parent⟩ := family.birth started
    obtain ⟨fiberC, rowC, rfl⟩ := Table.exists_row_of_view kinC
    obtain ⟨kp, kin⟩ := Option.isSome_iff_exists.1 (family.parent_older kinC parent).2
    obtain ⟨fiber, row, rfl⟩ := Table.exists_row_of_view kin
    rw [status_of_row rowC] at live
    exact mem_childrenOf.2 ⟨fiber, row,
      (family.mem_children kin).2 ⟨_, kinC, parent, Moment.verdict_eq_none_iff.2 live⟩⟩

theorem grove (coherent : Coherent m.core φ) : m.Grove := by
  have family := coherent.family
  have parent {p c : FiberId} (listed : c ∈ m.childrenOf p) :
      ∃ k, m.core.kin c = some k ∧ k.parent = some p :=
    family.birth (coherent.mem_childrenOf_iff.1 listed).1
  refine ⟨fun listed => ?_, fun first second => ?_, fun p => ?_, fun row ended => ?_,
    fun left right => ?_⟩
  · obtain ⟨k, kin, parent⟩ := parent listed
    exact (family.parent_older kin parent).1
  · obtain ⟨k, kin, first⟩ := parent first
    obtain ⟨k', kin', second⟩ := parent second
    obtain rfl := Option.some.inj (kin.symm.trans kin')
    exact Option.some.inj (first.symm.trans second)
  · cases row : m.fiber? p with
    | none => simp [childrenOf, row]
    | some fiber =>
        rw [childrenOf_of_row row]
        exact family.nodup_children (k := fiber.kin) (Table.view_of_row _ row)
  · rename_i fiber
    exact (family.ended_alone (k := fiber.kin) (Table.view_of_row _ row)
      (by simp [Fiber.kin, Fiber.verdict, ended])).1
  · exact Option.some.inj ((coherent.waiting.owner_of_sleeps left).symm.trans
      (coherent.waiting.owner_of_sleeps right))

theorem lt_of_below (coherent : Coherent m.core φ) (below : m.Below f g) : f.raw < g.raw := by
  have older {p c : FiberId} (started : m.Started p c) : p.raw < c.raw := by
    obtain ⟨k, kin, parent⟩ := coherent.family.birth started
    exact (coherent.family.parent_older kin parent).1
  induction below with
  | single started => exact older started
  | tail _ started ih => exact Nat.lt_trans ih (older started)

/-- A fiber that is reached is in the subtree. -/
theorem within_of_under (coherent : Coherent m.core φ) (under : m.Under f g) : m.Within f g := by
  induction under with
  | refl => exact .inl rfl
  | tail _ child ih =>
      have started := (coherent.mem_childrenOf_iff.1 child).1
      rcases ih with rfl | below
      · exact .inr (.single started)
      · exact .inr (below.tail started)

/-- A live fiber that was started below another one is reached from it: nobody on the way has
ended. -/
theorem under_of_below (coherent : Coherent m.core φ) (below : m.Below f g)
    (live : (m.status g).isTerminal = false) : m.Under f g := by
  induction below with
  | single started => exact .single (coherent.mem_childrenOf_iff.2 ⟨started, live⟩)
  | tail _ started ih =>
      rename_i p c _
      have child := coherent.mem_childrenOf_iff.2 ⟨started, live⟩
      obtain ⟨fiber, row, listed⟩ := mem_childrenOf.1 child
      refine (ih ?_).tail child
      rw [status_of_row row]
      by_contra ended
      rw [coherent.grove.ended_alone row (by simpa using ended)] at listed
      cases listed

/-- A fiber that gives up a wait is not in the queue yet. -/
theorem not_ready_of_gives (coherent : Coherent m.core φ) (gives : (m.gives? g).isSome) :
    g ∉ m.ready.toList := by
  intro ready
  obtain ⟨fiber, row, suspended⟩ := suspended_of_gives gives
  have runnable := coherent.agenda.mem_iff.1 (List.mem_append_left φ.waking ready)
  have resting : m.core.task g = some .resting := by
    rw [← task_of_suspended suspended]
    exact Table.view_of_row _ row
  rw [resting] at runnable
  cases runnable

/-- The fibers that are reached. -/
theorem reach_mem_iff (coherent : Coherent m.core φ) :
    .reach g ∈ m.visits (m.fibers.size + 1) f ↔
      g = f ∨ m.Below f g ∧ (m.status g).isTerminal = false := by
  have grove := coherent.grove
  constructor
  · intro listed
    have under : m.Under f g := under_of_mem_visits listed
    rcases Relation.ReflTransGen.cases_tail under with same | ⟨p, -, child⟩
    · exact .inl same
    · have live := (coherent.mem_childrenOf_iff.1 child).2
      exact (coherent.within_of_under under).imp_right fun below => ⟨below, live⟩
  · rintro (rfl | ⟨below, live⟩)
    · exact reach_mem_visits grove (by omega) .refl
    · refine reach_mem_visits grove ?_ (coherent.under_of_below below live)
      obtain ⟨fiber, row⟩ := exists_row_of_live live
      have bound : g.raw < m.fibers.size + 1 := Table.raw_lt_nextId row
      omega

/-- The fibers that are released. -/
theorem release_mem_iff (coherent : Coherent m.core φ) {canceler : Canceler σ} :
    .release g canceler ∈ m.visits (m.fibers.size + 1) f ↔
      m.Within f g ∧ m.gives? g = some canceler := by
  rw [release_mem_visits, coherent.reach_mem_iff]
  exact and_congr_left fun gives => or_congr_right (and_iff_left
    (live_of_gives (Option.isSome_of_eq_some gives)))

/-- An interrupt does what it should in every machine that is in order, also in the middle of an
operation. -/
theorem interrupted (coherent : Coherent m.core φ) (f : FiberId) :
    ∃ V, m.Interrupted f V (m.interrupt f) := by
  have grove := coherent.grove
  have nodup := nodup_visits grove (m.fibers.size + 1) f
  have made : m.interrupt f = m.after (m.visits (m.fibers.size + 1) f) :=
    interruptWithin_after (V := []) grove nodup
  have ordered := pairwise_released grove (m.fibers.size + 1) f
  have walked := walked_after grove nodup
  have reach_iff (g : FiberId) := coherent.reach_mem_iff (f := f) (g := g)
  have release_iff (g : FiberId) (canceler : Canceler σ) :
      .release g canceler ∈ m.visits (m.fibers.size + 1) f ↔
        m.Within f g ∧ m.gives? g = some canceler :=
    coherent.release_mem_iff
  rw [← made] at walked
  generalize m.visits (m.fibers.size + 1) f = V at *
  have listed_iff (g : FiberId) :
      g ∈ V.filterMap Visit.released? ↔ m.Within f g ∧ (m.gives? g).isSome := by
    rw [mem_released_iff]
    simp only [release_iff, exists_and_left, Option.isSome_iff_exists]
  have row {g : FiberId} (inside : m.Within f g) (live : (m.status g).isTerminal = false) :
      (m.interrupt f).fiber? g = (m.fiber? g).map (m.reached g) :=
    walked.reached ((reach_iff g).2 (inside.imp_right fun below => ⟨below, live⟩))
  refine ⟨V, made, nodup, reach_iff, release_iff, fun g inside live => ?_,
    fun g inside gives => ?_, fun g outside => walked.row fun listed => ?_, walked.ready,
    fun g inside gives => ?_, fun d g inside gives below gives' => ?_⟩
  · obtain ⟨fiber, known⟩ := exists_row_of_live live
    rw [isInterrupted, row inside live, known]
    exact interrupted_reached fiber
  · rw [row inside (live_of_gives gives), reached_of_gives gives]
  · exact outside (((reach_iff g).1 listed).imp_right And.left)
  · rw [walked.ready, List.count_append, List.count_eq_zero.2 (coherent.not_ready_of_gives gives),
      List.count_eq_one_of_mem _ ((listed_iff g).2 ⟨inside, gives⟩)]
    refine ordered.imp fun {a b} apart same => apart ?_
    rw [same]
    exact .refl
  · have inside' : m.Within f d :=
      .inr (inside.elim (fun same => same ▸ below) fun above => above.trans below)
    rw [walked.ready, List.idxOf_append_of_notMem (coherent.not_ready_of_gives gives),
      List.idxOf_append_of_notMem (coherent.not_ready_of_gives gives')]
    have under := coherent.under_of_below below (live_of_gives gives')
    have other : d ≠ g := by
      rintro rfl
      exact Nat.lt_irrefl _ (coherent.lt_of_below below)
    exact Nat.add_lt_add_left (idxOf_lt_of_pairwise ordered ((listed_iff d).2 ⟨inside', gives'⟩)
      ((listed_iff g).2 ⟨inside, gives⟩) (fun apart => apart under) other) _

end Coherent

namespace Moment

variable {μ : Moment σ}

/-- The live children of a marked fiber are marked. -/
theorem Reachable.child_marked (reachable : Reachable μ) {p c : FiberId}
    (marked : μ.machine.isInterrupted p) (started : μ.machine.Started p c)
    (live : (μ.machine.status c).isTerminal = false) : μ.machine.isInterrupted c := by
  have coherent : Coherent μ.machine.core _ := reachable.isCoherent
  obtain ⟨fiber, row, listed⟩ :=
    Machine.mem_childrenOf.1 (coherent.mem_childrenOf_iff.2 ⟨started, live⟩)
  have heirs := heirs_of_isCoherent reachable.isCoherent
  have kin : μ.machine.core.kin p = some fiber.kin := Table.view_of_row _ row
  have mark : μ.machine.core.marked p = some true := by
    rw [Machine.isInterrupted, row] at marked
    rw [← show fiber.interrupted = true from marked]
    exact Table.view_of_row _ row
  obtain ⟨child, rowC, markC⟩ := Table.exists_row_of_view (heirs kin mark (by simp) listed)
  rw [Machine.isInterrupted, show μ.machine.fiber? c = some child from rowC]
  exact markC

/-- At every moment the live children of a marked fiber are marked.  An interrupt that comes in
between two operations does what it should, and so does one that is made in the middle of an
operation, where the machine is in order as well. -/
theorem Reachable.interrupts_reach_down (reachable : Reachable μ) :
    (∀ p c, μ.machine.isInterrupted p → μ.machine.Started p c →
      (μ.machine.status c).isTerminal = false → μ.machine.isInterrupted c) ∧
    (∀ f, ∃ V, μ.machine.Interrupted f V (μ.machine.interrupt f)) ∧
    ∀ (m : Machine σ) (φ : Focus), Coherent m.core φ → ∀ f, ∃ V, m.Interrupted f V (m.interrupt f) :=
  ⟨fun _ _ marked started live => reachable.child_marked marked started live,
    fun f => Coherent.interrupted reachable.isCoherent f,
    fun _ _ coherent f => coherent.interrupted f⟩

/-! ## A sleeper with a child that sleeps -/

/-- A program that starts a child and sleeps, as the child does. -/
def sleepTogether : Node Unit :=
  .flatMap (.fork (.sleep (.ofSecs 1))) fun _ => (pure (.sleep (.ofSecs 1)) : Action _ _)

/-- The moment at which both of them are asleep, and further events. -/
def bothAsleep (events : List (Event Unit)) : Moment Unit :=
  (initial { host := () } 10).run (.start sleepTogether :: List.replicate 12 .work ++ events)

theorem reachable_bothAsleep (events : List (Event Unit)) : Reachable (bothAsleep events) :=
  (Reachable.initial _ _).run _

/-- Both give up their sleep, the child first, and the child is marked at the next moment. -/
theorem sleepers_are_interrupted_child_first :
    ((bothAsleep []).machine.gives? ⟨1⟩).isSome ∧ ((bothAsleep []).machine.gives? ⟨2⟩).isSome ∧
      ((bothAsleep []).machine.interrupt ⟨1⟩).ready.toList = [⟨2⟩, ⟨1⟩] ∧
      (∃ V, (bothAsleep []).machine.Interrupted ⟨1⟩ V ((bothAsleep []).machine.interrupt ⟨1⟩)) ∧
      (bothAsleep [.request (.interrupt ⟨1⟩)]).machine.isInterrupted ⟨2⟩ := by
  refine ⟨by decide, by decide, by decide,
    (reachable_bothAsleep []).interrupts_reach_down.2.1 ⟨1⟩, ?_⟩
  exact (reachable_bothAsleep [.request (.interrupt ⟨1⟩)]).interrupts_reach_down.1 ⟨1⟩ ⟨2⟩
    (by decide) (by unfold Machine.Started; decide) (by decide)

end Moment

end EffectFibers
