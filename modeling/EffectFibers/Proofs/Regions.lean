import EffectFibers.Proofs.Changes.Moment
import EffectFibers.Proofs.Veil.Moment

/-!
# Interrupts that reach an uninterruptible region

An interrupt of a fiber with an open uninterruptible region only marks the fiber: its wait goes on,
and what is left of its program stays as it is.  But the interrupt goes on to the fibers below,
which are not shielded by the region, and a child that the region starts later on is marked as well.
So a region keeps its own interrupts back exactly as long as it has no children.  If it never has
any, it hands on the exit that it would have had without the interrupt.

## Main definitions

* `Moment.handed` – the exit that a region hands to what comes after it.

## Main statements

* `Moment.Reachable.region_defers_iff` – when a region defers an interrupt, and what follows.
-/

namespace EffectFibers

variable {σ : Type}

namespace Machine

variable {m : Machine σ} {f c : FiberId} {fiber : Fiber σ}

/-- Children are younger than their parents. -/
def ChildrenYounger (m : Machine σ) : Prop :=
  ∀ ⦃p k c⦄, m.core.kin p = some k → c ∈ k.children → p.raw < c.raw

/-! ## What an interrupt leaves alone -/

theorem ChildrenYounger.of_calm {m' : Machine σ} (younger : m.ChildrenYounger)
    (calm : Coherent.Calm m.core m'.core) : m'.ChildrenYounger := by
  unfold ChildrenYounger
  rw [calm.kin]
  exact younger

/-- What one interrupt leaves alone, several of them do. -/
theorem fiber?_foldl_interruptWithin {depth : Nat}
    (one : ∀ {n : Machine σ} {d : FiberId}, n.ChildrenYounger → f.raw < d.raw →
      (n.interruptWithin depth d).fiber? f = n.fiber? f)
    (younger : m.ChildrenYounger) {children : List FiberId}
    (older : ∀ d ∈ children, f.raw < d.raw) :
    (children.foldl (interruptWithin depth) m).fiber? f = m.fiber? f := by
  induction children generalizing m with
  | nil => rfl
  | cons d children ih =>
      rw [List.foldl_cons, ih (younger.of_calm (Coherent.calm_interruptWithin depth m d))
        fun e listed => older e (by simp [listed])]
      exact one younger (older d (by simp))

/-- An interrupt changes no row of an older fiber. -/
theorem fiber?_interruptWithin (depth : Nat) (younger : m.ChildrenYounger)
    (older : f.raw < c.raw) : (m.interruptWithin depth c).fiber? f = m.fiber? f := by
  induction depth generalizing m c with
  | zero => rfl
  | succ depth ih =>
      have other : f ≠ c := by
        rintro rfl
        exact Nat.lt_irrefl _ older
      have marked : (m.mark c).fiber? f = m.fiber? f := by
        rw [fiber?, mark, modifyFiber, Table.get?_modify, if_neg (Ne.symm other)]
        rfl
      have younger := younger.of_calm (Coherent.calm_mark m c)
      unfold interruptWithin
      simp only
      split
      · exact marked
      rename_i fiber row
      split
      · exact marked
      have kin : (m.mark c).core.kin c = some fiber.kin := Table.view_of_row _ row
      have older' : ∀ d ∈ fiber.children, f.raw < d.raw := fun d listed =>
        Nat.lt_trans older (younger kin listed)
      have broken := fiber?_breakWait other (m.mark c) fiber
      have younger := younger.of_calm (Coherent.calm_breakWait row)
      generalize (m.mark c).breakWait c fiber = result at broken younger ⊢
      obtain ⟨canceler, m'⟩ := result
      have below : (fiber.children.foldl (interruptWithin depth)
          (m'.trace (.interrupting c fiber.children.length))).fiber? f = m.fiber? f := by
        rw [fiber?_foldl_interruptWithin (fun younger older => ih younger older) ?_ older']
        · exact broken.trans marked
        · unfold ChildrenYounger
          rw [core_trace_of_quiet _ rfl rfl]
          exact younger
      cases canceler with
      | none => exact below
      | some canceler =>
          have fibers := congrArg Core.fibers (Coherent.core_runCanceler (fiber.children.foldl
            (interruptWithin depth) (m'.trace (.interrupting c fiber.children.length))) c canceler)
          rw [← below]
          exact congrArg (fun t : Table .fiber (Fiber σ) => t.get? f) fibers

/-- A mark by itself takes no fiber out of its wait. -/
theorem breakWait_mark (shielded : fiber.breakable? = none) :
    (m.mark f).breakWait f fiber.marked = (none, m.mark f) := by
  rw [breakWait, show fiber.marked.breakable? = none from shielded]

/-- A fiber that cannot be taken out of its wait is only marked. -/
theorem fiber?_interrupt (younger : m.ChildrenYounger) (row : m.fiber? f = some fiber)
    (shielded : fiber.breakable? = none) : (m.interrupt f).fiber? f = some fiber.marked := by
  have marked := row_of_mark row
  have kin : m.core.kin f = some fiber.kin := Table.view_of_row _ row
  have older : ∀ d ∈ fiber.marked.children, f.raw < d.raw := fun d listed => younger kin listed
  unfold interrupt interruptWithin
  simp only [marked]
  split
  · exact marked
  simp only [breakWait_mark shielded]
  rw [fiber?_foldl_interruptWithin (fun younger older => fiber?_interruptWithin _ younger older)
    ?_ older]
  · exact marked
  · unfold ChildrenYounger
    rw [core_trace_of_quiet _ rfl rfl]
    exact younger.of_calm (Coherent.calm_mark m f)

/-! ## What an interrupt leaves on the worker -/

/-- An interrupt of a fiber without children that is not taken out of its wait leaves nothing but
its mark and a line of the record. -/
theorem veiled_interrupt (row : m.fiber? f = some fiber) (shielded : fiber.breakable? = none)
    (childless : fiber.children = []) : Veiled f (m.interrupt f) m := by
  have marked := row_of_mark row
  have plain : Veiled f (m.mark f) m := by
    refine ⟨?_, rfl, rfl, fiber.marked, marked, childless, rfl⟩
    refine Table.ext_get? (by simp [mark, modifyFiber]) fun k => ?_
    simp only [mark, modifyFiber, Table.get?_modify]
    split
    · rw [Option.map_map]
      rfl
    · rfl
  unfold interrupt interruptWithin
  simp only [marked]
  split
  · exact plain
  simp only [breakWait_mark shielded, show fiber.marked.children = [] from childless, List.foldl_nil]
  refine ⟨plain.fibers, ?_, rfl, plain.lone⟩
  show hush f m.record = hush f (m.record.push _)
  simp [hush, Entry.tellsOf]

end Machine

namespace Moment

variable {μ : Moment σ} {f : FiberId}

/-- The exit that a region or a finalizer hands to what comes after it. -/
def handed (μ : Moment σ) (f : FiberId) : Option Exit :=
  match μ.taken, μ.runOf f with
  | none, some ⟨.done exit, .regionEnd :: _, _, _, _⟩ => some exit
  | none, some ⟨.done exit, .finalizing _ :: _, _, _, _⟩ => some exit
  | _, _ => none

theorem childrenYounger_of_isCoherent {promise kept : Option (FiberId × Exit)}
    (coherent : IsCoherent μ promise kept) : μ.machine.ChildrenYounger := by
  intro p k c row listed
  have family := family_of_isCoherent coherent
  obtain ⟨kc, rowC, child, -⟩ := (family.mem_children row).1 listed
  exact (family.parent_older rowC child).1

/-- A fiber with an open region has a row, and no interrupt takes it out of its wait. -/
theorem row_of_shield (coherent : IsCoherent μ none none) (shielded : 0 < μ.shield f) :
    ∃ fiber, μ.machine.fiber? f = some fiber ∧ fiber.breakable? = none := by
  unfold shield runOf at shielded
  split at shielded
  · rename_i slice own
    rw [Option.filter_eq_some_iff] at own
    obtain ⟨held, own⟩ := own
    have held' : μ.held = some f := by
      rw [held_eq, held]
      exact congrArg some (of_decide_eq_true own)
    obtain ⟨fiber, row, working⟩ :=
      Table.exists_row_of_view ((agenda_of_isCoherent coherent).held_works held')
    obtain ⟨running, -⟩ := Fiber.task_eq_working_iff.1 working
    exact ⟨fiber, row, by simp [Fiber.breakable?, running]⟩
  · cases row : μ.machine.fiber? f with
    | none => simp [row] at shielded
    | some fiber =>
        cases saved : fiber.run with
        | none => simp [row, saved] at shielded
        | some run =>
            simp only [row, Option.bind_some, saved, Option.map_some, Option.getD_some]
              at shielded
            refine ⟨fiber, rfl, ?_⟩
            unfold Fiber.breakable?
            split
            · rename_i saved'
              obtain rfl := Option.some.inj (saved.symm.trans saved')
              rw [if_neg (Nat.ne_of_gt shielded)]
            · rfl

/-- From its mark on, all children of a fiber are marked, the later ones as well. -/
theorem Reachable.children_marked (reachable : Reachable μ)
    (marked : μ.machine.isInterrupted f = true) (events : List (Event σ)) :
    μ.Through (fun κ => ∀ c ∈ κ.children f, κ.machine.isInterrupted c = true) events := by
  have now : ∀ {κ : Moment σ}, Reachable κ → κ.machine.isInterrupted f = true →
      ∀ c ∈ κ.children f, κ.machine.isInterrupted c = true := by
    intro κ reachable marked c listed
    cases row : κ.machine.fiber? f with
    | none => simp [children, row] at listed
    | some fiber =>
        have mark : fiber.interrupted = true := by simpa [Machine.isInterrupted, row] using marked
        rw [children, row] at listed
        exact isInterrupted_of_child reachable.isCoherent row mark listed
  induction events generalizing μ with
  | nil => exact now reachable marked
  | cons event events ih =>
      exact ⟨now reachable marked,
        ih (reachable.apply event) (reachable.stays_marked marked [event])⟩

/-- An interrupt that reaches a fiber while a region of it is open only marks the fiber, and neither
gives it an exit nor touches what is left of its program.  But from then on every child of the
fiber is marked.  So the interrupt spares the children that the region waits for, and the exit that
it hands on, exactly if there are no children from the interrupt until the region ends.  Then all
goes on as it would have done without the interrupt, but for the mark and what the record tells
of it. -/
theorem Reachable.region_defers_iff (reachable : Reachable μ) {events : List (Event σ)}
    (region : μ.Through (fun κ => 0 < κ.shield f) (.request (.interrupt f) :: events)) :
    let ν := μ.apply (.request (.interrupt f))
    (ν.machine.fiber? f = (μ.machine.fiber? f).map Fiber.marked ∧ ν.runOf f = μ.runOf f) ∧
    ν.Through (fun κ => ∀ c ∈ κ.children f, κ.machine.isInterrupted c = true) events ∧
    (ν.Through (fun κ => ∀ c ∈ κ.children f, κ.machine.isInterrupted c = false) events ∧
      (ν.run events).handed f = (μ.run events).handed f ↔
        ν.Through (fun κ => κ.children f = []) events) ∧
    (ν.Through (fun κ => κ.children f = []) events →
      (ν.run events).machine.veil f = (μ.run events).machine.veil f ∧
      (ν.run events).runOf f = (μ.run events).runOf f) := by
  intro ν
  have coherent := reachable.isCoherent
  have reachable' : Reachable ν := reachable.apply _
  obtain ⟨fiber, row, shielded⟩ := row_of_shield coherent region.1
  have row' : ν.machine.fiber? f = some fiber.marked :=
    Machine.fiber?_interrupt (childrenYounger_of_isCoherent coherent) row shielded
  have runOf : ν.runOf f = μ.runOf f := by
    have slice : ν.slice? = μ.slice? := by
      unfold slice?
      have marks : Evolves none false μ.machine ν.machine := Evolves.interrupt _ f
      rw [marks.running]
      rfl
    rw [Moment.runOf, Moment.runOf, slice, row', row]
    rfl
  have marked : ν.machine.isInterrupted f = true := by
    rw [Machine.isInterrupted, row']
    rfl
  have all := reachable'.children_marked marked events
  -- as long as there are no children, the two runs stay the same under the veil
  have same : ν.Through (fun κ => κ.children f = []) events →
      Veiled f (ν.run events) (μ.run events) := by
    intro childless
    have first : fiber.children = [] := by
      have none := childless.head
      rwa [children, row'] at none
    have veiled : Veiled f ν μ := ⟨rfl, Machine.veiled_interrupt row shielded first⟩
    exact veiled.run reachable'.isCoherent region.2 childless
  refine ⟨⟨by rw [row', row]; rfl, runOf⟩, all, ⟨fun unseen => ?_, fun childless => ?_⟩,
    fun childless => ?_⟩
  · refine (all.and unseen.1).mono fun κ both => List.eq_nil_iff_forall_not_mem.2 fun c listed => ?_
    have marked := both.1 c listed
    rw [both.2 c listed] at marked
    cases marked
  · have after := same childless
    refine ⟨childless.mono fun κ none c listed => ?_, ?_⟩
    · rw [none] at listed
      cases listed
    · rw [handed, handed, after.runOf_eq, after.taken]
  · have after := same childless
    exact ⟨after.machine.veil_eq.symm, (after.runOf_eq f).symm⟩

/-! ## A region with and without children -/

/-- A wait that is answered at once. -/
def quickAnswer : Node Unit := .async fun w => (do
  Action.request (.resume w (.ok .null))
  return none : Action Unit (Option (Cleanup Unit)))

/-- An uninterruptible region after some operations of the worker. -/
def regionAfter (works : Nat) (body : Node Unit) : Moment Unit :=
  (initial { host := () } 2048).run
    (.start (.uninterruptible body) :: List.replicate works .work)

theorem reachable_regionAfter (works : Nat) (body : Node Unit) :
    Reachable (regionAfter works body) :=
  (Reachable.initial _ _).run _

/-- A region that only waits hands on the answer, interrupted or not. -/
theorem quiet_region_hands_on_its_answer :
    let μ := regionAfter 2 quickAnswer
    let events : List (Event Unit) := List.replicate 3 .work
    μ.Through (fun κ => 0 < κ.shield ⟨1⟩) (.request (.interrupt ⟨1⟩) :: events) ∧
      ((μ.apply (.request (.interrupt ⟨1⟩))).run events).handed ⟨1⟩ = some (.ok .null) := by
  intro μ events
  have region : μ.Through (fun κ => 0 < κ.shield ⟨1⟩) (.request (.interrupt ⟨1⟩) :: events) := by
    decide
  obtain ⟨-, -, spared, -⟩ := (reachable_regionAfter 2 quickAnswer).region_defers_iff region
  obtain ⟨-, handed⟩ := spared.2 (by decide)
  exact ⟨region, handed.trans rfl⟩

/-- A region that runs a race does not keep an interrupt back: the child is marked although the
region is open, and the region hands on an interrupt in place of the answer of the child. -/
theorem race_region_hands_on_the_interrupt :
    let μ := regionAfter 5 (.race [quickAnswer])
    let ν := μ.apply (.request (.interrupt ⟨1⟩))
    let events : List (Event Unit) := List.replicate 6 .work
    Reachable μ ∧
      μ.Through (fun κ => 0 < κ.shield ⟨1⟩) (.request (.interrupt ⟨1⟩) :: events) ∧
      ν.children ⟨1⟩ = [⟨2⟩] ∧ ν.machine.isInterrupted ⟨2⟩ = true ∧
      (μ.run events).handed ⟨1⟩ = some (.ok .null) ∧
      (ν.run events).handed ⟨1⟩ = some .interrupted := by
  refine ⟨reachable_regionAfter 5 _, by decide, rfl, rfl, rfl, rfl⟩

end Moment

end EffectFibers
