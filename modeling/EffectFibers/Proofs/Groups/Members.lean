import EffectFibers.Machine.Eval
import EffectFibers.Proofs.Changes.Spares

/-!
# The members of a group

The members of a group are made one after the other, in the order of their nodes and with the places
that go with these.  Fibers are numbered as they are made, so the order of the members is that of
their numbers.  Nobody else notices, but for the parent, which has more children.

## Main definitions

* `Machine.newMembers` – the members that are made, in order.
* `Fiber.Starts` – a fiber that is about to evaluate its node.
* `Gathering.filled`, `Gathering.next` – a group with further members, and these members.
* `Machine.Fills` – many effects at once after as many as possible were started.

## Main statements

* `Machine.fiber?_spawnMembers` – every new member starts with its node.
* `Machine.fill_eq`, `Machine.startRace_eq` – the machine after members were made.
* `Machine.keepsGroups_evalNode` – groups are not touched by fibers that start others.
-/

namespace EffectFibers

variable {σ : Type}

/-- A member of a group that is about to evaluate its node. -/
structure Fiber.Starts (fiber : Fiber σ) (p : FiberId) (g : GroupId) (i : Nat) (node : Node σ)
    (context : Context Value) : Prop where
  parent : fiber.parent = some p
  reader : fiber.reader = .group g i
  run : fiber.run = some { next := .eval node, context }
  status : fiber.status = .running

/-- A group after as many of its children were started as there is room for. -/
def Gathering.filled (all : Gathering σ) (children : List (Nat × FiberId)) : Gathering σ :=
  { all with
    queue := all.queue.drop (all.limit - all.running.length)
    running := all.running ++ children }

namespace Machine

/-- The members that are made when there are so many fibers, with their places. -/
def newMembers : Nat → List (Nat × Node σ) → List (Nat × FiberId)
  | _, [] => []
  | size, (i, _) :: nodes => (i, ⟨size + 1⟩) :: newMembers (size + 1) nodes

theorem getElem?_newMembers (size : Nat) (nodes : List (Nat × Node σ)) (k : Nat) :
    (newMembers size nodes)[k]? = nodes[k]?.map fun node => (node.1, ⟨size + 1 + k⟩) := by
  induction nodes generalizing size k with
  | nil => rfl
  | cons node nodes ih =>
      cases k with
      | zero => rfl
      | succ k =>
          have shift : size + 1 + (k + 1) = size + 1 + 1 + k := by omega
          rw [shift]
          exact ih (size + 1) k

theorem getElem?_numbered (nodes : List (Node σ)) (i : Nat) :
    (numbered nodes)[i]? = nodes[i]?.map (i, ·) := by
  simp [numbered]

@[simp] theorem length_newMembers (size : Nat) (nodes : List (Nat × Node σ)) :
    (newMembers size nodes).length = nodes.length := by
  induction nodes generalizing size with
  | nil => rfl
  | cons node nodes ih => rw [newMembers, List.length_cons, List.length_cons, ih]

theorem lt_of_mem_newMembers {size : Nat} {nodes : List (Nat × Node σ)} {child : Nat × FiberId}
    (new : child ∈ newMembers size nodes) : size < child.2.raw := by
  obtain ⟨k, listed⟩ := List.mem_iff_getElem?.1 new
  rw [getElem?_newMembers] at listed
  obtain ⟨node, -, rfl⟩ := Option.map_eq_some_iff.1 listed
  show size < size + 1 + k
  omega

/-- The numbers of the members go up. -/
theorem pairwise_newMembers (size : Nat) (nodes : List (Nat × Node σ)) :
    ((newMembers size nodes).map (·.2)).Pairwise (·.raw < ·.raw) := by
  induction nodes generalizing size with
  | nil => exact .nil
  | cons node nodes ih =>
      refine .cons (fun c later => ?_) (ih (size + 1))
      obtain ⟨child, new, rfl⟩ := List.mem_map.1 later
      exact lt_of_mem_newMembers new

end Machine

/-- The children that start next when there are so many fibers, with their places. -/
def Gathering.next (all : Gathering σ) (size : Nat) : List (Nat × FiberId) :=
  Machine.newMembers size (all.queue.take (all.limit - all.running.length))

namespace Machine

variable {m m' m'' : Machine σ} {p f : FiberId} {g : GroupId} {context : Context Value}
  {nodes : List (Nat × Node σ)} {k i : Nat} {node : Node σ} {fiber : Fiber σ}

/-! ## One child -/

theorem size_spawnChild (m : Machine σ) (p : FiberId) (node : Node σ) (context : Context Value)
    (reader : ExitReader) :
    (m.spawnChild p node context reader).2.fibers.size = m.fibers.size + 1 := by
  simp [spawnChild, trace, write, modifyFiber]

/-- The row of a fiber after somebody has got a child. -/
theorem fiber?_spawnChild_old (row : m.fiber? f = some fiber) (p : FiberId) (node : Node σ)
    (context : Context Value) (reader : ExitReader) : ∃ children,
    (m.spawnChild p node context reader).2.fiber? f = some { fiber with children } := by
  have old : ∀ child : Fiber σ, (m.fibers.push child).get? f = some fiber :=
    fun child => Table.get?_push_of_some child row
  simp only [spawnChild, trace, write, modifyFiber, fiber?, Table.get?_modify, old]
  split
  · exact ⟨_, rfl⟩
  · exact ⟨fiber.children, rfl⟩

/-- The row of the child. -/
theorem fiber?_spawnChild_new (m : Machine σ) (p : FiberId) (node : Node σ)
    (context : Context Value) (g : GroupId) (i : Nat) : ∃ child,
    (m.spawnChild p node context (.group g i)).2.fiber? ⟨m.fibers.size + 1⟩ = some child ∧
      child.Starts p g i node context ∧ child.interrupted = m.isInterrupted p := by
  have new : ∀ child : Fiber σ, (m.fibers.push child).get? ⟨m.fibers.size + 1⟩ = some child :=
    fun child => Table.get?_push_self m.fibers child
  simp only [spawnChild, trace, write, modifyFiber, fiber?, Table.get?_modify, new]
  split
  · exact ⟨_, rfl, ⟨rfl, rfl, rfl, rfl⟩, rfl⟩
  · exact ⟨_, rfl, ⟨rfl, rfl, rfl, rfl⟩, rfl⟩

/-! ## All members -/

section

variable (m) (p) (context) (g) (nodes)

/-- The first member is made before the others. -/
theorem spawnMembers_cons (i : Nat) (node : Node σ) :
    m.spawnMembers p context g ((i, node) :: nodes) =
      (((i, ⟨m.fibers.size + 1⟩) ::
        ((m.spawnChild p node context (.group g i)).2.spawnMembers p context g nodes).1),
        ((m.spawnChild p node context (.group g i)).2.spawnMembers p context g nodes).2) := rfl

theorem spawnMembers_fst :
    (m.spawnMembers p context g nodes).1 = newMembers m.fibers.size nodes := by
  induction nodes generalizing m with
  | nil => rfl
  | cons node nodes ih =>
      obtain ⟨i, node⟩ := node
      rw [spawnMembers_cons, ih, size_spawnChild]
      rfl

end

/-- The row of a fiber that there was before. -/
theorem fiber?_spawnMembers_old (row : m.fiber? f = some fiber) (p : FiberId)
    (context : Context Value) (g : GroupId) (nodes : List (Nat × Node σ)) : ∃ children,
    (m.spawnMembers p context g nodes).2.fiber? f = some { fiber with children } := by
  induction nodes generalizing m fiber with
  | nil => exact ⟨fiber.children, row⟩
  | cons node nodes ih =>
      obtain ⟨i, node⟩ := node
      obtain ⟨children, first⟩ := fiber?_spawnChild_old row p node context (.group g i)
      obtain ⟨more, after⟩ := ih first
      exact ⟨more, after⟩

/-- Every member starts with its node, and with the mark of its parent. -/
theorem fiber?_spawnMembers (known : (m.fiber? p).isSome) (listed : nodes[k]? = some (i, node)) :
    ∃ child, (m.spawnMembers p context g nodes).2.fiber? ⟨m.fibers.size + 1 + k⟩ = some child ∧
      child.Starts p g i node context ∧ child.interrupted = m.isInterrupted p := by
  induction nodes generalizing m k with
  | nil => cases listed
  | cons first nodes ih =>
      obtain ⟨j, first⟩ := first
      obtain ⟨parent, row⟩ := Option.isSome_iff_exists.1 known
      obtain ⟨children, row'⟩ := fiber?_spawnChild_old row p first context (.group g j)
      rw [spawnMembers_cons]
      cases k with
      | zero =>
          obtain ⟨rfl, rfl⟩ := Prod.mk.inj (Option.some.inj listed)
          obtain ⟨child, born, starts, mark⟩ := m.fiber?_spawnChild_new p first context g j
          obtain ⟨more, born'⟩ := fiber?_spawnMembers_old born p context g nodes
          exact ⟨_, born', ⟨starts.parent, starts.reader, starts.run, starts.status⟩, mark⟩
      | succ k =>
          have rest := ih (Option.isSome_iff_exists.2 ⟨_, row'⟩) listed
          rw [size_spawnChild] at rest
          obtain ⟨child, born, starts, mark⟩ := rest
          refine ⟨child, ?_, starts, mark.trans ?_⟩
          · rw [show m.fibers.size + 1 + (k + 1) = m.fibers.size + 1 + 1 + k by omega]
            exact born
          · rw [isInterrupted, isInterrupted, row', row]
            rfl

/-! ## Starting members -/

/-- As many children start as there is room for. -/
theorem fill_eq {all : Gathering σ} (calm : all.failure = none) :
    m.fill g all =
      let started := m.spawnMembers all.parent all.context g
        (all.queue.take (all.limit - all.running.length))
      (started.2.setGroup g (.all (all.filled started.1))).enqueueAll (started.1.map (·.2)) := by
  unfold fill
  rw [if_neg (by simp [calm])]
  rfl

/-- Many effects at once after as many children were started as there is room for: each of these is
new, and is about to evaluate its node. -/
structure Fills (m : Machine σ) (g : GroupId) (all : Gathering σ) (size : Nat) (m' : Machine σ) :
    Prop where
  old : m.fibers.size ≤ size
  row : m'.groups.get? g = some (.all (all.filled (all.next size)))
  born : ∀ (k : Nat) child, (all.next size)[k]? = some child → ∃ node fiber,
    all.queue[k]? = some (child.1, node) ∧ m'.fiber? child.2 = some fiber ∧
      fiber.Starts all.parent g child.1 node all.context

theorem fills_of_nothing {all : Gathering σ} (nothing : all.queue = [])
    (row : m'.groups.get? g = some (.all all)) : m.Fills g all m.fibers.size m' := by
  have none : all.next m.fibers.size = [] := by rw [Gathering.next, nothing, List.take_nil]; rfl
  have same : all.filled [] = all := by
    rw [Gathering.filled, nothing, List.drop_nil, List.append_nil, ← nothing]
  refine ⟨Nat.le_refl _, ?_, fun k child listed => ?_⟩
  · rw [none, same]
    exact row
  · rw [none] at listed
    cases listed

/-- Starting children. -/
theorem fills_fill {all : Gathering σ} (calm : all.failure = none) {group : Group σ}
    (known : m.groups.get? g = some group) (there : (m.fiber? all.parent).isSome) :
    m.Fills g all m.fibers.size (m.fill g all) := by
  let nodes := all.queue.take (all.limit - all.running.length)
  let started := m.spawnMembers all.parent all.context g nodes
  have made : started.1 = all.next m.fibers.size := spawnMembers_fst ..
  have filled : m.fill g all =
      (started.2.setGroup g (.all (all.filled started.1))).enqueueAll (started.1.map (·.2)) :=
    fill_eq calm
  refine ⟨Nat.le_refl _, ?_, fun k child listed => ?_⟩
  · have row : started.2.groups.get? g = some group := by
      rw [(m.spares_spawnMembers _ _ _ _).groups]
      exact known
    have written : (started.2.setGroup g (.all (all.filled started.1))).groups.get? g =
        some (.all (all.filled started.1)) := by
      rw [setGroup, Table.get?_modify, if_pos rfl, row]
      rfl
    rw [filled, (spares_enqueueAll _ _).groups, written, made]
  · rw [Gathering.next, getElem?_newMembers] at listed
    obtain ⟨⟨i, node⟩, queued, rfl⟩ := Option.map_eq_some_iff.1 listed
    obtain ⟨fiber, born, starts, -⟩ : ∃ fiber,
        started.2.fiber? ⟨m.fibers.size + 1 + k⟩ = some fiber ∧
          fiber.Starts all.parent g i node all.context ∧ _ := fiber?_spawnMembers there queued
    refine ⟨node, fiber, ?_, ?_, starts⟩
    · rw [List.getElem?_take] at queued
      split at queued
      · exact queued
      · cases queued
    · rw [filled, fiber?, fibers_enqueueAll]
      exact born

/-- After a failure no more children start. -/
theorem fill_of_failure {all : Gathering σ} (failed : all.failure ≠ none) : m.fill g all = m := by
  unfold fill
  rw [if_pos (Option.isSome_iff_ne_none.2 failed)]

/-- All children of a race start at once. -/
theorem startRace_eq (m : Machine σ) (p : FiberId) (context : Context Value)
    (nodes : List (Node σ)) :
    m.startRace p context nodes =
      let race : Race := { parent := p, members := [], remaining := nodes.length }
      let opened := { m with groups := m.groups.push (.race race) }
      let started := opened.spawnMembers p context m.groups.nextId (numbered nodes)
      let members := started.1.map (·.2)
      (m.groups.nextId,
        (started.2.setGroup m.groups.nextId (.race { race with members })).enqueueAll members) := rfl

/-! ## Other groups -/

/-- What is known about the groups that there are stays the same. -/
def KeepsGroups (m m' : Machine σ) : Prop :=
  ∀ ⦃g group⦄, m.groups.get? g = some group → m'.groups.get? g = some group

namespace KeepsGroups

theorem of_eq (same : m'.groups = m.groups) : m.KeepsGroups m' := fun _ _ row => same ▸ row

theorem trans (first : m.KeepsGroups m') (second : m'.KeepsGroups m'') : m.KeepsGroups m'' :=
  fun _ _ row => second (first row)

end KeepsGroups

/-- A change to a group that is new. -/
theorem keepsGroups_setGroup (fresh : m.groups.get? g = none) (kept : m.KeepsGroups m')
    (group : Group σ) : m.KeepsGroups (m'.setGroup g group) := by
  intro k before row
  have other : g ≠ k := by
    rintro rfl
    cases fresh.symm.trans row
  have stays := kept row
  rw [setGroup, Table.get?_modify, if_neg other]
  exact stays

theorem keepsGroups_fill (fresh : m.groups.get? g = none) (kept : m.KeepsGroups m')
    (all : Gathering σ) : m.KeepsGroups (m'.fill g all) := by
  by_cases calm : all.failure = none
  · rw [fill_eq calm]
    have born := (m'.spares_spawnMembers all.parent all.context g
      (all.queue.take (all.limit - all.running.length))).groups
    have filled := keepsGroups_setGroup fresh (kept.trans (.of_eq born))
    exact (filled _).trans (.of_eq (spares_enqueueAll _ _).groups)
  · rw [fill_of_failure calm]
    exact kept

/-- A fiber starts many effects at once. -/
theorem keepsGroups_startAll (m : Machine σ) (p : FiberId) (context : Context Value)
    (nodes : List (Node σ)) (options : AllOptions) :
    m.KeepsGroups (m.startAll p context nodes options).2 :=
  keepsGroups_fill (Table.get?_nextId _) (fun _ _ row => Table.get?_push_of_some _ row) _

/-- A fiber starts a race. -/
theorem keepsGroups_startRace (m : Machine σ) (p : FiberId) (context : Context Value)
    (nodes : List (Node σ)) : m.KeepsGroups (m.startRace p context nodes).2 := by
  rw [startRace_eq]
  let race : Race := { parent := p, members := [], remaining := nodes.length }
  let opened := { m with groups := m.groups.push (.race race) }
  have pushed : m.KeepsGroups opened := fun _ _ row => Table.get?_push_of_some _ row
  have born := (opened.spares_spawnMembers p context m.groups.nextId (numbered nodes)).groups
  have raced := keepsGroups_setGroup (Table.get?_nextId _) (pushed.trans (.of_eq born))
  exact (raced _).trans (.of_eq (spares_enqueueAll _ _).groups)

end Machine

end EffectFibers
