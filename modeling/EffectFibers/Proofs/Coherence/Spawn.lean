import EffectFibers.Proofs.Coherence.Answer

/-!
# Starting fibers keeps a machine coherent

A new fiber can go on but is not queued yet.  A fiber may have children as long as its own program
has not ended.  Members of a group are made one after the other; what is known about them
afterwards is all that their group has to note.

## Main definitions

* `Fertile` – a fiber that may have children.
* `Made` – members of a group that were made.

## Main statements

* `Coherent.spawnChild` – a new child of a fertile fiber.
* `Coherent.spawnMembers` – new members of a group that is being formed.
-/

namespace EffectFibers

variable {σ : Type}

/-- A fiber whose program has not ended. -/
def Fertile (κ : Core σ) (p : FiberId) : Prop :=
  ∃ fiber, κ.fibers.get? p = some fiber ∧ fiber.verdict = none ∧ fiber.closing = none

/-- A fiber that a new member of a group tells its exit, while its group is being formed. -/
def Hosts (κ : Core σ) (φ : Focus) (p : FiberId) (g : GroupId) : Prop :=
  φ.forming = some g ∧ ∃ G, κ.groups.get? g = some G ∧ G.parent = p ∧
    (κ.awaits p = some g ∨ (φ.held = some p ∧ φ.opening = some g))

/-- A child that was just made. -/
def newborn (p : FiberId) (scope : ScopeId) (interrupted : Bool) (node : Node σ)
    (context : Context Value) (reader : ExitReader) : Fiber σ where
  parent := some p
  scope := scope
  interrupted := interrupted
  reader := reader
  run := some { next := .eval node, context }

/-- A fiber with one more child. -/
def adopting (child : FiberId) (fiber : Fiber σ) : Fiber σ :=
  { fiber with children := fiber.children ++ [child] }

/-- A core with one more child of a fiber. -/
def Core.adopt (κ : Core σ) (p : FiberId) (child : Fiber σ) : Core σ :=
  { κ with
    fibers := (κ.fibers.push child).modify p (adopting κ.fibers.nextId)
    births := κ.births ++ [(κ.fibers.nextId, p)] }

/-- The members of a group that were made between two states. -/
structure Made (before after : Core σ) (g : GroupId) (members : List (Nat × FiberId)) : Prop where
  nodup : (members.map (·.2)).Nodup
  fresh : ∀ {i c}, (i, c) ∈ members → before.place c = none ∧ before.live c = none
  place : ∀ {c k i}, after.place c = some (k, i) ↔
    before.place c = some (k, i) ∨ (k = g ∧ (i, c) ∈ members)
  live : ∀ {c}, after.live c = if c ∈ members.map (·.2) then some true else before.live c
  groups : after.groups = before.groups
  awaits : after.awaits = before.awaits

theorem Made.nil (κ : Core σ) (g : GroupId) : Made κ κ g [] := by
  constructor <;> simp

/-- One member is made, and then the others. -/
theorem Made.cons {a b c : Core σ} {g : GroupId} {i : Nat} {f : FiberId}
    {members : List (Nat × FiberId)} (unplaced : a.place f = none) (unborn : a.live f = none)
    (place : b.place = Function.update a.place f (some (g, i)))
    (live : b.live = Function.update a.live f (some true)) (groups : b.groups = a.groups)
    (awaits : b.awaits = a.awaits) (made : Made b c g members) :
    Made a c g ((i, f) :: members) := by
  have other : ∀ {j d}, (j, d) ∈ members → d ≠ f := by
    rintro j d h rfl
    have := (made.fresh h).2
    simp [live] at this
  constructor
  · rw [List.map_cons, List.nodup_cons]
    refine ⟨fun h => ?_, made.nodup⟩
    obtain ⟨⟨j, d⟩, h, same⟩ := List.mem_map.1 h
    exact other h same
  · intro j d h
    rcases List.mem_cons.1 h with h | h
    · obtain ⟨-, rfl⟩ := Prod.mk.inj h
      exact ⟨unplaced, unborn⟩
    · have := made.fresh h
      rwa [place, live, Function.update_of_ne (other h), Function.update_of_ne (other h)] at this
  · intro d k j
    rw [made.place, place, List.mem_cons]
    by_cases same : d = f
    · subst same
      simp only [Function.update_self, unplaced]
      grind
    · grind [Function.update_of_ne]
  · intro d
    rw [made.live, live, List.map_cons]
    by_cases same : d = f
    · subst same
      simp
    · rw [Function.update_of_ne same]
      simp only [List.mem_cons, same, false_or]
  · exact made.groups.trans groups
  · exact made.awaits.trans awaits

namespace Coherent

variable {κ : Core σ} {m : Machine σ} {φ : Focus} {f p : FiberId} {fiber : Fiber σ}

theorem core_spawnChild (m : Machine σ) (p : FiberId) (node : Node σ) (context : Context Value)
    (reader : ExitReader) : ∃ scope interrupted,
      (m.core.marked p = some true → interrupted = true) ∧
      (m.spawnChild p node context reader).2.core =
        m.core.adopt p (newborn p scope interrupted node context reader) := by
  refine ⟨((m.fiber? p).map (·.scope)).getD .none, m.isInterrupted p, fun mark => ?_, ?_⟩
  · obtain ⟨fiber, row, mark⟩ := Table.exists_row_of_view mark
    rw [Machine.isInterrupted, show m.fiber? p = some fiber from row]
    exact mark
  simp only [Machine.spawnChild, Machine.trace, Machine.core_write, Entry.birth?, Entry.exit?,
    Option.toList_some, Option.toList_none, List.append_nil]
  rfl

/-- What is seen after an adoption, unless it concerns the list of children. -/
theorem view_adopt {β : Type} {child : Fiber σ} (row : κ.fibers.get? p = some fiber)
    {q : Fiber σ → β} (same : q (adopting κ.fibers.nextId fiber) = q fiber) :
    (κ.adopt p child).fibers.view q =
      Function.update (κ.fibers.view q) κ.fibers.nextId (some (q child)) := by
  have row' := Table.get?_push_of_some child row
  rw [Core.adopt, Table.view_modify _ _ _ _ row', Table.update_view row' same, Table.view_push]

theorem find_adopt {β : Type} {child : Fiber σ} (row : κ.fibers.get? p = some fiber)
    {q : Fiber σ → Option β} (same : q (adopting κ.fibers.nextId fiber) = q fiber) :
    (κ.adopt p child).fibers.find q =
      Function.update (κ.fibers.find q) κ.fibers.nextId (q child) := by
  have row' := Table.get?_push_of_some child row
  rw [Core.adopt, Table.find_modify _ _ _ _ row', Table.update_find row' same, Table.find_push]

theorem find_adopt_of_none {β : Type} {child : Fiber σ} (row : κ.fibers.get? p = some fiber)
    {q : Fiber σ → Option β} (same : q (adopting κ.fibers.nextId fiber) = q fiber)
    (nothing : q child = none) : (κ.adopt p child).fibers.find q = κ.fibers.find q := by
  rw [find_adopt row same, nothing, Function.update_eq_self_iff, Table.find_nextId]

/-- A fiber that was just made makes sense. -/
theorem shaped_newborn (p : FiberId) (scope : ScopeId) (interrupted : Bool) (node : Node σ)
    (context : Context Value) (reader : ExitReader) :
    (newborn p scope interrupted node context reader).Shaped := by
  constructor <;> simp [newborn, FiberStatus.isTerminal]

theorem shaped_adopting {child : FiberId} (shaped : fiber.Shaped) :
    (adopting child fiber).Shaped :=
  ⟨shaped.ended, shaped.closed, shaped.asleep, shaped.parked⟩

/-- A new child of a fertile fiber. -/
theorem adopt (coherent : Coherent κ φ) (fertile : Fertile κ p) (stays : φ.leaving ≠ some p)
    (asked : φ.unasked = []) (settled : φ.settling = none) (scope : ScopeId) {interrupted : Bool}
    (inherits : κ.marked p = some true → interrupted = true) (node : Node σ)
    (context : Context Value) {reader : ExitReader}
    (inside : ∀ g i, reader.place = some (g, i) → Hosts κ φ p g) :
    Coherent (κ.adopt p (newborn p scope interrupted node context reader))
      { φ with waking := κ.fibers.nextId :: φ.waking } := by
  obtain ⟨fiber, row, live, unended⟩ := fertile
  have older : p.raw < κ.fibers.nextId.raw := Table.raw_lt_nextId row
  have row' := Table.get?_push_of_some (newborn p scope interrupted node context reader) row
  obtain ⟨worker, shaped, family, heirs, agenda, waiting, seating⟩ := coherent
  constructor
  · exact worker
  · intro f later h
    rw [Core.adopt, Table.get?_modify] at h
    split at h
    · rename_i same
      subst same
      rw [row'] at h
      obtain rfl := Option.some.inj h
      exact shaped_adopting (shaped row)
    · rw [Table.get?_push] at h
      split at h
      · obtain rfl := Option.some.inj h
        exact shaped_newborn ..
      · exact shaped h
  · rw [Core.kin, Core.adopt, Table.view_modify _ _ _ _ row', Table.view_push]
    rw [asked] at family ⊢
    exact family.child (Table.view_nextId _ _) older (Table.view_of_row _ row) live unended stays
      (by simp)
  · have same : (adopting κ.fibers.nextId fiber).interrupted = fiber.interrupted := rfl
    rw [Core.kin, Core.marked, view_adopt row same, Core.adopt, Table.view_modify _ _ _ _ row',
      Table.view_push]
    refine (heirs.push (Table.view_nextId _ _) rfl).child (k := fiber.kin) ?_ fun mark => ?_
    · rw [Function.update_of_ne (Table.ne_nextId row)]
      exact Table.view_of_row _ row
    · rw [Function.update_of_ne (Table.ne_nextId row)] at mark
      rw [Function.update_self]
      exact congrArg some (inherits mark)
  · have same : (adopting κ.fibers.nextId fiber).task = fiber.task := rfl
    rw [Core.task, view_adopt row same]
    refine agenda.wake (by simp [Core.task]) fun held => ?_
    have working := agenda.held_works held
    simp [Core.task] at working
  · have same : (adopting κ.fibers.nextId fiber).sleepsOn = fiber.sleepsOn := rfl
    have same' : (adopting κ.fibers.nextId fiber).input = fiber.input := rfl
    rw [Core.sleeps, Core.input, find_adopt_of_none row same rfl, find_adopt_of_none row same' rfl]
    exact waiting
  · have parent : (adopting κ.fibers.nextId fiber).parent = fiber.parent := rfl
    have place : (adopting κ.fibers.nextId fiber).place = fiber.place := rfl
    have alive : (adopting κ.fibers.nextId fiber).live = fiber.live := rfl
    have awaits : (adopting κ.fibers.nextId fiber).awaits = fiber.awaits := rfl
    rw [Core.parent, Core.place, Core.live, Core.awaits, find_adopt row parent,
      find_adopt row place, view_adopt row alive, find_adopt_of_none row awaits rfl]
    rw [settled] at seating ⊢
    refine seating.born (Table.find_nextId _ _) (Table.view_nextId _ _) fun g i placed => ?_
    obtain ⟨forming, G, rowG, rfl, waits⟩ := inside g i placed
    exact ⟨forming, G, rowG, rfl, waits⟩

/-- A new child of a fertile fiber. -/
theorem spawnChild (coherent : Coherent m.core φ) (fertile : Fertile m.core p)
    (stays : φ.leaving ≠ some p) (asked : φ.unasked = []) (settled : φ.settling = none)
    (node : Node σ) (context : Context Value) (reader : ExitReader)
    (inside : ∀ g i, reader.place = some (g, i) → Hosts m.core φ p g) :
    Coherent (m.spawnChild p node context reader).2.core
      { φ with waking := (m.spawnChild p node context reader).1 :: φ.waking } := by
  obtain ⟨scope, interrupted, inherits, core⟩ := core_spawnChild m p node context reader
  rw [core]
  exact coherent.adopt fertile stays asked settled scope inherits node context inside

/-- A new child that becomes runnable at once. -/
theorem fork (coherent : Coherent m.core φ) (fertile : Fertile m.core p)
    (stays : φ.leaving ≠ some p) (asked : φ.unasked = []) (settled : φ.settling = none)
    (node : Node σ) (context : Context Value) : Coherent (m.fork p node context).2.core φ :=
  enqueue (coherent.spawnChild fertile stays asked settled node context .joiner
    (by simp [ExitReader.place]))

/-- A program is started. -/
theorem startRoot (coherent : Coherent m.core φ) (settled : φ.settling = none) (node : Node σ) :
    Coherent (m.startRoot node).2.core φ := by
  refine enqueue ?_
  change Coherent (m.spawnRoot node).2.core { φ with waking := m.fibers.nextId :: φ.waking }
  rw [Machine.spawnRoot, Machine.core_trace_of_quiet _ rfl rfl]
  obtain ⟨worker, shaped, family, heirs, agenda, waiting, seating⟩ := coherent
  constructor
  · exact worker
  · intro f later h
    simp only [Machine.core, Table.get?_push] at h
    split at h
    · obtain rfl := Option.some.inj h
      constructor <;> simp [FiberStatus.isTerminal]
    · exact shaped h
  · simp only [Core.kin, Machine.core, Table.view_push]
    exact family.root (Table.view_nextId _ _)
  · simp only [Core.kin, Core.marked, Machine.core, Table.view_push]
    exact heirs.push (Table.view_nextId _ _) rfl
  · simp only [Core.task, Machine.core, Table.view_push]
    refine agenda.wake (by simp [Core.task, Machine.core]) fun held => ?_
    have working := agenda.held_works held
    simp [Core.task, Machine.core] at working
  · simp only [Core.sleeps, Core.input, Machine.core]
    rw [Table.find_push_of_none _ rfl, Table.find_push_of_none _ rfl]
    exact waiting
  · simp only [Core.parent, Core.place, Core.live, Core.awaits, Machine.core]
    rw [Table.find_push, Table.find_push, Table.view_push, Table.find_push_of_none _ rfl]
    rw [settled] at seating ⊢
    refine seating.born (Table.find_nextId _ _) (Table.view_nextId _ _) fun g i placed => ?_
    cases placed

/-! ## Members of a group -/

/-- A fiber stays fertile when it gets a child. -/
theorem fertile_spawnChild {q : FiberId} (fertile : Fertile m.core q) (p : FiberId) (node : Node σ)
    (context : Context Value) (reader : ExitReader) :
    Fertile (m.spawnChild p node context reader).2.core q := by
  obtain ⟨scope, interrupted, -, core⟩ := core_spawnChild m p node context reader
  obtain ⟨fiber, row, live, unended⟩ := fertile
  rw [core]
  have row' := Table.get?_push_of_some (newborn p scope interrupted node context reader) row
  refine ⟨if p = q then adopting m.fibers.nextId fiber else fiber, ?_, ?_, ?_⟩
  · rw [Core.adopt, Table.get?_modify, row']
    split <;> rfl
  · split <;> exact live
  · split <;> exact unended

/-- What a new child changes for the groups. -/
theorem place_spawnChild (fertile : Fertile m.core p) (node : Node σ) (context : Context Value)
    (reader : ExitReader) :
    (m.spawnChild p node context reader).2.core.place =
        Function.update m.core.place m.fibers.nextId reader.place ∧
      (m.spawnChild p node context reader).2.core.live =
        Function.update m.core.live m.fibers.nextId (some true) ∧
      (m.spawnChild p node context reader).2.core.awaits = m.core.awaits := by
  obtain ⟨scope, interrupted, -, core⟩ := core_spawnChild m p node context reader
  obtain ⟨fiber, row, -⟩ := fertile
  have place : (adopting m.core.fibers.nextId fiber).place = fiber.place := rfl
  have live : (adopting m.core.fibers.nextId fiber).live = fiber.live := rfl
  have awaits : (adopting m.core.fibers.nextId fiber).awaits = fiber.awaits := rfl
  rw [core]
  exact ⟨find_adopt row place, view_adopt row live, find_adopt_of_none row awaits rfl⟩

/-- New members of a group that is being formed. -/
theorem spawnMembers {g : GroupId} (coherent : Coherent m.core φ) (fertile : Fertile m.core p)
    (stays : φ.leaving ≠ some p) (asked : φ.unasked = []) (settled : φ.settling = none)
    (hosts : Hosts m.core φ p g) (context : Context Value) (nodes : List (Nat × Node σ)) :
    Coherent (m.spawnMembers p context g nodes).2.core { φ with
        waking := ((m.spawnMembers p context g nodes).1.map (·.2)).reverse ++ φ.waking } ∧
      Made m.core (m.spawnMembers p context g nodes).2.core g
        (m.spawnMembers p context g nodes).1 ∧
      (m.spawnMembers p context g nodes).1.map (·.1) = nodes.map (·.1) := by
  induction nodes generalizing m φ with
  | nil => exact ⟨coherent, .nil _ _, rfl⟩
  | cons node nodes ih =>
      obtain ⟨i, node⟩ := node
      obtain ⟨place, live, awaits⟩ := place_spawnChild fertile node context (.group g i)
      have born := coherent.spawnChild fertile stays asked settled node context
        (.group g i) (by
          intro k j placed
          obtain ⟨rfl, -⟩ := Prod.mk.inj (Option.some.inj placed)
          exact hosts)
      have fertile' := fertile_spawnChild fertile p node context (.group g i)
      have hosts' : Hosts (m.spawnChild p node context (.group g i)).2.core
          { φ with waking := (m.spawnChild p node context (.group g i)).1 :: φ.waking } p g := by
        obtain ⟨forming, G, row, parent, waits⟩ := hosts
        refine ⟨forming, G, row, parent, ?_⟩
        rw [awaits]
        exact waits
      obtain ⟨coherent', made, places⟩ := ih born fertile' stays asked settled hosts'
      refine ⟨?_, made.cons (Table.find_nextId _ _) (Table.view_nextId _ _) place live rfl awaits,
        ?_⟩
      · simpa [Machine.spawnMembers] using coherent'
      · simpa [Machine.spawnMembers] using places

/-- Fibers on their way are queued, in whatever order they got there. -/
theorem enqueueAll {fibers : List FiberId} (waking : List FiberId)
    (coherent : Coherent m.core { φ with waking := waking ++ φ.waking })
    (order : waking.Perm fibers) : Coherent (m.enqueueAll fibers).core φ := by
  have ordered : Coherent m.core { φ with waking := fibers ++ φ.waking } := by
    obtain ⟨worker, shaped, family, heirs, agenda, waiting, seating⟩ := coherent
    exact ⟨worker, shaped, family, heirs, agenda.perm (order.append_right _), waiting, seating⟩
  clear coherent order
  induction fibers generalizing m with
  | nil => exact ordered
  | cons f fibers ih =>
      exact ih (enqueue (φ := { φ with waking := fibers ++ φ.waking }) ordered)

end Coherent

end EffectFibers
