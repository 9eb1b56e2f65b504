import EffectFibers.Proofs.Changes.Children
import EffectFibers.Proofs.Changes.Law
import EffectFibers.Proofs.Groups.Members
import EffectFibers.Proofs.Services.Stacks

/-!
# What the machine keeps for later

Programs reach the machine piece by piece: the nodes of a group that wait for a place, the programs
of fibers that have not taken a step yet, the cleanups of waits, and the contexts of layers that
have been built.  Whatever the machine keeps of this kind is fit for its use, and small changes
leave it so.

## Main definitions

* `Machine.Lawful` – what the machine keeps is fit for its use.

## Main statements

* `Machine.lawful_fill` – new children get the programs that were kept for them.
* `Machine.lawful_law` – small changes leave it so.
-/

namespace EffectFibers

variable {σ : Type}

/-- A program that has not begun can be run in its context. -/
def RunState.Starts (strict : Prop) (cat : Catalogue) (run : RunState σ) : Prop :=
  ∃ node context, run = { next := .eval node, context } ∧ node.Suits strict cat none context

namespace Machine

/-- The programs of new children can be run in the context that they will get, in the run of their
parent. -/
def Hosts (strict : ScopeId → Prop) (cat : Catalogue) (m : Machine σ) (parent : FiberId)
    (context : Context Value) (nodes : List (Nat × Node σ)) : Prop :=
  ∃ row, m.fiber? parent = some row ∧
    ∀ entry ∈ nodes, entry.2.Suits (strict row.scope) cat none context

/-- The nodes that still wait for a place in a group can be run when they get one. -/
def HostsGroup (strict : ScopeId → Prop) (cat : Catalogue) (m : Machine σ) : Group σ → Prop
  | .race _ => True
  | .all all => m.Hosts strict cat all.parent all.context all.queue

/-- What the machine keeps for later is fit for its use.  Of the fibers, those are meant that are
not among some old ones. -/
structure Lawful (strict : ScopeId → Prop) (cat : Catalogue) (old : FiberId → Prop)
    (m : Machine σ) : Prop where
  known : m.world.Knows cat
  tame : ∀ f fiber pending, m.fiber? f = some fiber → fiber.pending = some pending → pending.Tame
  starts : ∀ f fiber run, ¬ old f → m.fiber? f = some fiber → fiber.run = some run →
    run.Starts (strict fiber.scope) cat
  hosts : ∀ g group, m.groups.get? g = some group → m.HostsGroup strict cat group
  built : ∀ s l c, strict s → (m.memo s).get? l = some (.built c) →
    ∃ t, cat l = some t ∧ c.contains t = true

variable {strict : ScopeId → Prop} {cat later : Catalogue} {old : FiberId → Prop}
  {m m' : Machine σ} {p : FiberId} {context : Context Value} {node : Node σ}
  {nodes : List (Nat × Node σ)}

theorem Hosts.of_rows (hosts : m.Hosts strict cat p context nodes) (grown : cat.Within later)
    (rows : ∀ f row, m.fiber? f = some row →
      ∃ after, m'.fiber? f = some after ∧ after.scope = row.scope) :
    m'.Hosts strict later p context nodes := by
  obtain ⟨row, found, suits⟩ := hosts
  obtain ⟨after, found', same⟩ := rows p row found
  exact ⟨after, found', fun entry listed => same ▸ (suits entry listed).mono fun _ => grown⟩

theorem HostsGroup.of_rows {group : Group σ} (hosts : m.HostsGroup strict cat group)
    (grown : cat.Within later) (rows : ∀ f row, m.fiber? f = some row →
      ∃ after, m'.fiber? f = some after ∧ after.scope = row.scope) :
    m'.HostsGroup strict later group := by
  cases group with
  | race race => trivial
  | all all => exact Hosts.of_rows hosts grown rows

theorem Hosts.mono (hosts : m.Hosts strict cat p context nodes) (kept : m.KeepsSeats m') :
    m'.Hosts strict cat p context nodes :=
  hosts.of_rows (.refl cat) fun _ _ row =>
    (kept row).imp fun _ found => ⟨found.1, found.2.scope⟩

theorem Hosts.sublist {fewer : List (Nat × Node σ)} (hosts : m.Hosts strict cat p context nodes)
    (inside : fewer ⊆ nodes) : m.Hosts strict cat p context fewer := by
  obtain ⟨row, found, suits⟩ := hosts
  exact ⟨row, found, fun entry listed => suits entry (inside listed)⟩

/-! ## Rows and the world -/

theorem Lawful.rows (lawful : m.Lawful strict cat old) :
    m.RowsFit old Pending.Tame fun s run => run.Starts (strict s) cat :=
  ⟨lawful.tame, lawful.starts⟩

theorem Lawful.congr (lawful : m.Lawful strict cat old) (world : m'.world = m.world)
    (fibers : m'.fibers = m.fibers) (groups : m'.groups = m.groups)
    (scopes : m'.scopes = m.scopes) : m'.Lawful strict cat old := by
  have rows := lawful.rows.congr fibers
  refine ⟨world ▸ lawful.known, rows.tame, rows.starts, fun g group row => ?_,
    fun s l c holds entry => ?_⟩
  · refine (lawful.hosts g group (groups ▸ row)).of_rows (.refl cat) fun f fiber row => ?_
    exact ⟨fiber, by rw [fiber?, fibers]; exact row, rfl⟩
  · rw [memo, scopes] at entry
    exact lawful.built s l c holds entry

/-- A change to a row.  Only an old fiber may get a program, and what tidies up after a new wait has
to be tame. -/
theorem lawful_row (g : FiberId) {change : Fiber σ → Fiber σ} (lawful : m.Lawful strict cat old)
    (scope : ∀ fiber, (change fiber).scope = fiber.scope)
    (run : old g ∨ ∀ fiber, (change fiber).run = fiber.run ∨ (change fiber).run = none)
    (pending : ∀ fiber p, (change fiber).pending = some p → fiber.pending = some p ∨ p.Tame) :
    (m.modifyFiber g change).Lawful strict cat old := by
  have rows := lawful.rows.modify g scope run pending
  refine ⟨lawful.known, rows.tame, rows.starts, fun h group row => ?_, lawful.built⟩
  refine (lawful.hosts h group row).of_rows (.refl cat) fun f fiber row' => ?_
  rw [fiber?_modifyFiber]
  split
  · exact ⟨change fiber, by rw [row']; rfl, scope fiber⟩
  · exact ⟨fiber, row', rfl⟩

/-- User code leaves a world that knows what is catalogued by then. -/
theorem Lawful.setWorld (lawful : m.Lawful strict cat old) (grown : cat.Within later)
    {world : World σ} (known : world.Knows later) :
    { m with world }.Lawful strict later old where
  known := known
  tame := lawful.tame
  starts f fiber run new row saved := by
    obtain ⟨node, context, same, suits⟩ := lawful.starts f fiber run new row saved
    exact ⟨node, context, same, suits.mono fun _ => grown⟩
  hosts g group row := (lawful.hosts g group row).of_rows grown fun _ fiber row => ⟨fiber, row, rfl⟩
  built s l c holds entry := by
    obtain ⟨t, listed, has⟩ := lawful.built s l c holds entry
    exact ⟨t, grown l t listed, has⟩

/-! ## New fibers -/

/-- A fiber is born with a program that can be run. -/
theorem lawful_pushFiber (lawful : m.Lawful strict cat old) {fiber : Fiber σ}
    (awake : fiber.pending = none)
    (starts : ∀ run, fiber.run = some run → run.Starts (strict fiber.scope) cat) :
    { m with fibers := m.fibers.push fiber }.Lawful strict cat old := by
  have rows := lawful.rows.push awake starts
  refine ⟨lawful.known, rows.tame, rows.starts, fun g group row => ?_, lawful.built⟩
  exact (lawful.hosts g group row).of_rows (.refl cat) fun _ before row =>
    ⟨before, Table.get?_push_of_some fiber row, rfl⟩

theorem lawful_spawnChild (lawful : m.Lawful strict cat old) {row : Fiber σ}
    (found : m.fiber? p = some row) (suits : node.Suits (strict row.scope) cat none context)
    (reader : ExitReader) : (m.spawnChild p node context reader).2.Lawful strict cat old := by
  let child : Fiber σ := {
    parent := some p, scope := ((m.fiber? p).map (·.scope)).getD .none
    interrupted := m.isInterrupted p, reader, run := some { next := .eval node, context } }
  have born : { m with fibers := m.fibers.push child }.Lawful strict cat old := by
    refine lawful_pushFiber lawful rfl fun run saved => ?_
    obtain rfl := Option.some.inj saved
    refine ⟨node, context, rfl, ?_⟩
    simpa [child, found] using suits
  have adopted : Lawful strict cat old ({ m with fibers := m.fibers.push child }.modifyFiber p
      fun fiber => { fiber with children := fiber.children ++ [m.fibers.nextId] }) :=
    lawful_row p born (fun _ => rfl) (.inr fun _ => .inl rfl) fun _ _ => .inl
  exact adopted.congr rfl rfl rfl rfl

theorem keepsSeats_spawnChild (m : Machine σ) (p : FiberId) (node : Node σ)
    (context : Context Value) (reader : ExitReader) :
    m.KeepsSeats (m.spawnChild p node context reader).2 := by
  intro f fiber row
  obtain ⟨children, after⟩ := fiber?_spawnChild_old row p node context reader
  exact ⟨_, after, rfl, rfl, rfl⟩

theorem lawful_spawnMembers (lawful : m.Lawful strict cat old)
    (hosts : m.Hosts strict cat p context nodes) (g : GroupId) :
    (m.spawnMembers p context g nodes).2.Lawful strict cat old := by
  induction nodes generalizing m with
  | nil => exact lawful
  | cons entry nodes ih =>
      obtain ⟨i, node⟩ := entry
      have rest := (hosts.sublist (List.subset_cons_self _ _)).mono
        (m.keepsSeats_spawnChild p node context (.group g i))
      obtain ⟨row, found, suits⟩ := hosts
      exact ih (lawful_spawnChild lawful found (suits _ List.mem_cons_self) _) rest

theorem keepsSeats_spawnMembers (m : Machine σ) (p : FiberId) (context : Context Value)
    (g : GroupId) (nodes : List (Nat × Node σ)) :
    m.KeepsSeats (m.spawnMembers p context g nodes).2 := by
  intro f fiber row
  obtain ⟨children, after⟩ := fiber?_spawnMembers_old row p context g nodes
  exact ⟨_, after, rfl, rfl, rfl⟩

/-! ## Groups -/

theorem lawful_setGroup (lawful : m.Lawful strict cat old) (g : GroupId) {group : Group σ}
    (hosts : m.HostsGroup strict cat group) : (m.setGroup g group).Lawful strict cat old := by
  refine ⟨lawful.known, lawful.tame, lawful.starts, fun h other row => ?_, lawful.built⟩
  rw [setGroup, Table.get?_modify] at row
  split at row
  · obtain ⟨-, -, rfl⟩ := Option.map_eq_some_iff.1 row
    exact hosts
  · exact lawful.hosts h other row

theorem lawful_pushGroup (lawful : m.Lawful strict cat old) {group : Group σ}
    (hosts : m.HostsGroup strict cat group) :
    { m with groups := m.groups.push group }.Lawful strict cat old := by
  refine ⟨lawful.known, lawful.tame, lawful.starts, fun h other row => ?_, lawful.built⟩
  rw [Table.get?_push] at row
  split at row
  · obtain rfl := Option.some.inj row
    exact hosts
  · exact lawful.hosts h other row

theorem lawful_enqueueAll (lawful : m.Lawful strict cat old) (fibers : List FiberId) :
    (m.enqueueAll fibers).Lawful strict cat old := by
  obtain ⟨ready, same⟩ := m.enqueueAll_eq fibers
  exact same ▸ lawful.congr rfl rfl rfl rfl

theorem lawful_fill (lawful : m.Lawful strict cat old) (g : GroupId) {all : Gathering σ}
    (hosts : m.HostsGroup strict cat (.all all)) : (m.fill g all).Lawful strict cat old := by
  unfold fill
  split
  · exact lawful
  · have born := lawful_spawnMembers lawful
      (Hosts.sublist hosts (List.take_subset (all.limit - all.running.length) _)) g
    refine lawful_enqueueAll (lawful_setGroup born g ?_) _
    exact (Hosts.sublist hosts (List.drop_subset _ _)).mono (m.keepsSeats_spawnMembers _ _ g _)

/-- What an exit does to a group leaves fit what waits for a place. -/
theorem HostsGroup.settle {all : Gathering σ} (hosts : m.HostsGroup strict cat (.all all))
    (i : Nat) (x : Exit) (interrupted : Bool) :
    m.HostsGroup strict cat (.all (all.settle i x interrupted).2) := by
  have same : (all.settle i x interrupted).2.context = all.context := by
    unfold Gathering.settle Gathering.fail
    grind
  obtain ⟨-, -, parent, rest⟩ := all.settle_cases i x interrupted
  rw [HostsGroup, same, parent]
  refine Hosts.sublist hosts ?_
  rcases rest with ⟨queue, -⟩ | queue <;> rw [queue]
  · exact List.Subset.refl _
  · exact List.nil_subset _

/-- Small changes leave what the machine keeps fit for its use. -/
theorem lawful_law : Law old Pending.Tame (Lawful (σ := σ) strict cat old) where
  congr lawful := lawful.congr
  row g _ := lawful_row g
  pending lawful row waits := lawful.tame _ _ _ row waits
  cleanup lawful tame := lawful.setWorld (.refl cat) (lawful.known.of_le (tame _ _))
  race g _ lawful := lawful_setGroup lawful g trivial
  settle i x late lawful row :=
    lawful_setGroup lawful _ ((lawful.hosts _ _ row).settle i x late)
  fill lawful row := lawful_fill lawful _ (lawful.hosts _ _ row)

end Machine

end EffectFibers
