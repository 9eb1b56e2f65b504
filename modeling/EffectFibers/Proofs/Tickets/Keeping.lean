import EffectFibers.Proofs.Changes.Law
import EffectFibers.Proofs.Groups.Missing
import EffectFibers.Proofs.Tickets.Bears
import Mathlib.Logic.Function.Basic

/-!
# Tickets in the hands of fibers

A ticket that was drawn is in the hands of one fiber, at one place of its stack: there the tree or
the continuation is that bears it.  Places are counted from below, so what is pushed or handed on
above a place does not touch it.  A tree that is evaluated next stands above all frames.

What the machine keeps for later bears no ticket at all: the nodes of a group that wait for a place,
and the programs of fibers that have not taken a step yet.

## Main definitions

* `Holdings` – who has which ticket.
* `World.Honours` – all of these tickets are good.
* `Machine.Thrifty` – what the machine keeps for later bears no ticket, and tickets are good.

## Main statements

* `World.Honours.draw`, `World.Honours.use` – a ticket is drawn, or used.
* `Machine.thrifty_law` – small changes keep a machine thrifty.
* `Machine.thrifty_startRace`, `Machine.thrifty_startAll` – new children.
-/

namespace EffectFibers

variable {σ : Type}

/-! ## Tickets that are good -/

/-- The ticket that a fiber has at a place of its stack, counted from below. -/
abbrev Holdings := FiberId × Nat → Option Ticket

/-- The tickets that fibers have are good: they were issued, nobody has used them, and none of them
is at two places. -/
structure World.Honours (w : World σ) (holdings : Holdings) : Prop where
  issued : ∀ place ticket, holdings place = some ticket → ticket.raw ≤ w.tickets.issued
  unused : ∀ place ticket, holdings place = some ticket → ticket ∈ w.unused
  once : ∀ place place' ticket, holdings place = some ticket → holdings place' = some ticket →
    place = place'

namespace World.Honours

variable {w w' : World σ} {holdings fewer : Holdings} {place : FiberId × Nat} {ticket : Ticket}

theorem of_same (honours : w.Honours holdings) (same : w.SameTickets w') : w'.Honours holdings :=
  ⟨same.issued ▸ honours.issued, same.unused ▸ honours.unused, honours.once⟩

/-- Nobody has a ticket in the beginning. -/
theorem of_nobody (w : World σ) : w.Honours fun _ => none := ⟨nofun, nofun, nofun⟩

/-- What a place has after a change of another one. -/
theorem held_of_update {place place' : FiberId × Nat} {ticket : Ticket}
    (held : Function.update holdings place none place' = some ticket) :
    place' ≠ place ∧ holdings place' = some ticket := by
  rw [Function.update_apply] at held
  split at held
  · cases held
  · exact ⟨‹_›, held⟩

/-- A ticket that nobody needs is given away. -/
theorem drop (honours : w.Honours holdings) (place : FiberId × Nat) :
    w.Honours (Function.update holdings place none) :=
  ⟨fun p t held => honours.issued p t (held_of_update held).2,
    fun p t held => honours.unused p t (held_of_update held).2,
    fun p p' t held held' =>
      honours.once p p' t (held_of_update held).2 (held_of_update held').2⟩

/-- A ticket is used by the one who has it. -/
theorem use (honours : w.Honours holdings) (held : holdings place = some ticket)
    (issued : w'.tickets = w.tickets) (unused : w'.unused = w.unused.erase ticket) :
    w'.Honours (Function.update holdings place none) := by
  refine ⟨issued ▸ (honours.drop place).issued, fun p t held' => ?_, (honours.drop place).once⟩
  obtain ⟨other, held'⟩ := held_of_update held'
  -- the ticket that is used was at one place only
  have differs : t ≠ ticket := by
    rintro rfl
    exact other (honours.once p place t held' held)
  rw [unused]
  exact (List.mem_erase_of_ne differs).2 (honours.unused p t held')

/-- A ticket that is drawn was not in anybody's hands. -/
theorem draw {drawn : Option Ticket} (honours : w.Honours holdings) (issues : w.Issues w' drawn)
    (place : FiberId × Nat) : w'.Honours (Function.update holdings place drawn) := by
  cases issues with
  | nothing same => exact (honours.drop place).of_same same
  | ticket issued unused =>
      have held : ∀ p t, Function.update holdings place (some w.tickets.next.1) p = some t →
          p = place ∧ t = w.tickets.next.1 ∨ p ≠ place ∧ holdings p = some t := by
        intro p t held
        rw [Function.update_apply] at held
        split at held
        · exact .inl ⟨‹_›, (Option.some.inj held).symm⟩
        · exact .inr ⟨‹_›, held⟩
      -- tickets are numbered as they are issued, so nobody has the next one
      have young : ∀ p, holdings p ≠ some w.tickets.next.1 := fun p held =>
        Nat.not_succ_le_self _ (honours.issued p _ held)
      refine ⟨fun p t has => ?_, fun p t has => ?_, fun p p' t has has' => ?_⟩
      · rw [issued]
        rcases held p t has with ⟨-, rfl⟩ | ⟨-, has⟩
        · exact Nat.le_refl _
        · exact Nat.le_succ_of_le (honours.issued p t has)
      · rw [unused]
        rcases held p t has with ⟨-, rfl⟩ | ⟨-, has⟩
        · exact List.mem_cons_self
        · exact List.mem_cons_of_mem _ (honours.unused p t has)
      · rcases held p t has with ⟨here, new⟩ | ⟨-, has⟩ <;>
          rcases held p' t has' with ⟨here', new'⟩ | ⟨-, has'⟩
        · exact here.trans here'.symm
        · exact (young p' (new ▸ has')).elim
        · exact (young p (new' ▸ has)).elim
        · exact honours.once p p' t has has'

end World.Honours

/-! ## What is kept for later -/

/-- What tidies up after a wait has nothing to do with tickets. -/
def Pending.Calm : Pending σ → Prop
  | .wait _ (.code cleanup) => Action.Calm cleanup
  | _ => True

/-- A program that has not begun bears no ticket. -/
def RunState.Unbegun (run : RunState σ) : Prop :=
  ∃ node context, run = { next := .eval node, context } ∧ node.Bears none

/-- What is known about many effects at once: those that wait for a place bear no tickets, and every
missing result is that of a child. -/
structure Gathering.Sound (all : Gathering σ) : Prop where
  queue : ∀ entry ∈ all.queue, entry.2.Bears none
  accounted : all.Accounted

namespace Machine

/-- What the machine keeps for later bears no ticket, and the tickets in the hands of fibers are
good.  Of the programs, those are meant that do not belong to some old fibers. -/
structure Thrifty (holdings : Holdings) (old : FiberId → Prop) (m : Machine σ) : Prop where
  honours : m.world.Honours holdings
  rows : m.RowsFit old Pending.Calm fun _ => RunState.Unbegun
  sound : ∀ g all, m.groups.get? g = some (.all all) → all.Sound

variable {holdings : Holdings} {old : FiberId → Prop} {m m' : Machine σ} {f p : FiberId}
  {context : Context Value} {node : Node σ} {nodes : List (Nat × Node σ)} {all : Gathering σ}

theorem Thrifty.congr (thrifty : m.Thrifty holdings old) (world : m'.world = m.world)
    (fibers : m'.fibers = m.fibers) (groups : m'.groups = m.groups) : m'.Thrifty holdings old :=
  ⟨world ▸ thrifty.honours, thrifty.rows.congr fibers, groups ▸ thrifty.sound⟩

/-- User code leaves a world that honours other tickets. -/
theorem Thrifty.setWorld (thrifty : m.Thrifty holdings old) {later : Holdings} {world : World σ}
    (honours : world.Honours later) : { m with world }.Thrifty later old :=
  ⟨honours, thrifty.rows.congr rfl, thrifty.sound⟩

theorem thrifty_setGroup (thrifty : m.Thrifty holdings old) (g : GroupId) {group : Group σ}
    (sound : ∀ all, group = .all all → all.Sound) : (m.setGroup g group).Thrifty holdings old := by
  refine ⟨thrifty.honours, thrifty.rows.congr rfl, fun h all row => ?_⟩
  rw [setGroup, Table.get?_modify] at row
  split at row
  · obtain ⟨_, -, same⟩ := Option.map_eq_some_iff.1 row
    exact sound all same
  · exact thrifty.sound h all row

theorem thrifty_pushGroup (thrifty : m.Thrifty holdings old) {group : Group σ}
    (sound : ∀ all, group = .all all → all.Sound) :
    { m with groups := m.groups.push group }.Thrifty holdings old := by
  refine ⟨thrifty.honours, thrifty.rows.congr rfl, fun h all row => ?_⟩
  rw [Table.get?_push] at row
  split at row
  · exact sound all (Option.some.inj row)
  · exact thrifty.sound h all row

/-! ## New fibers -/

/-- A fiber is born with a program that bears no ticket. -/
theorem thrifty_pushFiber (thrifty : m.Thrifty holdings old) {fiber : Fiber σ}
    (awake : fiber.pending = none) (starts : ∀ run, fiber.run = some run → run.Unbegun) :
    { m with fibers := m.fibers.push fiber }.Thrifty holdings old :=
  ⟨thrifty.honours, thrifty.rows.push awake starts, thrifty.sound⟩

theorem thrifty_spawnChild (thrifty : m.Thrifty holdings old) (p : FiberId)
    (bears : node.Bears none) (context : Context Value) (reader : ExitReader) :
    (m.spawnChild p node context reader).2.Thrifty holdings old := by
  let child : Fiber σ := {
    parent := some p, scope := ((m.fiber? p).map (·.scope)).getD .none
    interrupted := m.isInterrupted p, reader, run := some { next := .eval node, context } }
  have born : { m with fibers := m.fibers.push child }.Thrifty holdings old :=
    thrifty_pushFiber thrifty rfl fun run saved =>
      ⟨node, context, (Option.some.inj saved).symm, bears⟩
  have adopted : RowsFit old Pending.Calm (fun _ => RunState.Unbegun)
      ({ m with fibers := m.fibers.push child }.modifyFiber p
        fun fiber => { fiber with children := fiber.children ++ [m.fibers.nextId] }) :=
    born.rows.modify p (fun _ => rfl) (.inr fun _ => .inl rfl) fun _ _ => .inl
  exact ⟨born.honours, adopted.congr rfl, born.sound⟩

theorem thrifty_fork (thrifty : m.Thrifty holdings old) (p : FiberId) (bears : node.Bears none)
    (context : Context Value) : (m.fork p node context).2.Thrifty holdings old :=
  (thrifty_spawnChild thrifty p bears context .joiner).congr rfl rfl rfl

theorem thrifty_spawnMembers (thrifty : m.Thrifty holdings old) (p : FiberId)
    (context : Context Value) (g : GroupId) (bears : ∀ entry ∈ nodes, entry.2.Bears none) :
    (m.spawnMembers p context g nodes).2.Thrifty holdings old := by
  induction nodes generalizing m with
  | nil => exact thrifty
  | cons entry nodes ih =>
      obtain ⟨i, node⟩ := entry
      exact ih (thrifty_spawnChild thrifty p (bears _ List.mem_cons_self) context _)
        fun entry listed => bears entry (List.mem_cons_of_mem _ listed)

theorem thrifty_enqueueAll (thrifty : m.Thrifty holdings old) (fibers : List FiberId) :
    (m.enqueueAll fibers).Thrifty holdings old := by
  obtain ⟨ready, same⟩ := m.enqueueAll_eq fibers
  exact same ▸ thrifty.congr rfl rfl rfl

/-- The children that start had waited for a place. -/
theorem thrifty_fill (thrifty : m.Thrifty holdings old) (g : GroupId) (sound : all.Sound) :
    (m.fill g all).Thrifty holdings old := by
  by_cases calm : all.failure = none
  · rw [fill_eq calm]
    have born := thrifty_spawnMembers thrifty all.parent all.context g fun entry listed =>
      sound.queue entry (List.take_subset (all.limit - all.running.length) _ listed)
    refine thrifty_enqueueAll (thrifty_setGroup born g fun after same => ?_) _
    obtain rfl := Group.all.inj same
    refine ⟨fun entry listed => sound.queue entry (List.drop_subset _ _ listed), ?_⟩
    rw [spawnMembers_fst]
    exact sound.accounted.filled m.fibers.size
  · rw [fill_of_failure calm]
    exact thrifty

/-- Small changes keep what the machine keeps for later. -/
theorem thrifty_law : Law old Pending.Calm (Thrifty (σ := σ) holdings old) where
  congr thrifty world fibers groups _ := thrifty.congr world fibers groups
  row g _ thrifty scope run pending :=
    ⟨thrifty.honours, thrifty.rows.modify g scope run pending, thrifty.sound⟩
  pending thrifty row waits := thrifty.rows.tame _ _ _ row waits
  cleanup thrifty calm := thrifty.setWorld (thrifty.honours.of_same (calm _ _))
  race g _ thrifty := thrifty_setGroup thrifty g fun _ same => by cases same
  settle i x late thrifty row := by
    refine thrifty_setGroup thrifty _ fun after same => ?_
    obtain rfl := Group.all.inj same
    have sound := thrifty.sound _ _ row
    refine ⟨fun entry listed => sound.queue entry ?_, sound.accounted.settle i x late⟩
    obtain ⟨-, -, -, ⟨queue, -⟩ | queue⟩ := Gathering.settle_cases _ i x late
    · exact queue ▸ listed
    · simp [queue] at listed
  fill thrifty row := thrifty_fill thrifty _ (thrifty.sound _ _ row)

/-! ## Groups and programs that start -/

theorem bears_numbered {children : List (Node σ)} (bears : ∀ n ∈ children, n.Bears none) :
    ∀ entry ∈ numbered children, entry.2.Bears none := by
  intro entry listed
  obtain ⟨i, inside, rfl⟩ := List.mem_mapIdx.1 listed
  exact bears _ (List.getElem_mem inside)

theorem thrifty_startRace (thrifty : m.Thrifty holdings old) (p : FiberId)
    (context : Context Value) {children : List (Node σ)} (bears : ∀ n ∈ children, n.Bears none) :
    (m.startRace p context children).2.Thrifty holdings old := by
  rw [startRace_eq]
  let race : Race := { parent := p, members := [], remaining := children.length }
  have opened : { m with groups := m.groups.push (.race race) }.Thrifty holdings old :=
    thrifty_pushGroup thrifty fun _ same => by cases same
  have born := thrifty_spawnMembers opened p context m.groups.nextId (bears_numbered bears)
  exact thrifty_enqueueAll (thrifty_setGroup born _ fun _ same => by cases same) _

theorem thrifty_startAll (thrifty : m.Thrifty holdings old) (p : FiberId)
    (context : Context Value) {children : List (Node σ)} (bears : ∀ n ∈ children, n.Bears none)
    (options : AllOptions) : (m.startAll p context children options).2.Thrifty holdings old := by
  let all := Gathering.task p context children options
  have sound : all.Sound := ⟨bears_numbered bears, .of_numbered rfl (List.length_map _)⟩
  have opened : { m with groups := m.groups.push (.all all) }.Thrifty holdings old :=
    thrifty_pushGroup thrifty fun _ same => Group.all.inj same ▸ sound
  exact thrifty_fill opened _ sound

/-- A program is started in a run of its own. -/
theorem thrifty_startRoot (thrifty : m.Thrifty holdings old) (bears : node.Bears none) :
    (m.startRoot node).2.Thrifty holdings old := by
  let root : Fiber σ := {
    parent := none, scope := m.scopes.nextId, reader := .handle
    run := some { next := .eval node } }
  have born : { m with fibers := m.fibers.push root }.Thrifty holdings old :=
    thrifty_pushFiber thrifty rfl fun run saved =>
      ⟨node, .empty, (Option.some.inj saved).symm, bears⟩
  exact born.congr rfl rfl rfl

/-! ## The layers of a run -/

theorem thrifty_lookUpLayer (thrifty : m.Thrifty holdings old) (s : ScopeId) (layer : LayerNode σ)
    (f : FiberId) : (m.lookUpLayer s layer f).2.Thrifty holdings old := by
  unfold lookUpLayer
  split
  · exact thrifty
  · exact thrifty
  · exact thrifty.congr rfl rfl rfl

theorem thrifty_joinBuild (thrifty : m.Thrifty holdings old) (s : ScopeId) (l : LayerId)
    (w : WaitId) : (m.joinBuild s l w).Thrifty holdings old := by
  unfold joinBuild
  split
  · exact thrifty.congr rfl rfl rfl
  · exact thrifty_law.resume thrifty w _

theorem thrifty_completeBuild (thrifty : m.Thrifty holdings old) (s : ScopeId)
    (layer : LayerNode σ) (c : Context Value) :
    (m.completeBuild s layer c).Thrifty holdings old := by
  refine thrifty_law.wake (thrifty_law.trace ?_ _) _ _
  exact thrifty.congr rfl rfl rfl

theorem thrifty_forgetBuild (thrifty : m.Thrifty holdings old) (s : ScopeId) (layer : LayerNode σ)
    (outcome : BuildOutcome) (x : Exit) :
    (m.forgetBuild s layer outcome x).Thrifty holdings old := by
  unfold forgetBuild
  split
  · refine thrifty_law.wake (thrifty_law.trace ?_ _) _ _
    exact thrifty.congr rfl rfl rfl
  · exact thrifty

end Machine

end EffectFibers
