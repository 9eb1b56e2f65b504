import EffectFibers.Proofs.Coherence.Spawn

/-!
# Groups keep a machine coherent

A group starts with its members in place.  When a member has ended, the group takes note; if other
members live or are still to start, the group goes on, and otherwise its end is told to the fiber
that waits.  In between the group may interrupt its members, but that changes nothing about who
belongs to it and who waits for it.

## Main definitions

* `Gathering.task` – many effects before any child was started.

## Main statements

* `Coherent.startRace`, `Coherent.startAll` – a group is started by the fiber on the worker.
* `Coherent.memberExit` – an exit reaches its group.
-/

namespace EffectFibers

variable {σ : Type}

/-- Many effects before any child was started. -/
def Gathering.task (p : FiberId) (context : Context Value) (nodes : List (Node σ))
    (options : AllOptions) : Gathering σ where
  parent := p
  context := context
  queue := Machine.numbered nodes
  results := nodes.map fun _ => none
  limit := options.concurrency.limit nodes.length
  mode := options.mode

/-- The members of a race that was just started. -/
theorem Made.raceSeated {before after : Core σ} {g : GroupId} {members : List (Nat × FiberId)}
    (made : Made before after g members) (empty : ∀ {c i}, before.place c ≠ some (g, i))
    (parent : FiberId) : RaceSeated after.place after.live none g
      { parent, members := members.map (·.2), remaining := members.length } := by
  refine ⟨made.nodup, fun {c} listed => ?_, fun {c i} placed => ?_, ?_⟩
  · obtain ⟨⟨i, d⟩, h, rfl⟩ := List.mem_map.1 listed
    exact ⟨i, made.place.2 (.inr ⟨rfl, h⟩)⟩
  · rcases made.place.1 placed with h | ⟨-, h⟩
    · exact absurd h empty
    · exact List.mem_map.2 ⟨(i, c), h, rfl⟩
  · have all : ((members.map (·.2)).countP fun c => decide (Counted after.live none c)) =
        (members.map (·.2)).length := by
      rw [List.countP_eq_length]
      intro c listed
      simp only [Counted, made.live, if_pos listed, true_or, decide_true]
    rw [all, List.length_map]

/-- More members of a group of many effects were started. -/
theorem Made.allSeated {before after : Core σ} {all : Gathering σ} {g : GroupId}
    {members : List (Nat × FiberId)} {room : Nat} (made : Made before after g members)
    (seated : AllSeated before.place before.live none g all)
    (places : members.map (·.1) = (all.queue.take room).map (·.1)) :
    AllSeated after.place after.live none g
      { all with queue := all.queue.drop room, running := all.running ++ members } := by
  obtain ⟨limit, nodup, runs, listed, failed⟩ := seated
  refine ⟨limit, ?_, fun {i c} h => ?_, fun {i c} counted placed => ?_, fun failure => ?_⟩
  · show ((all.running ++ members).map (·.1) ++ (all.queue.drop room).map (·.1)).Nodup
    rw [List.map_append, places, List.append_assoc, ← List.map_append, List.take_append_drop]
    exact nodup
  · rcases List.mem_append.1 h with h | h
    · obtain ⟨counted, placed⟩ := runs h
      refine ⟨?_, made.place.2 (.inl placed)⟩
      have alive : before.live c = some true := by simpa [Counted] using counted
      simp [Counted, made.live, alive]
    · refine ⟨?_, made.place.2 (.inr ⟨rfl, h⟩)⟩
      simp only [Counted, made.live, if_pos (List.mem_map_of_mem h (f := (·.2))), true_or]
  · rw [List.mem_append]
    rcases made.place.1 placed with h | ⟨-, h⟩
    · refine .inl (listed ?_ h)
      have outside : c ∉ members.map (·.2) := fun mem => by
        obtain ⟨⟨j, d⟩, h', rfl⟩ := List.mem_map.1 mem
        rw [(made.fresh h').1] at h
        cases h
      simpa [Counted, made.live, outside] using counted
    · exact .inr h
  · show all.queue.drop room = []
    rw [failed failure, List.drop_nil]

namespace Coherent

variable {κ : Core σ} {m : Machine σ} {φ : Focus} {f p : FiberId} {g : GroupId} {fiber : Fiber σ}

/-- The row of a fiber that sleeps on a group. -/
theorem row_of_awaits (asleep : κ.awaits p = some g) :
    ∃ fiber, κ.fibers.get? p = some fiber ∧ fiber.pending = some (.group g) := by
  obtain ⟨fiber, row, awaits⟩ := Table.exists_row_of_find asleep
  refine ⟨fiber, row, ?_⟩
  obtain ⟨pending, waits, this⟩ := Option.bind_eq_some_iff.1 awaits
  cases pending with
  | wait w c => simp [Pending.group?] at this
  | group k =>
      obtain rfl : k = g := by simpa [Pending.group?] using this
      exact waits

/-- A fiber that sleeps on a group may have children. -/
theorem fertile_of_awaits (coherent : Coherent κ φ) (asleep : κ.awaits p = some g) :
    Fertile κ p := by
  obtain ⟨fiber, row, waits⟩ := row_of_awaits asleep
  have shaped := coherent.shaped row
  have suspended : fiber.status = .suspended := shaped.asleep.2 (by simp [waits])
  refine ⟨fiber, row, by simp [Fiber.verdict, suspended, FiberStatus.isTerminal], ?_⟩
  cases closing : fiber.closing with
  | none => rfl
  | some c =>
      have running := (shaped.closed (by simp [closing])).1
      rw [suspended] at running
      cases running

/-- The fiber on the worker may have children. -/
theorem fertile_of_held (coherent : Coherent κ φ) (held : φ.held = some p) : Fertile κ p := by
  obtain ⟨fiber, row, running, -, unended⟩ := coherent.row_of_held held
  exact ⟨fiber, row, by simp [Fiber.verdict, running, FiberStatus.isTerminal], unended⟩

/-- The end of a group is told to the fiber that sleeps on it. -/
theorem deliver (coherent : Coherent m.core φ) (asleep : m.core.awaits p = some g)
    (settled : φ.settling = none) (formed : φ.forming = none)
    (only : ∀ k, φ.idle = some k → k = g) (closed : φ.opening ≠ some g)
    (gone : ∀ {c i}, m.core.place c = some (g, i) → m.core.live c ≠ some true) (x : Exit) :
    Coherent (m.deliver p x).core { φ with idle := none } := by
  obtain ⟨fiber, row, waits⟩ := row_of_awaits asleep
  have shaped := coherent.shaped row
  have suspended : fiber.status = .suspended := shaped.asleep.2 (by simp [waits])
  have seen : m.status p = .suspended := (status_of_row row).trans suspended
  have task : m.core.task p = some .resting := by
    rw [Core.task, Table.view_of_row _ row, task_of_suspended suspended]
  have free : φ.held ≠ some p := fun held => by
    have working := coherent.agenda.held_works held
    simp [task] at working
  simp only [Machine.deliver, seen]
  refine enqueue (coherent.of_row row (answered x) _ coherent.worker rfl rfl rfl
    (coherent.heirs_of_row row rfl (List.Subset.refl _)) (shaped_answered shaped suspended)
    ?_ ?_ ?_ ?_)
  · have same : (answered x fiber).kin = fiber.kin := by
      simp [answered, Fiber.kin, Fiber.verdict, suspended, FiberStatus.isTerminal]
    rw [Core.kin, Table.update_view row same]
    exact coherent.family
  · rw [task_answered shaped suspended]
    exact coherent.agenda.wake (by simp [task]) free
  · have same : (answered x fiber).sleepsOn = fiber.sleepsOn := by
      simp [answered, Fiber.sleepsOn, waits, Pending.wait?]
    rw [Core.sleeps, Table.update_find row same]
    refine coherent.waiting.answerOther free ?_ ?_
    · rw [Core.sleeps, Table.find_of_row _ row, Fiber.sleepsOn, waits]
      rfl
    · rw [Core.input, Table.find_of_row _ row]
      exact (shaped.parked suspended).2
  · have same : (answered x fiber).live = fiber.live := by
      simp [answered, Fiber.live, suspended, FiberStatus.isTerminal]
    rw [Core.live, Table.update_view row same]
    have seating := coherent.seating
    rw [settled, formed] at seating ⊢
    exact seating.deliver asleep only gone closed

/-- What a group notes changes nothing else. -/
theorem setGroup (coherent : Coherent m.core φ) {G : Group σ} (G' : Group σ)
    (row : m.groups.get? g = some G) (same : G'.parent = G.parent)
    (settles : ∀ c, φ.settling = some c → ∃ i, m.core.place c = some (g, i))
    (formed : ∀ k, φ.forming = some k → k = g)
    (race : ∀ r, G' = .race r → RaceSeated m.core.place m.core.live none g r)
    (all : ∀ a, G' = .all a → AllSeated m.core.place m.core.live none g a) :
    Coherent (m.setGroup g G').core { φ with settling := none, forming := none } := by
  obtain ⟨worker, shaped, family, heirs, agenda, waiting, seating⟩ := coherent
  refine ⟨worker, shaped, family, heirs, agenda, waiting, ?_⟩
  have rows : (m.setGroup g G').groups.get? = Function.update m.groups.get? g (some G') := by
    funext k
    simp only [Machine.setGroup, Table.get?_modify]
    by_cases this : g = k
    · subst this
      simp [row]
    · simp [this, Ne.symm this]
  show Seating (m.setGroup g G').groups.get? _ _ _ _ _ _ _ _ _
  rw [rows]
  exact seating.setGroup row same settles formed race all

theorem get?_setGroup {G G' : Group σ} (row : m.groups.get? g = some G) :
    (m.setGroup g G').groups.get? g = some G' := by
  simp [Machine.setGroup, Table.get?_modify, row]

/-- The next children of a group are started, and some member lives then. -/
theorem fill (coherent : Coherent m.core φ) {all : Gathering σ}
    (row : m.groups.get? g = some (.all all))
    (waits : m.core.awaits all.parent = some g ∨
      (φ.held = some all.parent ∧ φ.opening = some g))
    (stays : φ.leaving ≠ some all.parent) (asked : φ.unasked = []) (settled : φ.settling = none)
    (formed : φ.forming = none) (only : ∀ k, φ.idle = some k → k = g)
    (more : all.isDone = false) : Coherent (m.fill g all).core { φ with idle := none } := by
  have seated : AllSeated m.core.place m.core.live none g all := by
    have := coherent.seating.all row (by simp [formed])
    rwa [settled] at this
  have occupied : all.running ≠ [] → Coherent m.core { φ with idle := none } := by
    intro running
    obtain ⟨worker, shaped, family, heirs, agenda, waiting, seating⟩ := coherent
    refine ⟨worker, shaped, family, heirs, agenda, waiting, seating.occupy fun k idle => ?_⟩
    rw [only k idle]
    exact seated.occupied running
  unfold Machine.fill
  split
  · rename_i failure
    refine occupied fun running => ?_
    have queue := seated.failed (by simpa [← Option.isSome_iff_ne_none] using failure)
    simp [Gathering.isDone, running, queue] at more
  have fertile : Fertile m.core all.parent := by
    rcases waits with asleep | ⟨held, -⟩
    · exact coherent.fertile_of_awaits asleep
    · exact coherent.fertile_of_held held
  have forming : Coherent m.core { φ with idle := some g, forming := some g } := by
    obtain ⟨worker, shaped, family, heirs, agenda, waiting, seating⟩ := coherent
    refine ⟨worker, shaped, family, heirs, agenda, waiting, ?_⟩
    rw [settled, formed] at seating
    show Seating _ _ _ _ _ _ _ φ.settling _ _
    rw [settled]
    exact seating.form only
  obtain ⟨born, made, places⟩ := forming.spawnMembers (p := all.parent) (g := g) fertile stays
    asked settled ⟨rfl, _, row, rfl, waits⟩ all.context
    (all.queue.take (all.limit - all.running.length))
  simp only
  generalize m.spawnMembers all.parent all.context g
    (all.queue.take (all.limit - all.running.length)) = result at born made places ⊢
  obtain ⟨children, m'⟩ := result
  have groups : m'.groups = m.groups := made.groups
  have seated' := made.allSeated seated places
  refine enqueueAll (children.map (·.2)).reverse ?_ (List.reverse_perm _)
  have noted := born.setGroup (g := g) (G := .all all) (.all { all with
      queue := all.queue.drop (all.limit - all.running.length)
      running := all.running ++ children }) (groups ▸ row) rfl (by simp [settled]) (by simp)
    (fun _ h => nomatch h) (fun a h => by
      obtain rfl := Group.all.inj h
      exact seated')
  obtain ⟨worker, shaped, family, heirs, agenda, waiting, seating⟩ := noted
  refine ⟨worker, shaped, family, heirs, agenda, waiting, ?_⟩
  show Seating _ _ _ _ _ _ _ φ.settling _ φ.forming
  rw [settled, formed]
  refine seating.occupy fun k idle => ?_
  obtain rfl := Option.some.inj idle
  refine seated'.occupied ?_
  -- if nobody runs yet there is room for one, and somebody is still to start
  show all.running ++ children ≠ []
  rw [Ne, List.append_eq_nil_iff, not_and]
  intro running none
  have limit := seated.limit_pos
  rw [none, running] at places
  cases queue : all.queue with
  | nil => simp [Gathering.isDone, running, queue] at more
  | cons node nodes =>
      obtain ⟨n, room⟩ : ∃ n, all.limit = n + 1 := ⟨all.limit - 1, by omega⟩
      simp [queue, room] at places

variable {late : Option FiberId} {promise kept : Option (FiberId × Exit)}

/-- A fresh group of the fiber on the worker. -/
theorem pushGroup {G : Group σ} (coherent : Coherent m.core
      { held := some G.parent, promise, kept }) :
    Coherent { m with groups := m.groups.push G }.core {
      held := some G.parent
      opening := some m.groups.nextId
      idle := some m.groups.nextId
      forming := some m.groups.nextId
      promise, kept } := by
  obtain ⟨worker, shaped, family, heirs, agenda, waiting, seating⟩ := coherent
  refine ⟨worker, shaped, family, heirs, agenda, waiting, ?_⟩
  have rows : (m.groups.push G).get? =
      Function.update m.groups.get? m.groups.nextId (some G) := by
    funext k
    rw [Table.get?_push, Function.update_apply]
  show Seating (m.groups.push G).get? _ _ _ _ _ _ _ _ _
  rw [rows]
  exact seating.push (Table.get?_nextId _) rfl

/-- Nobody has a place in a group that is still to come. -/
theorem unplaced_nextId (coherent : Coherent m.core φ) {c : FiberId} {i : Nat} :
    m.core.place c ≠ some (m.groups.nextId, i) := by
  intro placed
  obtain ⟨G, row, -⟩ := coherent.seating.member placed
  simp [Machine.core] at row

theorem map_numbered (nodes : List (Node σ)) :
    (Machine.numbered nodes).map (·.1) = List.range nodes.length := by
  simp [Machine.numbered, List.mapIdx_eq_zipIdx_map, List.map_map, Function.comp_def,
    List.zipIdx_map_snd, List.range_eq_range']

/-- The fiber on the worker starts a race. -/
theorem startRace (coherent : Coherent m.core { held := some p, promise, kept })
    (context : Context Value) {nodes : List (Node σ)} (nonempty : nodes ≠ []) :
    Coherent (m.startRace p context nodes).2.core
      { held := some p, opening := some (m.startRace p context nodes).1, promise, kept } := by
  have empty := fun {c i} => coherent.unplaced_nextId (c := c) (i := i)
  let race : Race := { parent := p, members := [], remaining := nodes.length }
  have pushed := pushGroup (G := .race race) coherent
  have row : (m.groups.push (.race race)).get? m.groups.nextId = some (.race race) :=
    Table.get?_push_self _ _
  obtain ⟨born, made, places⟩ := pushed.spawnMembers (p := p) (g := m.groups.nextId)
    (coherent.fertile_of_held rfl) (by simp) rfl rfl ⟨rfl, _, row, rfl, .inr ⟨rfl, rfl⟩⟩ context
    (Machine.numbered nodes)
  simp only [Machine.startRace]
  generalize Machine.spawnMembers _ p context m.groups.nextId (Machine.numbered nodes) = result
    at born made places ⊢
  obtain ⟨children, m'⟩ := result
  have groups : m'.groups = _ := made.groups
  have length : children.length = nodes.length := by
    have := congrArg List.length places
    simpa [map_numbered] using this
  have seated := made.raceSeated empty p
  rw [length] at seated
  refine enqueueAll (children.map (·.2)).reverse ?_ (List.reverse_perm _)
  have row' : m'.groups.get? m.groups.nextId = some (.race race) := by
    rw [groups]
    exact row
  have noted := born.setGroup
    (.race { parent := p, members := children.map (·.2), remaining := nodes.length }) row' rfl
    (by simp) (by simp) (fun r h => by
      obtain rfl := Group.race.inj h
      exact seated) (fun _ h => nomatch h)
  obtain ⟨worker, shaped, family, heirs, agenda, waiting, seating⟩ := noted
  refine ⟨worker, shaped, family, heirs, agenda, waiting, seating.occupy fun k idle => ?_⟩
  obtain rfl := Option.some.inj idle
  refine seated.occupied ?_
  simpa using nonempty

/-- The fiber on the worker starts many effects at once. -/
theorem startAll (coherent : Coherent m.core { held := some p, promise, kept })
    (context : Context Value) {nodes : List (Node σ)} (nonempty : nodes ≠ [])
    (options : AllOptions) :
    Coherent (m.startAll p context nodes options).2.core
      { held := some p, promise, kept
        opening := some (m.startAll p context nodes options).1 } := by
  have empty := fun {c i} => coherent.unplaced_nextId (c := c) (i := i)
  let all := Gathering.task p context nodes options
  have pushed := pushGroup (G := .all all) coherent
  have row : (m.groups.push (.all all)).get? m.groups.nextId = some (.all all) :=
    Table.get?_push_self _ _
  have seated : AllSeated m.core.place m.core.live none m.groups.nextId all := by
    refine ⟨Concurrency.one_le_limit _ _, ?_, fun h => (List.not_mem_nil h).elim,
      fun _ h => absurd h empty, fun h => absurd rfl h⟩
    show ((Machine.numbered nodes).map (·.1)).Nodup
    rw [map_numbered]
    exact List.nodup_range
  have formed : Coherent { m with groups := m.groups.push (.all all) }.core {
      held := some p, opening := some m.groups.nextId, idle := some m.groups.nextId, promise,
      kept } := by
    obtain ⟨worker, shaped, family, heirs, agenda, waiting, seating⟩ := pushed
    refine ⟨worker, shaped, family, heirs, agenda, waiting,
      seating.formed (fun r h => ?_) fun a h => ?_⟩
    · cases h.symm.trans row
    · obtain rfl := Group.all.inj (Option.some.inj (h.symm.trans row))
      exact seated
  refine formed.fill row ?_ ?_ rfl rfl rfl ?_ ?_
  · exact .inr ⟨rfl, rfl⟩
  · simp
  · simp
  · have : Machine.numbered nodes ≠ [] := by simpa [Machine.numbered] using nonempty
    simp [Gathering.isDone, this]

/-! ## The end of a member -/

/-- A member of a race has ended. -/
theorem raceExit {race : Race} {i : Nat} (coherent : Coherent m.core
      { settling := some f, idle := some g, late, promise, kept })
    (row : m.groups.get? g = some (.race race)) (placed : m.core.place f = some (g, i))
    (gone : m.core.live f = some false) (exit : Exit) :
    Coherent (m.raceExit g race exit).core { late, promise, kept } := by
  have asleep : m.core.awaits race.parent = some g := by
    rcases coherent.seating.awaited placed (.inr rfl) row with h | ⟨h, -⟩
    · exact h
    · cases h
  have seated := (coherent.seating.race row (by simp)).settle placed (by simp [gone])
    (some (race.winner.getD exit))
  let settled : Race :=
    { race with remaining := race.remaining - 1, winner := some (race.winner.getD exit) }
  have noted : Coherent (m.setGroup g (.race settled)).core
      { idle := some g, late, promise, kept } :=
    coherent.setGroup _ row rfl
      (fun c h => by
        obtain rfl := Option.some.inj h
        exact ⟨i, placed⟩)
      (by simp) (fun r h => by
        obtain rfl := Group.race.inj h
        exact seated) (fun _ h => nomatch h)
  have row' : (m.setGroup g (.race settled)).groups.get? g = some (.race settled) :=
    get?_setGroup row
  -- interrupting the losers changes neither the group nor who waits for it
  obtain ⟨m', calm, coherent', same⟩ : ∃ m', Calm (m.setGroup g (.race settled)).core m'.core ∧
      Coherent (σ := σ) m'.core { idle := some g, late, promise, kept } ∧
      m.raceExit g race exit =
        if settled.remaining = 0 then m'.deliver race.parent (race.winner.getD exit) else m' := by
    refine ⟨_, ?_, ?_, rfl⟩
    · split
      · exact .refl _
      · have := calm_interruptAll ((m.setGroup g (.race settled)).trace
          (.raceSettled race.parent (race.members.length - 1))) race.members
        rwa [Machine.core_trace_of_quiet _ rfl rfl] at this
    · split
      · exact noted
      · exact (noted.trace rfl rfl).interruptAll _
  rw [same]
  have seated' := coherent'.seating.race (calm.row row') (by simp)
  split
  · rename_i last
    exact coherent'.deliver (calm.awaits ▸ asleep) rfl rfl (by simp) (by simp)
      (fun {c i} placed => seated'.deserted last placed) _
  · rename_i more
    obtain ⟨worker, shaped, family, heirs, agenda, waiting, seating⟩ := coherent'
    refine ⟨worker, shaped, family, heirs, agenda, waiting, seating.occupy fun k idle => ?_⟩
    obtain rfl := Option.some.inj idle
    exact seated'.occupied more

/-- A child among many has ended. -/
theorem allExit {all : Gathering σ} {i : Nat} (coherent : Coherent m.core
      { settling := some f, idle := some g, late, promise, kept })
    (row : m.groups.get? g = some (.all all)) (placed : m.core.place f = some (g, i))
    (gone : m.core.live f = some false) (exit : Exit) :
    Coherent (m.allExit g all i exit).core { late, promise, kept } := by
  have asleep : m.core.awaits all.parent = some g := by
    rcases coherent.seating.awaited placed (.inr rfl) row with h | ⟨h, -⟩
    · exact h
    · cases h
  have seated := (coherent.seating.all row (by simp)).settle placed (by simp [gone]) exit
    (m.isInterrupted all.parent)
  obtain ⟨-, -, parent, -⟩ := Gathering.settle_cases all i exit (m.isInterrupted all.parent)
  unfold Machine.allExit
  generalize all.settle i exit (m.isInterrupted all.parent) = result at seated parent ⊢
  obtain ⟨siblings, settled⟩ := result
  simp only at seated parent ⊢
  have noted : Coherent (m.setGroup g (.all settled)).core
      { idle := some g, late, promise, kept } :=
    coherent.setGroup _ row parent
      (fun c h => by
        obtain rfl := Option.some.inj h
        exact ⟨i, placed⟩)
      (by simp) (fun _ h => nomatch h) (fun a h => by
        obtain rfl := Group.all.inj h
        exact seated)
  have row' : (m.setGroup g (.all settled)).groups.get? g = some (.all settled) :=
    get?_setGroup row
  obtain ⟨m', calm, coherent', same⟩ : ∃ m', Calm (m.setGroup g (.all settled)).core m'.core ∧
      Coherent (σ := σ) m'.core { idle := some g, late, promise, kept } ∧
      (if siblings.isEmpty then m.setGroup g (.all settled)
        else ((m.setGroup g (.all settled)).trace
          (.allFailed settled.parent siblings.length)).interruptAll siblings) = m' := by
    refine ⟨_, ?_, ?_, rfl⟩
    · split
      · exact .refl _
      · have := calm_interruptAll ((m.setGroup g (.all settled)).trace
          (.allFailed settled.parent siblings.length)) siblings
        rwa [Machine.core_trace_of_quiet _ rfl rfl] at this
    · split
      · exact noted
      · exact (noted.trace rfl rfl).interruptAll _
  rw [same]
  have asleep' : m'.core.awaits settled.parent = some g := by
    rw [parent, calm.awaits]
    exact asleep
  have row'' : m'.groups.get? g = some (.all settled) := calm.row row'
  have seated' := coherent'.seating.all row'' (by simp)
  split
  · rename_i done
    have nobody : settled.running = [] := by
      simp only [Gathering.isDone, Bool.and_eq_true, List.isEmpty_iff] at done
      exact done.1
    exact coherent'.deliver asleep' rfl rfl (by simp) (by simp)
      (fun {c i} placed => seated'.deserted nobody placed) _
  · rename_i more
    exact coherent'.fill row'' (.inl asleep') (by simp) rfl rfl rfl (by simp) (by simpa using more)

/-- The exit of a member reaches its group. -/
theorem memberExit {i : Nat} (coherent : Coherent m.core
      { settling := some f, idle := some g, late, promise, kept })
    (placed : m.core.place f = some (g, i)) (gone : m.core.live f = some false) (exit : Exit) :
    Coherent (m.memberExit g i exit).core { late, promise, kept } := by
  obtain ⟨G, row, -⟩ := coherent.seating.member placed
  have row' : m.groups.get? g = some G := row
  unfold Machine.memberExit
  cases G with
  | race race =>
      rw [row']
      exact coherent.raceExit row placed gone exit
  | all all =>
      rw [row']
      exact coherent.allExit row placed gone exit

end Coherent

end EffectFibers
