import EffectFibers.Proofs.Layers.Waiting
import EffectFibers.Proofs.LayersOnce

/-!
# Nobody who waits for a layer is forgotten

A fiber that waits for a layer is on the list of the build that is under way, on no other list, and
on this one once.  At the end of the build everybody on the list is told in the same step: to look
again if the build has succeeded or was interrupted, and else a copy of the cause, made in the way
of the layer.  Nobody else is told anything, and nobody is told twice.

Who was told to look again does so in its next step, unless it is interrupted.  It may find the
context of the layer, or another fiber that builds it, and then it waits again, or nothing, and then
it builds the layer itself.  So after a build that was interrupted one fiber builds the layer, as
long as this build is under way.

## Main definitions

* `Moment.EndsBuild` – an exit comes to the frame of a fiber that builds a layer.
* `Moment.WaiterCourse` – how a wait for a build goes on.
* `Moment.WaitersTold` – what is known about those who wait for the layers of a run.

## Main statements

* `Moment.Reachable.waiters_are_told` – it holds at every moment, for every run.
-/

namespace EffectFibers

variable {σ : Type}

namespace Moment

/-- The build of a layer ends: an exit reaches the frame of the fiber that builds it. -/
def EndsBuild (μ : Moment σ) (g : FiberId) (s : ScopeId) (layer : LayerNode σ) (x : Exit) : Prop :=
  ∃ t build rest below, μ.strideAt g .work = some t ∧ t.scope = s ∧
    t.Hands (.layers build :: below) x ∧ build.owning = true ∧ build.todo = layer :: rest

/-- The fiber that builds a layer. -/
def building? (μ : Moment σ) (s : ScopeId) (l : LayerId) : Option FiberId :=
  (μ.machine.memo s).builder? l

/-- A wait is on the list of a build that is under way. -/
def WaitsFor (μ : Moment σ) (s : ScopeId) (l : LayerId) (g : FiberId) (w : WaitId) : Prop :=
  ∃ waiters, (μ.machine.memo s).get? l = some (.building g waiters) ∧ w ∈ waiters

/-- A wait is over: it is on no list, and nobody has it open. -/
def IsOver (μ : Moment σ) (w : WaitId) : Prop :=
  (∀ s l, w ∉ (μ.machine.memo s).waiters l) ∧ ∀ h, ¬ μ.machine.OpenFor h w

/-- How a wait for a build goes on in a run. -/
inductive WaiterCourse (s : ScopeId) (l : LayerId) (g : FiberId) (w : WaitId) (μ : Moment σ) :
    List (Event σ) → Prop
  /-- It stays on the list of the build. -/
  | waits {events} (listed : ∀ before, before <+: events → (μ.run before).WaitsFor s l g w) :
    WaiterCourse s l g w μ events
  /-- The build ends.  Then a fiber that still sleeps on the wait is told, and the wait is over. -/
  | told {before after layer x}
    (listed : ∀ first, first <+: before → (μ.run first).WaitsFor s l g w) (same : layer.id = l)
    (ends : (μ.run before).EndsBuild g s layer x)
    (told : ∀ h run c, (μ.run before).position? h = some (.asleep run (.wait w c)) →
      ((μ.run before).apply .work).position? h = some (.answered run (layer.verdict x)))
    (shut : ∀ later, later <+: after → (((μ.run before).apply .work).run later).IsOver w) :
    WaiterCourse s l g w μ (before ++ .work :: after)

/-- What a fiber does when it looks at a layer that it has waited for. -/
inductive LooksAgain (μ : Moment σ) (f : FiberId) (s : ScopeId) (build : LayerBuild σ)
    (layer : LayerNode σ) (rest : List (LayerNode σ)) (below : List (Frame σ)) (t : Stride σ) : Prop
  /-- Nobody builds it: the fiber claims it and evaluates its constructor. -/
  | claims (free : (μ.machine.memo s).get? layer.id = none)
    (claimed : ((μ.apply .work).machine.memo s).get? layer.id = some (.building f []))
    (goes : t.result.control = .eval layer.build)
    (frame : t.result.run.stack =
      .layers { build with todo := layer :: rest, owning := true } :: below)
  /-- Another build is under way: it waits for this one. -/
  | waits {g waiters} (busy : (μ.machine.memo s).get? layer.id = some (.building g waiters))
    (same : (μ.apply .work).machine.memo s = μ.machine.memo s)
    (goes : t.result.control = .eval (.awaitBuild layer.id))
    (frame : t.result.run.stack =
      .layers { build with todo := layer :: rest, owning := false } :: below)
  /-- It is built: the fiber goes on with the rest of its plan. -/
  | uses {c} (built : (μ.machine.memo s).get? layer.id = some (.built c))
    (goes : t.result = t.machine.advanceLayers f s { t.slice.run with stack := below }
      { build with built := build.built.merge c } rest)

/-- What comes of it that a fiber asks for the end of a build: it is entered in the list of the
build that is under way, and has no answer yet; or there is none, and it is told at once to look
again. -/
def AsksForBuild (μ : Moment σ) (f : FiberId) (s : ScopeId) (l : LayerId) : Prop :=
  ∃ p, (μ.apply .work).position? f = some p ∧
    ((∃ g w, μ.building? s l = some g ∧ p.openWait? = some w ∧
      (μ.apply .work).WaitsFor s l g w) ∨
    μ.building? s l = none ∧ ∃ run, p.told? = some (run, .ok .null))

variable {μ : Moment σ} {f g h : FiberId} {s : ScopeId} {l : LayerId} {w : WaitId}
  {event : Event σ} {t : Stride σ} {x : Exit} {layer : LayerNode σ}

/-! ## The end of a build -/

/-- A claim stays, and its list grows, until the build ends. -/
theorem Reachable.building_apply (reachable : Reachable μ) {waiters : List WaitId}
    (building : (μ.machine.memo s).get? l = some (.building g waiters)) (event : Event σ) :
    (∃ more, ((μ.apply event).machine.memo s).get? l = some (.building g (waiters ++ more))) ∨
      event = .work ∧ ∃ layer x, layer.id = l ∧ μ.EndsBuild g s layer x := by
  have stays : ∀ {memo : Memo}, memo.get? l = (μ.machine.memo s).get? l →
      ∃ more, memo.get? l = some (.building g (waiters ++ more)) := fun same =>
    ⟨[], by rw [same, building, List.append_nil]⟩
  rcases reachable.files_or_same event s with same | ⟨f, t, stride, scope, files⟩
  · exact .inl (stays (by rw [same]))
  · cases files with
    | same same => exact .inl (stays (by rw [same]))
    | @claims k free entry =>
        refine .inl (stays ?_)
        rw [entry, Memo.get?_insert, if_neg]
        rintro rfl
        cases free.symm.trans building
    | @joins k g' waiters' building' next entry =>
        rw [entry, Memo.get?_insert]
        split
        · rename_i here
          subst here
          cases building'.symm.trans building
          exact .inl ⟨_, rfl⟩
        · exact .inl (stays rfl)
    | @ends x build layer rest below waiters' next top owning todo building' gone others told =>
        by_cases here : l = layer.id
        · subst here
          cases building'.symm.trans building
          obtain rfl := (strideAt_eq_some_iff.1 stride).1
          exact .inr ⟨rfl, layer, x, rfl, t, build, rest, below, stride, scope, ⟨next, top⟩, owning,
            todo⟩
        · rcases others l here with same | ⟨free, -⟩
          · exact .inl (stays same)
          · cases free.symm.trans building

/-- At the end of a build there is something else in place of the claim, and everybody on the list
is told. -/
theorem Reachable.wake_of_ends (reachable : Reachable μ) (ends : μ.EndsBuild g s layer x) :
    (∃ waiters, (μ.machine.memo s).get? layer.id = some (.building g waiters)) ∧
      ((μ.apply .work).machine.memo s).waiters layer.id = [] ∧
      ∃ n : Machine σ, n.fibers = μ.machine.fibers ∧ n.waits = μ.machine.waits ∧
        let told := n.wake ((μ.machine.memo s).waiters layer.id) (layer.verdict x)
        (μ.apply .work).machine.fibers = told.fibers ∧
          (μ.apply .work).machine.waits = told.waits := by
  obtain ⟨t, build, rest, below, stride, rfl, hands, owning, todo⟩ := ends
  obtain ⟨-, agrees⟩ := reachable.agrees_of_stride reachable.orderly stride
  rw [hands.2, (machine_of_stride stride).1] at agrees
  obtain ⟨claimed, -⟩ := agrees.of_owns (l := layer.id) (by simp [Frame.owns, owning, todo])
  obtain ⟨waiters, building⟩ := Memo.builder?_eq_some_iff.1 claimed
  have building : (μ.machine.memo t.scope).get? layer.id = some (.building g waiters) := building
  have gone := reachable.entry_of_hands stride hands owning todo
  -- the claim is gone, so the step has ended the build
  have changed : ((μ.apply .work).machine.memo t.scope).get? layer.id ≠
      (μ.machine.memo t.scope).get? layer.id := by
    rw [gone, building]
    cases Machine.contextOf x <;> simp
  refine ⟨⟨waiters, building⟩, ?_, ?_⟩
  · rw [Memo.waiters, gone]
    cases Machine.contextOf x <;> rfl
  · cases reachable.files stride with
    | same same => exact absurd (by rw [same]) changed
    | @claims k free entry =>
        refine absurd ?_ changed
        rw [entry, Memo.get?_insert, if_neg]
        rintro rfl
        cases free.symm.trans building
    | joins _ next _ => cases next.symm.trans hands.1
    | @ends x' build' layer' rest' below' waiters' next top owning' todo' building' _ _ told =>
        cases next.symm.trans hands.1
        cases top.symm.trans hands.2
        cases todo'.symm.trans todo
        rwa [Memo.waiters_of_building building']

/-- While a fiber takes a step, all others are off the worker. -/
theorem Reachable.free_of_stride (reachable : Reachable μ) (stride : μ.strideAt g event = some t)
    {fiber : Fiber σ} (row : μ.machine.fiber? h = some fiber) (other : h ≠ g) :
    μ.held ≠ some h ∧ (μ.apply event).held ≠ some h := by
  obtain ⟨rfl, free, running, own, -⟩ := strideAt_eq_some_iff.1 stride
  have held : μ.held = some g := by simp [Moment.held, free, running, own]
  have idle : μ.held ≠ some h := fun here => other (Option.some.inj (here.symm.trans held))
  refine ⟨idle, free_after reachable.isCoherent (reachable.apply _).isCoherent reachable.tidy row
    idle ?_⟩
  rw [actor, held]
  exact fun here => other (Option.some.inj here).symm

/-- At the end of a build, whoever still sleeps on a wait on the list is told. -/
theorem Reachable.answered_of_ends (reachable : Reachable μ) (ends : μ.EndsBuild g s layer x)
    (listed : w ∈ (μ.machine.memo s).waiters layer.id) {run : RunState σ} {c : Canceler σ}
    (asleep : μ.position? h = some (.asleep run (.wait w c))) :
    (μ.apply .work).position? h = some (.answered run (layer.verdict x)) := by
  obtain ⟨-, -, n, fibers, waits, fibers', -⟩ := reachable.wake_of_ends ends
  obtain ⟨t, -, -, -, stride, -⟩ := ends
  obtain ⟨fiber, row, stands⟩ := Option.map_eq_some_iff.1 asleep
  have other : h ≠ g := by
    rintro rfl
    cases asleep.symm.trans (reachable.stride stride).2.1
  obtain ⟨free, free'⟩ := reachable.free_of_stride stride row other
  rw [grip_eq_none_iff.2 free, Fiber.positionOn, Fiber.position] at stands
  obtain ⟨saved, pending⟩ : fiber.run = some run ∧ fiber.pending = some (.wait w c) := by
    split at stands <;> simp_all
  have suspended : fiber.status = .suspended :=
    (shaped_of_isCoherent reachable.isCoherent row).asleep.2 (by simp [pending])
  have opens : ∀ v, n.OpenFor h v ↔ v = w := fun v => by
    have known := openFor_iff reachable.isCoherent (w := v) asleep
    rw [Machine.OpenFor, ← waits] at known
    exact known.trans ⟨fun same => (Option.some.inj same).symm, congrArg some ∘ Eq.symm⟩
  have row' : (μ.apply .work).machine.fiber? h =
      some (Coherent.answered (layer.verdict x) fiber) := by
    rw [Machine.fiber?, fibers']
    exact Machine.row_wake (by rw [Machine.fiber?, fibers]; exact row) suspended ((opens w).2 rfl)
      (fun v => (opens v).1) listed
  rw [position?_of_saved row' free']
  simp [Fiber.position, Coherent.answered, saved]

/-- And nobody else. -/
theorem Reachable.spared_of_ends (reachable : Reachable μ) (ends : μ.EndsBuild g s layer x)
    {p : Position σ} (position : μ.position? h = some p) (other : h ≠ g)
    (unlisted : ∀ w, p.openWait? = some w → w ∉ (μ.machine.memo s).waiters layer.id) :
    (μ.apply .work).position? h = some p := by
  obtain ⟨-, -, n, fibers, waits, fibers', -⟩ := reachable.wake_of_ends ends
  obtain ⟨t, -, -, -, stride, -⟩ := ends
  obtain ⟨fiber, row, rfl⟩ := Option.map_eq_some_iff.1 position
  obtain ⟨free, free'⟩ := reachable.free_of_stride stride row other
  have row' : (μ.apply .work).machine.fiber? h = some fiber := by
    rw [Machine.fiber?, fibers']
    refine Machine.row_wake_of_closed (by rw [Machine.fiber?, fibers]; exact row)
      fun w listed opened => unlisted w ?_ listed
    rw [Machine.OpenFor, waits] at opened
    exact (openFor_iff reachable.isCoherent position).1 opened
  rw [position?_of_saved row' free', grip_eq_none_iff.2 free]
  rfl

/-! ## Waits that are over -/

/-- What was on the list of a build that has ended is over. -/
theorem Reachable.over_of_ends (reachable : Reachable μ) (ends : μ.EndsBuild g s layer x)
    (listed : w ∈ (μ.machine.memo s).waiters layer.id) : (μ.apply .work).IsOver w := by
  obtain ⟨-, gone, n, -, waits, -, waits'⟩ := reachable.wake_of_ends ends
  refine ⟨fun s' l' listed' => ?_, fun h opened => ?_⟩
  · rcases reachable.listed_before .work with kept | ⟨s₀, l₀, joined, others⟩
    · rcases kept s' l' with same | none
      · obtain ⟨rfl, rfl⟩ := reachable.lists.apart listed (same ▸ listed')
        rw [gone] at listed'
        cases listed'
      · rw [none] at listed'
        cases listed'
    · by_cases other : s ≠ s₀ ∨ layer.id ≠ l₀
      · rw [← others _ _ other, gone] at listed
        cases listed
      · rw [not_or, not_not, not_not] at other
        rw [← other.1, ← other.2, gone] at joined
        simp at joined
  · rw [Machine.OpenFor, waits'] at opened
    exact (Machine.openFor_wake.1 opened).2 listed

/-- A wait that is over stays so. -/
theorem Reachable.over_apply (reachable : Reachable μ) (known : (μ.machine.waits.get? w).isSome)
    (shut : μ.IsOver w) (event : Event σ) :
    (μ.apply event).IsOver w ∧ ((μ.apply event).machine.waits.get? w).isSome := by
  obtain ⟨wait, found⟩ := Option.isSome_iff_exists.1 known
  obtain ⟨wait', found', owner, -, claimed⟩ :=
    (evolves reachable.isCoherent reachable.tidy event).keepsWaits found
  refine ⟨⟨fun s l listed => ?_, ?_⟩, by simp [found']⟩
  · rcases reachable.listed_before event with kept | ⟨s₀, l₀, joined, others⟩
    · rcases kept s l with same | none
      · exact shut.1 s l (same ▸ listed)
      · rw [none] at listed
        cases listed
    · by_cases other : s ≠ s₀ ∨ l ≠ l₀
      · exact shut.1 s l (others s l other ▸ listed)
      · rw [not_or, not_not, not_not] at other
        obtain ⟨rfl, rfl⟩ := other
        rw [joined, List.mem_append, List.mem_singleton] at listed
        rcases listed with before | rfl
        · exact shut.1 s l before
        · simp at found
  · rintro h ⟨wait'', found'', free, -⟩
    obtain rfl := Option.some.inj (found'.symm.trans found'')
    cases unclaimed : wait.claimed with
    | true => cases free.symm.trans (claimed unclaimed)
    | false => exact shut.2 wait.owner ⟨wait, found, unclaimed, rfl⟩

theorem Reachable.over_run (reachable : Reachable μ) (known : (μ.machine.waits.get? w).isSome)
    (shut : μ.IsOver w) (events : List (Event σ)) : (μ.run events).IsOver w := by
  induction events generalizing μ with
  | nil => exact shut
  | cons event events ih =>
      obtain ⟨shut', known'⟩ := reachable.over_apply known shut event
      exact ih (reachable.apply event) known' shut'

/-! ## The course of a wait -/

theorem WaitsFor.mem (waits : μ.WaitsFor s l g w) : w ∈ (μ.machine.memo s).waiters l := by
  obtain ⟨waiters, building, listed⟩ := waits
  rwa [Memo.waiters_of_building building]

/-- A moment more at which a wait is on the list. -/
theorem WaiterCourse.cons {events : List (Event σ)} (waits : μ.WaitsFor s l g w)
    (course : WaiterCourse s l g w (μ.apply event) events) :
    WaiterCourse s l g w μ (event :: events) := by
  have longer : ∀ before : List (Event σ), (∀ first, first <+: before →
      ((μ.apply event).run first).WaitsFor s l g w) → ∀ first, first <+: event :: before →
      (μ.run first).WaitsFor s l g w := by
    intro before listed first short
    cases first with
    | nil => exact waits
    | cons event' first =>
        obtain ⟨rfl, shorter⟩ := List.cons_prefix_cons.1 short
        exact listed first shorter
  cases course with
  | waits listed => exact .waits (longer events listed)
  | told listed same ends told shut =>
      rw [← List.cons_append]
      exact .told (longer _ listed) same ends told shut

theorem Reachable.waiter_course (reachable : Reachable μ) (waits : μ.WaitsFor s l g w)
    (events : List (Event σ)) : WaiterCourse s l g w μ events := by
  induction events generalizing μ with
  | nil =>
      refine .waits fun before short => ?_
      rw [List.prefix_nil.1 short]
      exact waits
  | cons event events ih =>
      obtain ⟨waiters, building, listed⟩ := id waits
      rcases reachable.building_apply building event with
        ⟨more, after⟩ | ⟨rfl, layer, x, rfl, ends⟩
      · exact (ih (reachable.apply event) ⟨_, after, List.mem_append_left _ listed⟩).cons waits
      · obtain ⟨wait, found, -⟩ := reachable.tidy.builders ⟨s, layer.id, waits.mem⟩
        have shut := reachable.over_of_ends ends waits.mem
        obtain ⟨wait', found', -⟩ :=
          (evolves reachable.isCoherent reachable.tidy .work).keepsWaits found
        rw [← List.nil_append (.work :: events)]
        refine .told (fun first short => ?_) rfl ends
          (fun h run c asleep => reachable.answered_of_ends ends waits.mem asleep)
          fun later _ => (reachable.apply .work).over_run (by rw [found']; rfl) shut later
        rw [List.prefix_nil.1 short]
        exact waits

/-! ## Those who were told -/

/-- Before its next step, a fiber that was told something stays where it is, or gets ready to hand
it on, unless an interrupt takes the place of it. -/
theorem moves_of_told {m m' : Machine σ} {p p' : Position σ} {run : RunState σ}
    (told : p.told? = some (run, x)) (moves : m.Moves m' h p p') : p' = p ∨
      ∃ y, p' = .ready { run with next := .done y } ∧
        (y = x ∨ y = .interrupted ∧ m.interruptPending h run = true) := by
  have after : ∃ y, Position.ready (m.afterWait h run x) = .ready { run with next := .done y } ∧
      (y = x ∨ y = .interrupted ∧ m.interruptPending h run = true) := by
    refine ⟨_, rfl, ?_⟩
    split <;> simp_all
  unfold Position.told? at told
  split at told
  · obtain ⟨rfl, rfl⟩ := Prod.mk.inj (Option.some.inj told)
    cases moves with
    | stays => exact .inl rfl
    | resumes => exact .inr after
  · obtain ⟨rfl, rfl⟩ := Prod.mk.inj (Option.some.inj told)
    cases moves with
    | stays => exact .inl rfl
    | takes => exact .inr after
  · cases told

/-- Whoever was told hands on what it was told in its next step, unless it is interrupted. -/
theorem Reachable.takes_of_told (reachable : Reachable μ) {p : Position σ} {run : RunState σ}
    (position : μ.position? h = some p) (told : p.told? = some (run, x)) (events : List (Event σ)) :
    Idles h μ events ∨ Takes h (fun t => t.slice.run = { run with next := .done x } ∨
      t.slice.run = { run with next := .done .interrupted } ∧
        ∃ before, before <+: events ∧ (μ.run before).machine.interruptPending h run = true)
      (fun _ _ => True) μ events := by
  have left : p.run? = some run := by
    unfold Position.told? at told
    split at told <;> simp_all [Position.run?]
  have unready : ∀ {run}, p ≠ .ready run := by
    rintro run rfl
    cases told
  induction events generalizing μ p with
  | nil =>
      exact .inl ⟨rfl, live_of_rest? reachable.isCoherent ((rest?_of_position position).trans left)⟩
  | cons event events ih =>
      have still : μ.strideAt h event = none :=
        reachable.still_of_unready
          (fun _ ready => unready (Option.some.inj (position.symm.trans ready))) event
      have quiet : ∀ {before : List (Event σ)}, strides h (μ.apply event) before = [] →
          strides h μ (event :: before) = [] := fun none => by simp [strides, still, none]
      obtain ⟨p', position', moves⟩ := reachable.moves position still
      rcases moves_of_told told moves with rfl | ⟨y, rfl, which⟩
      · rcases ih (reachable.apply event) position' told left unready with
          ⟨none, live⟩ | ⟨before, after, t, rfl, none, stride, first, -⟩
        · exact .inl ⟨quiet none, live⟩
        · refine .inr ⟨event :: before, after, t, rfl, quiet none, stride, ?_, trivial⟩
          rcases first with same | ⟨same, early, short, pending⟩
          · exact .inl same
          · exact .inr ⟨same, event :: early, List.cons_prefix_cons.2 ⟨rfl, short⟩, pending⟩
      · have next : (μ.apply event).Next h { run with next := .done y } := .ready position'
        have course : Idles h (μ.apply event) events ∨
            Takes h (·.slice.run = { run with next := .done y }) (fun _ _ => True)
              (μ.apply event) events :=
          (reachable.apply event).idles_or_takes next (by rintro node ⟨⟩)
            (fun _ _ _ => trivial) events
        rcases course with
          ⟨none, live⟩ | ⟨before, after, t, rfl, none, stride, same, -⟩
        · exact .inl ⟨quiet none, live⟩
        · refine .inr ⟨event :: before, after, t, rfl, quiet none, stride, ?_, trivial⟩
          rcases which with rfl | ⟨rfl, pending⟩
          · exact .inl same
          · exact .inr ⟨same, [], List.nil_prefix, pending⟩

/-- Whoever is told to look again looks again. -/
theorem Reachable.looks_again (reachable : Reachable μ) (stride : μ.strideAt h .work = some t)
    {build : LayerBuild σ} {layer : LayerNode σ} {rest : List (LayerNode σ)}
    {below : List (Frame σ)} {v : Value} (hands : t.Hands (.layers build :: below) (.ok v))
    (waiting : build.owning = false) (todo : build.todo = layer :: rest) :
    μ.LooksAgain h t.scope build layer rest below t := by
  obtain ⟨own, -⟩ := reachable.stride stride
  obtain ⟨known, -⟩ := reachable.agrees_of_stride reachable.orderly stride
  obtain ⟨machine, work⟩ := machine_of_stride stride
  have memo : t.machine.memo t.scope = μ.machine.memo t.scope := by rw [machine]; rfl
  have step : t.result = t.machine.advanceLayers h t.scope { t.slice.run with stack := below } build
      (layer :: rest) := by
    rw [Stride.result, own, Machine.stepRun_done hands.1 hands.2]
    simp [Machine.resumeFrame, Machine.resumeLayers, waiting, todo]
  cases found : (μ.machine.memo t.scope).get? layer.id with
  | none =>
      have looked : t.result = { control := .eval layer.build
                                 run := { ({ t.slice.run with stack := below } : RunState σ).push
                                   (.layers { build with todo := layer :: rest, owning := true })
                                   with context := build.outer.merge build.built }
                                 machine := (t.machine.lookUpLayer t.scope layer h).2 } := by
        rw [step, Machine.advanceLayers, Machine.lookUpLayer, memo, found]
      refine .claims found ?_ (by rw [looked]) (by rw [looked]; rfl)
      rw [work, looked, Machine.lookUpLayer, memo, found]
      show ((t.machine.modifyMemo t.scope _).memo t.scope).get? layer.id = _
      rw [Machine.memo_modifyMemo known, if_pos rfl, Memo.get?_insert, if_pos rfl]
  | some entry =>
      cases entry with
      | building g waiters =>
          have looked : t.result = { control := .eval (.awaitBuild layer.id)
                                     run := ({ t.slice.run with stack := below } : RunState σ).push
                                       (.layers
                                         { build with todo := layer :: rest, owning := false })
                                     machine := t.machine } := by
            rw [step, Machine.advanceLayers, Machine.lookUpLayer, memo, found]
          refine .waits found ?_ (by rw [looked]) (by rw [looked]; rfl)
          rw [work, looked]
          exact memo
      | built c =>
          refine .uses found ?_
          rw [step, Machine.advanceLayers, Machine.lookUpLayer, memo, found]

/-- A fiber that asks for the end of a build opens a wait, which joins the build if there is one. -/
theorem Reachable.stands_of_awaitBuild (reachable : Reachable μ)
    (stride : μ.strideAt f .work = some t) (next : t.slice.run.next = .eval (.awaitBuild l))
    (calm : t.machine.interruptPending f t.slice.run = false) :
    (μ.apply .work).machine =
        (t.machine.openWait f .build).2.joinBuild t.scope l t.machine.waits.nextId ∧
      ∃ answer, (μ.apply .work).position? f = some (.stepped t.result.run
        (.suspend (.wait t.machine.waits.nextId .none)) answer) := by
  obtain ⟨own, -, answer, stepped, -⟩ := reachable.stride stride
  have step : t.result = t.machine.evalAwaitBuild f t.scope t.slice.run l := by
    rw [Stride.result, own, Machine.stepRun_eval next, Machine.eval, calm, Bool.and_false]
    rfl
  refine ⟨?_, answer, ?_⟩
  · rw [(machine_of_stride stride).2, step]
    rfl
  · rw [stepped, step]
    rfl

/-- The wait that it opens. -/
theorem get?_openWait (m : Machine σ) (f : FiberId) :
    (m.openWait f .build).2.waits.get? m.waits.nextId = some { owner := f, source := .build } :=
  Table.get?_push_self ..

/-- If the layer is being built, the fiber is put on the list, and its wait is open. -/
theorem Reachable.joins_of_building (reachable : Reachable μ)
    (stride : μ.strideAt f .work = some t) (building : μ.building? t.scope l = some g)
    (joins : (μ.apply .work).machine =
      (t.machine.openWait f .build).2.joinBuild t.scope l t.machine.waits.nextId) :
    (μ.apply .work).machine.OpenFor f t.machine.waits.nextId ∧
      (μ.apply .work).WaitsFor t.scope l g t.machine.waits.nextId := by
  obtain ⟨known, -⟩ := reachable.agrees_of_stride reachable.orderly stride
  obtain ⟨waiters, entry⟩ := Memo.builder?_eq_some_iff.1 building
  have entry : ((t.machine.openWait f .build).2.memo t.scope).get? l =
      some (.building g waiters) := by
    show (t.machine.memo t.scope).get? l = _
    rw [(machine_of_stride stride).1]
    exact entry
  have joined : (μ.apply .work).machine = (t.machine.openWait f .build).2.modifyMemo t.scope
      (·.insert l (.building g (waiters ++ [t.machine.waits.nextId]))) := by
    rw [joins, Machine.joinBuild, entry]
  constructor
  · rw [joined]
    exact ⟨_, get?_openWait t.machine f, rfl, rfl⟩
  · refine ⟨waiters ++ [t.machine.waits.nextId], ?_, List.mem_append_right _ List.mem_cons_self⟩
    rw [joined, Machine.memo_modifyMemo (m := (t.machine.openWait f .build).2) known, if_pos rfl,
      Memo.get?_insert, if_pos rfl]

/-- If nobody builds the layer, the fiber is told at once to look again. -/
theorem Reachable.told_of_not_building (reachable : Reachable μ)
    (stride : μ.strideAt f .work = some t) (building : μ.building? t.scope l = none)
    (joins : (μ.apply .work).machine =
      (t.machine.openWait f .build).2.joinBuild t.scope l t.machine.waits.nextId) :
    (μ.apply .work).machine.core.input f = some (.ok .null) := by
  obtain ⟨own, ready, -⟩ := reachable.stride stride
  obtain ⟨machine, -⟩ := machine_of_stride stride
  obtain ⟨fiber, row, -⟩ := Option.map_eq_some_iff.1 ready
  have told : (μ.apply .work).machine =
      (t.machine.openWait f .build).2.resume t.machine.waits.nextId (.ok .null) := by
    rw [joins, Machine.joinBuild]
    split
    · rename_i g waiters entry
      have entry : (t.machine.memo t.scope).get? l = some (.building g waiters) := entry
      rw [machine] at entry
      cases building.symm.trans (Memo.builder?_eq_some_iff.2 ⟨waiters, entry⟩)
    · rfl
  have running : fiber.status = .running := by
    obtain ⟨-, free, worker, -⟩ := strideAt_eq_some_iff.1 stride
    have held : μ.held = some f := by
      rw [Moment.held, free, worker, Option.map_some, own]
    exact (row_of_held reachable.isCoherent held row).1
  have row' : (t.machine.openWait f .build).2.fiber? f = some fiber := by
    show t.machine.fiber? f = _
    rw [machine]
    exact row
  rw [told]
  exact Machine.input_resume (get?_openWait t.machine f) rfl row' running (.ok .null)

/-- Whoever asks for the end of a build is not forgotten. -/
theorem Reachable.asks_for_build (reachable : Reachable μ) (stride : μ.strideAt f .work = some t)
    (next : t.slice.run.next = .eval (.awaitBuild l))
    (calm : t.machine.interruptPending f t.slice.run = false) :
    μ.AsksForBuild f t.scope l := by
  obtain ⟨joins, answer, stepped⟩ := reachable.stands_of_awaitBuild stride next calm
  refine ⟨_, stepped, ?_⟩
  cases building : μ.building? t.scope l with
  | some g =>
      obtain ⟨opened, waits⟩ := reachable.joins_of_building stride building joins
      exact .inl ⟨g, _, rfl,
        (openFor_iff (reachable.apply .work).isCoherent stepped).1 opened, waits⟩
  | none =>
      have told := reachable.told_of_not_building stride building joins
      obtain ⟨fiber, row, stands⟩ := Option.map_eq_some_iff.1 stepped
      rw [Machine.input_of_row row] at told
      refine .inr ⟨rfl, t.result.run, ?_⟩
      have answered : answer = some (.ok .null) := by
        unfold Fiber.positionOn at stands
        split at stands
        · obtain ⟨-, -, same⟩ := Position.stepped.inj stands
          rw [← same, told]
        · cases stands
        · unfold Fiber.position at stands
          split at stands <;> cases stands
      rw [answered]
      rfl

/-! ## All together -/

/-- Nobody else claims a layer before its build has ended. -/
theorem Reachable.building_run (reachable : Reachable μ) (building : μ.building? s l = some g)
    (events : List (Event σ)) (going : ∀ before, before ++ [.work] <+: events →
      ∀ layer x, layer.id = l → ¬ (μ.run before).EndsBuild g s layer x) :
    (μ.run events).building? s l = some g := by
  induction events generalizing μ with
  | nil => exact building
  | cons event events ih =>
      obtain ⟨waiters, entry⟩ := Memo.builder?_eq_some_iff.1 building
      rcases reachable.building_apply entry event with ⟨more, after⟩ | ⟨rfl, layer, x, same, ends⟩
      · exact ih (reachable.apply event) (Memo.builder?_eq_some_iff.2 ⟨_, after⟩)
          fun before short => going (event :: before) (List.cons_prefix_cons.2 ⟨rfl, short⟩)
      · exact absurd ends (going [] (List.cons_prefix_cons.2 ⟨rfl, List.nil_prefix⟩) layer x same)

/-- What is known about those who wait for the layers of a run, now and later on. -/
structure WaitersTold (μ : Moment σ) (s : ScopeId) : Prop where
  /-- Who waits for a layer is on the list of the build that is under way. -/
  registered : ∀ f p run w build below, μ.Belongs f s → μ.position? f = some p →
    p.run? = some run → p.openWait? = some w → run.stack = .layers build :: below →
    build.owning = false →
    ∃ layer rest g, build.todo = layer :: rest ∧ μ.WaitsFor s layer.id g w
  /-- A wait is on one list, and there once. -/
  once : ∀ l g w, μ.WaitsFor s l g w → ((μ.machine.memo s).waiters l).count w = 1 ∧
    ∀ s' l', w ∈ (μ.machine.memo s').waiters l' → s' = s ∧ l' = l
  /-- Whoever asks for the end of a build is entered in its list, or told at once. -/
  asked : ∀ f t l, μ.strideAt f .work = some t → t.scope = s →
    t.slice.run.next = .eval (.awaitBuild l) →
    t.machine.interruptPending f t.slice.run = false → μ.AsksForBuild f s l
  /-- Whoever is on a list stays there until the build ends, and is told then, and not again. -/
  told : ∀ l g w, μ.WaitsFor s l g w → ∀ events, WaiterCourse s l g w μ events
  /-- At the end of a build nobody else is told anything. -/
  spared : ∀ g layer x, μ.EndsBuild g s layer x → ∀ h p, h ≠ g → μ.position? h = some p →
    (∀ w, p.openWait? = some w → w ∉ (μ.machine.memo s).waiters layer.id) →
    (μ.apply .work).position? h = some p
  /-- Whoever was told something hands it to its topmost frame in its next step, unless an interrupt
  takes the place of it. -/
  resumes : ∀ h p run x, μ.position? h = some p → p.told? = some (run, x) → ∀ events,
    Idles h μ events ∨ Takes h (fun t => t.slice.run = { run with next := .done x } ∨
      t.slice.run = { run with next := .done .interrupted } ∧
        ∃ before, before <+: events ∧ (μ.run before).machine.interruptPending h run = true)
      (fun _ _ => True) μ events
  /-- Whoever hands on that it should look again looks again. -/
  looks : ∀ h t build below v, μ.strideAt h .work = some t → t.scope = s →
    t.Hands (.layers build :: below) (.ok v) → build.owning = false →
    ∃ layer rest, build.todo = layer :: rest ∧ μ.LooksAgain h s build layer rest below t
  /-- Once somebody has claimed a layer, nobody else claims it until this build has ended. -/
  alone : ∀ l g, μ.building? s l = some g → ∀ events,
    (∀ before, before ++ [.work] <+: events → ∀ layer x, layer.id = l →
      ¬ (μ.run before).EndsBuild g s layer x) → (μ.run events).building? s l = some g

/-- No fiber that waits for a layer is forgotten.  It is on the list of the build that is under way,
and when the build ends it is told once: to look again, or a copy of the cause of a failure.  If it
looks again it claims the layer, or waits again, or finds it built, and one fiber at a time has a
claim. -/
theorem Reachable.waiters_are_told (reachable : Reachable μ) (s : ScopeId) : μ.WaitersTold s where
  registered f p run w build below belongs position rest waits stack waiting := by
    obtain ⟨layer, todo, same, asks⟩ :=
      (reachable.inLine belongs position).top run build below rest stack waiting
    have listed : w ∈ (μ.machine.memo s).waiters layer.id := by
      cases asks with
      | asked listed => exact Option.some.inj waits ▸ listed
      | sleeps listed => exact Option.some.inj waits ▸ listed
      | _ => cases waits
    obtain ⟨g, building⟩ := Memo.building_of_mem_waiters listed
    exact ⟨layer, todo, g, same, _, building, listed⟩
  once l g w waits :=
    ⟨List.count_eq_one_of_mem (reachable.lists.once s l) waits.mem,
      fun _ _ listed => reachable.lists.apart listed waits.mem⟩
  asked f t l stride scope next calm := scope ▸ reachable.asks_for_build stride next calm
  told l g w waits events := reachable.waiter_course waits events
  spared g layer x ends h p other position unlisted :=
    reachable.spared_of_ends ends position other unlisted
  resumes h p run x position told events := reachable.takes_of_told position told events
  looks h t build below v stride scope hands waiting := by
    subst scope
    obtain ⟨-, ready, -⟩ := reachable.stride stride
    obtain ⟨-, -, belongs⟩ := reachable.stacks_of_stride stride
    obtain ⟨layer, rest, todo, -⟩ :=
      (reachable.inLine belongs ready).top _ build below rfl hands.2 waiting
    exact ⟨layer, rest, todo, reachable.looks_again stride hands waiting todo⟩
  alone l g building events going := reachable.building_run building events going

/-- The second child waits for the layer that the first one builds.  When the layer is built, it is
told to look again. -/
theorem second_child_is_told :
    (sharing 20).WaitsFor ⟨1⟩ ⟨1⟩ ⟨2⟩ ⟨1⟩ ∧
    (∃ run c, (sharing 20).position? ⟨3⟩ = some (.asleep run (.wait ⟨1⟩ c)) ∧
      ((sharing 20).apply .work).position? ⟨3⟩ = some (.answered run (.ok .null))) ∧
    ∀ events, WaiterCourse ⟨1⟩ ⟨1⟩ ⟨2⟩ ⟨1⟩ (sharing 20) events := by
  have reachable := reachable_sharing 20
  have waits : (sharing 20).WaitsFor ⟨1⟩ ⟨1⟩ ⟨2⟩ ⟨1⟩ := ⟨[⟨1⟩], rfl, List.mem_cons_self⟩
  have ends : (sharing 20).EndsBuild ⟨2⟩ ⟨1⟩ slowNumber (.ok (.context numberSeven)) :=
    ⟨_, _, _, _, rfl, rfl, ⟨rfl, rfl⟩, rfl, rfl⟩
  obtain ⟨run, c, asleep⟩ : ∃ run c,
      (sharing 20).position? ⟨3⟩ = some (.asleep run (.wait ⟨1⟩ c)) := ⟨_, _, rfl⟩
  exact ⟨waits, ⟨run, c, asleep, reachable.answered_of_ends ends waits.mem asleep⟩,
    (reachable.waiters_are_told ⟨1⟩).told ⟨1⟩ ⟨2⟩ ⟨1⟩ waits⟩

end Moment

end EffectFibers
