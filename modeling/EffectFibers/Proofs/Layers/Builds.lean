import EffectFibers.Proofs.Layers.Claims
import EffectFibers.Proofs.Progress.Strides

/-!
# Builds under way

At every moment the memory of a run and the stacks of its fibers tell the same story.  A layer is
being built exactly if one fiber of the run has a frame that waits for it, and this is the fiber
that has claimed it.  An event changes what a fiber has claimed only by a step of this fiber, and
what has been built stays.

## Main definitions

* `Moment.Belongs` – a fiber uses the layers of a run.
* `Moment.builds` – how many frames of a fiber wait for a layer that it builds.
* `Stride.Constructs` – a step that evaluates the constructor of a layer.

## Main statements

* `Moment.Reachable.building_iff` – the claims in the memory of a run are the frames on its stacks.
* `Moment.Reachable.built_stays` – what has been built stays.
* `Moment.Reachable.entry_of_hands` – what remains of a build that has ended.
-/

namespace EffectFibers

variable {σ : Type}

/-- The constructor of a layer is evaluated, over the frame that waits for it. -/
def Stride.Constructs (t : Stride σ) (l : LayerId) : Prop :=
  ∃ (build : LayerBuild σ) (layer : LayerNode σ) (rest : List (LayerNode σ))
    (stack : List (Frame σ)), build.owning = true ∧ build.todo = layer :: rest ∧ layer.id = l ∧
    t.Evaluates layer.build (.layers build :: stack)

namespace Moment

/-- The frames that a fiber has. -/
def stack (μ : Moment σ) (f : FiberId) : List (Frame σ) := ((μ.rest? f).map (·.stack)).getD []

/-- How many frames of a fiber wait for a layer that it builds itself. -/
def builds (μ : Moment σ) (f : FiberId) (l : LayerId) : Nat := (μ.stack f).countP (Frame.owns l)

/-- A fiber uses the layers of a run. -/
def Belongs (μ : Moment σ) (f : FiberId) (s : ScopeId) : Prop :=
  ∃ fiber, μ.machine.fiber? f = some fiber ∧ fiber.scope = s

/-- The stacks agree with what is claimed, and only fibers of a run claim its layers. -/
structure Orderly (μ : Moment σ) : Prop where
  agrees : ∀ {f s}, μ.Belongs f s → μ.machine.Agrees f s (μ.stack f)
  builders : ∀ {s l f}, (μ.machine.memo s).builder? l = some f → μ.Belongs f s

variable {μ : Moment σ} {f g : FiberId} {s : ScopeId} {l : LayerId} {event : Event σ}
  {t : Stride σ}

/-! ## Fibers and their stacks -/

theorem Belongs.unique {r : ScopeId} (first : μ.Belongs f s) (second : μ.Belongs f r) : s = r := by
  obtain ⟨fiber, row, rfl⟩ := first
  obtain ⟨fiber', row', rfl⟩ := second
  rw [Option.some.inj (row.symm.trans row')]

/-- A fiber stays in its run. -/
theorem Reachable.belongs_apply (reachable : Reachable μ) (belongs : μ.Belongs f s)
    (event : Event σ) : (μ.apply event).Belongs f s := by
  obtain ⟨fiber, row, rfl⟩ := belongs
  obtain ⟨after, row', seat⟩ := (evolves reachable.isCoherent reachable.tidy event).keepsSeats row
  exact ⟨after, row', seat.scope⟩

theorem stack_of_rest {run : RunState σ} (rest : μ.rest? f = some run) : μ.stack f = run.stack := by
  rw [stack, rest]
  rfl

/-- A step of a fiber is all that changes its stack. -/
theorem Reachable.stack_of_still (reachable : Reachable μ) (belongs : μ.Belongs f s)
    (still : μ.strideAt f event = none) : (μ.apply event).stack f = μ.stack f := by
  obtain ⟨fiber, row, -⟩ := belongs
  have position := position?_of_row row
  obtain ⟨p, position', moves⟩ := reachable.moves position still
  have sound := reachable.sound position
  generalize fiber.positionOn (μ.grip f) = p₀ at position moves sound
  unfold stack
  rw [rest?_of_position position, rest?_of_position position']
  cases moves with
  | ends => exact (sound.ended _ _ _ rfl).symm
  | _ => rfl

/-- A fiber that is born has no frames. -/
theorem Reachable.stack_of_born (reachable : Reachable μ) (missing : μ.machine.fiber? f = none) :
    (μ.apply event).stack f = [] := by
  cases row : (μ.apply event).machine.fiber? f with
  | none => simp [stack, rest?, position?, row]
  | some fiber =>
      obtain ⟨⟨node, context, -, stands⟩, -⟩ := reachable.born missing row
      exact stack_of_rest (rest?_of_position stands)

/-- A stride is a step over the frames that the fiber has, in its run. -/
theorem Reachable.stacks_of_stride (reachable : Reachable μ) (stride : μ.strideAt f event = some t) :
    t.slice.run.stack = μ.stack f ∧ t.result.run.stack = (μ.apply event).stack f ∧
      μ.Belongs f t.scope := by
  obtain ⟨own, ready, answer, stepped, -⟩ := reachable.stride stride
  obtain ⟨fiber, row, -⟩ := Option.map_eq_some_iff.1 ready
  obtain ⟨-, -, -, -, machine⟩ := strideAt_eq_some_iff.1 stride
  refine ⟨(stack_of_rest (rest?_of_position ready)).symm,
    (stack_of_rest (rest?_of_position stepped)).symm, fiber, row, ?_⟩
  have row' : t.machine.fiber? t.slice.fiber = some fiber := by
    rw [machine, own]
    exact row
  rw [Stride.scope, row']
  rfl

/-! ## Events -/

/-- A step is taken on the machine without its slice. -/
theorem machine_of_stride (stride : μ.strideAt f event = some t) :
    t.machine = { μ.machine with running := none } ∧
      (μ.apply event).machine = t.result.machine := by
  obtain ⟨rfl, free, running, -, machine⟩ := strideAt_eq_some_iff.1 stride
  have work : μ.apply .work = t.machine.takeStep t.slice := by
    show μ.work = _
    simp only [Moment.work, free, running, machine]
  exact ⟨machine, congrArg Moment.machine work⟩

/-- A fiber takes a step in a run that there is, and its frames agree with its claims. -/
theorem Reachable.agrees_of_stride (reachable : Reachable μ) (orderly : μ.Orderly)
    (stride : μ.strideAt f event = some t) :
    (t.machine.scopes.get? t.scope).isSome ∧ t.machine.Agrees f t.scope t.slice.run.stack := by
  obtain ⟨before, -, belongs⟩ := reachable.stacks_of_stride stride
  rw [(machine_of_stride stride).1, before]
  refine ⟨?_, orderly.agrees belongs⟩
  obtain ⟨fiber, row, same⟩ := belongs
  exact same ▸ reachable.knows_run row

/-- A step of a fiber tends the layers of its run. -/
theorem Reachable.tends (reachable : Reachable μ) (orderly : μ.Orderly)
    (stride : μ.strideAt f event = some t) :
    Machine.Tends f t.scope μ.machine (μ.apply event).machine ((μ.apply event).stack f) := by
  obtain ⟨before, after, belongs⟩ := reachable.stacks_of_stride stride
  obtain ⟨known, agrees⟩ := reachable.agrees_of_stride orderly stride
  obtain ⟨machine, work⟩ := machine_of_stride stride
  obtain ⟨own, -⟩ := reachable.stride stride
  have left : Machine.Tends f t.scope μ.machine t.machine (μ.stack f) :=
    .of_same (orderly.agrees belongs) (by rw [machine]) fun _ => rfl
  rw [work, ← after, Stride.result, own]
  exact left.trans (Machine.tends_stepRun known agrees)

/-- What a run remembers changes by the steps of its fibers only. -/
theorem Reachable.memo_apply (reachable : Reachable μ) (orderly : μ.Orderly) (event : Event σ)
    (s : ScopeId) : (μ.apply event).machine.memo s = μ.machine.memo s ∨
      ∃ f, (∃ t, μ.strideAt f event = some t) ∧ μ.Belongs f s ∧
        Machine.Tends f s μ.machine (μ.apply event).machine ((μ.apply event).stack f) := by
  by_cases stride : ∃ f t, μ.strideAt f event = some t
  · obtain ⟨f, t, stride⟩ := stride
    have tends := reachable.tends orderly stride
    by_cases here : s = t.scope
    · subst here
      exact .inr ⟨f, ⟨t, stride⟩, (reachable.stacks_of_stride stride).2.2, tends⟩
    · exact .inl (tends.runs s here)
  · exact .inl (memo_of_still stride s)

/-- Only its own steps change what a fiber has claimed. -/
theorem Reachable.claims_of_still (reachable : Reachable μ) (orderly : μ.Orderly)
    (still : μ.strideAt g event = none) (s : ScopeId) (l : LayerId) :
    ((μ.apply event).machine.memo s).builder? l = some g ↔
      (μ.machine.memo s).builder? l = some g := by
  rcases reachable.memo_apply orderly event s with same | ⟨f, ⟨t, stride⟩, -, tends⟩
  · rw [same]
  · refine tends.others l g ?_
    rintro rfl
    cases still.symm.trans stride

theorem Orderly.apply (reachable : Reachable μ) (orderly : μ.Orderly) (event : Event σ) :
    (μ.apply event).Orderly := by
  constructor
  · intro g s belongs
    cases stride : μ.strideAt g event with
    | some t =>
        have here := reachable.belongs_apply (reachable.stacks_of_stride stride).2.2 event
        rw [belongs.unique here]
        exact (reachable.tends orderly stride).agrees
    | none =>
        intro l
        have claims := reachable.claims_of_still orderly stride s l
        cases row : μ.machine.fiber? g with
        | none =>
            -- nobody claims a layer before it is born
            have unclaimed : ¬ ((μ.apply event).machine.memo s).builder? l = some g := by
              intro claimed
              obtain ⟨fiber, row', -⟩ := orderly.builders (claims.1 claimed)
              cases row.symm.trans row'
            rw [reachable.stack_of_born row, if_neg unclaimed]
            rfl
        | some fiber =>
            have before : μ.Belongs g fiber.scope := ⟨fiber, row, rfl⟩
            have same := (reachable.belongs_apply before event).unique belongs
            rw [reachable.stack_of_still before stride, orderly.agrees (same ▸ before) l]
            simp only [claims]
  · intro s l g claimed
    refine reachable.belongs_apply ?_ event
    rcases reachable.memo_apply orderly event s with same | ⟨f, -, belongs, tends⟩
    · rw [same] at claimed
      exact orderly.builders claimed
    · by_cases own : g = f
      · rw [own]
        exact belongs
      · exact orderly.builders ((tends.others l g own).1 claimed)

theorem orderly_initial (world : World σ) (budget : Nat) : (initial world budget).Orderly := by
  constructor
  · rintro f s ⟨fiber, row, -⟩
    cases (Table.get?_empty _).symm.trans row
  · intro s l f claimed
    rw [memo_initial] at claimed
    cases claimed

theorem Reachable.orderly (reachable : Reachable μ) : μ.Orderly := by
  induction reachable with
  | initial world budget => exact orderly_initial world budget
  | apply event reachable ih => exact ih.apply reachable event

/-! ## What the memory of a run says -/

/-- A fiber with a frame has something left to do. -/
theorem live_of_builds (coherent : IsCoherent μ none none) (busy : 0 < μ.builds f l) :
    (μ.machine.status f).isTerminal = false := by
  cases rest : μ.rest? f with
  | none => simp [builds, stack, rest] at busy
  | some run => exact live_of_rest? coherent rest

theorem Reachable.builds_eq (reachable : Reachable μ) (belongs : μ.Belongs f s) (l : LayerId) :
    μ.builds f l = if (μ.machine.memo s).builder? l = some f then 1 else 0 :=
  reachable.orderly.agrees belongs l

/-- A layer is being built by a fiber exactly if the fiber lives and has one frame that waits for
the layer, and no other fiber of the run has such a frame. -/
theorem Reachable.building_iff (reachable : Reachable μ) (s : ScopeId) (l : LayerId)
    (f : FiberId) :
    (∃ waiters, (μ.machine.memo s).get? l = some (.building f waiters)) ↔
      μ.Belongs f s ∧ (μ.machine.status f).isTerminal = false ∧ μ.builds f l = 1 ∧
        ∀ g, μ.Belongs g s → g ≠ f → μ.builds g l = 0 := by
  rw [← Memo.builder?_eq_some_iff]
  constructor
  · intro claimed
    have belongs := reachable.orderly.builders claimed
    have one : μ.builds f l = 1 := by rw [reachable.builds_eq belongs, if_pos claimed]
    refine ⟨belongs, live_of_builds reachable.isCoherent (l := l) (by omega), one,
      fun g here other => ?_⟩
    rw [reachable.builds_eq here, if_neg]
    intro claimed'
    exact other (Option.some.inj (claimed'.symm.trans claimed))
  · rintro ⟨belongs, -, one, -⟩
    rw [reachable.builds_eq belongs] at one
    by_contra unclaimed
    rw [if_neg unclaimed] at one
    cases one

/-- Nobody builds a layer that has been built. -/
theorem Reachable.builds_of_built (reachable : Reachable μ) {c : Context Value}
    (built : (μ.machine.memo s).context? l = some c) (belongs : μ.Belongs f s) :
    μ.builds f l = 0 := by
  rw [reachable.builds_eq belongs, if_neg]
  intro claimed
  obtain ⟨waiters, entry⟩ := Memo.builder?_eq_some_iff.1 claimed
  cases (Memo.context?_eq_some_iff.1 built).symm.trans entry

/-- A fiber that evaluates the constructor of a layer has a frame that waits for it. -/
theorem Reachable.builds_of_constructs (reachable : Reachable μ)
    (stride : μ.strideAt f event = some t) (constructs : t.Constructs l) : 0 < μ.builds f l := by
  obtain ⟨build, layer, rest, stack, owning, next, rfl, -, top⟩ := constructs
  rw [builds, ← (reachable.stacks_of_stride stride).1, top, List.countP_cons]
  simp [Frame.owns, owning, next]

/-- What has been built stays. -/
theorem Reachable.built_apply (reachable : Reachable μ) {c : Context Value}
    (built : (μ.machine.memo s).context? l = some c) (event : Event σ) :
    ((μ.apply event).machine.memo s).context? l = some c := by
  rcases reachable.memo_apply reachable.orderly event s with same | ⟨f, -, -, tends⟩
  · rwa [same]
  · exact tends.built l c built

theorem Reachable.built_stays (reachable : Reachable μ) {c : Context Value}
    (built : (μ.machine.memo s).context? l = some c) (events : List (Event σ)) :
    ((μ.run events).machine.memo s).context? l = some c := by
  induction events generalizing μ with
  | nil => exact built
  | cons event events ih => exact ih (reachable.apply event) (reachable.built_apply built event)

/-- When an exit reaches the frame that waits for a layer, the layer has been built with the context
that the exit brings, or else nothing is known about it. -/
theorem Reachable.entry_of_hands (reachable : Reachable μ) (stride : μ.strideAt f event = some t)
    {build : LayerBuild σ} {layer : LayerNode σ} {rest : List (LayerNode σ)}
    {below : List (Frame σ)} {x : Exit} (hands : t.Hands (.layers build :: below) x)
    (owning : build.owning = true) (next : build.todo = layer :: rest) :
    ((μ.apply event).machine.memo t.scope).get? layer.id =
      (Machine.contextOf x).map .built := by
  obtain ⟨known, agrees⟩ := reachable.agrees_of_stride reachable.orderly stride
  obtain ⟨own, -⟩ := reachable.stride stride
  rw [hands.2] at agrees
  have step : t.result = t.machine.endBuild f t.scope
      { t.slice.run with stack := below, context := build.outer } { build with owning := false }
      layer rest x := by
    rw [Stride.result, own, Machine.stepRun_done hands.1 hands.2]
    simp only [Machine.resumeFrame, Machine.resumeLayers, owning, next, if_true]
  rw [(machine_of_stride stride).2, step]
  exact (Machine.tends_endBuild known
    { t.slice.run with stack := below, context := build.outer } _ agrees owning next x).2

end Moment

end EffectFibers
