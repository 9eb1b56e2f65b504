import EffectFibers.Proofs.Progress.Ends
import EffectFibers.Proofs.Progress.Stack

/-!
# The strides of a fiber

In a run, a fiber takes some steps, and whatever else happens lies between them.  A part of its
stack stays untouched until an exit reaches the frame on top of it, and until then the fiber does
not end.  What a fiber will do next is settled by its last step, except that an interrupt may take
the place of an evaluation at the end of a slice; but nothing takes the place of a step that hands
on an exit, that puts up a guard, or that is taken in a region.

## Main definitions

* `Moment.strides` – the steps that a fiber takes in a run.
* `Moment.Steady` – a part of the stack that stays untouched in a run.
* `Moment.Next` – what a fiber does next.
* `RunState.Firm` – a step that no interrupt takes the place of.

## Main statements

* `Moment.Reachable.steady_or_reached` – a frame stays until an exit reaches it.
* `Moment.Reachable.firm_run` – a firm step is the next one, whatever happens.
-/

namespace EffectFibers

variable {σ : Type}

namespace Stride

/-- An exit reaches the frame on top of a stack. -/
def Hands (s : Stride σ) (stack : List (Frame σ)) (x : Exit) : Prop :=
  s.slice.run.next = .done x ∧ s.slice.run.stack = stack

/-- A tree is evaluated on a stack. -/
def Evaluates (s : Stride σ) (node : Node σ) (stack : List (Frame σ)) : Prop :=
  s.slice.run.next = .eval node ∧ s.slice.run.stack = stack

end Stride

namespace Moment

/-- The steps that a fiber takes in a run. -/
def strides (f : FiberId) : Moment σ → List (Event σ) → List (Stride σ)
  | _, [] => []
  | μ, event :: events => (μ.strideAt f event).toList ++ strides f (μ.apply event) events

/-- The rest of a fiber's program. -/
def rest? (μ : Moment σ) (f : FiberId) : Option (RunState σ) := (μ.position? f).bind (·.run?)

/-- A fiber has a stack, and perhaps something above it. -/
def Above (μ : Moment σ) (f : FiberId) (stack : List (Frame σ)) : Prop :=
  ∃ run, μ.rest? f = some run ∧ stack <:+ run.stack

/-- In a run, a fiber always has a stack, and no exit reaches the frame on top of it. -/
structure Steady (f : FiberId) (stack : List (Frame σ)) (μ : Moment σ) (events : List (Event σ)) :
    Prop where
  above : ∀ before, before <+: events → (μ.run before).Above f stack
  unreached : ∀ s ∈ strides f μ events, ∀ x, ¬ s.Hands stack x

/-- What a fiber does next, unless an interrupt takes its place: it is ready for it, or its last
step has said so. -/
inductive Next (μ : Moment σ) (f : FiberId) (run : RunState σ) : Prop
  | ready (position : μ.position? f = some (.ready run))
  | stepped {last} (position : μ.position? f = some (.stepped last (.next run.next) none))
    (same : run = { last with next := run.next })

variable {μ : Moment σ} {f : FiberId} {event : Event σ} {stack : List (Frame σ)} {frame : Frame σ}
  {run : RunState σ}

theorem strides_append (events later : List (Event σ)) :
    strides f μ (events ++ later) = strides f μ events ++ strides f (μ.run events) later := by
  induction events generalizing μ with
  | nil => rfl
  | cons event events ih => simp only [List.cons_append, strides, ih, run_cons, List.append_assoc]

/-! ## Parts of a stack -/

theorem rest?_of_position {p : Position σ} (position : μ.position? f = some p) :
    μ.rest? f = p.run? := by rw [rest?, position]; rfl

/-- A fiber with something left to do has not ended. -/
theorem live_of_rest? (coherent : IsCoherent μ none none) (rest : μ.rest? f = some run) :
    (μ.machine.status f).isTerminal = false := by
  obtain ⟨p, position, left⟩ := Option.bind_eq_some_iff.1 rest
  obtain ⟨fiber, row, rfl⟩ := Option.map_eq_some_iff.1 position
  have status : μ.machine.status f = fiber.status := Coherent.status_of_row row
  rw [status]
  by_contra gone
  have gone : fiber.status.isTerminal := by simpa using gone
  have free := (idle_of_terminal coherent row gone .work).1
  rw [grip_eq_none_iff.2 free, Fiber.positionOn, Fiber.position,
    ((shaped_of_isCoherent coherent row).ended gone).1] at left
  cases left

theorem Above.live (coherent : IsCoherent μ none none) (above : μ.Above f stack) :
    (μ.machine.status f).isTerminal = false := by
  obtain ⟨run, rest, -⟩ := above
  exact live_of_rest? coherent rest

/-- In a region, the fiber holds interrupts back. -/
theorem Above.shielded (reachable : Reachable μ) (above : μ.Above f (frame :: stack))
    (guards : frame.guards = true) : ∃ run, μ.rest? f = some run ∧ 0 < run.shield := by
  obtain ⟨run, rest, suffix⟩ := above
  obtain ⟨p, position, left⟩ := Option.bind_eq_some_iff.1 rest
  refine ⟨run, rest, ?_⟩
  rw [(reachable.sound position).balanced run left, List.countP_pos_iff]
  exact ⟨frame, suffix.subset List.mem_cons_self, guards⟩

/-- A frame stays where it is unless an exit reaches it. -/
theorem Reachable.above_apply (reachable : Reachable μ) (above : μ.Above f (frame :: stack))
    (unreached : ∀ s, μ.strideAt f event = some s → ∀ x, ¬ s.Hands (frame :: stack) x) :
    (μ.apply event).Above f (frame :: stack) := by
  obtain ⟨run, rest, suffix⟩ := above
  obtain ⟨p, position, left⟩ := Option.bind_eq_some_iff.1 rest
  cases stride : μ.strideAt f event with
  | none =>
      obtain ⟨p', position', moves⟩ := reachable.moves position stride
      have going : ∃ run', p'.run? = some run' := by
        cases moves with
        | stays => exact ⟨run, left⟩
        | ends =>
            obtain rfl := Option.some.inj left
            rw [(reachable.sound position).ended _ _ _ rfl] at suffix
            simp at suffix
        | _ => exact ⟨_, rfl⟩
      obtain ⟨run', left'⟩ := going
      obtain ⟨run₀, left₀, same⟩ := moves.stack_stays left'
      obtain rfl := Option.some.inj (left₀.symm.trans left)
      refine ⟨run', (rest?_of_position position').trans left', ?_⟩
      rw [same]
      exact suffix
  | some s =>
      obtain ⟨-, ready, answer, stepped, -⟩ := reachable.stride stride
      obtain rfl := Option.some.inj (ready.symm.trans position)
      obtain rfl := Option.some.inj left
      refine ⟨s.result.run, rest?_of_position stepped, ?_⟩
      cases next : s.slice.run.next with
      | eval node =>
          have grows : Machine.Grows s.slice.run.stack _ s.result :=
            Machine.stepRun_eval_grows next
          obtain ⟨new, same, -⟩ := grows.frames
          rw [same]
          exact suffix.trans (List.suffix_append _ _)
      | done x =>
          cases top : s.slice.run.stack with
          | nil =>
              rw [top] at suffix
              simp at suffix
          | cons frame' stack' =>
              have grows : Machine.Grows stack' _ s.result := Machine.stepRun_done_grows next top
              obtain ⟨new, same, -⟩ := grows.frames
              rw [same]
              rw [top, List.suffix_cons_iff] at suffix
              rcases suffix with here | below
              · exact absurd ⟨next, top.trans here.symm⟩ (unreached s stride x)
              · exact below.trans (List.suffix_append _ _)

theorem Steady.nil (above : μ.Above f stack) : Steady f stack μ [] := by
  constructor
  · intro before short
    rw [List.prefix_nil.1 short]
    exact above
  · intro s taken
    cases taken

theorem Steady.cons {events : List (Event σ)} (above : μ.Above f stack)
    (unreached : ∀ s, μ.strideAt f event = some s → ∀ x, ¬ s.Hands stack x)
    (steady : Steady f stack (μ.apply event) events) : Steady f stack μ (event :: events) := by
  constructor
  · intro before short
    cases before with
    | nil => exact above
    | cons event' before =>
        obtain ⟨rfl, shorter⟩ := List.cons_prefix_cons.1 short
        exact steady.above before shorter
  · intro s taken x
    rcases List.mem_append.1 taken with now | later
    · exact unreached s (Option.mem_toList.1 now) x
    · exact steady.unreached s later x

/-- A frame stays where it is until an exit reaches it. -/
theorem Reachable.steady_or_reached (reachable : Reachable μ) (above : μ.Above f (frame :: stack))
    (events : List (Event σ)) :
    Steady f (frame :: stack) μ events ∨
      ∃ (before after : List (Event σ)) (s : Stride σ) (x : Exit),
        events = before ++ .work :: after ∧ Steady f (frame :: stack) μ before ∧
        (μ.run before).strideAt f .work = some s ∧ s.Hands (frame :: stack) x := by
  induction events generalizing μ with
  | nil => exact .inl (.nil above)
  | cons event events ih =>
      by_cases reached : ∃ s, μ.strideAt f event = some s ∧ ∃ x, s.Hands (frame :: stack) x
      · obtain ⟨s, stride, x, hands⟩ := reached
        obtain rfl := (strideAt_eq_some_iff.1 stride).1
        exact .inr ⟨[], events, s, x, rfl, .nil above, stride, hands⟩
      · have unreached : ∀ s, μ.strideAt f event = some s → ∀ x, ¬ s.Hands (frame :: stack) x :=
          fun s stride x hands => reached ⟨s, stride, x, hands⟩
        rcases ih (reachable.apply event) (reachable.above_apply above unreached) with
          steady | ⟨before, after, s, x, rfl, steady, stride, hands⟩
        · exact .inl (.cons above unreached steady)
        · exact .inr ⟨event :: before, after, s, x, rfl, .cons above unreached steady, stride,
            hands⟩

/-- Where a step of a run is taken. -/
theorem exists_of_mem_strides {events : List (Event σ)} {s : Stride σ}
    (taken : s ∈ strides f μ events) :
    ∃ before event, before <+: events ∧ (μ.run before).strideAt f event = some s := by
  induction events generalizing μ with
  | nil => cases taken
  | cons event events ih =>
      rcases List.mem_append.1 taken with now | later
      · exact ⟨[], event, List.nil_prefix, Option.mem_toList.1 now⟩
      · obtain ⟨before, event', short, stride⟩ := ih later
        exact ⟨event :: before, event', List.cons_prefix_cons.2 ⟨rfl, short⟩, stride⟩

/-- What stays on the stack in a run is there at every step. -/
theorem Reachable.suffix_of_steady (reachable : Reachable μ) {events : List (Event σ)}
    (steady : Steady f stack μ events) {s : Stride σ} (taken : s ∈ strides f μ events) :
    stack <:+ s.slice.run.stack := by
  obtain ⟨before, event, short, stride⟩ := exists_of_mem_strides taken
  obtain ⟨-, ready, -⟩ := (reachable.run before).stride stride
  obtain ⟨run, rest, suffix⟩ := steady.above before short
  obtain rfl := Option.some.inj (rest.symm.trans (rest?_of_position ready))
  exact suffix

/-! ## The next step -/

end Moment

/-- A step that no interrupt takes the place of. -/
def RunState.Firm (run : RunState σ) : Prop :=
  ∀ node, run.next = .eval node → node.isGuard = true ∨ 0 < run.shield

namespace Moment

variable {μ : Moment σ} {f : FiberId} {event : Event σ} {stack : List (Frame σ)} {frame : Frame σ}
  {run : RunState σ}

theorem Next.rest? (next : μ.Next f run) :
    ∃ last, μ.rest? f = some last ∧ run = { last with next := run.next } := by
  cases next with
  | ready position => exact ⟨run, rest?_of_position position, rfl⟩
  | stepped position same => exact ⟨_, rest?_of_position position, same⟩

theorem Next.live (coherent : IsCoherent μ none none) (next : μ.Next f run) :
    (μ.machine.status f).isTerminal = false := by
  obtain ⟨last, rest, -⟩ := next.rest?
  exact live_of_rest? coherent rest

theorem Next.above (next : μ.Next f run) (suffix : stack <:+ run.stack) : μ.Above f stack := by
  obtain ⟨last, rest, same⟩ := next.rest?
  rw [same] at suffix
  exact ⟨last, rest, suffix⟩

/-- A step that goes on says what comes next. -/
theorem Reachable.next_of_stride (reachable : Reachable μ) {s : Stride σ} {step : Step σ}
    (stride : μ.strideAt f event = some s) (goes : s.result.control = .next step) :
    (μ.apply event).Next f { s.result.run with next := step } := by
  obtain ⟨-, -, answer, stepped, silent⟩ := reachable.stride stride
  obtain rfl := silent (by simp [goes])
  rw [goes] at stepped
  exact .stepped stepped rfl

/-- The next step is taken, or it stays the next one, or an interrupt has taken its place. -/
theorem Reachable.next_apply (reachable : Reachable μ) (next : μ.Next f run) (event : Event σ) :
    (∃ s, μ.strideAt f event = some s ∧ s.slice.run = run) ∨
    μ.strideAt f event = none ∧ ((μ.apply event).Next f run ∨
      (∃ node, run.next = .eval node ∧ node.isGuard = false ∧
        μ.machine.interruptPending f run = true) ∧
      (μ.apply event).Next f { run with next := .done .interrupted }) := by
  cases stride : μ.strideAt f event with
  | some s =>
      obtain ⟨-, ready, -⟩ := reachable.stride stride
      refine .inl ⟨s, rfl, ?_⟩
      cases next with
      | ready position =>
          cases ready.symm.trans position
          rfl
      | stepped position _ => cases ready.symm.trans position
  | none =>
      refine .inr ⟨rfl, ?_⟩
      cases next with
      | ready position =>
          obtain ⟨p, position', moves⟩ := reachable.moves position stride
          cases moves
          exact .inl (.ready position')
      | stepped position same =>
          obtain ⟨p, position', moves⟩ := reachable.moves position stride
          generalize step : run.next = step at moves
          cases moves with
          | stays => exact .inl (.stepped (step ▸ position') same)
          | goesOn =>
              rw [← step, ← same] at position'
              exact .inl (.ready position')
          | @noticed _ node notices plain =>
              refine .inr ⟨⟨node, rfl, plain, ?_⟩, .ready ?_⟩
              · rw [same]
                exact notices
              · rw [position', same]

/-- The next step is taken next, unless an interrupt takes its place. -/
theorem Reachable.next_run (reachable : Reachable μ) (next : μ.Next f run)
    (events : List (Event σ)) : ∀ s ∈ (strides f μ events).head?,
      s.slice.run = run ∨ s.slice.run = { run with next := .done .interrupted } := by
  induction events generalizing μ run with
  | nil =>
      intro s first
      cases first
  | cons event events ih =>
      intro s first
      rcases reachable.next_apply next event with ⟨s', stride, same⟩ | ⟨still, after⟩
      · simp only [strides, stride, Option.toList_some, List.singleton_append, List.head?_cons,
          Option.mem_some_iff] at first
        exact .inl (first ▸ same)
      · simp only [strides, still, Option.toList_none, List.nil_append] at first
        rcases after with after | ⟨-, after⟩
        · exact ih (reachable.apply event) after s first
        · exact .inr ((ih (reachable.apply event) after s first).elim id id)

/-- A firm step is the next one that the fiber takes, whatever happens, and until then the fiber
does not end. -/
theorem Reachable.firm_run (reachable : Reachable μ) (next : μ.Next f run) (firm : run.Firm)
    (events : List (Event σ)) :
    strides f μ events = [] ∧ (μ.run events).Next f run ∨
      ∃ (before after : List (Event σ)) (s : Stride σ),
        events = before ++ .work :: after ∧ strides f μ before = [] ∧
        (μ.run before).Next f run ∧ (μ.run before).strideAt f .work = some s ∧
        s.slice.run = run := by
  induction events generalizing μ with
  | nil => exact .inl ⟨rfl, next⟩
  | cons event events ih =>
      rcases reachable.next_apply next event with ⟨s, stride, same⟩ | ⟨still, after⟩
      · obtain rfl := (strideAt_eq_some_iff.1 stride).1
        exact .inr ⟨[], events, s, rfl, rfl, next, stride, same⟩
      · have next' : (μ.apply event).Next f run := by
          rcases after with after | ⟨⟨node, step, plain, pending⟩, -⟩
          · exact after
          · rcases firm node step with guard | shielded
            · cases plain.symm.trans guard
            · simp [Machine.interruptPending] at pending
              omega
        rcases ih (reachable.apply event) next' with
          ⟨none, after⟩ | ⟨before, later, s, rfl, none, after, stride, same⟩
        · exact .inl ⟨by simp [strides, still, none], after⟩
        · exact .inr ⟨event :: before, later, s, rfl, by simp [strides, still, none], after, stride,
            same⟩

/-- A firm step is the first one that the fiber takes. -/
theorem Reachable.firm_first (reachable : Reachable μ) (next : μ.Next f run) (firm : run.Firm)
    (events : List (Event σ)) : ∀ s ∈ (strides f μ events).head?, s.slice.run = run := by
  intro s first
  rcases reachable.firm_run next firm events with
    ⟨none, -⟩ | ⟨before, after, s', rfl, none, -, stride, same⟩
  · rw [none] at first
    cases first
  · rw [strides_append, none, strides, stride] at first
    obtain rfl : s' = s := by simpa using first
    exact same

/-! ## From stride to stride -/

/-- The first stride of a run, and the run after it. -/
theorem strides_eq_cons {events : List (Event σ)} {s : Stride σ} {rest : List (Stride σ)}
    (taken : strides f μ events = s :: rest) :
    ∃ (before after : List (Event σ)), events = before ++ .work :: after ∧
      strides f μ before = [] ∧ (μ.run before).strideAt f .work = some s ∧
      strides f ((μ.run before).apply .work) after = rest := by
  induction events generalizing μ with
  | nil => cases taken
  | cons event events ih =>
      rw [strides] at taken
      cases stride : μ.strideAt f event with
      | some s' =>
          obtain rfl := (strideAt_eq_some_iff.1 stride).1
          rw [stride] at taken
          obtain ⟨rfl, later⟩ := List.cons.inj taken
          exact ⟨[], events, rfl, rfl, stride, later⟩
      | none =>
          rw [stride] at taken
          obtain ⟨before, after, rfl, none, step, later⟩ := ih taken
          exact ⟨event :: before, after, rfl, by simp [strides, stride, none], step, later⟩

/-- The strides that some run takes from a moment on at which it is known what comes next. -/
def Ahead (f : FiberId) (run : RunState σ) (taken : List (Stride σ)) : Prop :=
  ∃ (μ : Moment σ) (events : List (Event σ)), Reachable μ ∧ μ.Next f run ∧
    strides f μ events = taken

/-- The first stride is the next one, unless an interrupt has taken its place, and says what comes
after it. -/
theorem Ahead.cons {s : Stride σ} {rest : List (Stride σ)} (ahead : Ahead f run (s :: rest)) :
    (s.slice.run = run ∨ ¬ run.Firm ∧ s.slice.run = { run with next := .done .interrupted }) ∧
      ∀ step, s.result.control = .next step →
        Ahead f { s.result.run with next := step } rest := by
  obtain ⟨μ, events, reachable, next, taken⟩ := ahead
  have first : s ∈ (strides f μ events).head? := by rw [taken]; rfl
  obtain ⟨before, after, rfl, none, stride, later⟩ := strides_eq_cons taken
  refine ⟨?_, fun step goes => ⟨_, after, (reachable.run before).apply .work, ?_, later⟩⟩
  · by_cases firm : run.Firm
    · exact .inl (reachable.firm_first next firm _ s first)
    · exact (reachable.next_run next _ s first).imp_right fun same => ⟨firm, same⟩
  · exact (reachable.run before).next_of_stride stride goes

/-- The first stride after a firm step comes next is this step. -/
theorem Ahead.firm {s : Stride σ} {rest : List (Stride σ)} (ahead : Ahead f run (s :: rest))
    (firm : run.Firm) : s.slice.run = run :=
  ahead.cons.1.resolve_right fun noticed => noticed.1 firm

/-! ## Stages of a run -/

/-- In a run, a fiber takes no step, and it lives. -/
def Idles (f : FiberId) (μ : Moment σ) (events : List (Event σ)) : Prop :=
  strides f μ events = [] ∧ ((μ.run events).machine.status f).isTerminal = false

/-- The next step of a fiber is as given, and then the run goes on as given. -/
def Takes (f : FiberId) (first : Stride σ → Prop) (later : Moment σ → List (Event σ) → Prop)
    (μ : Moment σ) (events : List (Event σ)) : Prop :=
  ∃ (before after : List (Event σ)) (s : Stride σ), events = before ++ .work :: after ∧
    strides f μ before = [] ∧ (μ.run before).strideAt f .work = some s ∧ first s ∧
    later ((μ.run before).apply .work) after

/-- In a run, no exit reaches the frame on top of a stack, and the fiber lives. -/
def Remains (f : FiberId) (stack : List (Frame σ)) (μ : Moment σ) (events : List (Event σ)) :
    Prop :=
  Steady f stack μ events ∧ ((μ.run events).machine.status f).isTerminal = false

/-- An exit reaches the frame on top of a stack after some steps, and then the run goes on as
given. -/
def Unwinds (f : FiberId) (stack : List (Frame σ))
    (later : Exit → List (Stride σ) → Moment σ → List (Event σ) → Prop)
    (μ : Moment σ) (events : List (Event σ)) : Prop :=
  ∃ (before after : List (Event σ)) (s : Stride σ) (x : Exit), events = before ++ .work :: after ∧
    Steady f stack μ before ∧ (μ.run before).strideAt f .work = some s ∧ s.Hands stack x ∧
    later x (strides f μ before) ((μ.run before).apply .work) after

/-- What is steady lives. -/
theorem Reachable.live_of_steady (reachable : Reachable μ) {events : List (Event σ)}
    (steady : Steady f stack μ events) : ((μ.run events).machine.status f).isTerminal = false :=
  (steady.above events (List.prefix_refl events)).live (reachable.run events).isCoherent

/-- Where the next step is firm, the fiber idles or takes it. -/
theorem Reachable.idles_or_takes (reachable : Reachable μ) (next : μ.Next f run) (firm : run.Firm)
    {later : Moment σ → List (Event σ) → Prop} (onward : ∀ {ν : Moment σ} {s events}, Reachable ν →
      ν.strideAt f .work = some s → s.slice.run = run → later (ν.apply .work) events)
    (events : List (Event σ)) :
    Idles f μ events ∨ Takes f (·.slice.run = run) later μ events := by
  rcases reachable.firm_run next firm events with
    ⟨none, next'⟩ | ⟨before, after, s, rfl, none, -, step, same⟩
  · exact .inl ⟨none, next'.live (reachable.run events).isCoherent⟩
  · exact .inr ⟨before, after, s, rfl, none, step, same, onward (reachable.run before) step same⟩

/-- A frame remains, or an exit reaches it. -/
theorem Reachable.remains_or_unwinds (reachable : Reachable μ) (above : μ.Above f (frame :: stack))
    {later : Exit → List (Stride σ) → Moment σ → List (Event σ) → Prop}
    (onward : ∀ {before s x events}, Reachable (μ.run before) →
      Steady f (frame :: stack) μ before → (μ.run before).strideAt f .work = some s →
      s.Hands (frame :: stack) x →
      later x (strides f μ before) ((μ.run before).apply .work) events)
    (events : List (Event σ)) :
    Remains f (frame :: stack) μ events ∨ Unwinds f (frame :: stack) later μ events := by
  rcases reachable.steady_or_reached above events with
    steady | ⟨before, after, s, x, rfl, steady, step, hands⟩
  · exact .inl ⟨steady, reachable.live_of_steady steady⟩
  · exact .inr ⟨before, after, s, x, rfl, steady, step, hands,
      onward (reachable.run before) steady step hands⟩

end Moment

end EffectFibers
