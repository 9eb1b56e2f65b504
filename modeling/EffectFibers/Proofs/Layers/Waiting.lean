import EffectFibers.Proofs.Layers.Waiters

/-!
# Waiting for a build

Nobody who waits for a build is forgotten.  Between the look at a layer and the wait for it anything
may happen: the build may end, and another one may begin.  But whoever sleeps has been entered in
the list of the build that is under way then, and the list is kept until its end, when everybody on
it is told.

## Main definitions

* `Position.openWait?`, `Position.told?` – the wait that a fiber has open, and the answer that it has.
* `Position.Asks` – how a fiber stands that waits for a layer.
* `Moment.Lists` – every wait is on one list at most.

## Main statements

* `Moment.Reachable.inLine` – a fiber that sleeps until a build ends is on the list of the build.
* `Moment.Reachable.lists` – and on no other list.
-/

namespace EffectFibers

variable {σ : Type}

/-! ## Open waits -/

/-- The wait that a fiber has open: it sleeps on it, or it has asked and has no answer yet. -/
def Position.openWait? : Position σ → Option WaitId
  | .stepped _ (.suspend pending) none => pending.wait?
  | .asleep _ pending => pending.wait?
  | _ => none

/-- What a fiber has been told, and where it stands. -/
def Position.told? : Position σ → Option (RunState σ × Exit)
  | .answered run x => some (run, x)
  | .stepped run (.suspend _) (some x) => some (run, x)
  | _ => none

namespace Moment

variable {μ : Moment σ} {f : FiberId} {w : WaitId} {p : Position σ}

theorem asking_eq_some_iff :
    μ.asking = some w ↔ ∃ slice c, μ.taken = some (slice, .suspend (.wait w c)) := by
  unfold asking focus Control.focus
  cases taken : μ.taken with
  | none => simp
  | some step =>
      obtain ⟨slice, control⟩ := step
      cases control with
      | suspend pending => cases pending <;> simp
      | _ => simp

/-- A wait that a fiber has open is the one that its position tells of. -/
private theorem openWait?_of_openFor (coherent : IsCoherent μ none none) {fiber : Fiber σ}
    (row : μ.machine.fiber? f = some fiber) (opened : μ.machine.OpenFor f w) :
    (fiber.positionOn (μ.grip f)).openWait? = some w := by
  rcases openFor_cases coherent row opened with asleep | ⟨held, asked, silent⟩
  · have free : μ.held ≠ some f := fun held => by
      have awake := (waiting_of_isCoherent coherent).held_awake held
      rw [show μ.machine.core.sleeps f = fiber.sleepsOn from Table.find_of_row _ row, asleep] at awake
      cases awake
    obtain ⟨pending, known, this⟩ := Option.bind_eq_some_iff.1 asleep
    obtain ⟨run, -, stands⟩ := position_of_pending (shaped_of_isCoherent coherent row) known
    rw [grip_eq_none_iff.2 free, Fiber.positionOn, stands]
    exact this
  · obtain ⟨slice, c, taken⟩ := asking_eq_some_iff.1 asked
    have own : slice.fiber = f := by simpa [Moment.held, taken] using held
    simp [grip, taken, own, Fiber.positionOn, silent, Position.openWait?, Pending.wait?]

/-- The wait that a position tells of is open. -/
private theorem owner_of_openWait? (coherent : IsCoherent μ none none) {fiber : Fiber σ}
    (row : μ.machine.fiber? f = some fiber)
    (waits : (fiber.positionOn (μ.grip f)).openWait? = some w) :
    μ.machine.core.owner w = some f := by
  have waiting := waiting_of_isCoherent coherent
  cases gripped : μ.grip f with
  | some grip =>
      obtain ⟨run, _ | control⟩ := grip
      · rw [gripped] at waits
        cases waits
      · have input : μ.machine.core.input f = fiber.input := Table.find_of_row Fiber.input row
        have held := held_of_grip gripped
        rw [gripped, Fiber.positionOn] at waits
        unfold Position.openWait? at waits
        split at waits
        · rename_i run' pending same
          obtain ⟨rfl, rfl, silent⟩ := Position.stepped.inj same
          refine waiting.owner_of_asking held (asking_eq_some_iff.2 ?_) (input.trans silent)
          cases pending with
          | group g => cases waits
          | wait v c =>
              obtain rfl := Option.some.inj waits
              unfold Moment.grip at gripped
              split at gripped
              · rename_i slice control taken
                obtain ⟨-, same⟩ := Option.ite_none_right_eq_some.1 gripped
                obtain ⟨-, rfl⟩ : slice.run = run ∧ control = .suspend (.wait v c) := by
                  simpa using same
                exact ⟨slice, c, taken⟩
              · split at gripped <;> simp at gripped
              · cases gripped
        · cases ‹Position.stepped _ _ _ = _›
        · cases waits
  | none =>
      rw [gripped, Fiber.positionOn, Fiber.position] at waits
      split at waits
      · cases waits
      · cases waits
      · rename_i run pending _ _ known
        refine waiting.owner_of_sleeps ((Table.find_of_row Fiber.sleepsOn row).trans ?_)
        rw [Fiber.sleepsOn, known]
        exact waits
      · cases waits

/-- A fiber has one wait open at most, and its position tells which. -/
theorem openFor_iff (coherent : IsCoherent μ none none) (position : μ.position? f = some p) :
    μ.machine.OpenFor f w ↔ p.openWait? = some w := by
  obtain ⟨fiber, row, rfl⟩ := Option.map_eq_some_iff.1 position
  refine ⟨openWait?_of_openFor coherent row, fun waits => ?_⟩
  obtain ⟨wait, found, owner⟩ := Table.exists_row_of_find (owner_of_openWait? coherent row waits)
  cases free : wait.claimed with
  | true => simp [Wait.openOwner, free] at owner
  | false => exact ⟨wait, found, free, by simpa [Wait.openOwner, free] using owner⟩

end Moment

/-! ## Lists -/

namespace Machine

variable {m m' : Machine σ} {f p : FiberId} {s : ScopeId} {run : RunState σ} {w : WaitId}

/-- A step enters a new wait in one list, or takes lists away as a whole. -/
theorem Files.lists (files : Files f s run m m') :
    (∀ l, (m'.memo s).waiters l = (m.memo s).waiters l ∨ (m'.memo s).waiters l = []) ∨
      ∃ l, (m'.memo s).waiters l = (m.memo s).waiters l ++ [m.waits.nextId] ∧
        ∀ k, k ≠ l → (m'.memo s).waiters k = (m.memo s).waiters k := by
  cases files with
  | same same => exact .inl fun l => .inl (by rw [same])
  | claims free entry =>
      refine .inl fun l => ?_
      rw [entry, Evolves.waiters_insert]
      split
      · exact .inr rfl
      · exact .inl rfl
  | @joins l g waiters building next entry =>
      refine .inr ⟨l, ?_, fun k other => ?_⟩
      · rw [entry, Evolves.waiters_insert, if_pos rfl, Memo.waiters_of_building building]
      · rw [entry, Evolves.waiters_insert, if_neg (Ne.symm other)]
  | @ends x build layer rest below waiters next top owning todo building gone others told =>
      refine .inl fun l => ?_
      by_cases here : l = layer.id
      · subst here
        right
        rw [Memo.waiters, gone]
        cases contextOf x <;> rfl
      · unfold Memo.waiters
        rcases others l here with same | ⟨-, claimed⟩
        · rw [same]
          exact .inl rfl
        · rw [claimed]
          exact .inr rfl

/-- Whoever is on a list stays there as long as the wait is open. -/
theorem Files.listed (files : Files f s run m m') {l : LayerId}
    (listed : w ∈ (m.memo s).waiters l) (opened : m'.OpenFor p w) :
    w ∈ (m'.memo s).waiters l := by
  obtain ⟨g, entry⟩ := Memo.building_of_mem_waiters listed
  cases files with
  | same same => rwa [same]
  | @claims k free claimed =>
      rw [claimed, Evolves.waiters_insert, if_neg]
      · exact listed
      · rintro rfl
        cases free.symm.trans entry
  | @joins k g waiters building next joined =>
      rw [joined, Evolves.waiters_insert]
      split
      · rename_i here
        subst here
        rw [← Memo.waiters_of_building building]
        exact List.mem_append_left _ listed
      · exact listed
  | @ends x build layer rest below waiters next top owning todo building gone others told =>
      by_cases here : l = layer.id
      · subst here
        rw [Memo.waiters_of_building building] at listed
        obtain ⟨n, fibers, waits, fibers', waits'⟩ := told
        have opened' : (n.wake waiters (layer.verdict x)).OpenFor p w := by
          rwa [OpenFor, ← waits']
        exact absurd listed (openFor_wake.1 opened').2
      · unfold Memo.waiters
        rcases others l here with same | ⟨free, -⟩
        · rw [same]
          exact listed
        · cases free.symm.trans entry

end Machine

namespace Moment

variable {μ : Moment σ} {f g : FiberId} {s : ScopeId} {l : LayerId} {w : WaitId} {event : Event σ}
  {t : Stride σ}

/-- What a step does to the claims and the lists of its run. -/
theorem Reachable.files (reachable : Reachable μ) (stride : μ.strideAt f event = some t) :
    Machine.Files f t.scope t.slice.run μ.machine (μ.apply event).machine := by
  obtain ⟨known, agrees⟩ := reachable.agrees_of_stride reachable.orderly stride
  obtain ⟨machine, work⟩ := machine_of_stride stride
  obtain ⟨own, -⟩ := reachable.stride stride
  have files := Machine.files_stepRun known agrees
  rw [work, Stride.result, own]
  rw [machine] at files ⊢
  -- the slice that has been taken off the worker is nothing to the lists
  cases files with
  | same same => exact .same same
  | claims free entry => exact .claims free entry
  | joins building next entry => exact .joins building next entry
  | ends next top owning todo building gone others told =>
      exact .ends next top owning todo building gone others told

/-- The memory of a run changes by the steps of its fibers only. -/
theorem Reachable.files_or_same (reachable : Reachable μ) (event : Event σ) (s : ScopeId) :
    (μ.apply event).machine.memo s = μ.machine.memo s ∨
      ∃ f t, μ.strideAt f event = some t ∧ t.scope = s ∧
        Machine.Files f s t.slice.run μ.machine (μ.apply event).machine := by
  by_cases stride : ∃ f t, μ.strideAt f event = some t
  · obtain ⟨f, t, stride⟩ := stride
    by_cases here : s = t.scope
    · exact .inr ⟨f, t, stride, here.symm, here ▸ reachable.files stride⟩
    · exact .inl ((reachable.tends reachable.orderly stride).runs s here)
  · exact .inl (memo_of_still stride s)

/-- Whoever is on a list stays there as long as the wait is open. -/
theorem Reachable.listed_apply (reachable : Reachable μ)
    (listed : w ∈ (μ.machine.memo s).waiters l) (opened : (μ.apply event).machine.OpenFor f w) :
    w ∈ ((μ.apply event).machine.memo s).waiters l := by
  rcases reachable.files_or_same event s with same | ⟨g, t, -, -, files⟩
  · rwa [same]
  · exact files.listed listed opened

/-- Nobody is on two lists, or on one list twice. -/
structure Lists (μ : Moment σ) : Prop where
  once : ∀ s l, ((μ.machine.memo s).waiters l).Nodup
  apart : ∀ {s l s' l' w}, w ∈ (μ.machine.memo s).waiters l → w ∈ (μ.machine.memo s').waiters l' →
    s = s' ∧ l = l'

/-- What is on a list is a wait that there is. -/
theorem Reachable.known_of_listed (reachable : Reachable μ)
    (listed : w ∈ (μ.machine.memo s).waiters l) : w ≠ μ.machine.waits.nextId := by
  rintro rfl
  obtain ⟨wait, found, -⟩ := reachable.tidy.builders ⟨s, l, listed⟩
  simp at found

/-- What is on a list after an event was there before, or is the only new one. -/
theorem Reachable.listed_before (reachable : Reachable μ) (event : Event σ) :
    (∀ s l, ((μ.apply event).machine.memo s).waiters l = (μ.machine.memo s).waiters l ∨
      ((μ.apply event).machine.memo s).waiters l = []) ∨
    ∃ s l, ((μ.apply event).machine.memo s).waiters l =
        (μ.machine.memo s).waiters l ++ [μ.machine.waits.nextId] ∧
      ∀ s' l', s' ≠ s ∨ l' ≠ l →
        ((μ.apply event).machine.memo s').waiters l' = (μ.machine.memo s').waiters l' := by
  by_cases stride : ∃ f t, μ.strideAt f event = some t
  · obtain ⟨f, t, stride⟩ := stride
    have runs := (reachable.tends reachable.orderly stride).runs
    rcases (reachable.files stride).lists with kept | ⟨l, joined, others⟩
    · refine .inl fun s l => ?_
      by_cases here : s = t.scope
      · subst here
        exact kept l
      · exact .inl (by rw [runs s here])
    · refine .inr ⟨t.scope, l, joined, fun s' l' other => ?_⟩
      by_cases here : s' = t.scope
      · subst here
        exact others l' (other.resolve_left (absurd rfl))
      · rw [runs s' here]
  · exact .inl fun s l => .inl (by rw [memo_of_still stride s])

/-- Lists may be given up. -/
theorem Lists.of_kept {μ' : Moment σ} (lists : μ.Lists)
    (kept : ∀ s l, (μ'.machine.memo s).waiters l = (μ.machine.memo s).waiters l ∨
      (μ'.machine.memo s).waiters l = []) : μ'.Lists := by
  have before : ∀ {s l w}, w ∈ (μ'.machine.memo s).waiters l →
      w ∈ (μ.machine.memo s).waiters l := by
    intro s l w listed
    rcases kept s l with same | none
    · exact same ▸ listed
    · rw [none] at listed
      cases listed
  constructor
  · intro s l
    rcases kept s l with same | none
    · rw [same]
      exact lists.once s l
    · rw [none]
      exact List.nodup_nil
  · exact fun first second => lists.apart (before first) (before second)

/-- A wait that is on no list may be put on one. -/
theorem Lists.of_joined {μ' : Moment σ} {s₀ : ScopeId} {l₀ : LayerId} {new : WaitId}
    (lists : μ.Lists) (fresh : ∀ s l, new ∉ (μ.machine.memo s).waiters l)
    (joined : (μ'.machine.memo s₀).waiters l₀ = (μ.machine.memo s₀).waiters l₀ ++ [new])
    (others : ∀ s l, s ≠ s₀ ∨ l ≠ l₀ →
      (μ'.machine.memo s).waiters l = (μ.machine.memo s).waiters l) : μ'.Lists := by
  have here : ∀ {s l}, ¬ (s ≠ s₀ ∨ l ≠ l₀) → s = s₀ ∧ l = l₀ := by
    intro s l same
    rw [not_or, not_not, not_not] at same
    exact same
  have old : ∀ {s l w}, s ≠ s₀ ∨ l ≠ l₀ → w ∈ (μ'.machine.memo s).waiters l →
      w ∈ (μ.machine.memo s).waiters l := fun other listed => others _ _ other ▸ listed
  have apart : ∀ {s l w}, s ≠ s₀ ∨ l ≠ l₀ → w ∈ (μ'.machine.memo s).waiters l →
      w ∉ (μ'.machine.memo s₀).waiters l₀ := by
    intro s l w other listed listed'
    rw [joined, List.mem_append, List.mem_singleton] at listed'
    rcases listed' with there | rfl
    · obtain ⟨rfl, rfl⟩ := lists.apart (old other listed) there
      exact other.elim (absurd rfl) (absurd rfl)
    · exact fresh s l (old other listed)
  constructor
  · intro s l
    by_cases other : s ≠ s₀ ∨ l ≠ l₀
    · rw [others s l other]
      exact lists.once s l
    · obtain ⟨rfl, rfl⟩ := here other
      rw [joined, List.nodup_append]
      refine ⟨lists.once s l, by simp, fun v listed u last => ?_⟩
      rintro rfl
      exact fresh s l (List.mem_singleton.1 last ▸ listed)
  · intro s l s' l' w first second
    by_cases other : s ≠ s₀ ∨ l ≠ l₀ <;> by_cases other' : s' ≠ s₀ ∨ l' ≠ l₀
    · exact lists.apart (old other first) (old other' second)
    · obtain ⟨rfl, rfl⟩ := here other'
      exact absurd second (apart other first)
    · obtain ⟨rfl, rfl⟩ := here other
      exact absurd first (apart other' second)
    · obtain ⟨rfl, rfl⟩ := here other
      obtain ⟨rfl, rfl⟩ := here other'
      exact ⟨rfl, rfl⟩

theorem lists_initial (world : World σ) (budget : Nat) : (initial world budget).Lists := by
  have nothing : ∀ s l, ((initial world budget).machine.memo s).waiters l = [] := by
    intro s l
    simp [Machine.memo, initial, Machine.start, Memo.waiters, Memo.get?]
  refine ⟨fun s l => by rw [nothing]; exact List.nodup_nil, fun {s l s' l' w} listed => ?_⟩
  rw [nothing] at listed
  cases listed

theorem Reachable.lists (reachable : Reachable μ) : μ.Lists := by
  induction reachable with
  | initial world budget => exact lists_initial world budget
  | apply event reachable ih =>
      rcases reachable.listed_before event with kept | ⟨s, l, joined, others⟩
      · exact ih.of_kept kept
      · exact ih.of_joined (fun s l listed => reachable.known_of_listed listed rfl) joined others

end Moment

/-! ## Positions -/

/-- How a fiber stands whose topmost frame waits for a layer: it is about to wait, it sleeps and is
on the list for the layer, or it has an exit for the frame. -/
inductive Position.Asks (memo : Memo) (l : LayerId) : Position σ → Prop
  | asks {run : RunState σ} (next : run.next = .eval (.awaitBuild l)) : Asks memo l (.ready run)
  | hands {run : RunState σ} {x} (next : run.next = .done x) : Asks memo l (.ready run)
  | willAsk {run} : Asks memo l (.stepped run (.eval (.awaitBuild l)) none)
  | willHand {run x} : Asks memo l (.stepped run (.done x) none)
  | asked {run w} (listed : w ∈ memo.waiters l) :
    Asks memo l (.stepped run (.suspend (.wait w .none)) none)
  | told {run w x} : Asks memo l (.stepped run (.suspend (.wait w .none)) (some x))
  | sleeps {run w} (listed : w ∈ memo.waiters l) : Asks memo l (.asleep run (.wait w .none))
  | answered {run x} : Asks memo l (.answered run x)

/-- Only the topmost frame of a fiber waits for the build of another one, and then the fiber stands
so. -/
structure Position.InLine (memo : Memo) (p : Position σ) : Prop where
  below : ∀ run, p.run? = some run → ∀ frame ∈ run.stack.tail, frame.waits = false
  top : ∀ run build below, p.run? = some run → run.stack = .layers build :: below →
    build.owning = false → ∃ layer rest, build.todo = layer :: rest ∧ p.Asks memo layer.id

namespace Moment

variable {μ : Moment σ} {f g : FiberId} {s : ScopeId} {l : LayerId} {w : WaitId} {event : Event σ}
  {t : Stride σ} {p p' : Position σ}

/-- What becomes of a position in which a fiber takes no step. -/
theorem asks_of_moves {memo memo' : Memo} {m m' : Machine σ} (moves : m.Moves m' f p p')
    (asks : p.Asks memo l)
    (listed : ∀ w, p'.openWait? = some w → w ∈ memo.waiters l → w ∈ memo'.waiters l) :
    p' = .gone ∨ p'.Asks memo' l := by
  cases moves with
  | stays =>
      right
      cases asks with
      | asks next => exact .asks next
      | hands next => exact .hands next
      | willAsk => exact .willAsk
      | willHand => exact .willHand
      | asked here => exact .asked (listed _ rfl here)
      | told => exact .told
      | sleeps here => exact .sleeps (listed _ rfl here)
      | answered => exact .answered
  | goesOn =>
      right
      cases asks with
      | willAsk => exact .asks rfl
      | willHand => exact .hands rfl
  | noticed notices plain => exact .inr (.hands rfl)
  | yields => cases asks
  | hears why =>
      cases asks with
      | asked here => exact .inr .told
  | sleeps =>
      cases asks with
      | asked here => exact .inr (.sleeps (listed _ rfl here))
  | givesUp notices => exact .inr (.hands rfl)
  | takes => exact .inr (.hands rfl)
  | ends => exact .inl rfl
  | wakes why => exact .inr .answered
  | resumes => exact .inr (.hands rfl)

/-- A step of the fiber itself. -/
theorem Reachable.inLine_of_stride (reachable : Reachable μ) (stride : μ.strideAt f event = some t)
    (inLine : (Position.ready t.slice.run).InLine (μ.machine.memo t.scope)) :
    ∃ answer, (μ.apply event).position? f =
        some (.stepped t.result.run t.result.control answer) ∧
      (Position.stepped t.result.run t.result.control answer).InLine
        ((μ.apply event).machine.memo t.scope) := by
  obtain ⟨own, -, answer, stepped, silent⟩ := reachable.stride stride
  obtain ⟨known, -⟩ := reachable.agrees_of_stride reachable.orderly stride
  have poised : Machine.Poised t.scope t.result := by
    rw [Stride.result]
    refine Machine.poised_stepRun known (inLine.below _ rfl) fun build below stack waiting => ?_
    obtain ⟨layer, rest, todo, asks⟩ := inLine.top _ build below rfl stack waiting
    refine ⟨layer, rest, todo, ?_⟩
    cases asks with
    | asks next => exact .inl next
    | hands next => exact .inr ⟨_, next⟩
  have after : (μ.apply event).machine = t.result.machine := (machine_of_stride stride).2
  refine ⟨answer, stepped, ?_, ?_⟩
  · intro run rest
    obtain rfl := Option.some.inj rest
    exact poised.below
  · intro run build below rest stack waiting
    obtain rfl := Option.some.inj rest
    obtain ⟨layer, rest, todo, goes⟩ := poised.top build below stack waiting
    refine ⟨layer, rest, todo, ?_⟩
    rcases goes with asks | ⟨x, hands⟩ | ⟨w, suspends, listed⟩
    · rw [silent (by simp [asks, Control.eval]), asks]
      exact .willAsk
    · rw [silent (by simp [hands, Control.done]), hands]
      exact .willHand
    · rw [suspends]
      cases answer with
      | some x => exact .told
      | none =>
          refine .asked ?_
          rw [after]
          refine listed.resolve_right fun shut => ?_
          have waits : (Position.stepped t.result.run t.result.control none).openWait? = some w := by
            rw [suspends]
            rfl
          obtain ⟨wait, found, free, -⟩ :=
            (openFor_iff (reachable.apply event).isCoherent stepped).2 waits
          rw [after] at found
          simp [Machine.isOpen, found, free] at shut

/-- What others do, or what the worker does with a fiber between its steps. -/
theorem Reachable.inLine_of_still (reachable : Reachable μ) (position : μ.position? f = some p)
    (inLine : p.InLine (μ.machine.memo s)) (still : μ.strideAt f event = none) :
    ∃ p', (μ.apply event).position? f = some p' ∧
      p'.InLine ((μ.apply event).machine.memo s) := by
  obtain ⟨p', position', moves⟩ := reachable.moves position still
  refine ⟨p', position', fun run' rest => ?_, fun run' build below rest stack waiting => ?_⟩
  · obtain ⟨run, rest', same⟩ := moves.stack_stays rest
    exact same ▸ inLine.below run rest'
  · obtain ⟨run, rest', same⟩ := moves.stack_stays rest
    rw [same] at stack
    obtain ⟨layer, todo, next, asks⟩ := inLine.top run build below rest' stack waiting
    refine ⟨layer, todo, next, ?_⟩
    have listed : ∀ w, p'.openWait? = some w → w ∈ (μ.machine.memo s).waiters layer.id →
        w ∈ ((μ.apply event).machine.memo s).waiters layer.id := fun w waits listed =>
      reachable.listed_apply listed
        ((openFor_iff (reachable.apply event).isCoherent position').2 waits)
    rcases asks_of_moves moves asks listed with rfl | asks'
    · cases rest
    · exact asks'

theorem Reachable.inLine (reachable : Reachable μ) (belongs : μ.Belongs f s)
    (position : μ.position? f = some p) : p.InLine (μ.machine.memo s) := by
  induction reachable generalizing p with
  | initial world budget =>
      obtain ⟨fiber, row, -⟩ := belongs
      cases (Table.get?_empty _).symm.trans row
  | @apply μ event reachable ih =>
      cases row : μ.machine.fiber? f with
      | none =>
          obtain ⟨fiber, row', -⟩ := belongs
          obtain ⟨⟨node, context, -, stands⟩, -⟩ := reachable.born row row'
          obtain rfl := Option.some.inj (position.symm.trans stands)
          refine ⟨fun run rest frame listed => ?_, fun run build below rest stack => ?_⟩
          · obtain rfl := Option.some.inj rest
            cases listed
          · obtain rfl := Option.some.inj rest
            cases stack
      | some fiber =>
          have before : μ.Belongs f fiber.scope := ⟨fiber, row, rfl⟩
          obtain rfl := (reachable.belongs_apply before event).unique belongs
          have inLine := ih before (position?_of_row row)
          cases stride : μ.strideAt f event with
          | none =>
              obtain ⟨p', position', inLine'⟩ :=
                reachable.inLine_of_still (position?_of_row row) inLine stride
              obtain rfl := Option.some.inj (position.symm.trans position')
              exact inLine'
          | some t =>
              obtain ⟨-, ready, -⟩ := reachable.stride stride
              have scope := before.unique (reachable.stacks_of_stride stride).2.2
              rw [Option.some.inj ((position?_of_row row).symm.trans ready), scope] at inLine
              obtain ⟨answer, position', inLine'⟩ := reachable.inLine_of_stride stride inLine
              obtain rfl := Option.some.inj (position.symm.trans position')
              rw [scope]
              exact inLine'

end Moment

end EffectFibers
