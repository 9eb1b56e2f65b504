import EffectFibers.Proofs.Progress.Position
import EffectFibers.Proofs.Services.Programs

/-!
# What is left of a program

A fiber has a context, a stack of frames and a step that comes next.  The three fit if no lookup
can fail from here on: the context has what the next tree needs, and each frame, when an exit
reaches it, finds the context that it counts on.  A frame that leaves a `provide` brings the outer context back,
so what the frames below it count on does not depend on what has been provided above.

Only fibers of some runs have to find their services; the others belong to programs that keep no
such promise.  So contexts are compared under a condition.

## Main definitions

* `Stack.Fits` – the frames of a fiber fit the context, and the value that is to reach them.
* `RunState.Fits`, `Control.Fits`, `Position.Fits` – what is left of a program fits together.

## Main statements

* `Position.Fits.moves` – it does so as long as the fiber takes no step.
-/

namespace EffectFibers

variable {σ : Type} {strict : Prop} {cat later : Catalogue} {goal : Option TagId}
  {context : Context Value} {stack : List (Frame σ)}

/-! ## Steps and frames -/

/-- An exit brings what is expected, if it brings a value. -/
def Exit.Fits (goal : Option TagId) (x : Exit) : Prop := ∀ v, x = .ok v → v.Fits goal

/-- A tree can be run in a context. -/
def Node.Suits (strict : Prop) (cat : Catalogue) (goal : Option TagId) (context : Context Value)
    (n : Node σ) : Prop :=
  ∃ tags, (strict → context.Covers tags) ∧ n.Needs strict cat tags goal

/-- User code builds trees that can be run in a context. -/
def Action.Suits (strict : Prop) (cat : Catalogue) (goal : Option TagId) (context : Context Value)
    (code : Action σ (Node σ)) : Prop :=
  ∃ tags, (strict → context.Covers tags) ∧ code.Leads strict cat tags goal

/-- The layers that are still to come find their inputs in what is around the `provide` and what
has been built, and the body finds the exports. -/
def LayerBuild.Suits (strict : Prop) (cat : Catalogue) (build : LayerBuild σ)
    (todo : List (LayerNode σ)) : Prop :=
  ∃ tags ready, (strict → build.outer.Covers tags ∧ build.built.Covers ready) ∧
    build.body.Needs strict cat (fun t => tags t ∨ t ∈ build.exports) none ∧
    Layers.Need strict todo cat tags ready build.exports

/-- The frames fit the context that there is when an exit reaches the first of them, and the value
that the exit may bring. -/
inductive Stack.Fits (strict : Prop) (cat : Catalogue) :
    Option TagId → Context Value → List (Frame σ) → Prop
  | nil {c} : Fits strict cat none c []
  | flatMap {goal c next stack} (suits : ∀ v, Action.Suits strict cat goal c (next v))
    (below : Fits strict cat goal c stack) : Fits strict cat none c (.flatMap next :: stack)
  | recover {goal c handler stack}
    (suits : ∀ failure, Action.Suits strict cat goal c (handler failure))
    (below : Fits strict cat goal c stack) : Fits strict cat goal c (.recover handler :: stack)
  | ensuring {c finalizer stack} (suits : finalizer.Suits strict cat none c)
    (below : Fits strict cat none c stack) : Fits strict cat none c (.ensuring finalizer :: stack)
  | finalizing {c exit stack} (below : Fits strict cat none c stack) :
    Fits strict cat none c (.finalizing exit :: stack)
  | regionEnd {c stack} (below : Fits strict cat none c stack) :
    Fits strict cat none c (.regionEnd :: stack)
  | spanEnd {c stack} (below : Fits strict cat none c stack) :
    Fits strict cat none c (.spanEnd :: stack)
  | restore {c outer stack} (below : Fits strict cat none outer stack) :
    Fits strict cat none c (.restore outer :: stack)
  | retry {c source schedule attempt stack} (suits : source.Suits strict cat none c)
    (below : Fits strict cat none c stack) :
    Fits strict cat none c (.retry source schedule attempt :: stack)
  | repeated {c source schedule attempt stack} (suits : source.Suits strict cat none c)
    (below : Fits strict cat none c stack) :
    Fits strict cat none c (.repeated source schedule attempt :: stack)
  /-- The exit of a constructor has to bring the service of its layer. -/
  | building {goal c build layer rest stack} (owning : build.owning = true)
    (todo : build.todo = layer :: rest)
    (listed : strict → ∃ t, goal = some t ∧ cat layer.id = some t)
    (suits : build.Suits strict cat build.todo) (below : Fits strict cat none build.outer stack) :
    Fits strict cat goal c (.layers build :: .restore build.outer :: stack)
  | waiting {c build stack} (waiting : build.owning = false)
    (suits : build.Suits strict cat build.todo) (below : Fits strict cat none build.outer stack) :
    Fits strict cat none c (.layers build :: .restore build.outer :: stack)

/-- The step that comes next can be taken in a context. -/
def Step.Fits (strict : Prop) (cat : Catalogue) (goal : Option TagId) (context : Context Value) :
    Step σ → Prop
  | .eval node => node.Suits strict cat goal context
  | .done exit => exit.Fits goal

/-- The step that comes next, the context and the frames of a fiber fit together. -/
def RunState.Fits (strict : Prop) (cat : Catalogue) (run : RunState σ) : Prop :=
  ∃ goal, Stack.Fits strict cat goal run.context run.stack ∧
    run.next.Fits strict cat goal run.context

/-- A fiber may wait, for whatever its wait ends with, and may give up its wait. -/
def Pending.Tame : Pending σ → Prop
  | .wait _ (.code cleanup) => Action.Tame cleanup
  | _ => True

/-- What is left of a program fits the step that was taken. -/
def Control.Fits (strict : Prop) (cat : Catalogue) (run : RunState σ) : Control σ → Prop
  | .next step | .yield step => RunState.Fits strict cat { run with next := step }
  | .suspend pending => Stack.Fits strict cat none run.context run.stack ∧ pending.Tame
  | .finish _ => True

/-- What is left of a program fits wherever its fiber stands with it. -/
def Position.Fits (strict : Prop) (cat : Catalogue) : Position σ → Prop
  | .ready run => run.Fits strict cat
  | .stepped run control _ => control.Fits strict cat run
  | .asleep run _ | .answered run _ => Stack.Fits strict cat none run.context run.stack
  | .gone => True

/-! ## Later catalogues -/

theorem Node.Suits.mono {n : Node σ} (suits : n.Suits strict cat goal context)
    (grown : strict → cat.Within later) : n.Suits strict later goal context := by
  obtain ⟨tags, covers, needs⟩ := suits
  exact ⟨tags, covers, needs.mono grown fun _ => id⟩

theorem Action.Suits.mono {code : Action σ (Node σ)} (suits : code.Suits strict cat goal context)
    (grown : strict → cat.Within later) : code.Suits strict later goal context := by
  obtain ⟨tags, covers, leads⟩ := suits
  exact ⟨tags, covers, leads.mono grown fun _ => id⟩

theorem LayerBuild.Suits.mono {build : LayerBuild σ} {todo : List (LayerNode σ)}
    (suits : build.Suits strict cat todo) (grown : strict → cat.Within later) :
    build.Suits strict later todo := by
  obtain ⟨tags, ready, covers, needs, need⟩ := suits
  exact ⟨tags, ready, covers, needs.mono grown fun _ => id,
    Layers.need_mono todo need grown fun _ => id⟩

theorem Stack.Fits.mono (fits : Stack.Fits strict cat goal context stack)
    (grown : strict → cat.Within later) : Stack.Fits strict later goal context stack := by
  induction fits with
  | nil => exact .nil
  | flatMap suits _ below => exact .flatMap (fun v => (suits v).mono grown) below
  | recover suits _ below => exact .recover (fun failure => (suits failure).mono grown) below
  | ensuring suits _ below => exact .ensuring (suits.mono grown) below
  | finalizing _ below => exact .finalizing below
  | regionEnd _ below => exact .regionEnd below
  | spanEnd _ below => exact .spanEnd below
  | restore _ below => exact .restore below
  | retry suits _ below => exact .retry (suits.mono grown) below
  | repeated suits _ below => exact .repeated (suits.mono grown) below
  | building owning todo listed suits _ below =>
      refine .building owning todo (fun holds => ?_) (suits.mono grown) below
      obtain ⟨t, same, listed⟩ := listed holds
      exact ⟨t, same, grown holds _ t listed⟩
  | waiting waiting suits _ below => exact .waiting waiting (suits.mono grown) below

theorem Step.Fits.mono {step : Step σ} (fits : step.Fits strict cat goal context)
    (grown : strict → cat.Within later) : step.Fits strict later goal context := by
  cases step with
  | eval node => exact Node.Suits.mono fits grown
  | done exit => exact fits

theorem RunState.Fits.mono {run : RunState σ} (fits : run.Fits strict cat)
    (grown : strict → cat.Within later) : run.Fits strict later := by
  obtain ⟨goal, frames, next⟩ := fits
  exact ⟨goal, frames.mono grown, next.mono grown⟩

theorem Control.Fits.mono {run : RunState σ} {control : Control σ}
    (fits : control.Fits strict cat run) (grown : strict → cat.Within later) :
    control.Fits strict later run := by
  cases control with
  | next step => exact RunState.Fits.mono fits grown
  | yield step => exact RunState.Fits.mono fits grown
  | suspend pending => exact ⟨fits.1.mono grown, fits.2⟩
  | finish exit => trivial

theorem Position.Fits.mono {p : Position σ} (fits : p.Fits strict cat)
    (grown : strict → cat.Within later) : p.Fits strict later := by
  cases p with
  | ready run => exact RunState.Fits.mono fits grown
  | stepped run control answer => exact Control.Fits.mono fits grown
  | asleep run pending => exact Stack.Fits.mono fits grown
  | answered run exit => exact Stack.Fits.mono fits grown
  | gone => trivial

/-! ## Waiting and going on -/

theorem Exit.fits_none (x : Exit) : x.Fits none := fun _ _ => trivial

/-- A defect, a failure or an interrupt brings no value. -/
theorem Exit.fits_error (c : Cause Failure) : Exit.Fits goal (.error c) :=
  fun _ brings => by cases brings

/-- Any exit may end a wait. -/
theorem RunState.fits_done {run : RunState σ}
    (fits : Stack.Fits strict cat none run.context run.stack) (exit : Exit) : RunState.Fits strict cat { run with next := .done exit } :=
  ⟨none, fits, exit.fits_none⟩

/-- An interrupt may take the place of any step. -/
theorem RunState.fits_interrupted {run : RunState σ} {step : Step σ}
    (fits : RunState.Fits strict cat { run with next := step }) :
    RunState.Fits strict cat { run with next := .done .interrupted } := by
  obtain ⟨goal, frames, -⟩ := fits
  exact ⟨goal, frames, Exit.fits_error _⟩

/-- As long as a fiber takes no step, what is left of its program goes on fitting. -/
theorem Position.Fits.moves {m m' : Machine σ} {f : FiberId} {p p' : Position σ}
    (fits : p.Fits strict cat) (moves : m.Moves m' f p p') : p'.Fits strict cat := by
  cases moves with
  | stays => exact fits
  | goesOn => exact fits
  | noticed notices plain => exact RunState.fits_interrupted fits
  | yields => exact fits
  | hears why => exact fits
  | sleeps => exact fits.1
  | givesUp notices => exact RunState.fits_done fits.1 _
  | takes => exact RunState.fits_done fits.1 _
  | ends => trivial
  | wakes why => exact fits
  | resumes => exact RunState.fits_done fits _

end EffectFibers
