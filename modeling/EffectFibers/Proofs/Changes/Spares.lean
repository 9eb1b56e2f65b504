import EffectFibers.Proofs.Changes.Basic

/-!
# What leaves groups and layers alone

Only a fiber that starts a group and a member that ends change what is known about groups, and only
a fiber that provides layers changes what is known about these.  Everything else leaves both alone,
and the worker as well: interrupts, user code, the end of a wait, and the end of a fiber but for its
own group.

## Main statements

* `Machine.spares_interrupt`, `Machine.spares_perform` – interrupts and user code.
* `Machine.spares_tellWatcher`, `Machine.spares_childGone` – what is done about the end of a fiber.
-/

namespace EffectFibers.Machine

variable {σ : Type} {m m' m'' : Machine σ}

namespace Spares

theorem refl (m : Machine σ) : m.Spares m := ⟨rfl, rfl, rfl, rfl, rfl, rfl⟩

theorem trans (first : m.Spares m') (second : m'.Spares m'') : m.Spares m'' :=
  ⟨second.groups.trans first.groups, second.scopes.trans first.scopes,
    second.running.trans first.running, second.budget.trans first.budget,
    second.roots.trans first.roots, second.results.trans first.results⟩

theorem foldl {α : Type} {step : Machine σ → α → Machine σ} (m : Machine σ)
    (steps : ∀ (m : Machine σ) a, m.Spares (step m a)) (as : List α) :
    m.Spares (as.foldl step m) := by
  induction as generalizing m with
  | nil => exact refl m
  | cons a as ih => exact (steps m a).trans (ih _)

end Spares

variable (m)

/-! ## Rows and the record -/

theorem spares_modifyFiber (f : FiberId) (change : Fiber σ → Fiber σ) :
    m.Spares (m.modifyFiber f change) := ⟨rfl, rfl, rfl, rfl, rfl, rfl⟩

theorem spares_write (entry : Entry) : m.Spares (m.write entry) := ⟨rfl, rfl, rfl, rfl, rfl, rfl⟩

theorem spares_trace (event : TraceEvent) : m.Spares (m.trace event) := m.spares_write _

theorem spares_enqueue (f : FiberId) : m.Spares (m.enqueue f) := ⟨rfl, rfl, rfl, rfl, rfl, rfl⟩

theorem spares_enqueueAll (fibers : List FiberId) : m.Spares (m.enqueueAll fibers) :=
  .foldl m (fun m f => m.spares_enqueue f) fibers

theorem enqueueAll_eq (m : Machine σ) (fibers : List FiberId) :
    ∃ ready, m.enqueueAll fibers = { m with ready } := by
  induction fibers generalizing m with
  | nil => exact ⟨_, rfl⟩
  | cons f fibers ih => exact ih (m.enqueue f)

theorem fibers_enqueueAll (m : Machine σ) (fibers : List FiberId) :
    (m.enqueueAll fibers).fibers = m.fibers := by
  obtain ⟨ready, same⟩ := m.enqueueAll_eq fibers
  rw [same]

theorem spares_openWait (f : FiberId) (source : WaitSource) : m.Spares (m.openWait f source).2 :=
  ⟨rfl, rfl, rfl, rfl, rfl, rfl⟩

theorem spares_wake (waiters : List WaitId) (x : Exit) : m.Spares (m.wake waiters x) :=
  .foldl m (fun m w => m.spares_resume w x) waiters

/-! ## Interrupts -/

theorem spares_runCanceler (f : FiberId) (canceler : Canceler σ) :
    m.Spares (m.runCanceler f canceler) := by
  cases canceler with
  | none => exact .refl m
  | timer handle => exact ⟨rfl, rfl, rfl, rfl, rfl, rfl⟩
  | code cleanup =>
      unfold runCanceler runCleanup
      dsimp only
      generalize noted : List.foldl _ _ _ = served
      have spares : m.Spares served := by
        have world : m.Spares { m with world := (cleanup (statusOf m.fibers) m.world).world } :=
          ⟨rfl, rfl, rfl, rfl, rfl, rfl⟩
        subst noted
        refine world.trans (.foldl _ (fun n request => ?_) _)
        cases request with
        | note v => exact n.spares_write _
        | _ => exact .refl n
      obtain ⟨groups, scopes, running, budget, roots, results⟩ := spares
      split
      · exact ⟨groups, scopes, running, budget, roots, results⟩
      · exact ⟨groups, scopes, running, budget, roots, results⟩

theorem spares_interruptWithin (depth : Nat) (f : FiberId) :
    m.Spares (m.interruptWithin depth f) := by
  induction depth generalizing m f with
  | zero => exact .refl m
  | succ depth ih =>
      unfold interruptWithin
      have marked : m.Spares (m.mark f) := m.spares_modifyFiber f _
      dsimp only
      split
      · exact marked
      rename_i fiber row
      split
      · exact marked
      have broken := marked.trans ((m.mark f).spares_breakWait f fiber)
      generalize (m.mark f).breakWait f fiber = result at broken ⊢
      obtain ⟨canceler, n⟩ := result
      have told := broken.trans (n.spares_trace (.interrupting f fiber.children.length))
      have below := told.trans (.foldl _ (fun n c => ih n c) fiber.children)
      cases canceler with
      | none => exact below
      | some canceler =>
          exact below.trans ((spares_runCanceler _ f canceler).trans (spares_enqueue _ f))

theorem spares_interrupt (f : FiberId) : m.Spares (m.interrupt f) := m.spares_interruptWithin _ f

theorem spares_interruptAll (fibers : List FiberId) : m.Spares (m.interruptAll fibers) :=
  .foldl m (fun m f => m.spares_interrupt f) fibers

/-! ## User code -/

theorem spares_resumeCallback (w : WaitId) (x : Exit) : m.Spares (m.resumeCallback w x) := by
  unfold resumeCallback
  split
  · exact m.spares_resume w x
  · exact .refl m

theorem spares_serve (request : Request) : m.Spares (m.serve request) := by
  cases request with
  | note v => exact m.spares_write _
  | resume w x => exact m.spares_resumeCallback w x
  | resumeLater w x => exact ⟨rfl, rfl, rfl, rfl, rfl, rfl⟩
  | interrupt f => exact m.spares_interrupt f
  | shutdown =>
      obtain ⟨groups, scopes, running, budget, roots, results⟩ :=
        Spares.foldl m (fun m f => m.spares_interrupt f) m.roots
      exact ⟨groups, scopes, running, budget, roots, results⟩

theorem spares_perform {α : Type} (code : Action σ α) : m.Spares (m.perform code).2 := by
  have served := Spares.foldl { m with world := (code (statusOf m.fibers) m.world).world }
    (fun m request => m.spares_serve request) (code (statusOf m.fibers) m.world).requests
  obtain ⟨groups, scopes, running, budget, roots, results⟩ := served
  exact ⟨groups, scopes, running, budget, roots, results⟩

/-! ## Children -/

theorem spares_spawnChild (parent : FiberId) (node : Node σ) (context : Context Value)
    (reader : ExitReader) : m.Spares (m.spawnChild parent node context reader).2 :=
  ⟨rfl, rfl, rfl, rfl, rfl, rfl⟩

theorem spares_spawnMembers (parent : FiberId) (context : Context Value) (g : GroupId)
    (nodes : List (Nat × Node σ)) : m.Spares (m.spawnMembers parent context g nodes).2 := by
  induction nodes generalizing m with
  | nil => exact .refl m
  | cons node nodes ih =>
      exact (m.spares_spawnChild parent node.2 context (.group g node.1)).trans (ih _)

/-! ## The end of a fiber -/

theorem spares_takeExit (f : FiberId) : m.Spares (m.takeExit f).2 := by
  unfold takeExit
  split
  · exact m.spares_modifyFiber f _
  · exact .refl m

theorem spares_tellWatcher (f : FiberId) (w : WaitId) (how : Watch) :
    m.Spares (m.tellWatcher f w how) := by
  cases how with
  | join => exact (m.spares_takeExit f).trans (spares_resume _ w _)
  | await => exact (m.spares_takeExit f).trans (spares_resume _ w _)
  | interrupt => exact m.spares_resume w _

theorem spares_watch (f : FiberId) (w : WaitId) (how : Watch) : m.Spares (m.watch f w how) := by
  unfold watch
  split
  · exact m.spares_tellWatcher f w how
  · exact m.spares_modifyFiber f _

theorem spares_childGone (parent : FiberId) : m.Spares (m.childGone parent).2 := by
  unfold childGone
  split
  · exact .refl m
  · exact m.spares_modifyFiber parent _

theorem spares_awaitChildren (parent : FiberId) (children : List FiberId) :
    m.Spares (children.foldl (awaitChild parent) m) :=
  .foldl m (fun m c => m.spares_modifyFiber c _) children

end EffectFibers.Machine
