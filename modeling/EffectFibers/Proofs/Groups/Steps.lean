import EffectFibers.Machine.Tick
import EffectFibers.Proofs.Groups.Members

/-!
# Steps and groups

A step of a fiber may start a group, but it changes nothing about the groups that there are.  What
comes of a step, and whatever happens outside the worker, leaves the groups alone, unless a program
has an exit.

## Main statements

* `Machine.keepsGroups_stepRun` – a step keeps what is known about groups.
* `Machine.spares_follow` – what comes of a step spares the groups.
-/

namespace EffectFibers.Machine

variable {σ : Type}

/-! ## Layers -/

/-- A change that leaves groups alone, and what is known about the runs. -/
structure LayersOnly (m m' : Machine σ) : Prop where
  groups : m'.groups = m.groups
  roots : m'.roots = m.roots
  results : m'.results = m.results

namespace LayersOnly

variable {m m' m'' : Machine σ}

theorem refl (m : Machine σ) : m.LayersOnly m := ⟨rfl, rfl, rfl⟩

theorem trans (first : m.LayersOnly m') (second : m'.LayersOnly m'') : m.LayersOnly m'' :=
  ⟨second.groups.trans first.groups, second.roots.trans first.roots,
    second.results.trans first.results⟩

end LayersOnly

theorem Spares.layersOnly {m m' : Machine σ} (spares : m.Spares m') : m.LayersOnly m' :=
  ⟨spares.groups, spares.roots, spares.results⟩

section

variable (m : Machine σ) (scope : ScopeId) (layer : LayerNode σ) (f : FiberId)

theorem layersOnly_modifyMemo (change : Memo → Memo) :
    m.LayersOnly (m.modifyMemo scope change) := ⟨rfl, rfl, rfl⟩

theorem layersOnly_lookUpLayer : m.LayersOnly (m.lookUpLayer scope layer f).2 := by
  unfold lookUpLayer
  split
  · exact .refl m
  · exact .refl m
  · exact (m.layersOnly_modifyMemo scope _).trans (spares_trace _ _).layersOnly

theorem layersOnly_joinBuild (layer : LayerId) (w : WaitId) :
    m.LayersOnly (m.joinBuild scope layer w) := by
  unfold joinBuild
  split
  · exact m.layersOnly_modifyMemo scope _
  · exact (m.spares_resume w _).layersOnly

/-- A build has ended, and those who wait for it are told. -/
theorem layersOnly_wake (change : Memo → Memo) (event : TraceEvent) (waiters : List WaitId)
    (x : Exit) : m.LayersOnly (((m.modifyMemo scope change).trace event).wake waiters x) :=
  (m.layersOnly_modifyMemo scope change).trans
    ((spares_trace _ event).trans (spares_wake _ waiters x)).layersOnly

theorem layersOnly_forgetBuild (outcome : BuildOutcome) (x : Exit) :
    m.LayersOnly (m.forgetBuild scope layer outcome x) := by
  unfold forgetBuild
  split
  · exact m.layersOnly_wake scope _ _ _ x
  · exact .refl m

theorem layersOnly_advanceLayers (run : RunState σ) (build : LayerBuild σ)
    (layers : List (LayerNode σ)) :
    m.LayersOnly (m.advanceLayers f scope run build layers).machine := by
  induction layers generalizing m build with
  | nil => exact .refl m
  | cons layer layers ih =>
      have looked := m.layersOnly_lookUpLayer scope layer f
      unfold advanceLayers
      generalize m.lookUpLayer scope layer f = found at looked ⊢
      obtain ⟨state, n⟩ := found
      cases state with
      | built context => exact looked.trans (ih n _)
      | claimed => exact looked
      | busy => exact looked

theorem layersOnly_provide (run : RunState σ) (body : Node σ) (plan : LayerPlan σ)
    (exports : List TagId) :
    m.LayersOnly (m.provide f scope run body plan exports).machine := by
  unfold provide
  split
  · exact .refl m
  · exact m.layersOnly_advanceLayers scope f _ _ _

theorem layersOnly_resumeLayers (run : RunState σ) (build : LayerBuild σ) (x : Exit) :
    m.LayersOnly (m.resumeLayers f scope run build x).machine := by
  unfold resumeLayers
  split
  · split
    · exact .refl m
    · rename_i layer rest _
      unfold endBuild
      split
      · exact (m.layersOnly_wake scope _ _ _ _).trans (layersOnly_advanceLayers _ scope f _ _ rest)
      · exact m.layersOnly_forgetBuild scope layer _ _
      · exact m.layersOnly_forgetBuild scope layer _ _
      · exact (m.spares_trace _).layersOnly.trans (layersOnly_forgetBuild _ scope layer _ _)
  · split
    · exact m.layersOnly_advanceLayers scope f run build _
    · exact .refl m

end

/-! ## A step -/

section

variable (m : Machine σ) (f : FiberId) (scope : ScopeId) (run : RunState σ)

theorem spares_build (code : Action σ (Node σ)) : m.Spares (m.build run code).machine :=
  m.spares_perform code

theorem spares_evalAsync (register : WaitId → Action σ (Option (Cleanup σ))) :
    m.Spares (m.evalAsync f run register).machine := by
  have asked := (m.spares_openWait f .callback).trans
    (spares_perform _ (register (m.openWait f .callback).1))
  unfold evalAsync
  dsimp only
  generalize (m.openWait f .callback).2.perform (register (m.openWait f .callback).1) = result
    at asked ⊢
  obtain ⟨_ | cleanup, n⟩ := result
  · exact asked.trans (n.spares_claim _)
  · exact asked

theorem spares_evalWatch (target : FiberId) (how : Watch) :
    m.Spares (m.evalWatch f run target how).machine := by
  have asked := m.spares_openWait f .fiber
  unfold evalWatch
  dsimp only
  split
  · exact (asked.trans (spares_interrupt _ target)).trans (spares_watch _ target _ how)
  · exact asked.trans (spares_watch _ target _ how)

theorem spares_evalSleep (d : Duration) : m.Spares (m.evalSleep f run d).machine := by
  unfold evalSleep
  split
  · exact .refl m
  · exact ⟨rfl, rfl, rfl, rfl, rfl, rfl⟩

/-- Handing an exit to a frame spares everything but the layers. -/
theorem layersOnly_resumeFrame (frame : Frame σ) (x : Exit) :
    m.LayersOnly (m.resumeFrame f scope run frame x).machine := by
  unfold resumeFrame
  split
  case h_1 => exact (m.spares_build run _).layersOnly
  case h_3 => exact (m.spares_build run _).layersOnly
  case h_6 =>
    unfold resumeFinalizing
    dsimp only
    split
    · exact .refl m
    · exact (m.spares_trace _).layersOnly
  case h_10 =>
    unfold resumeRetry
    split
    · exact (m.spares_trace _).layersOnly
    · exact (m.spares_trace _).layersOnly
    · exact .refl m
  case h_12 => exact (m.spares_build run _).layersOnly
  case h_14 => exact m.layersOnly_resumeLayers scope f run _ _
  all_goals exact .refl m

theorem keepsGroups_evalNode (node : Node σ) :
    m.KeepsGroups (m.evalNode f scope run node).machine := by
  cases node with
  | sync thunk =>
      refine .of_eq ?_
      have performed := (m.spares_perform thunk).groups
      simp only [evalNode]
      generalize m.perform thunk = result at performed ⊢
      obtain ⟨_ | x, n⟩ := result
      · exact performed
      · exact performed
  | once ticket exit => exact .of_eq (m.spares_perform _).groups
  | async register => exact .of_eq (m.spares_evalAsync f run register).groups
  | watch target how => exact .of_eq (m.spares_evalWatch f run target how).groups
  | awaitBuild layer =>
      exact .of_eq ((m.spares_openWait f .build).layersOnly.trans
        (layersOnly_joinBuild _ scope layer _)).groups
  | provide body plan exports =>
      exact .of_eq (m.layersOnly_provide scope f run body plan exports).groups
  | race children =>
      simp only [evalNode, evalRace]
      split
      · exact .of_eq rfl
      · exact m.keepsGroups_startRace f run.context children
  | all children options =>
      simp only [evalNode, evalAll]
      split
      · exact .of_eq rfl
      · exact m.keepsGroups_startAll f run.context children options
  | sleep d => exact .of_eq (m.spares_evalSleep f run d).groups
  | access reader => exact .of_eq (m.spares_build run _).groups
  | fork source => exact .of_eq rfl
  | _ => exact .of_eq rfl

/-- A step keeps what is known about groups. -/
theorem keepsGroups_stepRun : m.KeepsGroups (m.stepRun f scope run).machine := by
  unfold stepRun
  split
  · unfold eval
    split
    · exact .of_eq rfl
    · exact m.keepsGroups_evalNode f scope run _
  · split
    · exact .of_eq rfl
    · exact .of_eq (m.layersOnly_resumeFrame f scope _ _ _).groups

end

/-! ## What comes of a step -/

/-- What changes nothing but perhaps the slice on the worker spares groups and layers, and what is
known about the runs. -/
structure SparesTables (m m' : Machine σ) : Prop where
  groups : m'.groups = m.groups
  scopes : m'.scopes = m.scopes
  roots : m'.roots = m.roots
  results : m'.results = m.results

theorem Spares.tables {m m' : Machine σ} (spares : m.Spares m') : m.SparesTables m' :=
  ⟨spares.groups, spares.scopes, spares.roots, spares.results⟩

section

variable (m : Machine σ)

theorem spares_park (slice : Slice σ) (pending : Pending σ) :
    m.SparesTables (m.park slice pending) := by
  unfold park
  dsimp only
  split
  · exact ⟨rfl, rfl, rfl, rfl⟩
  · exact ⟨rfl, rfl, rfl, rfl⟩
  · rename_i w canceler _
    split
    · have claimed := m.spares_claim w
      generalize m.claim w = result at claimed ⊢
      obtain ⟨won, n⟩ := result
      cases won with
      | true =>
          have tidied := claimed.trans (n.spares_runCanceler slice.fiber canceler)
          exact ⟨tidied.groups, tidied.scopes, tidied.roots, tidied.results⟩
      | false => exact ⟨claimed.groups, claimed.scopes, claimed.roots, claimed.results⟩
    · exact ⟨rfl, rfl, rfl, rfl⟩

theorem spares_follow (slice : Slice σ) {control : Control σ}
    (goes : ∀ x, control ≠ .finish x) : m.SparesTables (m.follow slice control) := by
  cases control with
  | next step =>
      unfold follow
      dsimp only
      split <;> exact ⟨rfl, rfl, rfl, rfl⟩
  | yield step => exact ⟨rfl, rfl, rfl, rfl⟩
  | suspend pending => exact m.spares_park slice pending
  | finish x => exact absurd rfl (goes x)

theorem spares_dispatch : m.SparesTables m.dispatch := by
  unfold dispatch
  split
  · exact ⟨rfl, rfl, rfl, rfl⟩
  · dsimp only
    split
    · exact ⟨rfl, rfl, rfl, rfl⟩
    · split <;> exact ⟨rfl, rfl, rfl, rfl⟩

/-- A program has an exit, and its fiber has live children. -/
theorem spares_finish (f : FiberId) (x : Exit) {fiber : Fiber σ} (row : m.fiber? f = some fiber)
    (busy : fiber.children ≠ []) : m.SparesTables (m.finish f x) := by
  unfold finish
  simp only [row, Option.map_some, Option.getD_some, List.isEmpty_iff, busy, if_false]
  have noted := (m.spares_trace (.waitingForChildren f fiber.children.length)).trans
    (spares_modifyFiber _ f fun fiber' =>
      { fiber' with closing := some { remaining := fiber.children.length, exit := x } })
  exact ((noted.trans (spares_interruptAll _ _)).trans (spares_awaitChildren _ f _)).tables

end

end EffectFibers.Machine
