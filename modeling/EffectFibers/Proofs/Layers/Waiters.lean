import EffectFibers.Proofs.Layers.Steps

/-!
# Those who wait for a build

Who comes to a layer that another fiber is building is entered in a list beside the claim.  The list
grows while the build is under way.  At its end it is gone, and everybody on it was told once: to
look again, or a copy of the cause with which the build has failed.  Whoever gave up waiting before
takes no notice.

## Main definitions

* `LayerSpec.verdict` – what those who wait are told.
* `Machine.Files` – what a step does to the claims and the lists of its run.

## Main statements

* `Machine.files_stepRun` – every step does one of a few things.
* `Machine.row_wake` – telling them answers those who still wait, and nobody else.
-/

namespace EffectFibers

variable {σ : Type}

/-- What those who wait for a layer are told at the end of its build: to look again, or a copy of
the cause. -/
def LayerSpec.verdict {ν : Type} (layer : LayerSpec ν) : Exit → Exit
  | .ok (.context _) => .ok .null
  | .ok _ => .error (layer.copyCause (.die .typeMismatch))
  | .error .interrupt => .ok .null
  | .error cause => .error (layer.copyCause cause)

namespace Memo

variable {memo : Memo} {l : LayerId} {f : FiberId} {waiters : List WaitId}

theorem waiters_of_building (entry : memo.get? l = some (.building f waiters)) :
    memo.waiters l = waiters := by
  rw [Memo.waiters, entry]

/-- Only beside a claim there is somebody on a list. -/
theorem building_of_mem_waiters {w : WaitId} (listed : w ∈ memo.waiters l) :
    ∃ f, memo.get? l = some (.building f (memo.waiters l)) := by
  unfold waiters at listed ⊢
  split at listed
  · rename_i f waiters entry
    exact ⟨f, entry⟩
  · cases listed

end Memo

namespace Machine

variable {m m' : Machine σ} {f p : FiberId} {s : ScopeId} {run : RunState σ}
  {build : LayerBuild σ} {w : WaitId} {x : Exit}

/-! ## What a step does to the lists -/

/-- What a step of a fiber does to the claims of its run and to the lists beside them. -/
inductive Files (f : FiberId) (s : ScopeId) (run : RunState σ) (m m' : Machine σ) : Prop
  | same (same : m'.memo s = m.memo s)
  /-- It claims a layer that nobody has claimed; nobody waits for the build. -/
  | claims {l} (free : (m.memo s).get? l = none)
    (entry : m'.memo s = (m.memo s).insert l (.building f []))
  /-- It enters the fiber in the list of a build. -/
  | joins {l g waiters} (building : (m.memo s).get? l = some (.building g waiters))
    (next : run.next = .eval (.awaitBuild l))
    (entry : m'.memo s = (m.memo s).insert l (.building g (waiters ++ [m.waits.nextId])))
  /-- It ends a build of the fiber, tells everybody on the list, and may claim another layer. -/
  | ends {x build layer rest below waiters} (next : run.next = .done x)
    (top : run.stack = .layers build :: below) (owning : build.owning = true)
    (todo : build.todo = layer :: rest)
    (building : (m.memo s).get? layer.id = some (.building f waiters))
    (gone : (m'.memo s).get? layer.id = (contextOf x).map .built)
    (others : ∀ l, l ≠ layer.id → (m'.memo s).get? l = (m.memo s).get? l ∨
      (m.memo s).get? l = none ∧ (m'.memo s).get? l = some (.building f []))
    (told : ∃ n : Machine σ, n.fibers = m.fibers ∧ n.waits = m.waits ∧
      m'.fibers = (n.wake waiters (layer.verdict x)).fibers ∧
      m'.waits = (n.wake waiters (layer.verdict x)).waits)

/-- To go on with a plan claims a layer, or leaves all claims alone. -/
theorem claims_advanceLayers (known : (m.scopes.get? s).isSome) (run : RunState σ)
    (build : LayerBuild σ) (todo : List (LayerNode σ)) :
    let n := (m.advanceLayers f s run build todo).machine
    n.fibers = m.fibers ∧ n.waits = m.waits ∧ (n.memo s = m.memo s ∨
      ∃ l, (m.memo s).get? l = none ∧ n.memo s = (m.memo s).insert l (.building f [])) := by
  induction todo generalizing build with
  | nil => exact ⟨rfl, rfl, .inl rfl⟩
  | cons layer rest ih =>
      unfold advanceLayers lookUpLayer
      cases found : (m.memo s).get? layer.id with
      | none =>
          refine ⟨rfl, rfl, .inr ⟨layer.id, found, ?_⟩⟩
          exact (memo_of_scopes rfl s).trans ((memo_modifyMemo known _ s).trans (if_pos rfl))
      | some entry =>
          cases entry with
          | building owner waiters => exact ⟨rfl, rfl, .inl rfl⟩
          | built context => exact ih _

theorem files_advanceLayers (known : (m.scopes.get? s).isSome) {step : RunState σ}
    (build : LayerBuild σ) (todo : List (LayerNode σ)) :
    Files f s step m (m.advanceLayers f s run build todo).machine := by
  obtain ⟨-, -, same | ⟨l, free, entry⟩⟩ := claims_advanceLayers (f := f) known run build todo
  · exact .same same
  · exact .claims free entry

theorem files_evalAwaitBuild (known : (m.scopes.get? s).isSome) {l : LayerId}
    (next : run.next = .eval (.awaitBuild l)) :
    Files f s run m (m.evalAwaitBuild f s run l).machine := by
  have opened : (m.openWait f .build).2.memo s = m.memo s := rfl
  show Files f s run m ((m.openWait f .build).2.joinBuild s l m.waits.nextId)
  unfold joinBuild
  rw [opened]
  split
  · rename_i g waiters building
    exact .joins building next ((memo_modifyMemo (m := (m.openWait f .build).2) known _ s).trans
      (if_pos rfl))
  · exact .same (memo_of_scopes (spares_resume _ _ _).scopes s)

/-- A build has ended, and something has taken its place or nothing. -/
private theorem files_of_end (change : Memo → Memo) {layer : LayerNode σ}
    {rest : List (LayerNode σ)} {below : List (Frame σ)} {waiters : List WaitId} {n : Machine σ}
    (known : (m.scopes.get? s).isSome) (next : run.next = .done x)
    (top : run.stack = .layers build :: below) (owning : build.owning = true)
    (todo : build.todo = layer :: rest)
    (building : (m.memo s).get? layer.id = some (.building f waiters))
    (changed : n.scopes = (m.modifyMemo s change).scopes)
    (fibers : n.fibers = m.fibers) (waits : n.waits = m.waits)
    (entries : ∀ l, (change (m.memo s)).get? l =
      if layer.id = l then (contextOf x).map .built else (m.memo s).get? l)
    (after : m'.fibers = (n.wake waiters (layer.verdict x)).fibers ∧
      m'.waits = (n.wake waiters (layer.verdict x)).waits ∧
      (m'.memo s = (n.wake waiters (layer.verdict x)).memo s ∨
        ∃ l, ((n.wake waiters (layer.verdict x)).memo s).get? l = none ∧
          m'.memo s = ((n.wake waiters (layer.verdict x)).memo s).insert l (.building f [])))
    (gone : (m'.memo s).get? layer.id = (contextOf x).map .built) : Files f s run m m' := by
  obtain ⟨fibers', waits', same⟩ := after
  have memo : (n.wake waiters (layer.verdict x)).memo s = change (m.memo s) := by
    rw [memo_of_scopes ((spares_wake _ _ _).scopes.trans changed), memo_modifyMemo known,
      if_pos rfl]
  refine .ends next top owning todo building gone (fun l other => ?_)
    ⟨n, fibers, waits, fibers', waits'⟩
  have kept : (change (m.memo s)).get? l = (m.memo s).get? l := by
    rw [entries, if_neg (Ne.symm other)]
  rcases same with same | ⟨k, free, claimed⟩
  · rw [same, memo]
    exact .inl kept
  · rw [memo] at free claimed
    rw [claimed, Memo.get?_insert]
    split
    · rename_i here
      subst here
      exact .inr ⟨kept.symm.trans free, rfl⟩
    · exact .inl kept

/-- A build that is forgotten leaves nothing behind. -/
private theorem files_forgetBuild (known : (m.scopes.get? s).isSome) {layer : LayerNode σ}
    {rest : List (LayerNode σ)} {below : List (Frame σ)} {waiters : List WaitId} {n : Machine σ}
    (agrees : m.Agrees f s (.layers build :: below)) (next : run.next = .done x)
    (top : run.stack = .layers build :: below) (owning : build.owning = true)
    (todo : build.todo = layer :: rest)
    (building : (m.memo s).get? layer.id = some (.building f waiters))
    (nothing : contextOf x = none) (scopes : n.scopes = m.scopes) (fibers : n.fibers = m.fibers)
    (waits : n.waits = m.waits) (outcome : BuildOutcome) :
    Files f s run m (n.forgetBuild s layer outcome (layer.verdict x)) := by
  have same : n.memo s = m.memo s := memo_of_scopes scopes s
  have agrees' : n.Agrees f s (.layers build :: below) := fun l => by
    rw [same]
    exact agrees l
  have gone := get?_forgetBuild (scopes ▸ known) agrees' owning todo outcome (layer.verdict x)
  rw [show none = (contextOf x).map MemoEntry.built by rw [nothing]; rfl] at gone
  unfold forgetBuild at gone ⊢
  rw [same, building] at gone ⊢
  refine files_of_end (·.erase layer.id) known next top owning todo building
    (n := (n.modifyMemo s (·.erase layer.id)).trace _) ?_ fibers waits (fun l => ?_)
    ⟨rfl, rfl, .inl rfl⟩ gone
  · show (n.modifyMemo s (·.erase layer.id)).scopes = _
    rw [modifyMemo, modifyMemo, scopes]
  · rw [nothing]
    exact Memo.get?_erase _ _ l

/-- The end of a build of the fiber. -/
theorem files_endBuild (known : (m.scopes.get? s).isSome) {layer : LayerNode σ}
    {rest : List (LayerNode σ)} {below : List (Frame σ)}
    (agrees : m.Agrees f s (.layers build :: below)) (next : run.next = .done x)
    (top : run.stack = .layers build :: below) (owning : build.owning = true)
    (todo : build.todo = layer :: rest) {after : RunState σ} (stack : after.stack = below)
    (goesOn : LayerBuild σ) :
    Files f s run m (m.endBuild f s after goesOn layer rest x).machine := by
  obtain ⟨claimed, -⟩ := agrees.of_owns (l := layer.id) (by simp [Frame.owns, owning, todo])
  obtain ⟨waiters, building⟩ := Memo.builder?_eq_some_iff.1 claimed
  unfold endBuild
  split
  · rename_i context
    have completed : (m.completeBuild s layer context) =
        ((m.modifyMemo s (·.insert layer.id (.built context))).trace
          (.built layer.name waiters.length)).wake waiters (.ok .null) := by
      rw [completeBuild, Memo.waiters_of_building building]
    obtain ⟨known', -⟩ := context?_completeBuild known layer context
    have gone := (tends_endBuild known after goesOn (stack ▸ agrees) owning todo
      (.ok (.context context))).2
    have advanced := claims_advanceLayers (f := f) known' after
      { goesOn with built := goesOn.built.merge context } rest
    rw [endBuild, completed] at gone
    rw [completed] at advanced ⊢
    refine files_of_end (·.insert layer.id (.built context)) known next top owning todo
      building (n := (m.modifyMemo s (·.insert layer.id (.built context))).trace _) rfl rfl rfl
      (fun l => ?_) advanced gone
    rw [Memo.get?_insert]
    rfl
  · rename_i v other
    have nothing : contextOf (.ok v) = none := by
      unfold contextOf
      split
      · rename_i context same
        exact absurd (Except.ok.inj same) (other context)
      · rfl
    have verdict : layer.verdict (.ok v) = .error (layer.copyCause (.die .typeMismatch)) := by
      unfold LayerSpec.verdict
      split <;> simp_all
    have forgotten := files_forgetBuild known agrees next top owning todo building nothing
      (n := m) rfl rfl rfl .failed
    rwa [verdict] at forgotten
  · exact files_forgetBuild known agrees next top owning todo building rfl rfl rfl rfl .abandoned
  · rename_i cause other
    have verdict : layer.verdict (.error cause) = .error (layer.copyCause cause) := by
      unfold LayerSpec.verdict
      split <;> simp_all
    have forgotten := files_forgetBuild known agrees next top owning todo building rfl
      (n := m.trace (.buildFailed layer.name cause)) rfl rfl rfl .failed
    rwa [verdict] at forgotten

/-- Every step does one of a few things to the claims and the lists of its run. -/
theorem files_stepRun (known : (m.scopes.get? s).isSome) (agrees : m.Agrees f s run.stack) :
    Files f s run m (m.stepRun f s run).machine := by
  cases deals_stepRun m f s run with
  | plain same frames other top => exact .same (memo_of_scopes same s)
  | notices next goes => exact .same (by rw [goes])
  | provides next goes =>
      rw [goes]
      exact files_advanceLayers known _ _
  | awaits next goes =>
      rw [goes]
      exact files_evalAwaitBuild known next
  | @resumes x build below next top goes =>
      rw [goes]
      rw [top] at agrees
      unfold resumeLayers
      split
      · rename_i owning
        split
        · exact .same rfl
        · rename_i layer rest todo
          exact files_endBuild known agrees next top owning todo rfl _
      · split
        · exact files_advanceLayers known _ _
        · exact .same rfl

/-! ## Telling those who wait -/

/-- A wait that ends is not open any more, and all others stay as they are. -/
theorem openFor_resume {v : WaitId} :
    (m.resume w x).OpenFor p v ↔ m.OpenFor p v ∧ v ≠ w := by
  have waits : (m.resume w x).waits = (m.claim w).2.waits := by
    obtain ⟨same, closed⟩ | ⟨wait, -, -, same⟩ := m.resume_cases w x <;> rw [same]
    · rw [claim_of_closed closed]
    · exact waits_deliver _ _ x
  unfold OpenFor
  rw [waits, claim]
  split
  · rw [Table.get?_modify]
    split
    · rename_i same
      subst same
      cases m.waits.get? w <;> simp
    · rename_i other
      simp [Ne.symm other]
  · rename_i shut
    refine ⟨fun opened => ⟨opened, ?_⟩, And.left⟩
    rintro rfl
    obtain ⟨wait, found, free, -⟩ := opened
    simp [isOpen, found, free] at shut

theorem openFor_wake {waiters : List WaitId} {v : WaitId} :
    (m.wake waiters x).OpenFor p v ↔ m.OpenFor p v ∧ v ∉ waiters := by
  induction waiters generalizing m with
  | nil => simp [wake]
  | cons w rest ih =>
      show ((m.resume w x).wake rest x).OpenFor p v ↔ _
      rw [ih, openFor_resume, List.mem_cons, not_or, and_assoc]

/-- The end of a wait is nothing to a fiber that does not have it open. -/
theorem row_resume_of_closed {fiber : Fiber σ} (row : m.fiber? p = some fiber)
    (closed : ¬ m.OpenFor p w) : (m.resume w x).fiber? p = some fiber := by
  obtain ⟨same, -⟩ | ⟨wait, found, free, same⟩ := m.resume_cases w x <;> rw [same]
  · exact row
  · have other : p ≠ wait.owner := fun owner => closed ⟨wait, found, free, owner.symm⟩
    exact (fiber?_deliver other _ x).trans ((m.fiber?_claim w p).trans row)

/-- Nothing happens to a fiber that none of those is. -/
theorem row_wake_of_closed {fiber : Fiber σ} {waiters : List WaitId}
    (row : m.fiber? p = some fiber) (closed : ∀ w ∈ waiters, ¬ m.OpenFor p w) :
    (m.wake waiters x).fiber? p = some fiber := by
  induction waiters generalizing m with
  | nil => exact row
  | cons w rest ih =>
      refine ih (m := m.resume w x) (row_resume_of_closed row (closed w List.mem_cons_self))
        fun v listed opened => ?_
      exact closed v (List.mem_cons_of_mem _ listed) (openFor_resume.1 opened).1

/-- Of a fiber that sleeps on its only open wait: it is answered if it is one of those. -/
theorem row_wake {fiber : Fiber σ} {waiters : List WaitId} (row : m.fiber? p = some fiber)
    (asleep : fiber.status = .suspended) (opened : m.OpenFor p w)
    (sole : ∀ v, m.OpenFor p v → v = w) (listed : w ∈ waiters) :
    (m.wake waiters x).fiber? p = some (Coherent.answered x fiber) := by
  induction waiters generalizing m with
  | nil => cases listed
  | cons v rest ih =>
      by_cases here : v = w
      · subst here
        have told : (m.resume v x).fiber? p = some (Coherent.answered x fiber) := by
          obtain ⟨wait, found, free, rfl⟩ := opened
          have row' : (m.claim v).2.fiber? wait.owner = some fiber := (m.fiber?_claim v _).trans row
          have status : (m.claim v).2.status wait.owner = .suspended :=
            (Coherent.status_of_row row').trans asleep
          rw [resume_of_open found free, deliver]
          simp only [status]
          show ((m.claim v).2.modifyFiber wait.owner _).fiber? wait.owner = _
          rw [fiber?_modifyFiber, if_pos rfl, row']
          rfl
        refine row_wake_of_closed (m := m.resume v x) told fun u _ opened' => ?_
        obtain ⟨opened', other⟩ := openFor_resume.1 opened'
        exact other (sole u opened')
      · refine ih (m := m.resume v x)
          (row_resume_of_closed row fun opened' => here (sole v opened'))
          (openFor_resume.2 ⟨opened, Ne.symm here⟩) (fun u opened' => ?_)
          ((List.mem_cons.1 listed).resolve_left (Ne.symm here))
        exact sole u (openFor_resume.1 opened').1

end Machine

end EffectFibers
