import EffectFibers.Proofs.Layers.Memory

/-!
# Claims to layers

A fiber that builds a layer has claimed it in the memory of its run, and a frame on its stack waits
for what comes of the build.  A step of the fiber keeps the two in line: it claims a layer and puts
up the frame at once, and it ends its claim when an exit reaches the frame.  What other fibers have
claimed, and what has been built, it leaves as it is.

## Main definitions

* `Frame.owns` – a frame that waits for a layer that its own fiber builds.
* `Machine.Agrees` – the frames of a fiber are in line with what it has claimed.
* `Machine.Tends` – what a step of a fiber may do to the layers of its run.

## Main statements

* `Machine.tends_stepRun` – every step tends the layers.
* `Machine.entry_endBuild` – what remains of a build that has ended.
-/

namespace EffectFibers

variable {σ : Type}

/-! ## Entries -/

namespace Memo

/-- Who builds a layer. -/
def builder? (memo : Memo) (l : LayerId) : Option FiberId :=
  match memo.get? l with
  | some (.building f _) => some f
  | _ => none

/-- What has been built for a layer. -/
def context? (memo : Memo) (l : LayerId) : Option (Context Value) :=
  match memo.get? l with
  | some (.built context) => some context
  | _ => none

variable {memo : Memo} {l : LayerId} {f : FiberId} {context : Context Value}

theorem builder?_eq_some_iff :
    memo.builder? l = some f ↔ ∃ waiters, memo.get? l = some (.building f waiters) := by
  unfold builder?
  split <;> simp_all

theorem context?_eq_some_iff :
    memo.context? l = some context ↔ memo.get? l = some (.built context) := by
  unfold context?
  split <;> simp_all

theorem builder?_insert (memo : Memo) (l k : LayerId) (entry : MemoEntry) :
    (memo.insert l entry).builder? k =
      if l = k then (match entry with | .building f _ => some f | .built _ => none)
      else memo.builder? k := by
  unfold builder?
  rw [get?_insert]
  by_cases same : l = k
  · rw [if_pos same, if_pos same]
    cases entry <;> rfl
  · rw [if_neg same, if_neg same]

theorem context?_insert (memo : Memo) (l k : LayerId) (entry : MemoEntry) :
    (memo.insert l entry).context? k =
      if l = k then (match entry with | .building .. => none | .built context => some context)
      else memo.context? k := by
  unfold context?
  rw [get?_insert]
  by_cases same : l = k
  · rw [if_pos same, if_pos same]
    cases entry <;> rfl
  · rw [if_neg same, if_neg same]

theorem builder?_erase (memo : Memo) (l k : LayerId) :
    (memo.erase l).builder? k = if l = k then none else memo.builder? k := by
  unfold builder?
  rw [get?_erase]
  by_cases same : l = k
  · rw [if_pos same, if_pos same]
  · rw [if_neg same, if_neg same]

theorem context?_erase (memo : Memo) (l k : LayerId) :
    (memo.erase l).context? k = if l = k then none else memo.context? k := by
  unfold context?
  rw [get?_erase]
  by_cases same : l = k
  · rw [if_pos same, if_pos same]
  · rw [if_neg same, if_neg same]

end Memo

/-! ## Frames and claims -/

/-- A frame that waits for a layer that its own fiber builds. -/
def Frame.owns (l : LayerId) : Frame σ → Bool
  | .layers build => build.owning && (build.todo.head?).any (·.id = l)
  | _ => false

namespace Machine

variable {m m' : Machine σ} {f : FiberId} {s : ScopeId} {stack stack' : List (Frame σ)}
  {run : RunState σ} {build : LayerBuild σ} {layer : LayerNode σ} {rest : List (LayerNode σ)}

/-- A stack has one frame for each layer that the fiber has claimed, and none for any other. -/
def Agrees (m : Machine σ) (f : FiberId) (s : ScopeId) (stack : List (Frame σ)) : Prop :=
  ∀ l, stack.countP (Frame.owns l) = if (m.memo s).builder? l = some f then 1 else 0

/-- On behalf of a fiber the layers of its run are tended: its stack agrees with its claims, and
neither the claims of others nor what has been built nor the layers of other runs are touched. -/
structure Tends (f : FiberId) (s : ScopeId) (m m' : Machine σ) (stack : List (Frame σ)) : Prop where
  agrees : m'.Agrees f s stack
  others : ∀ l g, g ≠ f → ((m'.memo s).builder? l = some g ↔ (m.memo s).builder? l = some g)
  built : ∀ l c, (m.memo s).context? l = some c → (m'.memo s).context? l = some c
  runs : ∀ t, t ≠ s → m'.memo t = m.memo t

theorem Tends.trans {m'' : Machine σ} (first : Tends f s m m' stack)
    (second : Tends f s m' m'' stack') : Tends f s m m'' stack' where
  agrees := second.agrees
  others l g other := (second.others l g other).trans (first.others l g other)
  built l c known := second.built l c (first.built l c known)
  runs t other := (second.runs t other).trans (first.runs t other)

/-- A step that has nothing to do with layers. -/
theorem Tends.of_same (agrees : m.Agrees f s stack) (same : m'.scopes = m.scopes)
    (frames : ∀ l, stack'.countP (Frame.owns l) = stack.countP (Frame.owns l)) :
    Tends f s m m' stack' where
  agrees l := by
    rw [frames, memo_of_scopes same]
    exact agrees l
  others l g _ := by rw [memo_of_scopes same]
  built l c known := by rwa [memo_of_scopes same]
  runs t _ := memo_of_scopes same t

/-- A change to the layers of the run. -/
theorem Tends.of_modify {change : Memo → Memo} (known : (m.scopes.get? s).isSome)
    (same : m'.scopes = (m.modifyMemo s change).scopes)
    (agrees : ∀ l, stack.countP (Frame.owns l) =
      if (change (m.memo s)).builder? l = some f then 1 else 0)
    (others : ∀ l g, g ≠ f →
      ((change (m.memo s)).builder? l = some g ↔ (m.memo s).builder? l = some g))
    (built : ∀ l c, (m.memo s).context? l = some c → (change (m.memo s)).context? l = some c) :
    Tends f s m m' stack := by
  have changed : m'.memo s = change (m.memo s) := by
    rw [memo_of_scopes same, memo_modifyMemo known, if_pos rfl]
  refine ⟨?_, ?_, ?_, fun t other => ?_⟩
  · rw [Agrees, changed]
    exact agrees
  · rw [changed]
    exact others
  · rw [changed]
    exact built
  · rw [memo_of_scopes same, memo_modifyMemo known, if_neg (Ne.symm other)]

/-! ## Claiming a layer -/

/-- A layer that nobody has claimed is claimed, and the frame that waits for it is put up. -/
theorem tends_claim (known : (m.scopes.get? s).isSome) (agrees : m.Agrees f s stack)
    (free : (m.memo s).get? layer.id = none) (same : m'.scopes =
      (m.modifyMemo s (·.insert layer.id (.building f []))).scopes) :
    Tends f s m m' (.layers { build with todo := layer :: rest, owning := true } :: stack) := by
  have unclaimed : (m.memo s).builder? layer.id = none := by rw [Memo.builder?, free]
  refine .of_modify known same (fun l => ?_) (fun l g other => ?_) fun l c context => ?_
  · rw [List.countP_cons, agrees l, Memo.builder?_insert]
    by_cases here : layer.id = l
    · subst here
      simp [Frame.owns, unclaimed]
    · simp [Frame.owns, here]
  · rw [Memo.builder?_insert]
    by_cases here : layer.id = l
    · subst here
      simp [unclaimed, Ne.symm other]
    · rw [if_neg here]
  · rw [Memo.context?_insert]
    by_cases here : layer.id = l
    · subst here
      simp [Memo.context?, free] at context
    · rwa [if_neg here]

/-- To go on with a plan is to pass by what is built, and then to claim a layer, or to wait for
it, or to run the body. -/
theorem tends_advanceLayers (known : (m.scopes.get? s).isSome) (run : RunState σ)
    (build : LayerBuild σ) (todo : List (LayerNode σ)) (agrees : m.Agrees f s run.stack) :
    Tends f s m (m.advanceLayers f s run build todo).machine
      (m.advanceLayers f s run build todo).run.stack := by
  induction todo generalizing build with
  | nil => exact .of_same agrees rfl fun _ => rfl
  | cons layer rest ih =>
      unfold advanceLayers lookUpLayer
      cases found : (m.memo s).get? layer.id with
      | none => exact tends_claim known agrees found rfl
      | some entry =>
          cases entry with
          | building owner waiters => exact .of_same agrees rfl fun _ => rfl
          | built context => exact ih _

/-- Who waits for a build takes nothing from its owner. -/
theorem tends_joinBuild (known : (m.scopes.get? s).isSome) (agrees : m.Agrees f s stack)
    (l : LayerId) (w : WaitId) : Tends f s m (m.joinBuild s l w) stack := by
  unfold joinBuild
  split
  · rename_i owner waiters entry
    have builder : ∀ k, ((m.memo s).insert l (.building owner (waiters ++ [w]))).builder? k =
        (m.memo s).builder? k := by
      intro k
      rw [Memo.builder?_insert]
      by_cases here : l = k
      · subst here
        rw [if_pos rfl, Memo.builder?, entry]
      · rw [if_neg here]
    refine .of_modify known rfl (fun k => ?_) (fun k g _ => ?_) fun k c context => ?_
    · rw [builder]
      exact agrees k
    · rw [builder]
    · rw [Memo.context?_insert]
      by_cases here : l = k
      · subst here
        simp [Memo.context?, entry] at context
      · rwa [if_neg here]
  · exact .of_same agrees (m.spares_resume w _).scopes fun _ => rfl

/-! ## The end of a build -/

/-- A layer whose frame is on a stack is claimed by the fiber, and no other frame waits for it. -/
theorem Agrees.of_owns {frame : Frame σ} {l : LayerId} (agrees : m.Agrees f s (frame :: stack))
    (owns : frame.owns l = true) :
    (m.memo s).builder? l = some f ∧ stack.countP (Frame.owns l) = 0 := by
  have count := agrees l
  rw [List.countP_cons, if_pos owns] at count
  by_cases claimed : (m.memo s).builder? l = some f
  · rw [if_pos claimed] at count
    exact ⟨claimed, by omega⟩
  · rw [if_neg claimed] at count
    omega

/-- What takes the place of a claim is no claim. -/
theorem tends_of_end {change : Memo → Memo} (known : (m.scopes.get? s).isSome)
    (agrees : m.Agrees f s (.layers build :: stack)) (owning : build.owning = true)
    (next : build.todo = layer :: rest) (same : m'.scopes = (m.modifyMemo s change).scopes)
    (builder : ∀ k, (change (m.memo s)).builder? k =
      if layer.id = k then none else (m.memo s).builder? k)
    (context : ∀ k, layer.id ≠ k → (change (m.memo s)).context? k = (m.memo s).context? k) :
    Tends f s m m' stack := by
  have owns : ∀ l, Frame.owns l (.layers build) = decide (layer.id = l) := by
    intro l
    simp [Frame.owns, owning, next]
  obtain ⟨claimed, alone⟩ := agrees.of_owns (l := layer.id) (by simp [owns])
  refine .of_modify known same (fun l => ?_) (fun l g other => ?_) fun l c built => ?_
  · rw [builder]
    by_cases here : layer.id = l
    · subst here
      simpa using alone
    · have count := agrees l
      rw [List.countP_cons, owns] at count
      simpa [here] using count
  · rw [builder]
    by_cases here : layer.id = l
    · subst here
      rw [if_pos rfl, claimed]
      simp [Ne.symm other]
    · rw [if_neg here]
  · by_cases here : layer.id = l
    · subst here
      obtain ⟨waiters, entry⟩ := Memo.builder?_eq_some_iff.1 claimed
      simp [Memo.context?, entry] at built
    · rwa [context l here]

theorem tends_completeBuild (known : (m.scopes.get? s).isSome)
    (agrees : m.Agrees f s (.layers build :: stack)) (owning : build.owning = true)
    (next : build.todo = layer :: rest) (context : Context Value) :
    Tends f s m (m.completeBuild s layer context) stack := by
  refine tends_of_end known agrees owning next (spares_wake _ _ _).scopes (fun k => ?_)
    fun k other => ?_
  · rw [Memo.builder?_insert]
  · rw [Memo.context?_insert, if_neg other]

/-- What a build has produced is remembered. -/
theorem context?_completeBuild (known : (m.scopes.get? s).isSome) (layer : LayerNode σ)
    (context : Context Value) :
    ((m.completeBuild s layer context).scopes.get? s).isSome ∧
      ((m.completeBuild s layer context).memo s).context? layer.id = some context := by
  have same : (m.completeBuild s layer context).scopes =
    (m.modifyMemo s (·.insert layer.id (.built context))).scopes := (spares_wake _ _ _).scopes
  constructor
  · rw [same, modifyMemo, Table.get?_modify, if_pos rfl]
    simpa using known
  · rw [memo_of_scopes same, memo_modifyMemo known, if_pos rfl, Memo.context?_insert, if_pos rfl]

/-- A build that is forgotten leaves no entry. -/
theorem scopes_forgetBuild (agrees : m.Agrees f s (.layers build :: stack))
    (owning : build.owning = true) (next : build.todo = layer :: rest) (outcome : BuildOutcome)
    (x : Exit) : (m.forgetBuild s layer outcome x).scopes =
      (m.modifyMemo s (·.erase layer.id)).scopes := by
  obtain ⟨claimed, -⟩ := agrees.of_owns (l := layer.id) (by simp [Frame.owns, owning, next])
  obtain ⟨waiters, entry⟩ := Memo.builder?_eq_some_iff.1 claimed
  unfold forgetBuild
  rw [entry]
  exact (spares_wake _ _ _).scopes

theorem tends_forgetBuild (known : (m.scopes.get? s).isSome)
    (agrees : m.Agrees f s (.layers build :: stack)) (owning : build.owning = true)
    (next : build.todo = layer :: rest) (outcome : BuildOutcome) (x : Exit) :
    Tends f s m (m.forgetBuild s layer outcome x) stack := by
  refine tends_of_end known agrees owning next
    (scopes_forgetBuild agrees owning next outcome x) (fun k => ?_) fun k other => ?_
  · rw [Memo.builder?_erase]
  · rw [Memo.context?_erase, if_neg other]

theorem get?_forgetBuild (known : (m.scopes.get? s).isSome)
    (agrees : m.Agrees f s (.layers build :: stack)) (owning : build.owning = true)
    (next : build.todo = layer :: rest) (outcome : BuildOutcome) (x : Exit) :
    ((m.forgetBuild s layer outcome x).memo s).get? layer.id = none := by
  rw [memo_of_scopes (scopes_forgetBuild agrees owning next outcome x), memo_modifyMemo known,
    if_pos rfl, Memo.get?_erase, if_pos rfl]

/-- The context that an exit brings, if it brings one. -/
def contextOf : Exit → Option (Context Value)
  | .ok (.context context) => some context
  | _ => none

/-- The end of a build: the fiber goes on with its plan, or hands on the cause. -/
theorem tends_endBuild (known : (m.scopes.get? s).isSome) (run : RunState σ)
    (goesOn : LayerBuild σ) (agrees : m.Agrees f s (.layers build :: run.stack))
    (owning : build.owning = true) (next : build.todo = layer :: rest) (x : Exit) :
    Tends f s m (m.endBuild f s run goesOn layer rest x).machine
        (m.endBuild f s run goesOn layer rest x).run.stack ∧
      ((m.endBuild f s run goesOn layer rest x).machine.memo s).get? layer.id =
        (contextOf x).map .built := by
  unfold endBuild
  split
  · rename_i context
    have completed := tends_completeBuild known agrees owning next context
    obtain ⟨known', built⟩ := context?_completeBuild known layer context
    have advanced := tends_advanceLayers known' run
      { goesOn with built := goesOn.built.merge context } rest completed.agrees
    refine ⟨completed.trans advanced, ?_⟩
    rw [contextOf, Option.map_some, ← Memo.context?_eq_some_iff]
    exact advanced.built _ _ built
  · rename_i v other
    refine ⟨tends_forgetBuild known agrees owning next _ _,
      (get?_forgetBuild known agrees owning next _ _).trans ?_⟩
    unfold contextOf
    split
    · rename_i context same
      exact absurd (Except.ok.inj same) (other context)
    · rfl
  · exact ⟨tends_forgetBuild known agrees owning next _ _,
      get?_forgetBuild known agrees owning next _ _⟩
  · rename_i cause _
    have told : Tends f s m (m.trace (.buildFailed layer.name cause)) (.layers build :: run.stack) :=
      .of_same agrees rfl fun _ => rfl
    have forgotten := tends_forgetBuild (m := m.trace (.buildFailed layer.name cause)) known
      told.agrees owning next .failed (.error (layer.copyCause cause))
    have nothing := get?_forgetBuild (m := m.trace (.buildFailed layer.name cause)) known
      told.agrees owning next .failed (.error (layer.copyCause cause))
    exact ⟨told.trans forgotten, nothing⟩

/-! ## Steps -/

/-- A frame that waits for no build of its own fiber can go. -/
theorem Agrees.below {frame : Frame σ} (agrees : m.Agrees f s (frame :: stack))
    (plain : ∀ l, frame.owns l = false) : m.Agrees f s stack := by
  intro l
  rw [← agrees l, List.countP_cons, plain l]
  rfl

theorem tends_resumeLayers (known : (m.scopes.get? s).isSome) (run : RunState σ)
    (agrees : m.Agrees f s (.layers build :: run.stack)) (x : Exit) :
    Tends f s m (m.resumeLayers f s run build x).machine
      (m.resumeLayers f s run build x).run.stack := by
  unfold resumeLayers
  split
  · rename_i owning
    split
    · rename_i nothing
      have below := agrees.below fun l => by simp [Frame.owns, nothing]
      exact .of_same below rfl fun _ => rfl
    · rename_i layer rest next
      exact (tends_endBuild known { run with context := build.outer } _ agrees owning next x).1
  · rename_i waiting
    have below := agrees.below fun l => by simp [Frame.owns, waiting]
    split
    · exact tends_advanceLayers known run build build.todo below
    · exact .of_same below rfl fun _ => rfl

theorem tends_provide (known : (m.scopes.get? s).isSome) (run : RunState σ)
    (agrees : m.Agrees f s run.stack) (body : Node σ) (plan : LayerPlan σ)
    (exports : List TagId) : Tends f s m (m.provide f s run body plan exports).machine
      (m.provide f s run body plan exports).run.stack := by
  unfold provide
  split
  · exact .of_same agrees rfl fun _ => rfl
  · exact tends_advanceLayers known _ _ _ agrees

theorem tends_evalAwaitBuild (known : (m.scopes.get? s).isSome) (run : RunState σ)
    (agrees : m.Agrees f s run.stack) (l : LayerId) :
    Tends f s m (m.evalAwaitBuild f s run l).machine (m.evalAwaitBuild f s run l).run.stack := by
  have opened : Tends f s m (m.openWait f .build).2 run.stack := .of_same agrees rfl fun _ => rfl
  have joined := tends_joinBuild (m := (m.openWait f .build).2) known opened.agrees l m.waits.nextId
  exact opened.trans joined

theorem stack_evalAsync (m : Machine σ) (f : FiberId) (run : RunState σ)
    (register : WaitId → Action σ (Option (Cleanup σ))) :
    (m.evalAsync f run register).run.stack = run.stack := by
  unfold evalAsync
  dsimp only
  split <;> rfl

theorem tends_evalNode (known : (m.scopes.get? s).isSome) (run : RunState σ)
    (agrees : m.Agrees f s run.stack) (node : Node σ) :
    Tends f s m (m.evalNode f s run node).machine (m.evalNode f s run node).run.stack := by
  cases node with
  | sync thunk =>
      have performed := (m.spares_perform thunk).scopes
      simp only [evalNode]
      generalize m.perform thunk = result at performed ⊢
      obtain ⟨_ | x, n⟩ := result
      · exact .of_same agrees performed fun _ => rfl
      · exact .of_same agrees performed fun _ => rfl
  | once ticket exit => exact .of_same agrees (m.spares_perform _).scopes fun _ => rfl
  | async register =>
      refine .of_same agrees (m.spares_evalAsync f run register).scopes fun l => ?_
      exact congrArg (List.countP (Frame.owns l)) (stack_evalAsync m f run register)
  | watch target how =>
      exact .of_same agrees (m.spares_evalWatch f run target how).scopes fun _ => rfl
  | awaitBuild layer => exact tends_evalAwaitBuild known run agrees layer
  | provide body plan exports => exact tends_provide known run agrees body plan exports
  | race children =>
      simp only [evalNode, evalRace]
      split
      · exact .of_same agrees rfl fun _ => rfl
      · exact .of_same agrees (m.groupsOnly_startRace f run.context children).scopes fun _ => rfl
  | all children options =>
      simp only [evalNode, evalAll]
      split
      · exact .of_same agrees rfl fun _ => rfl
      · exact .of_same agrees (m.groupsOnly_startAll f run.context children options).scopes
          fun _ => rfl
  | sleep d =>
      refine .of_same agrees (m.spares_evalSleep f run d).scopes fun l => ?_
      simp only [evalNode, evalSleep]
      split <;> rfl
  | access reader => exact .of_same agrees (m.spares_build run _).scopes fun _ => rfl
  | fork source => exact .of_same agrees rfl fun _ => rfl
  | _ => exact .of_same agrees rfl fun _ => rfl

/-- Handing an exit to a frame tends the layers. -/
theorem tends_resumeFrame (known : (m.scopes.get? s).isSome) (run : RunState σ) (frame : Frame σ)
    (agrees : m.Agrees f s (frame :: run.stack)) (x : Exit) :
    Tends f s m (m.resumeFrame f s run frame x).machine
      (m.resumeFrame f s run frame x).run.stack := by
  have same : ∀ {n : Machine σ}, (∀ l, frame.owns l = false) → n.scopes = m.scopes →
      Tends f s m n run.stack := fun plain scopes =>
    .of_same (agrees.below plain) scopes fun _ => rfl
  unfold resumeFrame
  split
  case h_14 => exact tends_resumeLayers known run agrees x
  case h_1 => exact same (fun _ => rfl) (m.spares_build run _).scopes
  case h_3 => exact same (fun _ => rfl) (m.spares_build run _).scopes
  case h_12 => exact same (fun _ => rfl) (m.spares_build run _).scopes
  case h_5 => exact .of_same (agrees.below fun _ => rfl) rfl fun _ => rfl
  case h_6 =>
    refine same (fun _ => rfl) ?_
    unfold resumeFinalizing
    dsimp only
    split <;> rfl
  case h_10 =>
    unfold resumeRetry evalAfter
    split
    · dsimp only
      split
      · exact .of_same (agrees.below fun _ => rfl) rfl fun _ => rfl
      · exact .of_same (agrees.below fun _ => rfl) rfl fun _ => rfl
    · exact same (fun _ => rfl) rfl
    · exact same (fun _ => rfl) rfl
  all_goals exact same (fun _ => rfl) rfl

/-- Every step of a fiber tends the layers of its run. -/
theorem tends_stepRun (known : (m.scopes.get? s).isSome) (agrees : m.Agrees f s run.stack) :
    Tends f s m (m.stepRun f s run).machine (m.stepRun f s run).run.stack := by
  unfold stepRun
  split
  · unfold eval
    split
    · exact .of_same agrees rfl fun _ => rfl
    · exact tends_evalNode known run agrees _
  · split
    · exact .of_same agrees rfl fun _ => rfl
    · rename_i frame stack top
      rw [top] at agrees
      exact tends_resumeFrame known { run with stack } frame agrees _

end Machine

end EffectFibers
