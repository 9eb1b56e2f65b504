import EffectFibers.Proofs.Changes.Step
import EffectFibers.Proofs.Waits.Basics

/-!
# The end of a fiber and the steps of programs, as the log has them

A fiber that ends leaves its group, which may interrupt the other members and tell the parent, and
its watchers are told.  A group tells its parent by itself, without a wait; the parent sleeps on the
group then, so the answer to a wait is not replaced by this.

## Main statements

* `Machine.Does.memberExit` – a member of a group ends.
* `Machine.Does.finish` – the program of a fiber has an exit.
* `Machine.Does.stepRun` – a step.
-/

namespace EffectFibers.Machine

variable {σ : Type} {actor : Option FiberId} {m m' : Machine σ} {log : WaitLog σ}
  {f g p : FiberId} {fiber : Fiber σ} {w : WaitId} {k : GroupId} {scope : ScopeId}

/-! ## Layers -/

theorem Still.modifyMemo (m : Machine σ) (scope : ScopeId) (change : Memo → Memo) :
    Still m (m.modifyMemo scope change) := of_eq rfl rfl

theorem Still.lookUpLayer (m : Machine σ) (scope : ScopeId) (layer : LayerNode σ) (f : FiberId) :
    Still m (m.lookUpLayer scope layer f).2 := by
  unfold Machine.lookUpLayer
  split
  · exact refl m
  · exact refl m
  · exact (modifyMemo m scope _).trans (trace _ _)

theorem Still.advanceLayers (m : Machine σ) (f : FiberId) (scope : ScopeId) (run : RunState σ)
    (build : LayerBuild σ) (layers : List (LayerNode σ)) :
    Still m (m.advanceLayers f scope run build layers).machine := by
  induction layers generalizing m build with
  | nil => exact refl m
  | cons layer layers ih =>
      have looked : Still m (m.lookUpLayer scope layer f).2 := lookUpLayer m scope layer f
      unfold Machine.advanceLayers
      generalize m.lookUpLayer scope layer f = result at looked ⊢
      obtain ⟨state, n⟩ := result
      cases state with
      | built context => exact looked.trans (ih n _)
      | claimed => exact looked
      | busy => exact looked

namespace Does

theorem advanceLayers (m : Machine σ) (f : FiberId) (scope : ScopeId) (run : RunState σ)
    (build : LayerBuild σ) (layers : List (LayerNode σ)) :
    Does actor m [] (m.advanceLayers f scope run build layers).machine :=
  still (.advanceLayers m f scope run build layers) (.advanceLayers m f scope run build layers)

theorem trace (m : Machine σ) (event : TraceEvent) : Does actor m [] (m.trace event) :=
  still (.trace m (.inl rfl)) (.trace m event)

theorem completeBuild (m : Machine σ) (scope : ScopeId) (layer : LayerNode σ)
    (context : Context Value) :
    Does actor m (m.completeBuildLog scope layer context) (m.completeBuild scope layer context) := by
  have noted : Does actor m []
      (m.modifyMemo scope (·.insert layer.id (.built context))) := by
    refine still (.modifyMemo m scope fun k w listed => .inl ⟨scope, k, ?_⟩) (.modifyMemo m scope _)
    rw [Evolves.waiters_insert] at listed
    split at listed
    · cases listed
    · exact listed
  exact noted.before ((trace _ _).before (wake _ (.inl rfl)))

theorem forgetBuild (tidy : m.Tidy) (scope : ScopeId) (layer : LayerNode σ)
    (outcome : BuildOutcome) (x : Exit) :
    Does actor m (m.forgetBuildLog scope layer outcome x) (m.forgetBuild scope layer outcome x) := by
  unfold Machine.forgetBuild forgetBuildLog
  cases known : (m.memo scope).get? layer.id with
  | none => exact refl m
  | some entry =>
      cases entry with
      | built context => exact refl m
      | building owner waiters =>
          have waiting : ∀ w ∈ waiters, m.AwaitsBuild w := by
            intro w listed
            refine ⟨scope, layer.id, ?_⟩
            rwa [Memo.waiters, known]
          have erased : Does actor m [] (m.modifyMemo scope (·.erase layer.id)) := by
            refine still (.modifyMemo m scope fun k w listed => .inl ⟨scope, k, ?_⟩)
              (.modifyMemo m scope _)
            unfold Memo.waiters at listed ⊢
            rw [Memo.get?_erase] at listed
            by_cases same : layer.id = k
            · rw [if_pos same] at listed
              cases listed
            · rwa [if_neg same] at listed
          have told := erased.before (trace (m.modifyMemo scope (·.erase layer.id))
            (.buildForgotten layer.name owner waiters.length outcome))
          refine told.before (wake _ (.inr fun w listed => ?_))
          exact (tidy.builders (waiting w listed)).mono told.evolves.keepsWaits

theorem endBuild (tidy : m.Tidy) (f : FiberId) (scope : ScopeId) (run : RunState σ)
    (build : LayerBuild σ) (layer : LayerNode σ) (rest : List (LayerNode σ)) (x : Exit) :
    Does actor m (m.endBuildLog scope layer x) (m.endBuild f scope run build layer rest x).machine := by
  have noted : ∀ cause, Does actor m [] (m.trace (.buildFailed layer.name cause)) :=
    fun cause => trace m _
  cases x with
  | ok v =>
      cases v with
      | context context =>
          exact (completeBuild m scope layer context).after (advanceLayers _ f scope run _ rest)
      | _ => exact forgetBuild tidy scope layer _ _
  | error cause =>
      cases cause with
      | interrupt => exact forgetBuild tidy scope layer _ _
      | fail failure =>
          have told := noted (.fail failure)
          exact told.before (forgetBuild (told.evolves.tidy tidy) scope layer _ _)
      | die defect =>
          have told := noted (.die defect)
          exact told.before (forgetBuild (told.evolves.tidy tidy) scope layer _ _)

theorem resumeLayers (tidy : m.Tidy) (f : FiberId) (scope : ScopeId) (run : RunState σ)
    (build : LayerBuild σ) (x : Exit) :
    Does actor m (m.resumeLayersLog scope build x) (m.resumeLayers f scope run build x).machine := by
  unfold Machine.resumeLayers resumeLayersLog
  cases build.owning with
  | true =>
      simp only [if_true]
      cases build.todo with
      | nil => exact refl m
      | cons layer rest => exact endBuild tidy f scope _ _ layer rest x
  | false =>
      simp only [Bool.false_eq_true, if_false]
      cases x with
      | ok v => exact advanceLayers m f scope run build build.todo
      | error cause => exact refl m

end Does

/-! ## New fibers -/

namespace Still

theorem spawnChild (m : Machine σ) (p : FiberId) (node : Node σ) (context : Context Value)
    (reader : ExitReader) : Still m (m.spawnChild p node context reader).2 := by
  refine (push ?_).trans ((of_modify p fun fiber => ?_).trans (trace _ _))
  · rfl
  · exact ⟨rfl, .inl rfl⟩

theorem startRoot (m : Machine σ) (node : Node σ) : Still m (m.startRoot node).2 := by
  have noted : Still m { m with scopes := m.scopes.push [] } := of_eq rfl rfl
  have born : Still { m with scopes := m.scopes.push [] } (m.spawnRoot node).2 :=
    (push rfl).trans (trace _ _)
  exact noted.trans (born.trans (of_eq rfl rfl))

theorem spawnMembers (m : Machine σ) (p : FiberId) (context : Context Value) (k : GroupId)
    (nodes : List (Nat × Node σ)) : Still m (m.spawnMembers p context k nodes).2 := by
  induction nodes generalizing m with
  | nil => exact refl m
  | cons node nodes ih =>
      exact (spawnChild m p node.2 context (.group k node.1)).trans (ih _)

theorem setGroup (m : Machine σ) (k : GroupId) (group : Group σ) : Still m (m.setGroup k group) :=
  of_eq rfl rfl

theorem fill (m : Machine σ) (k : GroupId) (all : Gathering σ) : Still m (m.fill k all) := by
  unfold Machine.fill
  dsimp only
  split
  · exact refl m
  · exact (spawnMembers m _ _ k _).trans ((setGroup _ k _).trans (enqueueAll _ _))

theorem startRace (m : Machine σ) (p : FiberId) (context : Context Value) (nodes : List (Node σ)) :
    Still m (m.startRace p context nodes).2 := by
  have pushed : ∀ group, Still m { m with groups := m.groups.push group } :=
    fun group => of_eq rfl rfl
  exact (pushed _).trans ((spawnMembers _ p context _ _).trans
    ((setGroup _ _ _).trans (enqueueAll _ _)))

theorem startAll (m : Machine σ) (p : FiberId) (context : Context Value) (nodes : List (Node σ))
    (options : AllOptions) : Still m (m.startAll p context nodes options).2 := by
  let all := Gathering.task p context nodes options
  have pushed : Still m { m with groups := m.groups.push (.all all) } := of_eq rfl rfl
  exact pushed.trans (fill _ m.groups.nextId all)

theorem takeExit (m : Machine σ) (f : FiberId) : Still m (m.takeExit f).2 := by
  unfold Machine.takeExit
  split
  · exact of_modify f fun _ => ⟨rfl, .inl rfl⟩
  · exact refl m

theorem detach (m : Machine σ) (f : FiberId) (parent : Option FiberId) :
    Still m (m.detach f parent) := by
  cases parent with
  | none => exact of_eq rfl rfl
  | some parent => exact of_modify parent fun _ => ⟨rfl, .inl rfl⟩

theorem childGone (m : Machine σ) (p : FiberId) : Still m (m.childGone p).2 := by
  unfold Machine.childGone
  split
  · exact refl m
  · exact of_modify p fun _ => ⟨rfl, .inl rfl⟩

end Still

namespace Does

/-! ## Groups -/

theorem setGroup {group : Group σ} (before : Group σ) (row : m.groups.get? k = some before)
    (parent : group.parent = before.parent) : Does actor m [] (m.setGroup k group) :=
  still (.setGroup before row parent) (.setGroup m k group)

/-- A group tells its parent, which sleeps on it. -/
theorem deliver (leads : m.LeadsGroup p) (asleep : m.core.awaits p = some k) (x : Exit) :
    Does actor m [] (m.deliver p x) :=
  still (.of_change (.deliver x leads asleep)) (.deliver m p x)

/-- Interrupts leave alone who sleeps on a group. -/
theorem awaits_interruptAll (asleep : m.core.awaits p = some k) (event : TraceEvent)
    (fibers : List FiberId) : ((m.trace event).interruptAll fibers).core.awaits p = some k :=
  (congrFun (Coherent.calm_interruptAll (m.trace event) fibers).awaits p).trans asleep

theorem raceExit {race : Race} (row : m.groups.get? k = some (.race race))
    (asleep : m.core.awaits race.parent = some k) (x : Exit) :
    Does actor m (m.raceExitLog k race x) (m.raceExit k race x) := by
  let after : Race := { race with
    remaining := race.remaining - 1, winner := some (race.winner.getD x) }
  have settled : Does actor m [] (m.setGroup k (.race after)) := setGroup _ row rfl
  -- at the end the parent is told if this was the last member
  have ends : ∀ {n : Machine σ} {log}, Does actor m log n → n.core.awaits race.parent = some k →
      Does actor m log (if after.remaining = 0 then n.deliver race.parent (race.winner.getD x)
        else n) := by
    intro n log sofar asleep'
    split
    · exact sofar.after (deliver (sofar.evolves.leadsGroup ⟨k, _, row, rfl⟩) asleep' _)
    · exact sofar
  unfold Machine.raceExit raceExitLog
  cases race.winner.isSome with
  | true => exact ends settled asleep
  | false =>
      exact ends (settled.before ((trace _ _).before (interruptAll _ race.members)))
        (awaits_interruptAll (m := m.setGroup k (.race after)) asleep _ race.members)

theorem fill {all before : Gathering σ} (row : m.groups.get? k = some (.all before))
    (parent : all.parent = before.parent) : Does actor m [] (m.fill k all) :=
  still (.fill row parent) (.fill m k all)

theorem allExit {all : Gathering σ} (row : m.groups.get? k = some (.all all))
    (asleep : m.core.awaits all.parent = some k) (index : Nat) (x : Exit) :
    Does actor m (m.allExitLog k all index x) (m.allExit k all index x) := by
  have parent := Evolves.parent_settle all index x (m.isInterrupted all.parent)
  unfold Machine.allExit allExitLog
  generalize all.settle index x (m.isInterrupted all.parent) = result at parent ⊢
  obtain ⟨siblings, after⟩ := result
  dsimp only at parent ⊢
  have settled : Does actor m [] (m.setGroup k (.all after)) := setGroup _ row parent
  have known : (m.setGroup k (.all after)).groups.get? k = some (.all after) := by
    simp [Machine.setGroup, Table.get?_modify, row]
  have asleep' : (m.setGroup k (.all after)).core.awaits after.parent = some k := parent ▸ asleep
  -- at the end the parent is told, or the places that have become free are taken
  have ends : ∀ {n : Machine σ} {log}, Does actor m log n → n.core.awaits after.parent = some k →
      n.groups.get? k = some (.all after) → Does actor m log
        (if after.isDone then n.deliver after.parent after.outcome else n.fill k after) := by
    intro n log sofar asleep'' known'
    split
    · exact sofar.after (deliver ⟨k, _, known', rfl⟩ asleep'' _)
    · exact sofar.after (fill known' rfl)
  cases siblings.isEmpty with
  | true => exact ends settled asleep' known
  | false =>
      refine ends (settled.before ((trace _ _).before (interruptAll _ siblings)))
        (awaits_interruptAll asleep' _ siblings) ?_
      rw [if_neg Bool.false_ne_true, ((spares_trace _ _).trans (spares_interruptAll _ siblings)).groups]
      exact known

theorem memberExit (asleep : ∀ group, m.groups.get? k = some group →
      m.core.awaits group.parent = some k) (index : Nat) (x : Exit) :
    Does actor m (m.memberExitLog k index x) (m.memberExit k index x) := by
  unfold Machine.memberExit memberExitLog
  cases row : m.groups.get? k with
  | none => exact refl m
  | some group =>
      cases group with
      | race race => exact raceExit row (asleep _ row) x
      | all all => exact allExit row (asleep _ row) index x

/-! ## The end of a fiber -/

theorem takeExit (m : Machine σ) (f : FiberId) : Does actor m [] (m.takeExit f).2 :=
  still (.takeExit m f) (.takeExit m f)

theorem tellWatcher (untimed : m.Untimed w) (f : FiberId) (how : Watch) :
    Does actor m (m.tellWatcherLog f w how) (m.tellWatcher f w how) := by
  have taken : Does actor m [] (m.takeExit f).2 := takeExit m f
  have still := untimed.mono taken.evolves.keepsWaits
  cases how with
  | join => exact taken.before (resume still _)
  | await => exact taken.before (resume still _)
  | interrupt => exact resume_null m w

theorem watch (untimed : m.Untimed w) (f : FiberId) (how : Watch) :
    Does actor m (m.watchLog f w how) (m.watch f w how) := by
  unfold Machine.watch watchLog
  split
  · exact tellWatcher untimed f how
  · exact still (.of_change (.watch f how untimed rfl)) (.of_modify f fun _ => ⟨rfl, .inl rfl⟩)

theorem detach (m : Machine σ) (f : FiberId) (parent : Option FiberId) :
    Does actor m [] (m.detach f parent) :=
  still (.detach m f parent) (.detach m f parent)

theorem childGone (m : Machine σ) (p : FiberId) : Does actor m [] (m.childGone p).2 :=
  still (Evolves.childGone m p).1 (.childGone m p)

theorem handOver {reader : ExitReader} (asleep : ∀ k i group, reader.place = some (k, i) →
      m.groups.get? k = some group → m.core.awaits group.parent = some k) (f : FiberId) (x : Exit) :
    Does actor m (m.handOverLog reader x) (m.handOver f reader x) := by
  cases reader with
  | joiner => exact refl m
  | group k place => exact memberExit (fun group => asleep k place group rfl) place x
  | handle => exact still (.rest rfl rfl rfl rfl rfl rfl rfl) (.of_eq rfl rfl)

/-- A fiber ends, before anybody is told. -/
theorem leave (coherent : Coherent m.core { leaving := some g }) (row : m.fiber? g = some fiber)
    (ends : Coherent.Ends m.core g)
    (gone : actor = some g ∨ ∃ fiber, m.fiber? g = some fiber ∧ fiber.closing.isSome) (x : Exit) :
    Does actor m
      (handOverLog (((m.modifyFiber g fun fiber => fiber.ended x).trace (.exited g x)).detach g
        fiber.parent) fiber.reader x)
      ((((m.modifyFiber g fun fiber => fiber.ended x).trace (.exited g x)).detach g
        fiber.parent).handOver g fiber.reader x) := by
  have ended : Does actor m [] (m.modifyFiber g fun fiber => fiber.ended x) :=
    still (.of_change (.ended x rfl gone)) (.of_modify g fun _ => ⟨rfl, .inr rfl⟩)
  have detached : Does actor m [] (((m.modifyFiber g fun fiber => fiber.ended x).trace
      (.exited g x)).detach g fiber.parent) := ended.before ((trace _ _).before (detach _ g _))
  exact detached.before (handOver (fun _ _ _ member known =>
    Evolves.asleep_of_leaving coherent row ends x member known) g x)

/-- One observer is told of the end of a fiber, if fibers can end that are as old as the one who may
hear of it. -/
theorem tell {height : Nat} {observer : Observer} {observers : List Observer} (tidy : m.Tidy)
    (untimed : ∀ w how, observer = .watcher w how → m.Untimed w)
    (coherent : Coherent m.core { late := Coherent.asker (observer :: observers) })
    (heard : Coherent.Heard height (observer :: observers))
    (above : ∀ {n : Machine σ} {p : FiberId} (x : Exit), n.Tidy →
      Coherent n.core { leaving := some p } → p.raw ≤ height → Coherent.Ends n.core p →
      (∃ fiber, n.fiber? p = some fiber ∧ fiber.closing.isSome) →
      Does actor n (completeLog height n p x) (n.completeWithin height p x)) :
    Does actor m (tellLog (completeLog height) f m observer) (Coherent.tell height f m observer) := by
  cases observer with
  | watcher w how => exact tellWatcher (untimed w how rfl) f how
  | closing p =>
      have none : observers.filterMap Observer.asker? = [] := by
        simpa [Coherent.Heard, Observer.asker?] using heard.1
      have late : Coherent m.core { late := some p } := by
        simpa [Coherent.asker, Observer.asker?] using coherent
      have outcome := Coherent.childGone late rfl
      have counted : Does actor m [] (m.childGone p).2 := childGone m p
      obtain ⟨-, closes⟩ : Evolves actor true m (m.childGone p).2 ∧ _ := Evolves.childGone m p
      unfold Coherent.tell tellLog
      dsimp only
      generalize m.childGone p = result at outcome counted closes ⊢
      obtain ⟨exit, n⟩ := result
      cases exit with
      | none => exact counted
      | some x =>
          obtain ⟨leaving, -, ends⟩ := outcome
          exact counted.before (above x (counted.evolves.tidy tidy) leaving
            (heard.2 p (by simp [Observer.asker?])) ends (closes rfl))

/-- A fiber ends whose program has ended, and with it perhaps some of the fibers above it. -/
theorem completeWithin (height : Nat) (tidy : m.Tidy)
    (coherent : Coherent m.core { leaving := some g }) (enough : g.raw ≤ height)
    (ends : Coherent.Ends m.core g)
    (gone : actor = some g ∨ ∃ fiber, m.fiber? g = some fiber ∧ fiber.closing.isSome) (x : Exit) :
    Does actor m (completeLog height m g x) (m.completeWithin height g x) := by
  induction height generalizing m g x with
  | zero => exact refl m
  | succ height ih =>
      obtain ⟨fiber, row, running, unsaved, silent⟩ := id ends
      have row' : m.fiber? g = some fiber := row
      have left := leave coherent row' ends gone x
      have unpromised : ∀ y, (none : Option (FiberId × Exit)) = some (g, y) → y = x := nofun
      have handed := coherent.handed_of_ends row running unsaved silent unpromised (.inl rfl)
      have live : fiber.verdict = none := by
        simp [Fiber.verdict, running, FiberStatus.isTerminal]
      have heard := coherent.heard_of_row row live enough
      have untimed : ∀ w how, .watcher w how ∈ fiber.observers → m.Untimed w :=
        fun w how listed => tidy.watchers row' listed
      rw [Coherent.completeWithin_succ row']
      simp only [completeLog, row']
      refine left.trans ?_
      have tidy' := left.evolves.tidy tidy
      replace untimed := fun w how listed => (untimed w how listed).mono left.evolves.keepsWaits
      clear left
      generalize Machine.handOver _ g fiber.reader x = n at handed tidy' untimed ⊢
      generalize fiber.observers = observers at untimed handed heard ⊢
      -- what is known of the observers is known of those that are left
      induction observers generalizing n with
      | nil => exact refl n
      | cons observer observers ih' =>
          obtain ⟨told, heard'⟩ := Coherent.tell_observer (f := g)
            (fun leaving low last same => leaving.completeWithin height low last same (.inl rfl))
            handed heard
          have first : Does actor n (tellLog (completeLog height) g n observer)
              (Coherent.tell height g n observer) :=
            tell tidy' (fun w how same => untimed w how (same ▸ List.mem_cons_self)) handed heard
              fun y tidy leaving low ends closes => ih tidy leaving low ends (.inr closes) y
          exact first.trans (ih' _ (first.evolves.tidy tidy') (fun w how listed =>
            (untimed w how (List.mem_cons_of_mem _ listed)).mono first.evolves.keepsWaits) told
            heard')

theorem awaitChild (p : FiberId) (m : Machine σ) (c : FiberId) :
    Does actor m [] (m.awaitChild p c) :=
  still (.awaitChild p m c) (.of_modify c fun _ => ⟨rfl, .inl rfl⟩)

/-- The program of the actor has an exit. -/
theorem finish (tidy : m.Tidy) (coherent : Coherent m.core { held := some g }) (x : Exit) :
    Does (some g) m (m.finishLog g x) (m.finish g x) := by
  obtain ⟨fiber, row, -⟩ := coherent.row_of_held rfl
  have row' : m.fiber? g = some fiber := row
  unfold Machine.finish finishLog
  simp only [row', Option.map_some, Option.getD_some]
  split
  · rename_i alone
    obtain ⟨leaving, ends⟩ := coherent.leave_of_held row (List.isEmpty_iff.1 alone)
    exact completeWithin _ tidy leaving (Nat.le_of_lt (Table.raw_lt_nextId row)) ends (.inl rfl) x
  · have closes : Does (some g) (m.trace (.waitingForChildren g fiber.children.length)) []
        ((m.trace (.waitingForChildren g fiber.children.length)).modifyFiber g fun fiber' =>
          { fiber' with closing := some { remaining := fiber.children.length, exit := x } }) :=
      still (.own _ (fun _ => ⟨rfl, rfl, rfl, rfl⟩) fun _ => ⟨rfl, rfl, rfl⟩)
        (.of_modify g fun _ => ⟨rfl, .inl rfl⟩)
    have heard : ∀ (n : Machine σ) (children : List FiberId),
        Does (some g) n [] (children.foldl (Machine.awaitChild g) n) := by
      intro n children
      induction children generalizing n with
      | nil => exact refl n
      | cons c children ih => exact (awaitChild g n c).before (ih _)
    exact ((trace _ _).before (closes.before (interruptAll _ fiber.children))).after (heard _ _)

/-! ## Steps -/

theorem openWait (m : Machine σ) (f : FiberId) (source : WaitSource) :
    Does (some f) m [] (m.openWait f source).2 :=
  still (.openWait m f source) (.openWait m f source)

/-- A fiber claims its own wait. -/
theorem claim (own : ∀ wait, m.waits.get? w = some wait → wait.claimed = false →
      actor = some wait.owner) (claimant : Claimant) :
    Does actor m (m.claimLog w claimant) (m.claim w).2 := by
  refine ⟨⟨fun v wait found claimed => claimLog_of_claimed m found claimed _,
    fun g fiber v other pends => ?_⟩, .of_change (.claim own), onlyWakes_claim m w⟩
  obtain ⟨wait, found, free, owner⟩ := pends.opened
  have unequal : w ≠ v := by
    rintro rfl
    exact other ((own wait found free).trans (congrArg some owner))
  have nothing : (m.claimLog w claimant).on v = [] := by
    unfold claimLog
    split
    · exact WaitLog.on_cons_of_ne unequal _ []
    · rfl
  rw [nothing]
  refine .pending ((m.fiber?_claim w g).trans pends.row) (.refl fiber) ?_ fun _ => id
  exact ⟨wait, (get?_claim_of_ne unequal m).trans found, free, owner⟩

theorem evalAsync (m : Machine σ) (f : FiberId) (run : RunState σ)
    (register : WaitId → Action σ (Option (Cleanup σ))) :
    Does (some f) m (m.evalAsyncLog f register) (m.evalAsync f run register).machine := by
  have opened : Does (some f) m [] (m.openWait f .callback).2 := openWait m f .callback
  have row : (m.openWait f .callback).2.waits.get? m.waits.nextId =
      some { owner := f, source := .callback } := Table.get?_push_self _ _
  unfold Machine.evalAsync evalAsyncLog
  refine opened.before ?_
  dsimp only
  have ran : Does (some f) (m.openWait f .callback).2
      ((m.openWait f .callback).2.performLog (register (m.openWait f .callback).1))
      ((m.openWait f .callback).2.perform (register (m.openWait f .callback).1)).2 := perform _ _
  generalize (m.openWait f .callback).2.perform (register (m.openWait f .callback).1) = result
    at ran ⊢
  obtain ⟨reply, n⟩ := result
  cases reply with
  | ok cleanup =>
      rw [List.append_nil]
      exact ran
  | error p =>
      refine ran.trans (claim (fun wait row' _ => ?_) (.panic p))
      obtain ⟨wait', row'', owner, -⟩ := ran.evolves.keepsWaits row
      obtain rfl := Option.some.inj (row''.symm.trans row')
      exact congrArg some owner.symm

/-- A fiber that is to be interrupted is interrupted before anybody watches it. -/
theorem askWatch (untimed : m.Untimed w) (target : FiberId) (how : Watch) :
    Does actor m
      (if how = .interrupt then m.interruptLog target ++ (m.interrupt target).watchLog target w how
        else m.watchLog target w how)
      ((if how = .interrupt then m.interrupt target else m).watch target w how) := by
  split
  · have broken : Does actor m (m.interruptLog target) (m.interrupt target) := interrupt m target
    exact broken.trans (watch (untimed.mono broken.evolves.keepsWaits) target how)
  · exact watch untimed target how

theorem evalWatch (m : Machine σ) (f : FiberId) (run : RunState σ) (target : FiberId)
    (how : Watch) :
    Does (some f) m (m.evalWatchLog f target how) (m.evalWatch f run target how).machine := by
  have opened : Does (some f) m [] (m.openWait f .fiber).2 := openWait m f .fiber
  have untimed : (m.openWait f .fiber).2.Untimed m.waits.nextId := Evolves.untimed_openWait nofun
  exact opened.before (askWatch untimed target how)

theorem evalAwaitBuild (m : Machine σ) (f : FiberId) (scope : ScopeId) (run : RunState σ)
    (layer : LayerId) : Does (some f) m (m.evalAwaitBuildLog f scope layer)
      (m.evalAwaitBuild f scope run layer).machine :=
  (openWait m f .build).before (joinBuild scope layer (Evolves.untimed_openWait nofun))

theorem evalSleep (m : Machine σ) (f : FiberId) (run : RunState σ) (d : Duration) :
    Does (some f) m [] (m.evalSleep f run d).machine := by
  refine still (.evalSleep m f run d) ?_
  unfold Machine.evalSleep
  split
  · exact .refl m
  · exact (Still.openWait m f .timer).trans (.of_eq rfl rfl)

theorem evalNode (row : (m.fiber? f).isSome) (scope : ScopeId) (run : RunState σ)
    (node : Node σ) (free : (node.isSuspensionPoint && m.interruptPending f run) = false) :
    Does (some f) m (m.evalLog f scope run node) (m.evalNode f scope run node).machine := by
  have calm : Still m (m.evalNode f scope run node).machine →
      Does (some f) m [] (m.evalNode f scope run node).machine :=
    still (.evalNode row scope run node (.inl rfl))
  unfold evalLog
  rw [if_neg (by simp [free])]
  cases node with
  | sync thunk =>
      have ran : Does (some f) m (m.performLog thunk) (m.perform thunk).2 := perform m thunk
      simp only [Machine.evalNode]
      generalize m.perform thunk = result at ran ⊢
      obtain ⟨reply, n⟩ := result
      cases reply <;> exact ran
  | once ticket x => exact perform m (Action.useTicket ticket)
  | async register => exact evalAsync m f run register
  | watch target how => exact evalWatch m f run target how
  | awaitBuild layer => exact evalAwaitBuild m f scope run layer
  | provide body plan exports =>
      refine calm ?_
      cases plan with
      | error e => exact .refl m
      | ok layers => exact .advanceLayers m f scope _ _ layers
  | race children =>
      refine calm ?_
      simp only [Machine.evalNode, Machine.evalRace]
      split
      · exact .refl m
      · exact .startRace m f run.context children
  | all children options =>
      refine calm ?_
      simp only [Machine.evalNode, Machine.evalAll]
      split
      · exact .refl m
      · exact .startAll m f run.context children options
  | sleep d => exact evalSleep m f run d
  | access reader => exact perform m (reader run.context)
  | fork source => exact calm ((Still.spawnChild m f source run.context .joiner).trans (.enqueue _ _))
  | log level message => exact calm (.write m _)
  | _ => exact refl m

theorem resumeFrame (tidy : m.Tidy) (f : FiberId) (scope : ScopeId) (run : RunState σ)
    (frame : Frame σ) (x : Exit) :
    Does actor m (m.resumeFrameLog scope frame x) (m.resumeFrame f scope run frame x).machine := by
  cases frame with
  | layers build => exact resumeLayers tidy f scope run build x
  | finalizing earlier =>
      cases x with
      | ok v => exact refl m
      | error cause => exact trace m _
  | flatMap next =>
      cases x with
      | ok v => exact perform m (next v)
      | error cause => exact refl m
  | recover handler =>
      rcases x with (failure | _ | _) | _
      · exact perform m (handler failure)
      all_goals exact refl m
  | repeated source schedule attempt =>
      cases x with
      | ok v => exact perform m _
      | error cause => exact refl m
  | retry source schedule attempt =>
      rcases x with (failure | _ | _) | _
      · unfold Machine.resumeFrame resumeFrameLog Machine.resumeRetry
        dsimp only
        split
        · exact trace m _
        · exact trace m _
        · exact refl m
      all_goals exact refl m
  | _ => cases x <;> exact refl m

theorem stepRun (tidy : m.Tidy) (row : (m.fiber? f).isSome) (scope : ScopeId) (run : RunState σ) :
    Does (some f) m (m.stepRunLog f scope run) (m.stepRun f scope run).machine := by
  unfold Machine.stepRun stepRunLog
  cases run.next with
  | eval node =>
      dsimp only
      unfold Machine.eval
      cases noticed : node.isSuspensionPoint && m.interruptPending f run with
      | true =>
          unfold evalLog
          rw [noticed]
          exact refl m
      | false => exact evalNode row scope run node noticed
  | done x =>
      dsimp only
      cases run.stack with
      | nil => exact refl m
      | cons frame stack => exact resumeFrame tidy f scope _ frame x

/-! ## What comes of a step -/

theorem requeue (m : Machine σ) (f : FiberId) (run : RunState σ) :
    Does (some f) m [] (m.requeue f run) := by
  refine still (.requeue m f run) ((Still.of_modify f fun fiber => ?_).trans (.enqueue _ f))
  exact ⟨rfl, .inl rfl⟩

theorem setRunning (m : Machine σ) (running : Option (Slice σ)) :
    Does (some f) m [] { m with running } :=
  still (.setRunning m running) (.of_eq rfl rfl)

theorem dispatch (m : Machine σ) : Does m.ready.toList.head? m [] m.dispatch := by
  refine still (.dispatch m) ?_
  unfold Machine.dispatch
  split
  · exact .refl m
  · rename_i f ready _
    have taken : Still m { m with ready } := .of_eq rfl rfl
    dsimp only
    split
    · exact taken
    · split
      · exact taken
      · refine taken.trans ((Still.of_modify f fun fiber => ?_).trans (.of_eq rfl rfl))
        exact ⟨rfl, .inl rfl⟩

end Does

/-- An operation that changes only the row and the waits of one fiber. -/
theorem accounts_of_own (rows : ∀ g, f ≠ g → m'.fiber? g = m.fiber? g)
    (waits : ∀ v wait, m.waits.get? v = some wait → wait.owner ≠ f →
      m'.waits.get? v = some wait)
    (silent : ∀ v wait, m.waits.get? v = some wait → wait.claimed = true ∨ wait.owner ≠ f →
      log.on v = []) : Accounts (some f) m log m' := by
  refine ⟨fun v wait found claimed => silent v wait found (.inl claimed),
    fun g fiber v other pends => ?_⟩
  have unequal : f ≠ g := fun same => other (congrArg some same)
  obtain ⟨wait, found, free, owner⟩ := pends.opened
  have foreign : wait.owner ≠ f := fun same => unequal (same.symm.trans owner)
  rw [silent v wait found (.inr foreign)]
  exact .pending ((rows g unequal).trans pends.row) (.refl fiber)
    ⟨wait, waits v wait found foreign, free, owner⟩ fun _ => id

/-- A fiber that parks leaves the waits of others alone. -/
theorem accounts_park {slice : Slice σ} {pending : Pending σ}
    (owns : ∀ w c wait, pending = .wait w c → m.waits.get? w = some wait → wait.claimed = false →
      wait.owner = slice.fiber) :
    Accounts (some slice.fiber) m (m.parkLog slice pending) (m.park slice pending) := by
  have modified : ∀ {n : Machine σ} (change : Fiber σ → Fiber σ) g, slice.fiber ≠ g →
      (n.modifyFiber slice.fiber change).fiber? g = n.fiber? g := by
    intro n change g unequal
    rw [fiber?_modifyFiber, if_neg unequal]
  unfold park parkLog
  dsimp only
  cases (m.fiber? slice.fiber).bind (·.input) with
  | some x =>
      exact accounts_of_own (modified _) (fun _ _ found _ => found) fun _ _ _ _ => rfl
  | none =>
      cases pending with
      | group k => exact accounts_of_own (modified _) (fun _ _ found _ => found) fun _ _ _ _ => rfl
      | wait w c =>
          cases noticed : m.interruptPending slice.fiber slice.run with
          | false =>
              exact accounts_of_own (modified _) (fun _ _ found _ => found) fun _ _ _ _ => rfl
          | true =>
              cases opened : m.isOpen w with
              | false =>
                  simp only [claim_of_closed opened, opened, if_true, Bool.true_and, Bool.false_eq_true, if_false]
                  exact accounts_of_own (modified _) (fun _ _ found _ => found) fun _ _ _ _ => rfl
              | true =>
                  obtain ⟨wait, found, -⟩ := (Option.any_eq_true _ _).1 opened
                  have free : wait.claimed = false := by simpa [isOpen, found] using opened
                  simp only [if_true, Bool.and_self, m.claim_fst, opened]
                  have cancels : Still (m.claim w).2 ((m.claim w).2.runCanceler slice.fiber c) :=
                    .runCanceler _ _ _
                  refine accounts_of_own (fun g _ => ?_) (fun v other known foreign => ?_)
                    fun v other known before => ?_
                  · have same := congrArg (fun core : Core σ => core.fibers.get? g)
                      (Coherent.core_runCanceler (m.claim w).2 slice.fiber c)
                    exact same.trans (m.fiber?_claim w g)
                  · refine cancels.waits ((get?_claim_of_ne ?_ m).trans known)
                    rintro rfl
                    obtain rfl := Option.some.inj (found.symm.trans known)
                    exact foreign (owns w c wait rfl found free)
                  · have unequal : w ≠ v := by
                      rintro rfl
                      obtain rfl := Option.some.inj (found.symm.trans known)
                      rcases before with claimed | foreign
                      · rw [free] at claimed
                        cases claimed
                      · exact foreign (owns w c wait rfl found free)
                    rw [WaitLog.on_cons_of_ne unequal, WaitLog.on_cons_of_ne unequal]
                    rfl

theorem accounts_follow (tidy : m.Tidy) {slice : Slice σ} {control : Control σ}
    (coherent : ∀ x, control = .finish x → Coherent m.core { held := some slice.fiber })
    (owns : ∀ w c wait, control = .suspend (.wait w c) → m.waits.get? w = some wait →
      wait.claimed = false → wait.owner = slice.fiber) :
    Accounts (some slice.fiber) m (m.followLog slice control) (m.follow slice control) := by
  cases control with
  | next step =>
      simp only [follow, followLog]
      split
      · exact (Does.requeue m _ _).toAccounts
      · exact (Does.setRunning m _).toAccounts
  | yield step => exact (Does.requeue m _ _).toAccounts
  | suspend pending =>
      exact accounts_park fun w c wait waits => owns w c wait (congrArg Control.suspend waits)
  | finish x => exact (Does.finish tidy (coherent x rfl) x).toAccounts

end EffectFibers.Machine
