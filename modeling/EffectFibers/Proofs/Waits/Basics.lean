import EffectFibers.Proofs.Waits.Does

/-!
# Answers and interrupts, as the log has them

A wait is answered where it is resumed, and given up where an interrupt breaks it.  Interrupts visit
the children of a fiber between these two acts, the claim and the run of the canceler; the children
cannot do anything about the wait in the meantime, since it has been claimed.

## Main definitions

* `Machine.broken` – a fiber was marked and taken out of its wait.

## Main statements

* `Machine.Does.resume` – a wait ends.
* `Machine.Does.interrupt` – an interrupt.
* `Machine.Does.perform` – user code.
* `Machine.Does.completeBuild`, `Machine.Does.forgetBuild` – the end of the build of a layer.
-/

namespace EffectFibers.Machine

variable {σ : Type} {actor : Option FiberId} {m m' m'' : Machine σ} {log more : WaitLog σ}
  {f g p : FiberId} {fiber : Fiber σ} {w : WaitId}

/-! ## Operations that leave waits alone -/

namespace Still

theorem refl (m : Machine σ) : Still m m :=
  ⟨fun _ _ => id, fun _ fiber row => ⟨fiber, row, id⟩,
    fun _ after _ row asleep => ⟨after, row, asleep⟩⟩

theorem trans (first : Still m m') (second : Still m' m'') : Still m m'' := by
  refine ⟨fun w wait found => second.waits (first.waits found), fun f fiber row => ?_,
    first.sleeps.trans second.sleeps⟩
  obtain ⟨middle, row', marks⟩ := first.marks row
  obtain ⟨after, row'', marks'⟩ := second.marks row'
  exact ⟨after, row'', marks ∘ marks'⟩

theorem of_eq (fibers : m'.fibers = m.fibers) (waits : m'.waits = m.waits) : Still m m' := by
  have rows : ∀ f, m'.fiber? f = m.fiber? f := fun f => by rw [fiber?, fibers]; rfl
  refine ⟨fun w wait found => waits ▸ found, fun f fiber row => ⟨fiber, (rows f).trans row, id⟩,
    fun f after w row asleep => ⟨after, (rows f).symm.trans row, asleep⟩⟩

/-- A change to one row. -/
theorem of_modify {change : Fiber σ → Fiber σ} (g : FiberId)
    (kept : ∀ fiber : Fiber σ, (change fiber).interrupted = fiber.interrupted ∧
      ((change fiber).pending = fiber.pending ∨ (change fiber).pending = none)) :
    Still m (m.modifyFiber g change) := by
  refine ⟨fun _ _ => id, fun f fiber row => ?_, fun f after w row asleep => ?_⟩
  · rw [fiber?_modifyFiber]
    split
    · exact ⟨change fiber, by rw [row]; rfl, fun mark => (kept fiber).1 ▸ mark⟩
    · exact ⟨fiber, row, id⟩
  · obtain ⟨before, row', rfl | ⟨-, rfl⟩⟩ := fiber?_of_modifyFiber row
    · exact ⟨_, row', asleep⟩
    · refine ⟨before, row', ?_⟩
      rcases (kept before).2 with same | awake
      · rwa [Fiber.sleepsOn, same] at asleep
      · rw [Fiber.sleepsOn, awake] at asleep
        cases asleep

theorem push {newborn : Fiber σ} (awake : newborn.pending = none) :
    Still m { m with fibers := m.fibers.push newborn } := by
  refine ⟨fun _ _ => id, fun f fiber row => ⟨fiber, Table.get?_push_of_some newborn row, id⟩,
    fun f after w row asleep => ?_⟩
  rw [fiber?, Table.get?_push] at row
  split at row
  · obtain rfl := Option.some.inj row
    rw [Fiber.sleepsOn, awake] at asleep
    cases asleep
  · exact ⟨after, row, asleep⟩

theorem openWait (m : Machine σ) (f : FiberId) (source : WaitSource) :
    Still m (m.openWait f source).2 :=
  ⟨fun _ _ found => Table.get?_push_of_some _ found, fun _ fiber row => ⟨fiber, row, id⟩,
    fun _ after _ row asleep => ⟨after, row, asleep⟩⟩

theorem write (m : Machine σ) (entry : Entry) : Still m (m.write entry) := of_eq rfl rfl

theorem trace (m : Machine σ) (event : TraceEvent) : Still m (m.trace event) := of_eq rfl rfl

theorem enqueue (m : Machine σ) (f : FiberId) : Still m (m.enqueue f) := of_eq rfl rfl

theorem foldl {α : Type} {step : Machine σ → α → Machine σ} (m : Machine σ)
    (steps : ∀ m a, Still m (step m a)) (as : List α) : Still m (as.foldl step m) := by
  induction as generalizing m with
  | nil => exact refl m
  | cons a as ih => exact (steps m a).trans (ih _)

theorem enqueueAll (m : Machine σ) (fibers : List FiberId) : Still m (m.enqueueAll fibers) :=
  foldl m (fun m f => enqueue m f) fibers

theorem note (m : Machine σ) (request : Request) :
    Still m (match request with
      | .note v => m.write (.note v)
      | _ => m) := by
  cases request with
  | note v => exact write m _
  | _ => exact refl m

theorem runCanceler (m : Machine σ) (f : FiberId) (canceler : Canceler σ) :
    Still m (m.runCanceler f canceler) := by
  cases canceler with
  | none => exact refl m
  | timer handle => exact of_eq rfl rfl
  | code cleanup =>
      have changed : Still m { m with world := (cleanup (statusOf m.fibers) m.world).world } :=
        of_eq rfl rfl
      unfold Machine.runCanceler runCleanup
      dsimp only
      split
      · exact changed.trans (foldl _ note _)
      · exact (changed.trans (foldl _ note _)).trans (trace _ _)

theorem deliver (m : Machine σ) (p : FiberId) (x : Exit) : Still m (m.deliver p x) := by
  unfold Machine.deliver
  split
  · refine (of_modify p fun _ => ?_).trans (enqueue _ p)
    exact ⟨rfl, .inr rfl⟩
  · exact of_modify p fun _ => ⟨rfl, .inl rfl⟩
  · exact refl m

end Still

/-! ## Answers -/

/-- Who is too late claims nothing. -/
theorem claimLog_of_claimed {v : WaitId} {wait : Wait} (m : Machine σ)
    (found : m.waits.get? w = some wait) (claimed : wait.claimed = true) (claimant : Claimant) :
    (m.claimLog v claimant).on w = [] := by
  unfold claimLog
  split
  · rename_i opened
    refine WaitLog.on_cons_of_ne ?_ _ []
    rintro rfl
    simp [isOpen, found, claimed] at opened
  · rfl

theorem onlyWakes_claim (m : Machine σ) (w : WaitId) : OnlyWakes m (m.claim w).2 :=
  fun g after _ row asleep => ⟨after, (m.fiber?_claim w g).symm.trans row, asleep⟩

/-- A wait ends that nobody has claimed: its owner has the exit. -/
theorem fiber?_resume {wait : Wait} (found : m.waits.get? w = some wait)
    (free : wait.claimed = false) (row : m.fiber? wait.owner = some fiber)
    (live : fiber.status.isTerminal = false)
    (awake : fiber.status = .running → fiber.pending = none) (x : Exit) :
    ∃ after, (m.resume w x).fiber? wait.owner = some after ∧
      (Coherent.answered x fiber).Kept after := by
  have row' : (m.claim w).2.fiber? wait.owner = some fiber := (m.fiber?_claim w _).trans row
  have status : (m.claim w).2.status wait.owner = fiber.status := Coherent.status_of_row row'
  have told : ∀ change : Fiber σ → Fiber σ,
      ((m.claim w).2.modifyFiber wait.owner change).fiber? wait.owner = some (change fiber) := by
    intro change
    rw [fiber?_modifyFiber, if_pos rfl, row']
    rfl
  rw [resume_of_open found free, deliver, status]
  cases known : fiber.status with
  | suspended => exact ⟨_, told _, .refl _⟩
  | running => exact ⟨_, told _, ⟨rfl, rfl, awake known, known, rfl⟩⟩
  | _ => simp [known, FiberStatus.isTerminal] at live

namespace Does

/-- A wait ends. -/
theorem resume_of_evolves {x : Exit} (evolves : Evolves actor true m (m.resume w x)) :
    Does actor m (m.resumeLog w x) (m.resume w x) := by
  cases opened : m.isOpen w with
  | false =>
      rw [resume_of_claimed opened, resumeLog, claimLog, opened]
      exact refl m
  | true =>
      obtain ⟨wait, found, -⟩ := (Option.any_eq_true _ _).1 opened
      have free : wait.claimed = false := by simpa [isOpen, found] using opened
      have resumed : m.resume w x = (m.claim w).2.deliver wait.owner x := resume_of_open found free x
      have waits : (m.resume w x).waits = (m.claim w).2.waits := by
        rw [resumed, waits_deliver]
      have closed : (m.resume w x).isOpen w = false := by
        rw [isOpen, waits]
        exact m.isOpen_claim_snd w
      have log : m.resumeLog w x = [(w, .claims (.answer x))] := by
        rw [resumeLog, claimLog, opened]
        rfl
      have wakes : OnlyWakes m (m.resume w x) := by
        rw [resumed]
        exact (onlyWakes_claim m w).trans (Still.deliver _ _ _).sleeps
      refine ⟨⟨fun v wait found claimed => claimLog_of_claimed m found claimed _,
        fun f fiber v other pends => ?_⟩, evolves, wakes⟩
      rw [log]
      by_cases here : w = v
      · subst here
        obtain ⟨wait', found', -, owner⟩ := pends.opened
        obtain rfl := Option.some.inj (found.symm.trans found')
        subst owner
        obtain ⟨after, row, kept⟩ := fiber?_resume found free pends.row pends.live
          pends.expects.awake x
        rw [WaitLog.on_cons_self]
        refine .answered row kept fun v still => ?_
        obtain rfl := pends.only v (openFor_of_evolves evolves other still)
        obtain ⟨wait', found', free', -⟩ := still
        simp [isOpen, found', free'] at closed
      · have unequal : f ≠ wait.owner := fun same =>
          here (pends.only w ⟨wait, found, free, same.symm⟩)
        rw [WaitLog.on_cons_of_ne here]
        refine .pending ?_ (.refl fiber) ?_ fun _ => id
        · rw [resumed, fiber?_deliver unequal, fiber?_claim]
          exact pends.row
        · obtain ⟨wait', found', rest⟩ := pends.opened
          exact ⟨wait', by rw [waits, get?_claim_of_ne here]; exact found', rest⟩

/-- A wait that is not for a timer may end in any way. -/
theorem resume (untimed : m.Untimed w) (x : Exit) :
    Does actor m (m.resumeLog w x) (m.resume w x) :=
  resume_of_evolves (.resume untimed x)

/-- Any wait may end with nothing. -/
theorem resume_null (m : Machine σ) (w : WaitId) :
    Does actor m (m.resumeLog w (.ok .null)) (m.resume w (.ok .null)) :=
  resume_of_evolves (.resume_null m w)

theorem resumeCallback (m : Machine σ) (w : WaitId) (x : Exit) :
    Does actor m (m.callbackLog w x) (m.resumeCallback w x) := by
  unfold Machine.resumeCallback callbackLog
  split
  · rename_i callback
    obtain ⟨wait, found, source⟩ := (Option.any_eq_true _ _).1 callback
    refine resume ⟨wait, found, ?_⟩ x
    rw [eq_of_beq source]
    exact nofun
  · exact refl m

end Does

/-! ## A fiber that is taken out of its wait -/

/-- A fiber was marked and its wait claimed, and it goes on with an interrupt. -/
def broken (m : Machine σ) (f : FiberId) (w : WaitId) : Machine σ :=
  ((m.mark f).claim w).2.modifyFiber f (Coherent.answered .interrupted)

theorem fiber?_broken (row : m.fiber? f = some fiber) (w : WaitId) (g : FiberId) :
    (m.broken f w).fiber? g =
      if f = g then some (Coherent.answered .interrupted fiber.marked) else m.fiber? g := by
  rw [broken, fiber?_modifyFiber, fiber?_claim, fiber?_mark]
  by_cases here : f = g
  · rw [if_pos here, if_pos here, if_pos here, ← here, row]
    rfl
  · rw [if_neg here, if_neg here, if_neg here]

theorem isOpen_broken (m : Machine σ) (f : FiberId) (w : WaitId) :
    (m.broken f w).isOpen w = false :=
  (m.mark f).isOpen_claim_snd w

theorem get?_broken_of_ne {v : WaitId} (other : w ≠ v) (m : Machine σ) (f : FiberId) :
    (m.broken f w).waits.get? v = m.waits.get? v :=
  get?_claim_of_ne other (m.mark f)

theorem onlyWakes_broken (row : m.fiber? f = some fiber) (w : WaitId) :
    OnlyWakes m (m.broken f w) := by
  intro g after v row' asleep
  rw [fiber?_broken row] at row'
  split at row'
  · obtain rfl := Option.some.inj row'
    cases asleep
  · exact ⟨after, row', asleep⟩

theorem evolves_broken {canceler : Canceler σ} (row : m.fiber? f = some fiber)
    (breakable : fiber.breakable? = some (w, canceler)) (opened : m.isOpen w = true) :
    Evolves actor true m (m.broken f w) := by
  have taken : Evolves actor true (m.mark f) ((m.mark f).breakWait f fiber.marked).2 :=
    .of_change (.breakWait (row_of_mark row) rfl)
  obtain ⟨-, lost⟩ | ⟨v, c, breakable', -, same⟩ := (m.mark f).breakWait_cases f fiber.marked
  · cases (lost w canceler breakable).symm.trans opened
  · obtain ⟨rfl, rfl⟩ := Prod.mk.inj (Option.some.inj (breakable.symm.trans breakable'))
    rw [same] at taken
    exact (Evolves.of_change (.mark m f)).trans taken

/-- The fiber itself is left alone from then on. -/
theorem Pends.outcome_of_broken {canceler : Canceler σ} (pends : m.Pends f fiber w)
    (breakable : fiber.breakable? = some (w, canceler)) (foreign : actor ≠ some f)
    (evolves : Evolves actor true (m.broken f w) m') :
    m'.Outcome f fiber w [.claims .interrupt, .cancels canceler] := by
  have row : (m.broken f w).fiber? f = some (Coherent.answered .interrupted fiber.marked) := by
    rw [fiber?_broken pends.row, if_pos rfl]
  have start : Evolves actor true m (m.broken f w) :=
    evolves_broken pends.row breakable pends.isOpen
  have none : ∀ v, ¬ (m.broken f w).OpenFor f v := by
    intro v still
    obtain rfl := pends.only v (openFor_of_evolves start foreign still)
    obtain ⟨wait, found, free, -⟩ := still
    have shut := isOpen_broken m f v
    simp [Machine.isOpen, found, free] at shut
  obtain ⟨⟨after, row', kept⟩, closed⟩ := kept_of_closed row rfl pends.going none evolves foreign
  have marked := evolves.marked ((isInterrupted_of_row row).trans rfl)
  rw [isInterrupted_of_row row'] at marked
  exact .broken row' ⟨kept.run, kept.input, kept.pending, kept.status, kept.closing⟩ marked
    breakable closed

/-- Any other fiber waits as before, and for something else. -/
theorem Pends.broken {canceler : Canceler σ} {other : Fiber σ} {v : WaitId}
    (pends : m.Pends g other v) (row : m.fiber? f = some fiber)
    (breakable : fiber.breakable? = some (w, canceler)) (opened : m.isOpen w = true)
    (foreign : actor ≠ some g) (unequal : f ≠ g) :
    w ≠ v ∧ (m.broken f w).Pends g other v := by
  obtain ⟨-, asleep, -⟩ := Fiber.breakable?_eq_some_iff.1 breakable
  have apart : w ≠ v := by
    rintro rfl
    exact unequal (pends.sole f fiber row (by rw [Fiber.sleepsOn, asleep]; rfl))
  obtain ⟨wait, found, rest⟩ := pends.opened
  exact ⟨apart, pends.later foreign (evolves_broken row breakable opened) (onlyWakes_broken row w)
    (((fiber?_broken row w g).trans (if_neg unequal)).trans pends.row) (.refl other)
    ⟨wait, (get?_broken_of_ne apart m f).trans found, rest⟩⟩

namespace Does

/-! ## Interrupts -/

/-- A mark on a fiber that no interrupt can take out of a wait. -/
theorem mark (f : FiberId) (steady : ∀ fiber w canceler, m.fiber? f = some fiber →
      fiber.status.isTerminal = false → fiber.breakable? = some (w, canceler) →
      m.isOpen w = false) : Does actor m [] (m.mark f) := by
  have wakes : OnlyWakes m (m.mark f) := by
    intro g after w row asleep
    obtain ⟨before, row', rfl | ⟨-, rfl⟩⟩ := fiber?_of_modifyFiber row
    · exact ⟨_, row', asleep⟩
    · exact ⟨before, row', asleep⟩
  refine ⟨⟨fun _ _ _ _ => rfl, fun g fiber w other pends => ?_⟩, .of_change (.mark m f), wakes⟩
  by_cases here : f = g
  · subst here
    refine .pending (row_of_mark pends.row) ⟨rfl, rfl, rfl, rfl, rfl⟩ pends.opened fun sleeps _ => ?_
    obtain ⟨⟨v, canceler⟩, breakable⟩ := Option.isSome_iff_exists.1 sleeps
    obtain ⟨-, asleep, -⟩ := Fiber.breakable?_eq_some_iff.1 breakable
    have same : w = v := Option.some.inj (pends.expects.sleeps _ asleep)
    have closed := steady fiber v canceler pends.row pends.live breakable
    rw [← same, pends.isOpen] at closed
    cases closed
  · refine .pending ?_ (.refl fiber) pends.opened fun _ => id
    rw [fiber?_mark, if_neg here]
    exact pends.row

/-- An interrupt takes a fiber out of its wait: the wait is claimed, and when more has been done the
canceler runs. -/
theorem breaks {canceler : Canceler σ} (row : m.fiber? f = some fiber)
    (breakable : fiber.breakable? = some (w, canceler)) (opened : m.isOpen w = true)
    (below : Does actor (m.broken f w) log m') :
    Does actor m ((w, .claims .interrupt) :: (log ++ [(w, .cancels canceler)]))
      ((m'.runCanceler f canceler).enqueue f) := by
  have start : Evolves actor true m (m.broken f w) := evolves_broken row breakable opened
  have rest : Does actor (m.broken f w) log ((m'.runCanceler f canceler).enqueue f) :=
    below.after (.still ((Evolves.runCanceler _ _ _).trans (Evolves.enqueue _ _))
      ((Still.runCanceler _ _ _).trans (Still.enqueue _ _)))
  refine ⟨⟨fun v wait known claimed => ?_, fun g other v foreign pends => ?_⟩,
    start.trans rest.evolves, (onlyWakes_broken row w).trans rest.sleeps⟩
  · obtain ⟨later, known', -, -, still⟩ := start.keepsWaits known
    have unequal : w ≠ v := by
      rintro rfl
      simp [isOpen, known, claimed] at opened
    rw [WaitLog.on_cons_of_ne unequal, WaitLog.on_append, rest.late known' (still claimed),
      WaitLog.on_cons_of_ne unequal]
    rfl
  · by_cases here : f = g
    · subst here
      obtain rfl := Option.some.inj (row.symm.trans pends.row)
      obtain ⟨-, asleep, -⟩ := Fiber.breakable?_eq_some_iff.1 breakable
      obtain rfl := Option.some.inj (pends.expects.sleeps _ asleep)
      -- nobody below does anything about a wait that has been claimed
      obtain ⟨wait, found, -⟩ := (Option.any_eq_true _ _).1 opened
      obtain ⟨wait', found', -⟩ := start.keepsWaits found
      have claimed : wait'.claimed = true := by
        simpa [isOpen, found'] using isOpen_broken m f v
      rw [WaitLog.on_cons_self, WaitLog.on_append, rest.late found' claimed, List.nil_append,
        WaitLog.on_cons_self, WaitLog.on_nil]
      exact pends.outcome_of_broken breakable foreign rest.evolves
    · obtain ⟨unequal, pends'⟩ := pends.broken row breakable opened foreign here
      rw [WaitLog.on_cons_of_ne unequal, WaitLog.on_append, WaitLog.on_cons_of_ne unequal,
        WaitLog.on_nil, List.append_nil]
      exact rest.outcome foreign pends'

/-- An interrupt of a fiber and of those below it, down to a depth. -/
theorem interruptWithin (depth : Nat) (m : Machine σ) (f : FiberId) :
    Does actor m (interruptWithinLog depth m f) (m.interruptWithin depth f) := by
  induction depth generalizing m f with
  | zero => exact refl m
  | succ depth ih =>
      have below : ∀ (n : Machine σ) (event : TraceEvent) (children : List FiberId),
          Entry.exit? (.trace event) = none → Does actor n
            (logOver (Machine.interruptWithin depth) (interruptWithinLog depth) (n.trace event)
              children)
            (children.foldl (Machine.interruptWithin depth) (n.trace event)) :=
        fun n event children quiet =>
          (still (Evolves.trace _ (.inr quiet)) (Still.trace _ _)).before
            (foldl (n.trace event) (fun m c => ih m c) children)
      unfold interruptWithinLog Machine.interruptWithin
      cases row : m.fiber? f with
      | none =>
          have row' : (m.mark f).fiber? f = none := by
            rw [fiber?_mark, if_pos rfl, row, Option.map_none]
          simp only [row']
          refine mark f fun fiber w canceler known => ?_
          cases row.symm.trans known
      | some fiber =>
          have same : fiber.marked.status = fiber.status := rfl
          simp only [row_of_mark row, same]
          by_cases ended : fiber.status.isTerminal = true
          · rw [if_pos ended, if_pos ended]
            refine mark f fun other w canceler known live => ?_
            obtain rfl := Option.some.inj (row.symm.trans known)
            rw [ended] at live
            cases live
          rw [if_neg ended, if_neg ended]
          obtain ⟨left, lost⟩ | ⟨w, canceler, breakable, opened, taken⟩ :=
            (m.mark f).breakWait_cases f fiber.marked
          · -- a wait that cannot be claimed is left to whoever has claimed it
            simp only [left, breakLog_of_lost lost, cancelLog_none, List.nil_append,
              List.append_nil]
            refine (mark f fun other w canceler known _ breakable => ?_).before (below _ _ _ rfl)
            obtain rfl := Option.some.inj (row.symm.trans known)
            exact lost w canceler breakable
          · simp only [taken, breakLog, claimLog, cancelLog, breakable, opened, if_true,
              List.cons_append, List.nil_append]
            exact breaks row breakable opened (below _ _ _ rfl)

theorem interrupt (m : Machine σ) (f : FiberId) :
    Does actor m (m.interruptLog f) (m.interrupt f) :=
  interruptWithin _ m f

theorem interruptAll (m : Machine σ) (fibers : List FiberId) :
    Does actor m (m.interruptAllLog fibers) (m.interruptAll fibers) :=
  foldl m (fun m f => interrupt m f) fibers

/-! ## User code -/

theorem serve (m : Machine σ) (request : Request) :
    Does actor m (m.serveLog request) (m.serve request) := by
  cases request with
  | note v => exact still (.write m (.inr rfl)) (.write m _)
  | resume w x => exact resumeCallback m w x
  | resumeLater w x =>
      exact still (Evolves.serve m (.resumeLater w x)) (.of_eq rfl rfl)
  | interrupt f => exact interrupt m f
  | shutdown =>
      have stopped : Evolves actor true (m.interruptAll m.roots)
          { m.interruptAll m.roots with stopping := true } :=
        .rest rfl rfl rfl rfl rfl rfl rfl
      exact (interruptAll m m.roots).after (still stopped (.of_eq rfl rfl))

theorem perform {α : Type} (m : Machine σ) (code : Action σ α) :
    Does actor m (m.performLog code) (m.perform code).2 := by
  have changed : Does actor m [] { m with world := (code (statusOf m.fibers) m.world).world } :=
    still (.setWorld m _) (.of_eq rfl rfl)
  exact changed.before (foldl _ serve _)

/-! ## Layers -/

theorem wake (m : Machine σ) {waiters : List WaitId} {x : Exit}
    (rightful : x = .ok .null ∨ ∀ w ∈ waiters, m.Untimed w) :
    Does actor m (m.wakeLog waiters x) (m.wake waiters x) := by
  induction waiters generalizing m with
  | nil => exact refl m
  | cons w waiters ih =>
      have first : Does actor m (m.resumeLog w x) (m.resume w x) := by
        rcases rightful with rfl | untimed
        · exact resume_null m w
        · exact resume (untimed w List.mem_cons_self) x
      refine first.trans (ih _ (rightful.imp_right fun untimed v listed => ?_))
      exact (untimed v (List.mem_cons_of_mem w listed)).mono first.evolves.keepsWaits

theorem joinBuild (scope : ScopeId) (layer : LayerId) (untimed : m.Untimed w) :
    Does actor m (m.joinBuildLog scope layer w) (m.joinBuild scope layer w) := by
  have evolves : Evolves actor true m (m.joinBuild scope layer w) := .joinBuild scope layer untimed
  unfold Machine.joinBuild joinBuildLog at *
  cases known : (m.memo scope).get? layer with
  | none => exact resume_null m w
  | some entry =>
      rw [known] at evolves
      cases entry with
      | building owner waiters => exact still evolves (.of_eq rfl rfl)
      | built context => exact resume_null m w

end Does

end EffectFibers.Machine
