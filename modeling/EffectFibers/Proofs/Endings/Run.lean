import EffectFibers.Proofs.Endings.Ledger
import EffectFibers.Proofs.Endings.Passing

/-!
# The account of a run

The end of a fiber, the wish to know of an end, and all that does not deal with ends keep the
account, and so every run does.

## Main statements

* `Machine.Ledger.completeWithin` – the end of a fiber keeps the account.
* `Moment.Reachable.ledger_apply` – every event keeps the account.
* `Moment.ledger_run` – every run keeps the account.
-/

namespace EffectFibers

variable {σ : Type}

namespace Machine.Ledger

variable {m m' : Machine σ} {log : Log} {owed : FiberId → List Observer} {f p : FiberId}
  {fiber : Fiber σ}

/-! ## The end of a fiber -/

/-- A fiber that is about to end has no end in the record. -/
theorem exits_of_leaving (coherent : Coherent m.core { leaving := some f }) :
    exitsOf (exits m.record) f = [] := by
  obtain ⟨k, kin, live, -⟩ := coherent.family.leaving_alone rfl
  refine coherent.family.exits_none fun k' kin' => ?_
  obtain rfl := Option.some.inj (kin.symm.trans kin')
  exact live

end Machine.Ledger

namespace Passing

variable {s s' : Passing σ} {m : Machine σ} {log : Log} {f : FiberId} {fiber : Fiber σ} {x : Exit}
  {owed : List (FiberId × List Observer)}

/-- The observers of a fiber that are still to be told. -/
def owedTo (owed : List (FiberId × List Observer)) (f : FiberId) : List Observer :=
  (owed.filter (·.1 = f)).flatMap (·.2)

theorem owedTo_cons (f : FiberId) (observers : List Observer)
    (owed : List (FiberId × List Observer)) :
    owedTo ((f, observers) :: owed) =
      Function.update (owedTo owed) f (observers ++ owedTo owed f) := by
  funext g
  by_cases here : f = g
  · subst here
    simp [owedTo]
  · rw [Function.update_of_ne (Ne.symm here)]
    simp [owedTo, here]

/-- The log agrees with the machine, up to the observers that are still to be told. -/
def Settles (s : Passing σ) : Prop := s.machine.Ledger s.log (owedTo s.owed)

/-- A fiber ends. -/
theorem Settles.enter (ledger : m.Ledger log (owedTo owed))
    (coherent : Coherent m.core { leaving := some f }) (ends : Coherent.Ends m.core f)
    (row : m.fiber? f = some fiber) : (enter log m f fiber x owed).Settles := by
  have none := Machine.Ledger.exits_of_leaving coherent
  have left : Evolves .none false _ (m.leave f fiber x) := Evolves.leave coherent row ends x
  have start := (ledger.ended row none x).mono left.keepsBooks
  have paid : owedTo owed f = [] := (ledger.live row none).2.2
  unfold Settles Passing.enter
  rw [owedTo_cons, paid, List.append_nil]
  exact start

/-- The row of a fiber that has ended, and the acts by which its first observer is told. -/
theorem Settles.gone {observer : Observer} {rest : List Observer}
    (settles : Settles ⟨log, m, (f, observer :: rest) :: owed⟩) :
    ∃ fiber x, m.fiber? f = some fiber ∧ fiber.observers = [] ∧
      m.tellActs f observer = .about f (observer.acts fiber.exit) ∧
      Life fiber.reader (log.on f)
        (.gone x (observer :: (rest ++ owedTo owed f)) fiber.exit) := by
  have debt : owedTo ((f, observer :: rest) :: owed) f = observer :: (rest ++ owedTo owed f) := by
    simp [owedTo]
  cases row : m.fiber? f with
  | none => cases debt.symm.trans (settles.unborn row).2
  | some fiber =>
      have acts : m.tellActs f observer = .about f (observer.acts fiber.exit) := by
        rw [Machine.tellActs, row]
        rfl
      have stands := settles.rows row
      dsimp only at stands
      rw [debt] at stands
      cases stands with
      | live _ _ paid => cases paid
      | gone life unwatched => exact ⟨fiber, _, rfl, unwatched, acts, life⟩

/-- Whoever is told of an end is answered; the log and the machine agree about it. -/
theorem Settles.step (settles : s.Settles) (sound : Sound none s) (step : Step s s') :
    s'.Settles := by
  have update : ∀ (observer : Observer) (rest owed) (f : FiberId),
      Function.update (owedTo ((f, observer :: rest) :: owed)) f (rest ++ owedTo owed f) =
        owedTo ((f, rest) :: owed) := by
    intro observer rest owed f
    rw [owedTo_cons, owedTo_cons, Function.update_idem]
  -- the account of a child is settled before its parent goes on
  have heard : ∀ {log m f p rest owed n} {y : Option Exit},
      s = ⟨log, m, (f, .closing p :: rest) :: owed⟩ → m.childGone p = (y, n) →
      n.Ledger (log ++ m.tellActs f (.closing p)) (owedTo ((f, rest) :: owed)) := by
    rintro log m f p rest owed n y rfl counted
    obtain ⟨fiber, x, row, unwatched, acts, life⟩ := settles.gone
    have none : exits m.record = exits m.record ++
        ((Observer.acts (.closing p) fiber.exit).filterMap Act.end?).map (f, ·) := by simp
    have told := Machine.Ledger.extend settles row (fun _ _ => rfl) none
      (.gone life.tells unwatched)
    have counts : Evolves Option.none false m (m.childGone p).2 := (Evolves.childGone m p).1
    rw [counted] at counts
    have kept := told.mono counts.keepsBooks
    rwa [update, ← acts] at kept
  cases step with
  | @tells log m f w how rest owed =>
      obtain ⟨fiber, x, row, unwatched, acts, life⟩ := settles.gone
      have told := Machine.Ledger.told settles row w how (by simp) (.gone life.tells unwatched)
      dsimp only at told
      rwa [update, ← acts] at told
  | counts counted => exact heard rfl counted
  | closes counted row =>
      obtain ⟨coherent, few⟩ := sound
      obtain ⟨leaving, -, ends⟩ := Coherent.childGone coherent counted
      exact Settles.enter (heard rfl counted) leaving ends row
  | @settled log m f owed =>
      have nothing : owedTo ((f, []) :: owed) = owedTo owed := by
        rw [owedTo_cons, List.nil_append, Function.update_eq_self]
      unfold Settles at settles
      rwa [nothing] at settles

/-- When a fiber ends, the readers of all exits stay the same. -/
theorem reader_leave {p : FiberId} {parent : Fiber σ}
    (coherent : Coherent m.core { leaving := some p }) (row : m.fiber? p = some parent)
    (ends : Coherent.Ends m.core p) (x : Exit) (known : m.fiber? f = some fiber) :
    ∃ after, (m.leave p parent x).fiber? f = some after ∧ after.reader = fiber.reader := by
  have left : Evolves none false _ (m.leave p parent x) := Evolves.leave coherent row ends x
  have ended : ∃ after, (m.modifyFiber p fun fiber => fiber.ended x).fiber? f = some after ∧
      after.reader = fiber.reader := by
    rw [Machine.fiber?_modifyFiber]
    split
    · exact ⟨fiber.ended x, by rw [known]; rfl, rfl⟩
    · exact ⟨fiber, known, rfl⟩
  obtain ⟨middle, row', same⟩ := ended
  obtain ⟨after, row'', final⟩ := left.keepsBooks.rows row'
  exact ⟨after, row'', final.reader.trans same⟩

/-- In the midst of an end the readers of all exits stay the same. -/
theorem reader_step (sound : Sound none s) (step : Step s s')
    (row : s.machine.fiber? f = some fiber) :
    ∃ after, s'.machine.fiber? f = some after ∧ after.reader = fiber.reader := by
  have kept : ∀ {m' : Machine σ}, s.machine.KeepsBooks m' →
      ∃ after, m'.fiber? f = some after ∧ after.reader = fiber.reader := by
    intro m' kept
    obtain ⟨after, row', same⟩ := kept.rows row
    exact ⟨after, row', same.reader⟩
  have counted : ∀ {m n : Machine σ} {p y}, m.childGone p = (y, n) → m.KeepsBooks n := by
    intro m n p y counted
    have counts : Evolves none false m (m.childGone p).2 := (Evolves.childGone m p).1
    rw [counted] at counts
    exact counts.keepsBooks
  cases step with
  | @tells log m g w how rest owed =>
      have taken : ∃ after, (m.takeExit g).2.fiber? f = some after ∧
          after.reader = fiber.reader := by
        unfold Machine.takeExit
        split
        · rw [Machine.fiber?_modifyFiber]
          split
          · exact ⟨{ fiber with exit := none }, by rw [show m.fiber? f = some fiber from row]; rfl,
              rfl⟩
          · exact ⟨fiber, row, rfl⟩
        · exact ⟨fiber, row, rfl⟩
      have told : ∀ y, ∃ after, ((m.takeExit g).2.resume w y).fiber? f = some after ∧
          after.reader = fiber.reader := by
        intro y
        obtain ⟨middle, row', same⟩ := taken
        obtain ⟨after, row'', same'⟩ := (Machine.KeepsBooks.resume (m.takeExit g).2 w y).rows row'
        exact ⟨after, row'', same'.reader.trans same⟩
      cases how with
      | join => exact told _
      | await => exact told _
      | interrupt => exact kept (.resume m w _)
  | counts counts => exact kept (counted counts)
  | @closes log m n g p x parent rest owed counts row' =>
      obtain ⟨leaving, -, ends⟩ := Coherent.childGone sound.coherent counts
      obtain ⟨before, known, same⟩ := kept (counted counts)
      obtain ⟨after, left, final⟩ := reader_leave leaving row' ends x known
      exact ⟨after, left, final.trans same⟩
  | settled => exact ⟨fiber, row, rfl⟩

theorem Settles.steps (settles : s.Settles) (sound : Sound none s) (steps : Steps s s') :
    s'.Settles := by
  induction steps with
  | refl => exact settles
  | tail before next ih => exact ih.step (sound.steps before) next

end Passing

namespace Machine.Ledger

variable {m m' : Machine σ} {log : Log} {owed : FiberId → List Observer} {f p : FiberId}
  {fiber : Fiber σ}

/-- The end of a fiber, and perhaps of some of the fibers above it, keeps the account. -/
theorem completeWithin {height : Nat} (ledger : m.Ledger log fun _ => [])
    (coherent : Coherent m.core { leaving := some f }) (enough : f.raw ≤ height)
    (ends : Coherent.Ends m.core f) (x : Exit) :
    (m.completeWithin height f x).Ledger (log ++ (completeLogged height m f x).1) fun _ => [] := by
  obtain ⟨fiber, row, -⟩ := id ends
  have sound : Passing.Sound none (Passing.enter log m f fiber x []) :=
    .enter coherent ends row rfl
  have start : (Passing.enter log m f fiber x []).Settles :=
    Passing.Settles.enter ledger coherent ends row
  exact start.steps sound (Passing.steps_completeWithin coherent enough ends row)

/-- An ending fiber waits for its children, one after the other. -/
theorem awaitChildren (children : List FiberId) (ledger : m.Ledger log owed)
    (lives : ∀ c ∈ children, (m.fiber? c).isSome ∧ exitsOf (exits m.record) c = []) :
    (children.foldl (awaitChild f) m).Ledger
      (log ++ children.map fun c => (c, .watches (.closing f))) owed := by
  induction children generalizing m log with
  | nil => exact (List.append_nil log).symm ▸ ledger
  | cons c children ih =>
      obtain ⟨born, none⟩ := lives c (by simp)
      obtain ⟨fiber, row⟩ := Option.isSome_iff_exists.1 born
      have asked := ih (ledger.watches row none (.closing f)) fun d listed => by
        obtain ⟨born, none⟩ := lives d (by simp [listed])
        refine ⟨?_, none⟩
        rw [fiber?_modifyFiber]
        split
        · rw [Option.isSome_map, born]
        · exact born
      rwa [List.append_assoc] at asked

/-- The exit of a program keeps the account. -/
theorem finish (ledger : m.Ledger log fun _ => []) (coherent : Coherent m.core { held := some f })
    (x : Exit) : (m.finish f x).Ledger (log ++ m.finishActs f x) fun _ => [] := by
  obtain ⟨fiber, row, -⟩ := coherent.row_of_held rfl
  have row' : m.fiber? f = some fiber := row
  unfold Machine.finish finishActs
  simp only [row', Option.map_some, Option.getD_some]
  split
  · rename_i alone
    obtain ⟨leaving, ends⟩ := coherent.leave_of_held row (List.isEmpty_iff.1 alone)
    exact ledger.completeWithin leaving (Nat.le_of_lt (Table.raw_lt_nextId row)) ends x
  · have noted : Evolves (some f) false m (m.trace (.waitingForChildren f fiber.children.length)) :=
      Evolves.trace m (.inr rfl)
    have closed : Change (some f) false (m.trace (.waitingForChildren f fiber.children.length))
        ((m.trace (.waitingForChildren f fiber.children.length)).modifyFiber f fun fiber' =>
          { fiber' with closing := some { remaining := fiber.children.length, exit := x } }) :=
      .own rfl (fun _ => ⟨rfl, rfl, rfl, rfl⟩) fun _ => ⟨rfl, rfl, rfl⟩
    have books :=
      ((noted.trans (.of_change closed)).trans (.interruptAll _ fiber.children)).keepsBooks
    refine awaitChildren _ (ledger.mono books) fun c listed => ?_
    obtain ⟨kc, kinC, -, live⟩ :=
      (coherent.family.mem_children (Table.view_of_row Fiber.kin row)).1 listed
    obtain ⟨child, rowC, rfl⟩ := Table.exists_row_of_view kinC
    obtain ⟨after, row'', -⟩ := books.rows rowC
    refine ⟨Option.isSome_iff_exists.2 ⟨after, row''⟩, ?_⟩
    rw [books.exits]
    refine coherent.family.exits_none fun k kin => ?_
    obtain rfl := Option.some.inj (kinC.symm.trans kin)
    exact live

/-! ## The wish to know of an end -/

/-- Telling of a fiber that there is not leaves the books alone. -/
theorem keepsBooks_tellWatcher (missing : m.fiber? f = none) (w : WaitId) (how : Watch) :
    m.KeepsBooks (m.tellWatcher f w how) := by
  have nothing : m.KeepsBooks (m.takeExit f).2 := by
    simpa [Machine.takeExit, missing] using KeepsBooks.of_eq rfl rfl
  cases how with
  | join => exact nothing.trans (.resume _ w _)
  | await => exact nothing.trans (.resume _ w _)
  | interrupt => exact .resume m w _

/-- Whoever wants to be told of an end is noted down, and answered at once if it has come. -/
theorem watch {φ : Focus} (ledger : m.Ledger log owed) (coherent : Coherent m.core φ)
    (paid : owed f = []) (w : WaitId) (how : Watch) :
    (m.watch f w how).Ledger (log ++ m.watchActs f w how) owed := by
  unfold Machine.watch watchActs
  cases row : m.fiber? f with
  | none =>
      have gone : (m.status f).isTerminal = true := by
        rw [status, statusOf, show m.fibers.get? f = none from row]
        rfl
      rw [if_pos gone, List.append_nil]
      exact ledger.mono (keepsBooks_tellWatcher row w how)
  | some fiber =>
      have kin : m.core.kin f = some fiber.kin := Table.view_of_row _ row
      rw [Coherent.status_of_row row]
      dsimp only
      split
      · -- the end has come, and the request is answered in the same operation
        rename_i terminal
        have verdict : fiber.kin.verdict = some fiber.status := by
          simp [Fiber.kin, Fiber.verdict, terminal]
        obtain ⟨x, one, -⟩ := coherent.family.exits_one kin verdict
        obtain ⟨life, unwatched⟩ := ledger.gone row one
        rw [paid] at life
        have late := life.late (.watcher w how)
        have none : (.watches (.watcher w how) ::
            (Observer.watcher w how).acts fiber.exit).filterMap Act.end? = [] :=
          Observer.filterMap_end?_acts _ _
        have told := ledger.told row w how none (.gone late unwatched)
        rw [← paid, Function.update_eq_self] at told
        have acts : m.tellActs f (.watcher w how) =
            .about f ((Observer.watcher w how).acts fiber.exit) := by
          rw [tellActs, row]
          rfl
        rw [acts]
        exact told
      · rename_i live
        refine ledger.watches row (coherent.family.exits_none fun k kin' => ?_) (.watcher w how)
        obtain rfl := Option.some.inj (kin.symm.trans kin')
        simp [Fiber.kin, Fiber.verdict, live]

/-- A fiber that begins to watch another one keeps the account. -/
theorem evalWatch (ledger : m.Ledger log owed) (coherent : Coherent m.core { held := some f })
    (target : FiberId) (paid : owed target = []) (run : RunState σ) (how : Watch) :
    (m.evalWatch f run target how).machine.Ledger (log ++ m.evalWatchActs f target how) owed := by
  have opened := coherent.openWait .fiber
  have noted : Evolves (some f) false m (m.openWait f .fiber).2 := Evolves.openWait m f .fiber
  have start := ledger.mono noted.keepsBooks
  unfold Machine.evalWatch evalWatchActs
  dsimp only
  split
  · have broken : Evolves none false _ ((m.openWait f .fiber).2.interrupt target) :=
      Evolves.interrupt _ target
    exact (start.mono broken.keepsBooks).watch (opened.interrupt target) paid _ how
  · exact start.watch opened paid _ how

end Machine.Ledger

/-! ## Events and runs -/

namespace Moment

variable {μ : Moment σ} {log : Log}

/-- Every event keeps the account. -/
theorem Reachable.ledger_apply (reachable : Reachable μ)
    (ledger : μ.machine.Ledger log fun _ => []) (event : Event σ) :
    (μ.apply event).machine.Ledger (log ++ μ.actsAt event) fun _ => [] := by
  have coherent := reachable.isCoherent
  by_cases deals : μ.Deals event
  · cases event with
    | work =>
        unfold IsCoherent focus at coherent
        rcases deals with ⟨slice, x, taken⟩ | ⟨taken, slice, target, how, running, next⟩
        · simp only [taken] at coherent
          show μ.work.machine.Ledger _ _
          simp only [work, actsAt, taken]
          exact ledger.finish coherent x
        · simp only [taken, running, Option.map_some] at coherent
          have free : Coherent { μ.machine with running := none }.core
              { held := some slice.fiber } := by
            obtain ⟨-, shaped, family, heirs, agenda, waiting, seating⟩ := coherent
            exact ⟨rfl, shaped, family, heirs, agenda, waiting, seating⟩
          have ledger' : Machine.Ledger { μ.machine with running := none } log fun _ => [] :=
            ledger.mono (.of_eq rfl rfl)
          show μ.work.machine.Ledger _ _
          simp only [work, actsAt, taken, running, next, Machine.takeStep, Machine.stepRun,
            Machine.eval, Node.isSuspensionPoint, Bool.true_and]
          split
          · exact (List.append_nil log).symm ▸ ledger'
          · exact ledger'.evalWatch free target rfl slice.run how
    | _ => exact deals.elim
  · rw [actsAt_of_calm deals, List.append_nil]
    exact ledger.mono (keepsBooks coherent reachable.tidy deals)

theorem ledger_initial (world : World σ) (budget : Nat) :
    (initial world budget).machine.Ledger [] fun _ => [] := by
  refine ⟨fun f => ?_, fun {f fiber} row => ?_, fun _ => ⟨rfl, rfl⟩⟩
  · simp [initial, Machine.start, exits, exitsOf, Log.on]
  · cases (Table.get?_empty _).symm.trans row

/-- Every run keeps the account. -/
theorem Reachable.ledger_run (reachable : Reachable μ) (ledger : μ.machine.Ledger log fun _ => [])
    (events : List (Event σ)) :
    (μ.run events).machine.Ledger (log ++ μ.acts events) fun _ => [] := by
  induction events generalizing μ log with
  | nil => exact (List.append_nil log).symm ▸ ledger
  | cons event events ih =>
      have next := ih (reachable.apply event) (reachable.ledger_apply ledger event)
      rwa [List.append_assoc] at next

end Moment

end EffectFibers
