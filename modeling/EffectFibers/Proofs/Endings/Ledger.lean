import EffectFibers.Proofs.Endings.Acts

/-!
# Keeping account of the ends

The log of a run agrees with the machine.  The ends in the log are those in the record.  Of a fiber
that lives there are only requests to be told, and these are its observers.  Of a fiber that has
ended, all requests have been answered, but for the observers that are still owed an answer in the
middle of an end; and the exit that was kept is still there, or it was taken once.

Whatever does not deal with ends leaves the account as it is, and each act extends it by one step of
the pattern.

## Main definitions

* `Machine.Ledger` – the log of a run agrees with the machine.

## Main statements

* `Life.live_eq`, `Life.gone_eq` – what the pattern says.
* `Machine.Ledger.completeWithin` – the end of a fiber keeps the account.
* `Moment.Reachable.ledger` – every run keeps the account.
-/

namespace EffectFibers

variable {σ : Type}

/-! ## What the pattern says -/

namespace Observer

variable (observer : Observer) (kept : Option Exit)

@[simp] theorem filterMap_end?_acts : (observer.acts kept).filterMap Act.end? = [] := by
  cases kept <;> simp [acts, Act.end?]

@[simp] theorem filterMap_handed?_acts : (observer.acts kept).filterMap Act.handed? = [] := by
  cases kept <;> simp [acts, Act.handed?]

@[simp] theorem filterMap_watching?_acts : (observer.acts kept).filterMap Act.watching? = [] := by
  cases kept <;> simp [acts, Act.watching?]

@[simp] theorem filterMap_told?_acts : (observer.acts kept).filterMap Act.told? = [observer] := by
  cases kept <;> simp [acts, Act.told?]

/-- The exit that is kept is taken, or it stays. -/
@[simp] theorem taken?_acts_append_leaves :
    (observer.acts kept).filterMap Act.taken? ++ (observer.leaves kept).toList = kept.toList := by
  unfold acts leaves
  split <;> cases kept <;> rfl

end Observer

@[simp] theorem ExitReader.filterMap_end?_acts (reader : ExitReader) (x : Exit) :
    (reader.acts x).filterMap Act.end? = [] := by
  unfold acts
  split <;> simp [Act.end?]

@[simp] theorem filterMap_end?_watches (observers : List Observer) :
    (observers.map Act.watches).filterMap Act.end? = [] := by
  simp [List.filterMap_map, Function.comp_def, Act.end?]

namespace Life

variable {reader : ExitReader} {acts : List Act} {x : Exit} {observers owed : List Observer}
  {kept : Option Exit}

/-- As long as a fiber lives, there are requests to be told and nothing else. -/
theorem live_eq (life : Life reader acts (.live observers)) : acts = observers.map .watches := by
  generalize stage : Stage.live observers = s at life
  induction life generalizing observers with
  | born =>
      obtain rfl := Stage.live.inj stage
      rfl
  | watches observer life ih =>
      obtain rfl := Stage.live.inj stage
      rw [ih rfl, List.map_append]
      rfl
  | _ => cases stage

/-- A fiber ends once and its reader is called once; nobody is told before; all are told in the
order of their requests; and the exit is taken at most once. -/
theorem gone_eq (life : Life reader acts (.gone x owed kept)) :
    ∃ asked later, acts = asked.map .watches ++ (.ends x :: reader.acts x) ++ later ∧
      later.filterMap Act.end? = [] ∧ later.filterMap Act.handed? = [] ∧
      later.filterMap Act.told? ++ owed = asked ++ later.filterMap Act.watching? ∧
      later.filterMap Act.taken? ++ kept.toList = (reader.kept x).toList := by
  generalize stage : Stage.gone x owed kept = s at life
  induction life generalizing x owed kept with
  | ends y life =>
      obtain ⟨rfl, rfl, rfl⟩ := Stage.gone.inj stage
      exact ⟨owed, [], by simp [life.live_eq], rfl, rfl, by simp, by simp⟩
  | @tells acts y observer owed' kept' life ih =>
      obtain ⟨rfl, rfl, rfl⟩ := Stage.gone.inj stage
      obtain ⟨asked, later, rfl, ended, handed, told, taken⟩ := ih rfl
      have told' : (later ++ observer.acts kept').filterMap Act.told? ++ owed =
          asked ++ (later ++ observer.acts kept').filterMap Act.watching? := by
        simpa using told
      refine ⟨asked, later ++ observer.acts kept', by simp, by simp [ended], by simp [handed],
        told', ?_⟩
      rw [List.filterMap_append, List.append_assoc, Observer.taken?_acts_append_leaves, taken]
  | @late acts y kept' observer life ih =>
      obtain ⟨rfl, rfl, rfl⟩ := Stage.gone.inj stage
      obtain ⟨asked, later, rfl, ended, handed, told, taken⟩ := ih rfl
      refine ⟨asked, later ++ [.watches observer] ++ observer.acts kept', by simp, ?_, ?_, ?_, ?_⟩
      · rw [List.filterMap_append, List.filterMap_append, ended]
        simp [Act.end?]
      · rw [List.filterMap_append, List.filterMap_append, handed]
        simp [Act.handed?]
      · rw [List.append_nil] at told
        rw [List.filterMap_append, List.filterMap_append, List.filterMap_append, told]
        simp [Act.told?, Act.watching?]
      · have nothing : [Act.watches observer].filterMap Act.taken? = [] := rfl
        rw [List.filterMap_append, List.append_assoc, Observer.taken?_acts_append_leaves,
          List.filterMap_append, nothing, List.append_nil, taken]
  | _ => cases stage

theorem ends_of_live (life : Life reader acts (.live observers)) :
    acts.filterMap Act.end? = [] := by
  rw [life.live_eq, filterMap_end?_watches]

theorem ends_of_gone (life : Life reader acts (.gone x owed kept)) :
    acts.filterMap Act.end? = [x] := by
  obtain ⟨asked, later, rfl, ended, -⟩ := life.gone_eq
  simp [Act.end?, ended]

end Life

/-! ## The account -/

/-- The acts on a fiber agree with its row, up to the observers that are still owed an answer. -/
inductive Fiber.Stands (fiber : Fiber σ) (acts : List Act) (owed : List Observer) : Prop
  | live (life : Life fiber.reader acts (.live fiber.observers)) (unkept : fiber.exit = none)
    (paid : owed = [])
  | gone {x} (life : Life fiber.reader acts (.gone x owed fiber.exit))
    (unwatched : fiber.observers = [])

theorem Fiber.Stands.congr {fiber after : Fiber σ} {acts : List Act} {owed : List Observer}
    (stands : fiber.Stands acts owed) (same : fiber.SameBook after) : after.Stands acts owed := by
  cases stands with
  | live life unkept paid =>
      exact .live (same.reader ▸ same.observers ▸ life) (same.exit.trans unkept) paid
  | gone life unwatched =>
      exact .gone (same.reader ▸ same.exit ▸ life) (same.observers.trans unwatched)

namespace Machine

/-- The log of a run agrees with the machine, up to the observers that are still owed an answer. -/
structure Ledger (m : Machine σ) (log : Log) (owed : FiberId → List Observer) : Prop where
  ends : ∀ f, exitsOf (exits m.record) f = (log.on f).filterMap Act.end?
  rows : ∀ {f fiber}, m.fiber? f = some fiber → fiber.Stands (log.on f) (owed f)
  unborn : ∀ {f}, m.fiber? f = none → log.on f = [] ∧ owed f = []

namespace Ledger

variable {m m' : Machine σ} {log : Log} {owed : FiberId → List Observer} {f p : FiberId}
  {fiber after : Fiber σ} {acts : List Act} {debt : List Observer}

/-- What leaves the books alone keeps the account. -/
theorem mono (ledger : m.Ledger log owed) (kept : m.KeepsBooks m') : m'.Ledger log owed := by
  refine ⟨fun f => kept.exits ▸ ledger.ends f, fun {f after} row => ?_, fun {f} missing => ?_⟩
  · cases before : m.fiber? f with
    | none =>
        obtain ⟨exit, observers⟩ := kept.born before row
        obtain ⟨none, paid⟩ := ledger.unborn before
        rw [none]
        exact .live (observers ▸ .born) exit paid
    | some fiber =>
        obtain ⟨after', row', same⟩ := kept.rows before
        obtain rfl := Option.some.inj (row'.symm.trans row)
        exact (ledger.rows before).congr same
  · cases before : m.fiber? f with
    | none => exact ledger.unborn before
    | some fiber =>
        obtain ⟨after, row, -⟩ := kept.rows before
        cases missing.symm.trans row

/-- A change to one row that goes with acts on its fiber keeps the account. -/
theorem extend (ledger : m.Ledger log owed) (row : m'.fiber? f = some after)
    (others : ∀ g, f ≠ g → m'.fiber? g = m.fiber? g)
    (ends : exits m'.record = exits m.record ++ (acts.filterMap Act.end?).map (f, ·))
    (stands : after.Stands (log.on f ++ acts) debt) :
    m'.Ledger (log ++ .about f acts) (Function.update owed f debt) := by
  refine ⟨fun g => ?_, fun {g other} found => ?_, fun {g} missing => ?_⟩
  · rw [ends, Log.on_append, List.filterMap_append, ← ledger.ends g]
    by_cases here : f = g
    · subst here
      rw [Log.on_about_self]
      simp [exitsOf, List.filter_eq_self.2, List.filter_map, Function.comp_def]
    · rw [Log.on_about_of_ne here]
      simp [exitsOf, List.filter_map, Function.comp_def, here]
  · rw [Log.on_append]
    by_cases here : f = g
    · subst here
      obtain rfl := Option.some.inj (row.symm.trans found)
      rw [Log.on_about_self, Function.update_self]
      exact stands
    · rw [Log.on_about_of_ne here, List.append_nil, Function.update_of_ne (Ne.symm here)]
      exact ledger.rows ((others g here).symm.trans found)
  · by_cases here : f = g
    · subst here
      cases missing.symm.trans row
    · rw [Log.on_append, Log.on_about_of_ne here, List.append_nil,
        Function.update_of_ne (Ne.symm here)]
      exact ledger.unborn ((others g here).symm.trans missing)

theorem modify (ledger : m.Ledger log owed) (row : m.fiber? f = some fiber)
    {change : Fiber σ → Fiber σ} (same : m'.fibers = m.fibers.modify f change)
    (ends : exits m'.record = exits m.record ++ (acts.filterMap Act.end?).map (f, ·))
    (stands : (change fiber).Stands (log.on f ++ acts) debt) :
    m'.Ledger (log ++ .about f acts) (Function.update owed f debt) := by
  have rows : ∀ g, m'.fiber? g = if f = g then (m.fiber? g).map change else m.fiber? g := by
    intro g
    rw [fiber?, same]
    exact Table.get?_modify _ _ _ _
  refine ledger.extend ?_ (fun g other => (rows g).trans (if_neg other)) ends stands
  rw [rows, if_pos rfl, row]
  rfl

/-- A fiber without an end in the record lives. -/
theorem live (ledger : m.Ledger log owed) (row : m.fiber? f = some fiber)
    (none : exitsOf (exits m.record) f = []) :
    Life fiber.reader (log.on f) (.live fiber.observers) ∧ fiber.exit = .none ∧ owed f = [] := by
  cases ledger.rows row with
  | live life unkept paid => exact ⟨life, unkept, paid⟩
  | gone life _ =>
      rw [ledger.ends f, life.ends_of_gone] at none
      cases none

/-- A fiber with an end in the record has ended with it. -/
theorem gone (ledger : m.Ledger log owed) (row : m.fiber? f = some fiber) {x : Exit}
    (one : exitsOf (exits m.record) f = [x]) :
    Life fiber.reader (log.on f) (.gone x (owed f) fiber.exit) ∧ fiber.observers = [] := by
  rw [ledger.ends f] at one
  cases ledger.rows row with
  | live life _ _ =>
      rw [life.ends_of_live] at one
      cases one
  | gone life unwatched =>
      rw [life.ends_of_gone] at one
      obtain ⟨rfl, -⟩ := List.cons.inj one
      exact ⟨life, unwatched⟩

/-- A fiber ends. -/
theorem ended (ledger : m.Ledger log owed) (row : m.fiber? f = some fiber)
    (none : exitsOf (exits m.record) f = []) (x : Exit) :
    ((m.modifyFiber f fun fiber => fiber.ended x).trace (.exited f x)).Ledger
      (log ++ .about f (.ends x :: fiber.reader.acts x))
      (Function.update owed f fiber.observers) := by
  obtain ⟨life, -⟩ := ledger.live row none
  refine ledger.modify row rfl ?_ (.gone (life.ends x) rfl)
  simp [Machine.trace, Machine.write, exits, Entry.exit?, modifyFiber, Act.end?]

/-- Somebody wants to be told of the end of a fiber that lives. -/
theorem watches (ledger : m.Ledger log owed) (row : m.fiber? f = some fiber)
    (none : exitsOf (exits m.record) f = []) (observer : Observer) :
    (m.modifyFiber f fun fiber => { fiber with observers := fiber.observers ++ [observer] }).Ledger
      (log ++ .about f [.watches observer]) owed := by
  obtain ⟨life, unkept, paid⟩ := ledger.live row none
  rw [← Function.update_eq_self f owed, paid]
  exact ledger.modify row rfl (by simp [Act.end?, modifyFiber])
    (.live (life.watches observer) unkept rfl)

/-- An observer of a fiber that has ended is told. -/
theorem told (ledger : m.Ledger log owed) (row : m.fiber? f = some fiber) (w : WaitId)
    (how : Watch) (none : acts.filterMap Act.end? = [])
    (stands : Fiber.Stands { fiber with exit := (Observer.watcher w how).leaves fiber.exit }
      (log.on f ++ acts) debt) :
    (m.tellWatcher f w how).Ledger (log ++ .about f acts) (Function.update owed f debt) := by
  have same : exits m.record = exits m.record ++ (acts.filterMap Act.end?).map (f, ·) := by
    simp [none]
  -- whoever joins or awaits takes the exit away, if it is still there
  have taken : { fiber with exit := .none }.Stands (log.on f ++ acts) debt →
      (m.takeExit f).2.Ledger (log ++ .about f acts) (Function.update owed f debt) := by
    intro stands
    unfold Machine.takeExit
    split
    · exact ledger.modify row rfl same stands
    · rename_i nothing
      have unkept : fiber.exit = .none := by simpa [row] using nothing
      rw [← unkept] at stands
      exact ledger.extend row (fun _ _ => rfl) same stands
  cases how with
  | join => exact (taken stands).mono (.resume _ w _)
  | await => exact (taken stands).mono (.resume _ w _)
  | interrupt => exact (ledger.extend row (fun _ _ => rfl) same stands).mono (.resume _ w _)

end Ledger

end Machine

end EffectFibers
