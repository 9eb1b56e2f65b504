import EffectFibers.Effect.Concurrent
import EffectFibers.Effect.Sequential
import EffectFibers.Proofs.Answers
import EffectFibers.Proofs.Endings.Hanging
import EffectFibers.Proofs.Endings.Requests

/-!
# Joining a fiber after others have given up

The exit of a fiber is kept for one reader.  The first request to join the fiber or to await its
exit takes it, and every other request is answered with a defect.  It is the request that counts
and not the fiber that made it: a request whose wait was given up long ago, in a race that was lost
or when a time limit had passed, takes the exit all the same, and then nobody gets it.

## Main definitions

* `Log.taker?` – the first request for the exit of a fiber.
* `Log.share` – what a request gets.

## Main statements

* `Moment.first_request_gets_the_exit` – every wait that is still open is answered with its share.
* `Moment.join_after_lost_race` – a wait that was given up takes the exit from the only one that is
  left.
-/

namespace EffectFibers

variable {σ : Type}

/-! ## Shares -/

/-- What a fiber that watches another one is answered, if it gets the exit. -/
def Watch.answer (how : Watch) (x : Exit) : Exit :=
  match how with
  | .join => x
  | .await => .ok (.exit (Exit.received x))
  | .interrupt => .ok .null

/-- What there is when the exit was taken before. -/
def Exit.consumed : Exit := Exit.died (.internal "fiber exit already consumed")

namespace Log

/-- The requests to be told of the end of a fiber, in order. -/
def asked (log : Log) (f : FiberId) : List Observer := (log.on f).filterMap Act.watching?

/-- The first request for the exit of a fiber: to join it, or to await its exit. -/
def taker? (log : Log) (f : FiberId) : Option Observer := (log.asked f).find? Observer.takes

/-- What a request gets of the exit of a fiber: the first one gets it all. -/
def share (log : Log) (f : FiberId) (observer : Observer) (x : Exit) : Exit :=
  if log.taker? f = some observer then x else .consumed

theorem asked_append (log more : Log) (f : FiberId) :
    (log ++ more).asked f = log.asked f ++ more.asked f := by
  rw [asked, on_append, List.filterMap_append]
  rfl

/-- Shares only depend on the requests. -/
theorem share_congr {log log' : Log} {f : FiberId} (same : log'.asked f = log.asked f)
    (observer : Observer) (x : Exit) : log'.share f observer x = log.share f observer x := by
  rw [share, share, taker?, taker?, same]

/-- The waits of those who have asked. -/
theorem waits_asked (log : Log) (f : FiberId) :
    (log.asked f).filterMap Observer.watcher? =
      (log.requests.filter (·.2.1 = f)).map fun request => (request.1, request.2.2) := by
  -- one act asks for the end of one fiber
  have single : ∀ g act, (asked [(g, act)] f).filterMap Observer.watcher? =
      ((requests [(g, act)]).filter (·.2.1 = f)).map fun request => (request.1, request.2.2) := by
    intro g act
    by_cases here : g = f
    · subst here
      cases act with
      | watches observer =>
          cases observer <;> simp [asked, on, requests, Act.request?, Act.watching?,
            Observer.watcher?, List.filterMap_cons]
      | _ => simp [asked, on, requests, Act.request?, Act.watching?]
    · cases act with
      | watches observer =>
          cases observer <;> simp [asked, on, requests, Act.request?, Act.watching?,
            Observer.watcher?, here]
      | _ => simp [asked, on, requests, Act.request?, Act.watching?, here]
  induction log with
  | nil => rfl
  | cons entry log ih =>
      rw [← List.singleton_append, asked_append, requests_append, List.filterMap_append,
        List.filter_append, List.map_append, ih, single]

end Log

/-- Who has asked before is not among those who ask after. -/
theorem Log.not_mem_of_asked {log : Log} (nodup : (log.requests.map (·.1)).Nodup) {f : FiberId}
    {before after : List Observer} {w : WaitId} {how how' : Watch}
    (asked : log.asked f = before ++ .watcher w how :: after) : .watcher w how' ∉ before := by
  intro listed
  have waits : (((log.asked f).filterMap Observer.watcher?).map (·.1)).Nodup := by
    rw [log.waits_asked, List.map_map]
    exact nodup.sublist (List.filter_sublist.map _)
  rw [asked, List.filterMap_append, List.map_append] at waits
  refine (List.nodup_append.1 waits).2.2 w ?_ w (by simp [Observer.watcher?]) rfl
  exact List.mem_map.2 ⟨(w, how'), List.mem_filterMap.2 ⟨_, listed, rfl⟩, rfl⟩

namespace Life

variable {reader : ExitReader} {acts : List Act} {x : Exit} {owed : List Observer}
  {kept : Option Exit}

/-- All who have asked are told, in the order of their requests. -/
theorem told_append (life : Life reader acts (.gone x owed kept)) :
    acts.filterMap Act.told? ++ owed = acts.filterMap Act.watching? := by
  obtain ⟨asked, later, rfl, -, -, told, -⟩ := life.gone_eq
  have unheard : (asked.map Act.watches).filterMap Act.told? = [] := by
    simp [List.filterMap_map, Function.comp_def, Act.told?]
  have heard : (asked.map Act.watches).filterMap Act.watching? = asked := by
    simp [List.filterMap_map, Function.comp_def, Act.watching?]
  have handed : (Act.ends x :: reader.acts x).filterMap Act.told? = [] ∧
      (Act.ends x :: reader.acts x).filterMap Act.watching? = [] := by
    unfold ExitReader.acts
    split <;> simp [Act.told?, Act.watching?]
  rw [List.filterMap_append, List.filterMap_append, List.filterMap_append, List.filterMap_append,
    unheard, heard, handed.1, handed.2, List.append_nil, List.nil_append, List.append_nil, told]

/-- The exit is kept until somebody takes it. -/
theorem kept_eq (life : Life reader acts (.gone x owed kept)) :
    kept = if (acts.filterMap Act.told?).any Observer.takes then none else reader.kept x := by
  generalize stage : Stage.gone x owed kept = s at life
  induction life generalizing x owed kept with
  | @ends acts observers y life =>
      obtain ⟨rfl, rfl, rfl⟩ := Stage.gone.inj stage
      have handed : (Act.ends x :: reader.acts x).filterMap Act.told? = [] := by
        unfold ExitReader.acts
        split <;> simp [Act.told?]
      simp [life.live_eq, handed, List.filterMap_map, Function.comp_def, Act.told?]
  | @tells acts y observer owed' kept' life ih =>
      obtain ⟨rfl, rfl, rfl⟩ := Stage.gone.inj stage
      rw [List.filterMap_append, Observer.filterMap_told?_acts, List.any_append, ih rfl]
      cases takes : observer.takes <;> simp [Observer.leaves, takes]
  | @late acts y kept' observer life ih =>
      obtain ⟨rfl, rfl, rfl⟩ := Stage.gone.inj stage
      have told : (Act.watches observer :: observer.acts kept').filterMap Act.told? =
          [observer] := by
        rw [List.filterMap_cons, Observer.filterMap_told?_acts]
        rfl
      rw [List.filterMap_append, told, List.any_append, ih rfl]
      cases takes : observer.takes <;> simp [Observer.leaves, takes]
  | _ => cases stage

end Life

/-- Whoever takes an exit that is gone gets the defect. -/
theorem Machine.takeExit_fst (m : Machine σ) (f : FiberId) :
    (m.takeExit f).1 = ((m.fiber? f).bind (·.exit)).getD .consumed := by
  unfold Machine.takeExit
  cases (m.fiber? f).bind (·.exit) <;> rfl

/-! ## A wait through the end of the fiber that it is for -/

/-- Acts without requests. -/
theorem Log.asked_about {acts : List Act} (quiet : acts.filterMap Act.watching? = [])
    (g f : FiberId) : Log.asked (.about g acts) f = [] := by
  by_cases here : g = f
  · subst here
    rw [Log.asked, Log.on_about_self, quiet]
  · rw [Log.asked, Log.on_about_of_ne here]
    rfl

theorem Log.asked_ends (reader : ExitReader) (g f : FiberId) (x : Exit) :
    Log.asked (.about g (.ends x :: reader.acts x)) f = [] := by
  refine asked_about ?_ g f
  unfold ExitReader.acts
  split <;> simp [Act.watching?]

/-- Nobody asks in the midst of an end. -/
theorem Passing.asked_step {s s' : Passing σ} (step : Step s s') (f : FiberId) :
    s'.log.asked f = s.log.asked f := by
  have told : ∀ (m : Machine σ) (g : FiberId) (observer : Observer),
      Log.asked (m.tellActs g observer) f = [] := fun m g observer =>
    Log.asked_about (Observer.filterMap_watching?_acts _ _) g f
  cases step with
  | settled => rfl
  | tells => simp [Log.asked_append, told]
  | counts => simp [Log.asked_append, told]
  | closes => simp [Passing.enter, Log.asked_append, told, Log.asked_ends]

theorem Passing.asked_steps {s s' : Passing σ} (steps : Steps s s') (f : FiberId) :
    s'.log.asked f = s.log.asked f := by
  induction steps with
  | refl => rfl
  | tail _ next ih => exact (asked_step next f).trans ih

theorem Act.mem_tells {acts : List Act} {observer : Observer} :
    .tells observer ∈ acts ↔ observer ∈ acts.filterMap Act.told? := by
  constructor
  · intro listed
    exact List.mem_filterMap.2 ⟨_, listed, rfl⟩
  · intro listed
    obtain ⟨act, member, told⟩ := List.mem_filterMap.1 listed
    cases act with
    | tells other => exact Option.some.inj told ▸ member
    | _ => cases told

namespace Machine.Hangs

variable {m : Machine σ} {f p : FiberId} {w v : WaitId} {how : Watch} {given : Option Exit}
  {φ : Focus}

theorem takeExit (hangs : m.Hangs p w given) (f : FiberId) :
    (m.takeExit f).2.Hangs p w given := by
  unfold Machine.takeExit
  split
  · exact hangs.modify fun _ => ⟨rfl, rfl, id⟩
  · exact hangs

/-- A fiber that sleeps on a wait has no other one open. -/
theorem closed_other (hangs : m.Hangs p w given) (coherent : Coherent m.core φ)
    (free : φ.held = none) (other : v ≠ w) : ¬ m.OpenFor p v := by
  rintro ⟨wait, found, unclaimed, owner⟩
  obtain ⟨-, fiber, row, stands⟩ := hangs
  have own : m.core.owner v = some p :=
    (Table.find_of_row Wait.openOwner found).trans (by simp [Wait.openOwner, unclaimed, owner])
  rcases coherent.waiting.of_owner own with asleep | ⟨held, -⟩
  · have sleeps : fiber.sleepsOn = some v := (Table.find_of_row Fiber.sleepsOn row).symm.trans asleep
    have awake : fiber.pending ≠ none := fun awake => by
      rw [Fiber.sleepsOn, awake] at sleeps
      cases sleeps
    rcases stands with ⟨silent, -⟩ | stands
    · exact awake silent
    · cases given with
      | none => exact other (Option.some.inj (sleeps.symm.trans stands.1))
      | some x => exact awake stands.1
  · rw [free] at held
    cases held

/-- Another watcher is told. -/
theorem tellWatcher_other (hangs : m.Hangs p w given) (coherent : Coherent m.core φ)
    (free : φ.held = none) (other : v ≠ w) (f : FiberId) (how : Watch) :
    (m.tellWatcher f v how).Hangs p w given := by
  have taken := hangs.takeExit f
  have closed := taken.closed_other (coherent.takeExit f) free other
  cases how with
  | join => exact taken.resume_other other closed _
  | await => exact taken.resume_other other closed _
  | interrupt => exact hangs.resume_other other (hangs.closed_other coherent free other) _

/-- The fiber is told, and gets what is kept of the exit. -/
theorem tellWatcher_own (hangs : m.Hangs p w none) (coherent : Coherent m.core φ)
    (free : φ.held = none) (f : FiberId) (how : Watch) : (m.tellWatcher f w how).Hangs p w
      (some (how.answer (((m.fiber? f).bind (·.exit)).getD .consumed))) := by
  have taken := hangs.takeExit f
  rw [← m.takeExit_fst]
  cases how with
  | join => exact taken.resume_own (coherent.takeExit f) free _
  | await => exact taken.resume_own (coherent.takeExit f) free _
  | interrupt => exact hangs.resume_own coherent free _

end Machine.Hangs

section

variable (f : FiberId) (w : WaitId) (how : Watch) (p : FiberId)

/-- A wait of a fiber in the midst of an end, perhaps of the fiber that it is for: until its request
is answered, the owner sleeps on it or is interrupted, and then the owner has its share. -/
structure Passing.Course (s : Passing σ) : Prop where
  sound : s.Sound none
  settles : s.Settles
  nodup : (s.log.requests.map (·.1)).Nodup
  asked : (w, f, how) ∈ s.log.requests
  joined : ∃ fiber, s.machine.fiber? f = some fiber ∧ fiber.reader = .joiner
  untold : .tells (.watcher w how) ∉ s.log.on f → s.machine.Hangs p w none
  told : .tells (.watcher w how) ∈ s.log.on f → ∃ x, (s.log.on f).filterMap Act.end? = [x] ∧
    s.machine.Hangs p w (some (how.answer (s.log.share f (.watcher w how) x)))

end

namespace Passing.Course

variable {f g p : FiberId} {w v : WaitId} {how how' : Watch} {s s' : Passing σ} {log : Log}
  {m n : Machine σ} {rest : List Observer} {owed : List (FiberId × List Observer)}

/-- The request is answered with its share. -/
theorem hangs_of_told (course : Course f w how p ⟨log, m, (f, .watcher w how :: rest) :: owed⟩) :
    ∃ x, (log.on f).filterMap Act.end? = [x] ∧
      (m.tellWatcher f w how).Hangs p w (some (how.answer (log.share f (.watcher w how) x))) := by
  obtain ⟨sound, settles, nodup, -, ⟨fiber, row, reader⟩, untold, -⟩ := course
  obtain ⟨fiber', x, row', -, -, life⟩ := settles.gone
  obtain rfl := Option.some.inj (row.symm.trans row')
  have order := life.told_append
  have before : .watcher w how ∉ (log.on f).filterMap Act.told? :=
    Log.not_mem_of_asked nodup order.symm
  have hangs := (untold (Act.mem_tells.not.2 before)).tellWatcher_own sound.coherent rfl f how
  refine ⟨x, life.ends_of_gone, ?_⟩
  rw [show m.fiber? f = some fiber from row, Option.bind_some, life.kept_eq, reader] at hangs
  cases takes : (Observer.watcher w how).takes with
  | false =>
      -- whoever only wants to know of the end gets no exit
      cases how with
      | interrupt => exact hangs
      | join => cases takes
      | await => cases takes
  | true =>
      have asked : log.asked f = (log.on f).filterMap Act.told? ++
          .watcher w how :: (rest ++ owedTo owed f) := order.symm
      have share : log.share f (.watcher w how) x = Option.getD
          (if ((log.on f).filterMap Act.told?).any Observer.takes then none
            else ExitReader.kept .joiner x) .consumed := by
        rw [Log.share, Log.taker?, asked, List.find?_append]
        cases first : ((log.on f).filterMap Act.told?).find? Observer.takes with
        | none =>
            have nobody : ((log.on f).filterMap Act.told?).any Observer.takes = false :=
              List.any_eq_false.2 fun observer listed => List.find?_eq_none.1 first observer listed
            simp [nobody, takes, ExitReader.kept]
        | some observer =>
            have some : ((log.on f).filterMap Act.told?).any Observer.takes = true :=
              List.any_eq_true.2 ⟨observer, List.mem_of_find?_eq_some first,
                List.find?_some first⟩
            have other : observer ≠ .watcher w how := fun same =>
              before (same ▸ List.mem_of_find?_eq_some first)
            simp [some, other]
      rwa [← share] at hangs

/-- What says nothing to the wait, and leaves its owner alone. -/
theorem kept (course : Course f w how p s) {more : Log} (log : s'.log = s.log ++ more)
    (silent : .tells (.watcher w how) ∉ more.on f)
    (ended : ∀ x, (s.log.on f).filterMap Act.end? = [x] → (more.on f).filterMap Act.end? = [])
    (asked : s'.log.asked f = s.log.asked f)
    (hangs : ∀ given, s.machine.Hangs p w given → s'.machine.Hangs p w given) :
    (.tells (.watcher w how) ∉ s'.log.on f → s'.machine.Hangs p w none) ∧
      (.tells (.watcher w how) ∈ s'.log.on f → ∃ x, (s'.log.on f).filterMap Act.end? = [x] ∧
        s'.machine.Hangs p w (some (how.answer (s'.log.share f (.watcher w how) x)))) := by
  have same : .tells (.watcher w how) ∈ s'.log.on f ↔ .tells (.watcher w how) ∈ s.log.on f := by
    rw [log, Log.on_append, List.mem_append]
    exact or_iff_left silent
  have share := Log.share_congr asked (.watcher w how)
  refine ⟨fun untold => hangs _ (course.untold (same.not.1 untold)), fun told => ?_⟩
  obtain ⟨x, ends, stands⟩ := course.told (same.1 told)
  refine ⟨x, ?_, share x ▸ hangs _ stands⟩
  rw [log, Log.on_append, List.filterMap_append, ends, ended x ends, List.append_nil]

/-- The answer to another observer says nothing to the wait. -/
theorem silent_tellActs {observer : Observer} (other : observer ≠ .watcher w how) :
    .tells (.watcher w how) ∉ (m.tellActs g observer).on f := by
  intro told
  by_cases here : g = f
  · subst here
    rw [Machine.tellActs, Log.on_about_self, Act.mem_tells, Observer.filterMap_told?_acts,
      List.mem_singleton] at told
    exact other told.symm
  · rw [Machine.tellActs, Log.on_about_of_ne here] at told
    cases told

/-- The end of a fiber says nothing to the wait. -/
theorem silent_ends (q : FiberId) (reader : ExitReader) (x : Exit) :
    .tells (.watcher w how) ∉ (Log.about q (.ends x :: reader.acts x)).on f := by
  intro told
  have unheard : (Act.ends x :: reader.acts x).filterMap Act.told? = [] := by
    unfold ExitReader.acts
    split <;> simp [Act.told?]
  by_cases here : q = f
  · subst here
    rw [Log.on_about_self, Act.mem_tells, unheard] at told
    cases told
  · rw [Log.on_about_of_ne here] at told
    cases told

theorem ends_tellActs (m : Machine σ) (g f : FiberId) (observer : Observer) :
    ((m.tellActs g observer).on f).filterMap Act.end? = [] := by
  by_cases here : g = f
  · subst here
    rw [Machine.tellActs, Log.on_about_self, Observer.filterMap_end?_acts]
  · rw [Machine.tellActs, Log.on_about_of_ne here]
    rfl

theorem hangs_childGone {given : Option Exit} {q : FiberId} {x : Option Exit}
    (hangs : m.Hangs p w given) (counted : m.childGone q = (x, n)) : n.Hangs p w given := by
  unfold Machine.childGone at counted
  split at counted
  · obtain ⟨-, rfl⟩ := Prod.mk.inj counted
    exact hangs
  · obtain ⟨-, rfl⟩ := Prod.mk.inj counted
    exact hangs.modify fun _ => ⟨rfl, rfl, id⟩

/-- A small step answers the request with its share, or has nothing to do with it. -/
theorem step (course : Course f w how p s) (step : Step s s') : Course f w how p s' := by
  have sound := course.sound.step step
  have settles := course.settles.step course.sound step
  have requests := Passing.requests_step step
  have asked := Passing.asked_step step f
  have joined : ∃ fiber, s'.machine.fiber? f = some fiber ∧ fiber.reader = .joiner := by
    obtain ⟨fiber, row, reader⟩ := course.joined
    obtain ⟨after, row', same⟩ := Passing.reader_step course.sound step row
    exact ⟨after, row', same.trans reader⟩
  suffices stands : _ ∧ _ from ⟨sound, settles, requests ▸ course.nodup, requests ▸ course.asked,
    joined, stands.1, stands.2⟩
  cases step with
  | settled => exact ⟨course.untold, course.told⟩
  | @tells log m g v how' rest owed =>
      by_cases same : v = w
      · -- a wait stands for one request, so it is this one
        subst same
        obtain ⟨fiber, y, row, -, -, life⟩ := course.settles.gone
        have listed : .watcher v how' ∈ (log.on g).filterMap Act.watching? := by
          rw [← life.told_append]
          simp
        obtain ⟨act, member, watching⟩ := List.mem_filterMap.1 listed
        have request : (v, g, how') ∈ log.requests := by
          refine Log.mem_requests.2 ?_
          cases act with
          | watches observer => exact Option.some.inj watching ▸ member
          | _ => cases watching
        obtain ⟨rfl, rfl⟩ := Log.unique_request course.nodup request course.asked
        obtain ⟨x, ends, hangs⟩ := course.hangs_of_told
        have told : .tells (.watcher v how') ∈
            (log ++ m.tellActs g (.watcher v how')).on g := by
          rw [Log.on_append, Machine.tellActs, Log.on_about_self]
          exact List.mem_append_right _ (List.mem_cons_self ..)
        refine ⟨fun untold => absurd told untold, fun _ => ⟨x, ?_, ?_⟩⟩
        · rw [Log.on_append, List.filterMap_append, ends, ends_tellActs, List.append_nil]
        · rw [Log.share_congr asked]
          exact hangs
      · refine course.kept rfl (silent_tellActs fun here => ?_)
          (fun _ _ => ends_tellActs m g f _) asked
          fun given hangs => hangs.tellWatcher_other course.sound.coherent rfl same g how'
        exact same (Observer.watcher.inj here).1
  | @counts log m n g q rest owed counted =>
      exact course.kept rfl (silent_tellActs (by simp)) (fun _ _ => ends_tellActs m g f _) asked
        fun given hangs => hangs_childGone hangs counted
  | @closes log m n g q x fiber rest owed counted row =>
      obtain ⟨leaving, -, ends⟩ := Coherent.childGone course.sound.coherent counted
      have fresh : exitsOf (exits n.record) q = [] := Machine.Ledger.exits_of_leaving leaving
      have record : n.record = m.record := by
        unfold Machine.childGone at counted
        split at counted <;> (obtain ⟨-, rfl⟩ := Prod.mk.inj counted; rfl)
      have log' : (enter (log ++ m.tellActs g (.closing q)) n q fiber x ((g, rest) :: owed)).log =
          log ++ (m.tellActs g (.closing q) ++ .about q (.ends x :: fiber.reader.acts x)) :=
        List.append_assoc ..
      refine course.kept log' (fun told => ?_) (fun y once => ?_) asked
        fun given hangs => (hangs_childGone hangs counted).leave leaving ends row
      · rw [Log.on_append, List.mem_append] at told
        rcases told with told | told
        · have other : Observer.closing q ≠ .watcher w how := by simp
          exact silent_tellActs other told
        · exact silent_ends q fiber.reader x told
      · have other : q ≠ f := by
          rintro rfl
          have before := course.settles.ends q
          rw [← record, fresh, once] at before
          cases before
        rw [Log.on_append, List.filterMap_append, ends_tellActs, Log.on_about_of_ne other]
        rfl

theorem steps (course : Course f w how p s) (steps : Steps s s') : Course f w how p s' := by
  induction steps with
  | refl => exact course
  | tail _ next ih => exact ih.step next

end Passing.Course

/-! ## The event in which a fiber ends -/

theorem ends_watchActs (m : Machine σ) (f g : FiberId) (w : WaitId) (how : Watch) :
    ((m.watchActs g w how).on f).filterMap Act.end? = [] := by
  unfold Machine.watchActs
  split
  · rfl
  · rw [← List.singleton_append, Log.on_append, List.filterMap_append]
    have asks : (Log.on [(g, .watches (.watcher w how))] f).filterMap Act.end? = [] := by
      by_cases here : g = f <;> simp [Log.on, here, Act.end?]
    rw [asks, List.nil_append]
    split
    · exact Passing.Course.ends_tellActs ..
    · rfl

namespace Moment

variable {μ : Moment σ} {log : Log} {f p : FiberId} {fiber : Fiber σ} {w : WaitId} {how : Watch}
  {x : Exit} {event : Event σ}

/-- A fiber ends when a program has an exit whose fiber has no live child. -/
theorem Reachable.finish_of_ends (reachable : Reachable μ)
    (ledger : μ.machine.Ledger log fun _ => [])
    (alive : exitsOf (exits μ.machine.record) f = [])
    (ended : (μ.apply event).EndedWith f x) : event = .work ∧ ∃ slice y fiber,
      μ.taken = some (slice, .finish y) ∧ μ.machine.fiber? slice.fiber = some fiber ∧
        fiber.children = [] := by
  have coherent := reachable.isCoherent
  have acts : ((μ.actsAt event).on f).filterMap Act.end? = [x] := by
    obtain ⟨-, -, -, once⟩ := ended
    have after := (reachable.ledger_apply ledger event).ends f
    rw [once, Log.on_append, List.filterMap_append, ← ledger.ends f, alive] at after
    exact after.symm
  by_cases deals : μ.Deals event
  · cases event with
    | work =>
        rcases deals with ⟨slice, y, taken⟩ | ⟨taken, slice, target, how, running, next⟩
        · obtain ⟨fiber, row, -⟩ := (holds_of_finish coherent taken).row_of_held rfl
          have row' : μ.machine.fiber? slice.fiber = some fiber := row
          refine ⟨rfl, slice, y, fiber, taken, row', ?_⟩
          by_contra busy
          -- its children are asked, and nobody ends
          have asks : ∀ children : List FiberId, (Log.on (children.map fun child =>
              (child, Act.watches (.closing slice.fiber))) f).filterMap Act.end? = [] := by
            intro children
            simp [Log.on, List.filter_map, Function.comp_def, Act.end?]
          simp only [actsAt, taken, Machine.finishActs, row', Option.map_some, Option.getD_some,
            List.isEmpty_iff, busy, if_false] at acts
          cases (asks _).symm.trans acts
        · simp only [actsAt, taken, running, next] at acts
          split at acts
          · cases acts
          · rw [Machine.evalWatchActs] at acts
            cases (ends_watchActs _ f _ _ _).symm.trans acts
    | _ => exact deals.elim
  · rw [actsAt_of_calm deals] at acts
    cases acts

/-- A wait that is still open sleeps through the end of the fiber that it is for, up to the moment
in which its request is answered. -/
theorem Reachable.course (reachable : Reachable μ) (ledger : μ.machine.Ledger log fun _ => [])
    (once : μ.machine.AsksOnce log) (row : μ.machine.fiber? f = some fiber)
    (live : fiber.status.isTerminal = false) (reader : fiber.reader = .joiner)
    (watched : .watcher w how ∈ fiber.observers) (opened : μ.machine.OpenFor p w)
    {slice : Slice σ} {y : Exit} {last : Fiber σ} (taken : μ.taken = some (slice, .finish y))
    (row' : μ.machine.fiber? slice.fiber = some last) (alone : last.children = []) :
    Passing.Course f w how p ⟨log ++ μ.actsAt .work, (μ.apply .work).machine, []⟩ := by
  have coherent := reachable.isCoherent
  have holds := holds_of_finish coherent taken
  obtain ⟨leaving, ends, steps⟩ := passing_of_finish coherent taken row' alone log
  refine Passing.Course.steps ?_ steps
  -- up to now there are only requests
  have alive : exitsOf (exits μ.machine.record) f = [] := by
    refine (family_of_isCoherent coherent).exits_none fun k kin => ?_
    obtain rfl := Option.some.inj ((Table.view_of_row Fiber.kin row).symm.trans kin)
    exact verdict_eq_none_iff.2 live
  obtain ⟨life, -⟩ := ledger.live row alive
  have requests : (Passing.enter log μ.machine slice.fiber last y []).log.requests =
      log.requests := by
    simp [Passing.enter, Log.requests_append, requests_ends]
  have asked : (w, f, how) ∈ log.requests := by
    refine Log.mem_requests.2 ?_
    rw [life.live_eq]
    exact List.mem_map_of_mem watched
  have untold : .tells (.watcher w how) ∉
      (Passing.enter log μ.machine slice.fiber last y []).log.on f := by
    intro told
    rw [Passing.enter, Log.on_append, life.live_eq] at told
    rcases List.mem_append.1 told with told | told
    · simp at told
    · by_cases here : slice.fiber = f
      · rw [here, Log.on_about_self, ExitReader.acts] at told
        split at told <;> simp at told
      · rw [Log.on_about_of_ne here] at told
        cases told
  have hangs : μ.machine.Hangs p w none := by
    obtain ⟨wait, found, unclaimed, owner⟩ := id opened
    have own : μ.machine.core.owner w = some p :=
      (Table.find_of_row Wait.openOwner found).trans (by simp [Wait.openOwner, unclaimed, owner])
    refine ⟨fun g other found asleep => ?_, ?_⟩
    · have sleeps : μ.machine.core.sleeps g = some w :=
        (Table.find_of_row Fiber.sleepsOn found).trans asleep
      exact Option.some.inj ((holds.waiting.owner_of_sleeps sleeps).symm.trans own)
    · rcases holds.waiting.of_owner own with asleep | ⟨-, asks, -⟩
      · obtain ⟨sleeper, known, sleeps⟩ := Table.exists_row_of_find asleep
        exact ⟨sleeper, known, .inr ⟨sleeps, opened⟩⟩
      · cases asks
  have left : Evolves none false _ (μ.machine.leave slice.fiber last y) :=
    Evolves.leave leaving row' ends y
  obtain ⟨middle, known, same⟩ : ∃ middle,
      (μ.machine.modifyFiber slice.fiber fun fiber => fiber.ended y).fiber? f = some middle ∧
        middle.reader = fiber.reader := by
    rw [Machine.fiber?_modifyFiber]
    split
    · exact ⟨fiber.ended y, by rw [row]; rfl, rfl⟩
    · exact ⟨fiber, row, rfl⟩
  obtain ⟨after, known', same'⟩ := left.keepsBooks.rows known
  exact ⟨.enter leaving ends row' rfl, Passing.Settles.enter ledger leaving ends row',
    requests ▸ once.nodup, requests ▸ asked,
    ⟨after, known', same'.reader.trans (same.trans reader)⟩,
    fun _ => hangs.leave leaving ends row', fun told => absurd told untold⟩

/-- When a fiber ends, every wait for it that is still open is answered with its share, unless an
interrupt comes first. -/
theorem Reachable.answers_of_ends (reachable : Reachable μ)
    (ledger : μ.machine.Ledger log fun _ => []) (once : μ.machine.AsksOnce log)
    (row : μ.machine.fiber? f = some fiber) (live : fiber.status.isTerminal = false)
    (reader : fiber.reader = .joiner) (watched : .watcher w how ∈ fiber.observers)
    (opened : μ.machine.OpenFor p w) (ended : (μ.apply event).EndedWith f x) :
    (μ.apply event).answer? p = some (how.answer (log.share f (.watcher w how) x)) ∨
      (μ.apply event).machine.isInterrupted p ∧
        (μ.apply event).answer? p = some .interrupted := by
  have alive : exitsOf (exits μ.machine.record) f = [] := by
    refine (family_of_isCoherent reachable.isCoherent).exits_none fun k kin => ?_
    obtain rfl := Option.some.inj ((Table.view_of_row Fiber.kin row).symm.trans kin)
    exact verdict_eq_none_iff.2 live
  obtain ⟨rfl, slice, y, last, taken, row', alone⟩ := reachable.finish_of_ends ledger alive ended
  have course := reachable.course ledger once row live reader watched opened taken row' alone
  obtain ⟨after, known, -, one⟩ := ended
  obtain ⟨life, -⟩ := Machine.Ledger.gone course.settles known one
  have told : .tells (.watcher w how) ∈ (log ++ μ.actsAt .work).on f := by
    rw [Act.mem_tells, ← List.append_nil (List.filterMap _ _)]
    rw [show ([] : List Observer) = Passing.owedTo [] f from rfl, life.told_append]
    refine List.mem_filterMap.2 ⟨.watches (.watcher w how), ?_, rfl⟩
    exact Log.mem_requests.1 course.asked
  obtain ⟨z, ends, hangs⟩ := course.told told
  obtain rfl : x = z := by
    have same := (course.settles.ends f).symm.trans one
    exact (List.singleton_inj.1 (ends.symm.trans same)).symm
  have asked : (log ++ μ.actsAt .work).asked f = log.asked f := by
    obtain ⟨-, -, steps⟩ := passing_of_finish reachable.isCoherent taken row' alone log
    rw [Passing.asked_steps steps f]
    simp [Passing.enter, Log.asked_append, Log.asked_ends]
  rw [Log.share_congr asked] at hangs
  obtain ⟨-, owner, rowP, stands⟩ := hangs
  rw [answer?, rowP, Option.bind_some]
  rcases stands with ⟨-, broken, marked⟩ | ⟨-, answered⟩
  · right
    rw [Machine.isInterrupted, rowP]
    exact ⟨marked, broken⟩
  · exact .inl answered

end Moment

/-! ## Requests after the end -/

namespace Machine

variable {m : Machine σ} {f g : FiberId} {fiber : Fiber σ} {w : WaitId} {wait : Wait}

/-- A fiber that has just asked is told of an end. -/
theorem input_tellWatcher (found : m.waits.get? w = some wait) (opened : wait.claimed = false)
    (row : m.fiber? wait.owner = some fiber) (running : fiber.status = .running) (f : FiberId)
    (how : Watch) : ((m.tellWatcher f w how).fiber? wait.owner).bind (·.input) =
      some (how.answer (((m.fiber? f).bind (·.exit)).getD .consumed)) := by
  have taken : (m.takeExit f).2.waits.get? w = some wait ∧
      ∃ after, (m.takeExit f).2.fiber? wait.owner = some after ∧ after.status = .running := by
    unfold takeExit
    split
    · refine ⟨found, ?_⟩
      rw [fiber?_modifyFiber, row]
      split
      · exact ⟨{ fiber with exit := none }, rfl, running⟩
      · exact ⟨fiber, rfl, running⟩
    · exact ⟨found, fiber, row, running⟩
  obtain ⟨found', after, row', running'⟩ := taken
  rw [← m.takeExit_fst]
  cases how with
  | join => exact input_resume found' opened row' running' _
  | await => exact input_resume found' opened row' running' _
  | interrupt => exact input_resume found opened row running _

/-- An interrupt of a fiber that has ended only marks it. -/
theorem interrupt_of_terminal (row : m.fiber? f = some fiber) (gone : fiber.status.isTerminal) :
    m.interrupt f = m.mark f := by
  unfold interrupt interruptWithin
  simp only [mark, fiber?_modifyFiber, row, Option.map_some, gone, if_true]

/-- A fiber that asks for the end of one that has ended is told at once. -/
theorem input_evalWatch (row : m.fiber? f = some fiber) (gone : fiber.status.isTerminal)
    {asker : Fiber σ} (rowG : m.fiber? g = some asker) (running : asker.status = .running)
    (run : RunState σ) (how : Watch) :
    ((m.evalWatch g run f how).machine.fiber? g).bind (·.input) =
      some (how.answer (fiber.exit.getD .consumed)) := by
  -- an interrupt comes before the question, and marks the fiber that has ended
  have told : ∀ {n : Machine σ} {after asker : Fiber σ},
      n.waits.get? m.waits.nextId = some { owner := g, source := .fiber } →
      n.fiber? f = some after → after.status.isTerminal → after.exit = fiber.exit →
      n.fiber? g = some asker → asker.status = .running →
      ((n.watch f m.waits.nextId how).fiber? g).bind (·.input) =
        some (how.answer (fiber.exit.getD .consumed)) := by
    intro n after asker found row gone same rowG running
    have status : n.status f = after.status := Coherent.status_of_row row
    have answered := input_tellWatcher found rfl rowG running f how
    rw [row, Option.bind_some, same] at answered
    rw [watch, status, if_pos gone]
    exact answered
  have found : (m.openWait g .fiber).2.waits.get? m.waits.nextId =
      some { owner := g, source := .fiber } := Table.get?_push_self ..
  unfold evalWatch
  dsimp only
  split
  · have row' : (m.openWait g .fiber).2.fiber? f = some fiber := row
    have rowG' : (m.openWait g .fiber).2.fiber? g = some asker := rowG
    rw [interrupt_of_terminal row' gone]
    have other : f ≠ g := by
      rintro rfl
      obtain rfl := Option.some.inj (row.symm.trans rowG)
      rw [running] at gone
      cases gone
    have rowF : ((m.openWait g .fiber).2.mark f).fiber? f = some fiber.marked := row_of_mark row'
    have rowA : ((m.openWait g .fiber).2.mark f).fiber? g = some asker := by
      rw [fiber?_mark, if_neg other, rowG']
    have found' : ((m.openWait g .fiber).2.mark f).waits.get? m.waits.nextId =
        some { owner := g, source := .fiber } := found
    exact told found' rowF gone rfl rowA running
  · exact told found row gone rfl rowG running

end Machine

namespace Moment

variable {μ : Moment σ} {log : Log} {f : FiberId} {fiber : Fiber σ} {how : Watch} {x : Exit}

/-- Whoever asks after the end is answered at once, and gets the exit if nobody has asked before. -/
theorem Reachable.answers_at_once (reachable : Reachable μ)
    (ledger : μ.machine.Ledger log fun _ => []) (row : μ.machine.fiber? f = some fiber)
    (reader : fiber.reader = .joiner) (ended : μ.EndedWith f x) {slice : Slice σ}
    (taken : μ.taken = none) (running : μ.machine.running = some slice)
    (next : slice.run.next = .eval (.watch f how))
    (calm : μ.machine.interruptPending slice.fiber slice.run = false) :
    (μ.apply .work).answer? slice.fiber =
      some (how.answer (if log.taker? f = none then x else .consumed)) := by
  obtain ⟨fiber', row', status, one⟩ := ended
  obtain rfl := Option.some.inj (row.symm.trans row')
  obtain ⟨life, -⟩ := ledger.gone row one
  have kept : fiber.exit.getD .consumed = if log.taker? f = none then x else .consumed := by
    have order := life.told_append
    rw [List.append_nil] at order
    rw [life.kept_eq, order, reader, Log.taker?]
    cases first : (log.asked f).find? Observer.takes with
    | none =>
        have nobody : (log.asked f).any Observer.takes = false :=
          List.any_eq_false.2 fun observer listed => List.find?_eq_none.1 first observer listed
        rw [Log.asked] at nobody
        simp [nobody, ExitReader.kept]
    | some observer =>
        have some : (log.asked f).any Observer.takes = true :=
          List.any_eq_true.2 ⟨observer, List.mem_of_find?_eq_some first, List.find?_some first⟩
        rw [Log.asked] at some
        simp [some]
  have watches := work_of_watch taken running next
  dsimp only at watches
  have calm' : Machine.interruptPending { μ.machine with running := none } slice.fiber slice.run =
      false := calm
  rw [calm', if_neg Bool.false_ne_true] at watches
  have held : μ.held = some slice.fiber := by simp [Moment.held, taken, running]
  obtain ⟨asker, rowA, -⟩ := Table.exists_row_of_view
    ((agenda_of_isCoherent reachable.isCoherent).held_works held)
  obtain ⟨active, -⟩ := row_of_held reachable.isCoherent held rowA
  have terminal : fiber.status.isTerminal := status ▸ Exit.isTerminal_status x
  rw [answer?, watches.1, ← kept]
  have rowF : Machine.fiber? { μ.machine with running := none } f = some fiber := row
  have rowS : Machine.fiber? { μ.machine with running := none } slice.fiber = some asker := rowA
  exact Machine.input_evalWatch rowF terminal rowS active slice.run how

/-- In every run the exit of a forked fiber goes to the first request for it.  When the fiber ends,
each wait for it that is still open is answered: the first request gets the exit and every other
one a defect, also when the wait of the first one was given up long before; only an interrupt may
come first.  Whoever asks after the end is answered at once in the same way. -/
theorem first_request_gets_the_exit (world : World σ) (budget : Nat) (events : List (Event σ)) :
    let μ := (initial world budget).run events
    let log := (initial world budget).acts events
    (∀ f fiber p w how event x, μ.machine.fiber? f = some fiber →
      fiber.status.isTerminal = false → fiber.reader = .joiner →
      .watcher w how ∈ fiber.observers → μ.machine.OpenFor p w →
      (μ.apply event).EndedWith f x →
      (μ.apply event).Has p (how.answer (log.share f (.watcher w how) x)) ∨
        (μ.apply event).machine.isInterrupted p ∧ (μ.apply event).Has p .interrupted) ∧
    ∀ f fiber how x slice, μ.machine.fiber? f = some fiber → fiber.reader = .joiner →
      μ.EndedWith f x → μ.taken = none → μ.machine.running = some slice →
      slice.run.next = .eval (.watch f how) →
      μ.machine.interruptPending slice.fiber slice.run = false →
      (μ.apply .work).Has slice.fiber
        (how.answer (if log.taker? f = none then x else .consumed)) := by
  intro μ log
  have reachable : Reachable μ := (Reachable.initial world budget).run events
  have ledger : μ.machine.Ledger log fun _ => [] :=
    (Reachable.initial world budget).ledger_run (ledger_initial world budget) events
  have once : μ.machine.AsksOnce log :=
    (Reachable.initial world budget).asksOnce_run (asksOnce_initial world budget) events
  constructor
  · intro f fiber p w how event x row live reader watched opened ended
    have answered := reachable.answers_of_ends ledger once row live reader watched opened ended
    exact answered.imp (reachable.apply event).has fun ⟨marked, broken⟩ =>
      ⟨marked, (reachable.apply event).has broken⟩
  · intro f fiber how x slice row reader ended taken running next calm
    exact (reachable.apply .work).has
      (reachable.answers_at_once ledger row reader ended taken running next calm)

/-- A program that starts a child and joins it, after it has done something else. -/
def joinsAfter (meanwhile : Effect Unit) : Effect Unit :=
  Effect.never.fork.zipRight (meanwhile.zipRight (Effect.join ⟨2⟩))

/-- A run of this program up to the moment in which the child is about to end. -/
def joiningAfter (meanwhile : Effect Unit) : List (Event Unit) :=
  .start (joinsAfter meanwhile).node :: List.replicate 40 .work ++
    .request (.resume ⟨1⟩ (.ok (.bool true))) :: List.replicate 2 .work

/-- A single request gets the exit. -/
theorem single_join_gets_the_exit :
    let μ := (initial { host := () } 100).run (joiningAfter .yieldNow)
    let log := (initial { host := () } 100).acts (joiningAfter .yieldNow)
    log.asked ⟨2⟩ = [.watcher ⟨2⟩ .join] ∧ μ.machine.OpenFor ⟨1⟩ ⟨2⟩ ∧
    (μ.apply .work).EndedWith ⟨2⟩ (.ok (.bool true)) ∧
    (μ.apply .work).Has ⟨1⟩ (.ok (.bool true)) := by
  intro μ log
  have asked : ((initial { host := () } 100).acts (joiningAfter .yieldNow)).asked ⟨2⟩ =
      [.watcher ⟨2⟩ .join] := by rfl
  have opened : μ.machine.OpenFor ⟨1⟩ ⟨2⟩ := ⟨_, rfl, rfl, rfl⟩
  have ended : (μ.apply .work).EndedWith ⟨2⟩ (.ok (.bool true)) := ⟨_, rfl, rfl, rfl⟩
  refine ⟨asked, opened, ended, ?_⟩
  rcases (first_request_gets_the_exit { host := () } 100 (joiningAfter .yieldNow)).1 ⟨2⟩ _ ⟨1⟩ ⟨2⟩
    .join .work _ rfl rfl rfl (List.mem_singleton.2 rfl) opened ended with answered | ⟨marked, -⟩
  · exact answered
  · cases marked

/-- A program that joins its child in a race, and the race is over at once. -/
def losesRace : Effect Unit := (Effect.join ⟨2⟩).race Effect.unit

/-- The first request was made in a race and given up with it; nobody has interrupted the second
one, and when the child ends it is the only open one.  All the same it gets the defect and not the
exit. -/
theorem join_after_lost_race :
    let μ := (initial { host := () } 100).run (joiningAfter losesRace)
    let log := (initial { host := () } 100).acts (joiningAfter losesRace)
    log.asked ⟨2⟩ = [.watcher ⟨2⟩ .join, .watcher ⟨3⟩ .join] ∧
    (μ.machine.isInterrupted ⟨3⟩ ∧ ¬ μ.machine.OpenFor ⟨3⟩ ⟨2⟩) ∧
    (μ.machine.isInterrupted ⟨1⟩ = false ∧ μ.machine.OpenFor ⟨1⟩ ⟨3⟩) ∧
    μ.machine.status ⟨2⟩ = .running ∧ (μ.apply .work).EndedWith ⟨2⟩ (.ok (.bool true)) ∧
    ¬ (μ.apply .work).Has ⟨1⟩ (.ok (.bool true)) ∧
    (μ.apply .work).answer? ⟨1⟩ = some (Exit.died (.internal "fiber exit already consumed")) := by
  intro μ log
  have asked : ((initial { host := () } 100).acts (joiningAfter losesRace)).asked ⟨2⟩ =
      [.watcher ⟨2⟩ .join, .watcher ⟨3⟩ .join] := by rfl
  have given_up : μ.machine.isInterrupted ⟨3⟩ ∧ ¬ μ.machine.OpenFor ⟨3⟩ ⟨2⟩ := by decide +kernel
  have open_still : μ.machine.isInterrupted ⟨1⟩ = false ∧ μ.machine.OpenFor ⟨1⟩ ⟨3⟩ := by
    decide +kernel
  have running : μ.machine.status ⟨2⟩ = .running := by decide +kernel
  have ended : (((initial { host := () } 100).run (joiningAfter losesRace)).apply .work).EndedWith ⟨2⟩
      (.ok (.bool true)) := ⟨_, rfl, rfl, rfl⟩
  have answer : (((initial { host := () } 100).run (joiningAfter losesRace)).apply .work).answer? ⟨1⟩ =
      some (Exit.died (.internal "fiber exit already consumed")) := by rfl
  refine ⟨asked, given_up, open_still, running, ended, fun gets => ?_, answer⟩
  rcases gets [] with other | ⟨before, after, nothing, -⟩
  · cases answer.symm.trans other
  · cases before <;> cases nothing

end Moment

end EffectFibers
