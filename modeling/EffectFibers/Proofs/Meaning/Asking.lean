import EffectFibers.Proofs.Changes.Bystander

/-!
# Steps that reach other fibers

A fiber that is being stepped runs user code, and its requests may reach other fibers and the fiber
itself.  As long as it is not marked, it gets nothing from this but perhaps an answer to what it has
just asked, and then the answer is the first one that was requested.

## Main definitions

* `Machine.Working` – a fiber that is being stepped, without children and groups.

## Main statements

* `Machine.Working.kept` – others leave the fiber alone.
* `Machine.answered_while_asking` – who gets an answer while asking has requested it.
-/

namespace EffectFibers

variable {σ : Type}

namespace Machine

/-- A fiber that is being stepped and has neither children nor groups. -/
structure Working (m : Machine σ) (f : FiberId) (fiber : Fiber σ) : Prop where
  coherent : Coherent m.core { held := some f }
  row : m.fiber? f = some fiber
  childless : fiber.children = []
  alone : ¬ m.LeadsGroup f

section

variable {m m' : Machine σ} {f : FiberId} {fiber : Fiber σ} {w : WaitId} {φ : Focus}

/-- What the fiber on the worker has asked for is open until it has an answer. -/
theorem isOpen_iff_silent (coherent : Coherent m.core φ) (held : φ.held = some f)
    (asking : φ.asking = some w) : m.isOpen w = true ↔ m.core.input f = none := by
  constructor
  · intro free
    obtain ⟨wait, found, unclaimed⟩ := (Option.any_eq_true _ _).1 free
    have owner : m.core.owner w = some wait.owner := Coherent.owner_of_isOpen found free
    have own := coherent.waiting.asker_owns held asking owner
    exact (asking_of_openFor coherent held ⟨wait, found, by simpa using unclaimed, own⟩).2
  · intro silent
    obtain ⟨wait, found, owner⟩ :=
      Table.exists_row_of_find (coherent.waiting.owner_of_asking held asking silent)
    rw [isOpen, show m.waits.get? w = some wait from found]
    cases free : wait.claimed <;> simp [Wait.openOwner, free] at owner ⊢

/-- As long as it is not marked, others leave the fiber on the worker alone, or answer it. -/
theorem beside_of_held {asks : Option WaitId} (coherent : Coherent m.core φ)
    (held : φ.held = some f) (row : m.fiber? f = some fiber) (alone : ¬ m.LeadsGroup f)
    (opens : ∀ w, m.OpenFor f w → asks = some w) (evolves : Evolves none true m m')
    (calm : m'.isInterrupted f = false) :
    ¬ m'.LeadsGroup f ∧ ∃ after, m'.fiber? f = some after ∧ after.children ⊆ fiber.children ∧
      (fiber.Kept after ∨ ∃ x w, asks = some w ∧ (Coherent.answered x fiber).Kept after) := by
  obtain ⟨running, awake, going⟩ := status_of_held coherent held row
  have expects : Expects fiber asks :=
    { awake := fun _ => awake
      sleeps := by simp [awake]
      closing := by simp [going] }
  have alone' := alone_after alone evolves (by simp)
  refine ⟨alone', ?_⟩
  cases (Beside.of_row row opens).evolves expects evolves (by simp) with
  | spared row' kept _ children => exact ⟨_, row', children alone', .inl kept⟩
  | answered row' kept why _ children =>
      refine ⟨_, row', children alone', .inr ?_⟩
      cases why with
      | interrupt mark _ => cases calm.symm.trans mark
      | wait asked _ _ => exact ⟨_, _, asked, kept⟩
      | group asleep => cases awake.symm.trans asleep
  | ended _ closing _ _ =>
      rw [going] at closing
      cases closing

theorem Working.silent (working : m.Working f fiber) : fiber.input = none := by
  by_contra answered
  exact working.coherent.waiting.held_input rfl (input_of_row working.row ▸ answered) rfl

theorem Working.closed (working : m.Working f fiber) (w : WaitId) : ¬ m.OpenFor f w := by
  intro opened
  have asking := (asking_of_openFor working.coherent rfl opened).1
  cases asking

/-- As long as it is not marked, others leave the fiber alone. -/
theorem Working.kept (working : m.Working f fiber) (evolves : Evolves none true m m')
    (calm : m'.isInterrupted f = false) :
    (∃ after, m'.fiber? f = some after ∧ fiber.Kept after ∧ after.children = []) ∧
      ¬ m'.LeadsGroup f := by
  have opens : ∀ w, m.OpenFor f w → none = some w := fun w opened =>
    absurd opened (working.closed w)
  obtain ⟨alone, after, row, children, kept | ⟨x, w, asked, -⟩⟩ :=
    beside_of_held working.coherent rfl working.row working.alone opens evolves calm
  · exact ⟨⟨after, row, kept, List.subset_nil.1 (working.childless ▸ children)⟩, alone⟩
  · cases asked

/-- As long as it is not marked, others leave the fiber alone that has asked, or answer it. -/
theorem Working.asked (working : m.Working f fiber) (source : WaitSource)
    (evolves : Evolves none true (m.openWait f source).2 m') (calm : m'.isInterrupted f = false) :
    (∃ after, m'.fiber? f = some after ∧ after.children = []) ∧ ¬ m'.LeadsGroup f := by
  have coherent := working.coherent.openWait source
  have row : (m.openWait f source).2.fiber? f = some fiber := working.row
  obtain ⟨alone, after, row, children, -⟩ := beside_of_held coherent rfl row working.alone
    (fun w opened => (asking_of_openFor coherent rfl opened).1) evolves calm
  exact ⟨⟨after, row, List.subset_nil.1 (working.childless ▸ children)⟩, alone⟩

/-! ## Requests while asking -/

theorem fiber?_interrupts_of_unmarked (fibers : List FiberId) (row : m.fiber? f = some fiber)
    (calm : (fibers.foldl interrupt m).isInterrupted f = false) :
    (fibers.foldl interrupt m).fiber? f = some fiber := by
  induction fibers generalizing m with
  | nil => exact row
  | cons g fibers ih =>
      have rest : Evolves none true (m.interrupt g) (fibers.foldl interrupt (m.interrupt g)) :=
        .foldl _ (fun n g => .interrupt n g) fibers
      exact ih (fiber?_interruptWithin_of_unmarked row (unmarked_before rest calm)) calm

/-- Who has asked is left alone by every request that does not end its wait. -/
theorem kept_serve (coherent : Coherent m.core φ) (held : φ.held = some f)
    (asking : φ.asking = some w) (row : m.fiber? f = some fiber) {request : Request}
    (other : ∀ x, request ≠ .resume w x) (calm : (m.serve request).isInterrupted f = false) :
    ∃ after, (m.serve request).fiber? f = some after ∧ fiber.Kept after := by
  cases request with
  | note v => exact ⟨fiber, row, .refl fiber⟩
  | resumeLater v x => exact ⟨fiber, row, .refl fiber⟩
  | interrupt g => exact ⟨fiber, fiber?_interruptWithin_of_unmarked row calm, .refl fiber⟩
  | shutdown => exact ⟨fiber, fiber?_interrupts_of_unmarked m.roots row calm, .refl fiber⟩
  | resume v x =>
      simp only [serve, resumeCallback]
      split
      · have awake := (status_of_held coherent held row).2.1
        rcases Change.row_resume (w := v) (x := x) row fun _ => awake with same | ⟨_, _, opened, _⟩
        · exact ⟨fiber, same, .refl fiber⟩
        · have asking' := (asking_of_openFor coherent held opened).1
          obtain rfl := Option.some.inj (asking.symm.trans asking')
          exact absurd rfl (other x)
      · exact ⟨fiber, row, .refl fiber⟩

/-- Who has asked gets the answer at once if it is requested. -/
theorem informed_serve {x : Exit} (coherent : Coherent m.core φ) (held : φ.held = some f)
    (asking : φ.asking = some w) (row : m.fiber? f = some fiber) (silent : fiber.input = none)
    (callback : ∃ wait, m.waits.get? w = some wait ∧ wait.source = .callback) :
    (m.serve (.resume w x)).fiber? f = some (Coherent.informed x fiber) := by
  obtain ⟨running, -⟩ := status_of_held coherent held row
  obtain ⟨wait, found, source⟩ := callback
  have input : m.core.input f = none := (Table.find_of_row Fiber.input row).trans silent
  have owner := coherent.waiting.owner_of_asking held asking input
  rw [Core.owner, show m.core.waits.find Wait.openOwner w = _ from Table.find_of_row _ found,
    Wait.openOwner] at owner
  split at owner
  · cases owner
  · rename_i free
    obtain own := Option.some.inj owner
    have won : (m.claim w).1 = true := by
      rw [m.claim_fst, isOpen, found]
      simpa using free
    have status : (m.claim w).2.status wait.owner = .running := by
      rw [own, ← running]
      exact Coherent.status_of_row ((m.fiber?_claim w f).trans row)
    have told : m.serve (.resume w x) =
        (m.claim w).2.modifyFiber wait.owner (Coherent.informed x) := by
      simp only [serve, resumeCallback, resume, found, Option.any_some, source, beq_self_eq_true,
        if_true, won, deliver, status]
      rfl
    rw [told, fiber?_modifyFiber, if_pos own, fiber?_claim, row]
    rfl

/-- Who has an answer keeps it, whatever is requested afterwards. -/
theorem informed_after {x : Exit} (coherent : Coherent m.core φ) (held : φ.held = some f)
    (alone : ¬ m.LeadsGroup f) (row : m.fiber? f = some fiber) (informed : fiber.input = some x)
    (evolves : Evolves none true m m') (calm : m'.isInterrupted f = false) :
    ∃ after, m'.fiber? f = some after ∧ after.input = some x := by
  have closed : ∀ v, m.OpenFor f v → none = some v := fun v opened => by
    have silent := (asking_of_openFor coherent held opened).2
    rw [input_of_row row, informed] at silent
    cases silent
  obtain ⟨-, after, row', -, kept | ⟨y, v, asked, -⟩⟩ :=
    beside_of_held coherent held row alone closed evolves calm
  · exact ⟨after, row', kept.input.trans informed⟩
  · cases asked

/-- Who asks gets an answer that was requested, or has none if none was requested. -/
theorem answered_while_asking (coherent : Coherent m.core φ) (held : φ.held = some f)
    (asking : φ.asking = some w) (alone : ¬ m.LeadsGroup f) (row : m.fiber? f = some fiber)
    (silent : fiber.input = none)
    (callback : ∃ wait, m.waits.get? w = some wait ∧ wait.source = .callback)
    (requests : List Request) (calm : (requests.foldl serve m).isInterrupted f = false) :
    ∃ after, (requests.foldl serve m).fiber? f = some after ∧
      match after.input with
      | none => ∀ x, .resume w x ∉ requests
      | some x => .resume w x ∈ requests := by
  induction requests generalizing m fiber with
  | nil => exact ⟨fiber, row, by simp [silent]⟩
  | cons request requests ih =>
      have coherent' := coherent.serve request
      have first : Evolves none true m (m.serve request) := .serve m request
      have rest : Evolves none true (m.serve request) (requests.foldl serve (m.serve request)) :=
        .foldl _ (fun n request => .serve n request) requests
      have alone' : ¬ (m.serve request).LeadsGroup f := alone_after alone first (by simp)
      by_cases mine : ∃ x, request = .resume w x
      · obtain ⟨x, rfl⟩ := mine
        have row' := informed_serve (x := x) coherent held asking row silent callback
        obtain ⟨after, row'', informed⟩ :=
          informed_after coherent' held alone' row' rfl rest calm
        refine ⟨after, row'', ?_⟩
        rw [informed]
        exact List.mem_cons_self
      · have other : ∀ x, request ≠ .resume w x := fun x same => mine ⟨x, same⟩
        obtain ⟨after, row', kept⟩ :=
          kept_serve coherent held asking row other (unmarked_before rest calm)
        obtain ⟨wait, found, source⟩ := callback
        obtain ⟨wait', found', -, source', -⟩ := first.keepsWaits found
        obtain ⟨last, row'', answers⟩ := ih coherent' alone' row' (kept.input.trans silent)
          ⟨wait', found', source'.trans source⟩ calm
        refine ⟨last, row'', ?_⟩
        split at answers
        · intro x listed
          exact (List.mem_cons.1 listed).elim (fun same => other x same.symm) (answers x)
        · exact List.mem_cons_of_mem _ answers

end

end Machine

end EffectFibers
