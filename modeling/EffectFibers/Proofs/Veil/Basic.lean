import EffectFibers.Proofs.Coherence.View
import EffectFibers.Machine.Memo
import EffectFibers.Machine.Perform

/-!
# Machines that differ in one mark

What difference does it make that a fiber was interrupted?  To find out, two machines are compared
that are the same but for the mark of one fiber and for what the record tells of its interrupts: a
veil over these makes the machines equal.  An operation that does not look at the mark takes such
machines to such machines.  The mark is looked at by the fiber itself, outside of its
uninterruptible regions, and when the fiber gets a child or a child of it ends; so the fiber has no
children here.

This module has the operations that concern any fiber: answers, interrupts, user code and layers.

## Main definitions

* `Machine.veil` – a machine in which nothing shows that a fiber was interrupted.
* `Veiled` – two machines that are the same under the veil.
-/

namespace EffectFibers

variable {σ : Type}

/-- A fiber without its mark. -/
def Fiber.unmarked (fiber : Fiber σ) : Fiber σ := { fiber with interrupted := false }

/-- Whether a line of the record tells that a fiber is interrupted. -/
def Entry.tellsOf (f : FiberId) : Entry → Bool
  | .trace (.interrupting g _) => g == f
  | _ => false

/-- A record without the lines that tell that a fiber is interrupted. -/
def hush (f : FiberId) (record : Array Entry) : Array Entry :=
  record.filter fun entry => !entry.tellsOf f

/-- A machine in which nothing shows that a fiber was interrupted. -/
def Machine.veil (m : Machine σ) (f : FiberId) : Machine σ :=
  { m with fibers := m.fibers.modify f Fiber.unmarked, record := hush f m.record }

/-- Two machines that are the same under the veil over a fiber without children, which has a mark in
the first one. -/
structure Veiled (f : FiberId) (m m' : Machine σ) : Prop where
  fibers : m'.fibers.modify f Fiber.unmarked = m.fibers.modify f Fiber.unmarked
  record : hush f m'.record = hush f m.record
  rest : m' = { m with fibers := m'.fibers, record := m'.record }
  lone : ∃ fiber, m.fiber? f = some fiber ∧ fiber.children = [] ∧ fiber.interrupted = true

/-! ## Changes to tables that can be made in any order -/

namespace Table

variable {kind : IdentKind} {α : Type} {t t' : Table kind α}

theorem ext_get? (size : t.size = t'.size) (rows : ∀ i, t.get? i = t'.get? i) : t = t' := by
  obtain ⟨a⟩ := t
  obtain ⟨b⟩ := t'
  congr 1
  refine Array.ext size fun n h h' => ?_
  have row := rows ⟨n + 1⟩
  simpa [get?, Array.getElem?_eq_getElem h, Array.getElem?_eq_getElem h'] using row

theorem modify_comm (t : Table kind α) (i j : Ident kind) {u v : α → α}
    (comm : i = j → ∀ a, u (v a) = v (u a)) :
    (t.modify i v).modify j u = (t.modify j u).modify i v := by
  refine ext_get? (by simp) fun k => ?_
  simp only [get?_modify]
  by_cases one : i = k <;> by_cases two : j = k
  · simp only [one, two, if_true, Option.map_map]
    congr 1
    funext a
    exact comm (one.trans two.symm) a
  · simp [one, two]
  · simp [one, two]
  · simp [one, two]

theorem modify_push (t : Table kind α) (i : Ident kind) (u : α → α) (a : α) :
    (t.push a).modify i u = (t.modify i u).push (if i = t.nextId then u a else a) := by
  have next : (t.modify i u).nextId = t.nextId := by
    simp only [nextId]
    exact congrArg (fun n => (⟨n + 1⟩ : Ident kind)) (size_modify t i u)
  refine ext_get? (by simp) fun k => ?_
  simp only [get?_modify, get?_push, next]
  by_cases two : k = t.nextId
  · simp only [two, if_true, Option.map_some]
    split <;> rfl
  · simp [two]

end Table

namespace Veiled

variable {f g : FiberId} {m m' : Machine σ} {w : WaitId}

/-! ## What two such machines have in common -/

theorem veil_eq (veiled : Veiled f m m') : m'.veil f = m.veil f := by
  rw [Machine.veil, Machine.veil, veiled.fibers, veiled.record, veiled.rest]

theorem childless (veiled : Veiled f m m') {fiber : Fiber σ} (row : m.fiber? f = some fiber) :
    fiber.children = [] := by
  obtain ⟨fiber', row', none, -⟩ := veiled.lone
  obtain rfl := Option.some.inj (row.symm.trans row')
  exact none

/-- The second machine is the first one with other fibers and another record. -/
theorem exists_eq (veiled : Veiled f m m') : ∃ fibers record,
    m' = { m with fibers, record } ∧
      fibers.modify f Fiber.unmarked = m.fibers.modify f Fiber.unmarked ∧
      hush f record = hush f m.record :=
  ⟨m'.fibers, m'.record, veiled.rest, veiled.fibers, veiled.record⟩

/-- Two rows of one fiber differ in nothing but the mark, and not in that unless the fiber is the
veiled one. -/
theorem row (veiled : Veiled f m m') (g : FiberId) :
    (m.fiber? g = none ∧ m'.fiber? g = none) ∨
      ∃ fiber b, m.fiber? g = some fiber ∧ m'.fiber? g = some { fiber with interrupted := b } ∧
        (g ≠ f → b = fiber.interrupted) := by
  have rows := congrArg (fun t : Table .fiber (Fiber σ) => t.get? g) veiled.fibers
  simp only [Table.get?_modify] at rows
  simp only [Machine.fiber?]
  by_cases same : f = g
  · simp only [same, if_true] at rows
    cases row : m.fibers.get? g with
    | none =>
        rw [row, Option.map_none, Option.map_eq_none_iff] at rows
        exact .inl ⟨rfl, rows⟩
    | some fiber =>
        rw [row, Option.map_some, Option.map_eq_some_iff] at rows
        obtain ⟨fiber', row', alike⟩ := rows
        refine .inr ⟨fiber, fiber'.interrupted, rfl, ?_, fun other => absurd same.symm other⟩
        rw [row']
        cases fiber
        cases fiber'
        simp only [Fiber.unmarked, Fiber.mk.injEq] at alike
        simp [alike]
  · simp only [same, if_false] at rows
    cases row : m.fibers.get? g with
    | none => exact .inl ⟨rfl, rows.trans row⟩
    | some fiber => exact .inr ⟨fiber, fiber.interrupted, rfl, rows.trans row, fun _ => rfl⟩

/-- Whatever does not read the mark reads the same in both machines. -/
theorem read {β : Type} (veiled : Veiled f m m') (g : FiberId) (p : Fiber σ → β)
    (blind : ∀ fiber b, p { fiber with interrupted := b } = p fiber) :
    (m'.fiber? g).map p = (m.fiber? g).map p := by
  rcases veiled.row g with ⟨none, none'⟩ | ⟨fiber, b, row, row', -⟩
  · rw [none, none']
  · rw [row, row', Option.map_some, Option.map_some, blind]

theorem find {β : Type} (veiled : Veiled f m m') (g : FiberId) (p : Fiber σ → Option β)
    (blind : ∀ fiber b, p { fiber with interrupted := b } = p fiber) :
    (m'.fiber? g).bind p = (m.fiber? g).bind p := by
  rcases veiled.row g with ⟨none, none'⟩ | ⟨fiber, b, row, row', -⟩
  · rw [none, none']
  · rw [row, row', Option.bind_some, Option.bind_some, blind]

theorem statusOf_eq (veiled : Veiled f m m') :
    Machine.statusOf m'.fibers = Machine.statusOf m.fibers := by
  funext g
  exact congrArg (·.getD .interrupted) (veiled.read g Fiber.status fun _ _ => rfl)

theorem isInterrupted_eq (veiled : Veiled f m m') (other : g ≠ f) :
    m'.isInterrupted g = m.isInterrupted g := by
  unfold Machine.isInterrupted
  rcases veiled.row g with ⟨none, none'⟩ | ⟨fiber, b, row, row', same⟩
  · rw [none, none']
  · rw [row, row', same other]

/-! ## Small changes -/

/-- A change to a row that does not depend on the mark, leaves it and adds no child. -/
structure Plain (change : Fiber σ → Fiber σ) : Prop where
  unmarked : ∀ fiber, (change fiber).unmarked = change fiber.unmarked
  children : ∀ fiber, (change fiber).children ⊆ fiber.children
  mark : ∀ fiber, (change fiber).interrupted = fiber.interrupted

theorem modifyFiber (veiled : Veiled f m m') (g : FiberId) {change : Fiber σ → Fiber σ}
    (plain : g = f → Plain change) :
    Veiled f (m.modifyFiber g change) (m'.modifyFiber g change) := by
  obtain ⟨fibers, record, rfl, same, hushed⟩ := veiled.exists_eq
  obtain ⟨fiber, row, none, mark⟩ := veiled.lone
  have comm : g = f → ∀ fiber, (change fiber).unmarked = change fiber.unmarked :=
    fun eq => (plain eq).unmarked
  refine ⟨?_, hushed, rfl, ?_⟩
  · show (fibers.modify g change).modify f Fiber.unmarked = _
    rw [Table.modify_comm _ _ _ comm, same, ← Table.modify_comm _ _ _ comm]
    rfl
  · simp only [Machine.modifyFiber, Machine.fiber?, Table.get?_modify]
    rw [show m.fibers.get? f = some fiber from row]
    by_cases eq : g = f
    · have fewer := (plain eq).children fiber
      rw [none] at fewer
      rw [if_pos eq]
      exact ⟨_, rfl, List.subset_nil.1 fewer, ((plain eq).mark fiber).trans mark⟩
    · rw [if_neg eq]
      exact ⟨fiber, rfl, none, mark⟩

/-- The mark itself. -/
theorem mark (veiled : Veiled f m m') (g : FiberId) : Veiled f (m.mark g) (m'.mark g) := by
  by_cases same : g = f
  · subst same
    obtain ⟨fibers, record, rfl, same, hushed⟩ := veiled.exists_eq
    have absorbs : ∀ t : Table .fiber (Fiber σ),
        (t.modify g fun fiber => { fiber with interrupted := true }).modify g Fiber.unmarked =
          t.modify g Fiber.unmarked := by
      intro t
      refine Table.ext_get? (by simp) fun k => ?_
      simp only [Table.get?_modify]
      split
      · rw [Option.map_map]
        rfl
      · rfl
    obtain ⟨fiber, row, none, mark⟩ := veiled.lone
    refine ⟨?_, hushed, rfl, { fiber with interrupted := true }, ?_, none, rfl⟩
    · show (fibers.modify g _).modify g Fiber.unmarked = _
      rw [absorbs, same, ← absorbs]
      rfl
    · simp only [Machine.mark, Machine.modifyFiber, Machine.fiber?, Table.get?_modify, if_true]
      rw [show m.fibers.get? g = some fiber from row]
      rfl
  · exact veiled.modifyFiber g fun eq => absurd eq same

theorem write (veiled : Veiled f m m') (entry : Entry) :
    Veiled f (m.write entry) (m'.write entry) := by
  obtain ⟨fibers, record, rfl, same, hushed⟩ := veiled.exists_eq
  refine ⟨same, ?_, rfl, veiled.lone⟩
  have pushed : ∀ record, hush f (record.push entry) =
      if !entry.tellsOf f then (hush f record).push entry else hush f record :=
    fun record => Array.filter_push
  simp only [Machine.write]
  rw [pushed, pushed, hushed]

theorem trace (veiled : Veiled f m m') (event : TraceEvent) :
    Veiled f (m.trace event) (m'.trace event) :=
  veiled.write (.trace event)

theorem enqueue (veiled : Veiled f m m') (g : FiberId) :
    Veiled f (m.enqueue g) (m'.enqueue g) := by
  obtain ⟨fibers, record, rfl, same, hushed⟩ := veiled.exists_eq
  exact ⟨same, hushed, rfl, veiled.lone⟩

/-- What holds through every step of a fold holds after it. -/
theorem foldl {α : Type} {step : Machine σ → α → Machine σ} (veiled : Veiled f m m')
    (steps : ∀ m m' a, Veiled f m m' → Veiled f (step m a) (step m' a)) (as : List α) :
    Veiled f (as.foldl step m) (as.foldl step m') := by
  induction as generalizing m m' with
  | nil => exact veiled
  | cons a as ih => exact ih (steps m m' a veiled)

/-! ## Answers -/

theorem claim (veiled : Veiled f m m') (w : WaitId) :
    (m'.claim w).1 = (m.claim w).1 ∧ Veiled f (m.claim w).2 (m'.claim w).2 := by
  obtain ⟨fibers, record, rfl, same, hushed⟩ := veiled.exists_eq
  by_cases free : m.isOpen w
  · have free' : Machine.isOpen { m with fibers, record } w := free
    rw [Machine.claim, Machine.claim, if_pos free, if_pos free']
    exact ⟨rfl, same, hushed, rfl, veiled.lone⟩
  · have free' : ¬ Machine.isOpen { m with fibers, record } w := free
    rw [Machine.claim, Machine.claim, if_neg free, if_neg free']
    exact ⟨rfl, veiled⟩

theorem openWait (veiled : Veiled f m m') (owner : FiberId) (source : WaitSource) :
    (m'.openWait owner source).1 = (m.openWait owner source).1 ∧
      Veiled f (m.openWait owner source).2 (m'.openWait owner source).2 := by
  obtain ⟨fibers, record, rfl, same, hushed⟩ := veiled.exists_eq
  exact ⟨rfl, same, hushed, rfl, veiled.lone⟩

theorem deliver (veiled : Veiled f m m') (g : FiberId) (x : Exit) :
    Veiled f (m.deliver g x) (m'.deliver g x) := by
  unfold Machine.deliver Machine.status
  rw [veiled.statusOf_eq]
  split
  · refine enqueue (veiled.modifyFiber g ?_) g
    exact fun _ => ⟨fun _ => rfl, fun _ => List.Subset.refl _, fun _ => rfl⟩
  · exact veiled.modifyFiber g fun _ => ⟨fun _ => rfl, fun _ => List.Subset.refl _, fun _ => rfl⟩
  · exact veiled

theorem resume (veiled : Veiled f m m') (w : WaitId) (x : Exit) :
    Veiled f (m.resume w x) (m'.resume w x) := by
  have waits : m'.waits = m.waits := by rw [veiled.rest]
  unfold Machine.resume
  rw [waits]
  split
  · exact veiled
  · rename_i wait _
    obtain ⟨won, claimed⟩ := veiled.claim w
    simp only
    rw [won]
    split
    · exact claimed.deliver wait.owner x
    · exact claimed

theorem resumeCallback (veiled : Veiled f m m') (w : WaitId) (x : Exit) :
    Veiled f (m.resumeCallback w x) (m'.resumeCallback w x) := by
  have waits : m'.waits = m.waits := by rw [veiled.rest]
  unfold Machine.resumeCallback
  rw [waits]
  split
  · exact veiled.resume w x
  · exact veiled

/-! ## Interrupts -/

theorem breakWait (veiled : Veiled f m m') (g : FiberId) (fiber : Fiber σ) (b : Bool) :
    (m'.breakWait g { fiber with interrupted := b }).1 = (m.breakWait g fiber).1 ∧
      Veiled f (m.breakWait g fiber).2 (m'.breakWait g { fiber with interrupted := b }).2 := by
  have blind : Fiber.breakable? { fiber with interrupted := b } = fiber.breakable? := rfl
  unfold Machine.breakWait
  rw [blind]
  split
  · exact ⟨rfl, veiled⟩
  · rename_i w canceler _
    obtain ⟨won, claimed⟩ := veiled.claim w
    simp only
    rw [won]
    split
    · exact ⟨rfl, claimed.modifyFiber g fun _ =>
        ⟨fun _ => rfl, fun _ => List.Subset.refl _, fun _ => rfl⟩⟩
    · exact ⟨rfl, claimed⟩

theorem setWorld (veiled : Veiled f m m') (world : World σ) :
    Veiled f { m with world } { m' with world } := by
  obtain ⟨fibers, record, rfl, same, hushed⟩ := veiled.exists_eq
  exact ⟨same, hushed, rfl, veiled.lone⟩

theorem note (veiled : Veiled f m m') (request : Request) :
    Veiled f
      (match request with
        | .note v => m.write (.note v)
        | _ => m)
      (match request with
        | .note v => m'.write (.note v)
        | _ => m') := by
  cases request with
  | note v => exact veiled.write (.note v)
  | _ => exact veiled

theorem runCleanup (veiled : Veiled f m m') (g : FiberId) (cleanup : Cleanup σ) :
    Veiled f (m.runCleanup g cleanup) (m'.runCleanup g cleanup) := by
  have world : m'.world = m.world := by rw [veiled.rest]
  unfold Machine.runCleanup
  rw [veiled.statusOf_eq, world]
  dsimp only
  split
  · exact (veiled.setWorld _).foldl (fun _ _ request veiled => veiled.note request) _
  · exact ((veiled.setWorld _).foldl (fun _ _ request veiled => veiled.note request) _).trace _

theorem runCanceler (veiled : Veiled f m m') (g : FiberId) (canceler : Canceler σ) :
    Veiled f (m.runCanceler g canceler) (m'.runCanceler g canceler) := by
  cases canceler with
  | none => exact veiled
  | timer handle =>
      obtain ⟨fibers, record, rfl, same, hushed⟩ := veiled.exists_eq
      exact ⟨same, hushed, rfl, veiled.lone⟩
  | code cleanup => exact veiled.runCleanup g cleanup

theorem interruptWithin (veiled : Veiled f m m') (depth : Nat) (g : FiberId) :
    Veiled f (m.interruptWithin depth g) (m'.interruptWithin depth g) := by
  induction depth generalizing m m' g with
  | zero => exact veiled
  | succ depth ih =>
      have marked := veiled.mark g
      unfold Machine.interruptWithin
      rcases marked.row g with ⟨none, none'⟩ | ⟨fiber, b, row, row', -⟩
      · simp only [none, none']
        exact marked
      · simp only [row, row']
        split
        · exact marked
        obtain ⟨canceler, broken⟩ := marked.breakWait g fiber b
        rw [canceler]
        have below := (broken.trace (.interrupting g fiber.children.length)).foldl
          (fun _ _ c h => ih h c) fiber.children
        split
        · exact below
        · exact (below.runCanceler g _).enqueue g

theorem interrupt (veiled : Veiled f m m') (g : FiberId) :
    Veiled f (m.interrupt g) (m'.interrupt g) := by
  have size : m'.fibers.size = m.fibers.size := by
    have sizes := congrArg Table.size veiled.fibers
    rwa [Table.size_modify, Table.size_modify] at sizes
  unfold Machine.interrupt
  rw [size]
  exact veiled.interruptWithin _ g

theorem interruptAll (veiled : Veiled f m m') (fibers : List FiberId) :
    Veiled f (fibers.foldl Machine.interrupt m) (fibers.foldl Machine.interrupt m') :=
  veiled.foldl (fun _ _ g h => h.interrupt g) fibers

/-! ## User code -/

theorem serve (veiled : Veiled f m m') (request : Request) :
    Veiled f (m.serve request) (m'.serve request) := by
  cases request with
  | note v => exact veiled.write (.note v)
  | resume w x => exact veiled.resumeCallback w x
  | resumeLater w x =>
      obtain ⟨fibers, record, rfl, same, hushed⟩ := veiled.exists_eq
      exact ⟨same, hushed, rfl, veiled.lone⟩
  | interrupt g => exact veiled.interrupt g
  | shutdown =>
      have roots : m'.roots = m.roots := by rw [veiled.rest]
      have interrupted := veiled.interruptAll m.roots
      unfold Machine.serve Machine.shutDown
      rw [roots]
      generalize m.roots.foldl Machine.interrupt m = n at interrupted ⊢
      generalize m.roots.foldl Machine.interrupt m' = n' at interrupted ⊢
      obtain ⟨fibers, record, rfl, same, hushed⟩ := interrupted.exists_eq
      exact ⟨same, hushed, rfl, interrupted.lone⟩

/-- User code sees no mark. -/
theorem perform {α : Type} (veiled : Veiled f m m') (code : Action σ α) :
    (m'.perform code).1 = (m.perform code).1 ∧
      Veiled f (m.perform code).2 (m'.perform code).2 := by
  have world : m'.world = m.world := by rw [veiled.rest]
  unfold Machine.perform
  rw [veiled.statusOf_eq, world]
  exact ⟨rfl, (veiled.setWorld _).foldl (fun _ _ request h => h.serve request) _⟩

/-! ## Layers of a run -/

theorem memo_eq (veiled : Veiled f m m') (scope : ScopeId) : m'.memo scope = m.memo scope := by
  rw [veiled.rest]
  rfl

theorem modifyMemo (veiled : Veiled f m m') (scope : ScopeId) (change : Memo → Memo) :
    Veiled f (m.modifyMemo scope change) (m'.modifyMemo scope change) := by
  obtain ⟨fibers, record, rfl, same, hushed⟩ := veiled.exists_eq
  exact ⟨same, hushed, rfl, veiled.lone⟩

theorem lookUpLayer (veiled : Veiled f m m') (scope : ScopeId) (layer : LayerNode σ)
    (g : FiberId) :
    (m'.lookUpLayer scope layer g).1 = (m.lookUpLayer scope layer g).1 ∧
      Veiled f (m.lookUpLayer scope layer g).2 (m'.lookUpLayer scope layer g).2 := by
  unfold Machine.lookUpLayer
  rw [veiled.memo_eq]
  split
  · exact ⟨rfl, veiled⟩
  · exact ⟨rfl, veiled⟩
  · exact ⟨rfl, (veiled.modifyMemo scope _).trace _⟩

theorem joinBuild (veiled : Veiled f m m') (scope : ScopeId) (layer : LayerId) (w : WaitId) :
    Veiled f (m.joinBuild scope layer w) (m'.joinBuild scope layer w) := by
  unfold Machine.joinBuild
  rw [veiled.memo_eq]
  split
  · exact veiled.modifyMemo scope _
  · exact veiled.resume w _

theorem wake (veiled : Veiled f m m') (waiters : List WaitId) (x : Exit) :
    Veiled f (m.wake waiters x) (m'.wake waiters x) :=
  veiled.foldl (fun _ _ w h => h.resume w x) waiters

theorem completeBuild (veiled : Veiled f m m') (scope : ScopeId) (layer : LayerNode σ)
    (context : Context Value) :
    Veiled f (m.completeBuild scope layer context) (m'.completeBuild scope layer context) := by
  unfold Machine.completeBuild
  rw [veiled.memo_eq]
  exact ((veiled.modifyMemo scope _).trace _).wake _ _

theorem forgetBuild (veiled : Veiled f m m') (scope : ScopeId) (layer : LayerNode σ)
    (outcome : BuildOutcome) (x : Exit) :
    Veiled f (m.forgetBuild scope layer outcome x) (m'.forgetBuild scope layer outcome x) := by
  unfold Machine.forgetBuild
  rw [veiled.memo_eq]
  split
  · exact ((veiled.modifyMemo scope _).trace _).wake _ _
  · exact veiled

end Veiled

end EffectFibers
