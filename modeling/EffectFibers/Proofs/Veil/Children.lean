import EffectFibers.Machine.Complete
import EffectFibers.Machine.Launch
import EffectFibers.Proofs.Coherence.Complete
import EffectFibers.Proofs.Veil.Basic

/-!
# Children and ends under the veil

A child is marked if its parent is, and a child that ends looks at the mark of its parent.  Both
come to the same in two machines that differ in one mark, unless the parent is the fiber with the
mark; and that fiber has no children.  When a fiber ends, fibers above it may end in the same
operation.  That none of them is a child of the fiber with the mark follows from coherence: a
fiber that is about to end is listed by its parent.
-/

namespace EffectFibers

variable {σ : Type}

namespace Veiled

variable {f g p : FiberId} {m m' : Machine σ}

theorem size_eq (veiled : Veiled f m m') : m'.fibers.size = m.fibers.size := by
  have sizes := congrArg Table.size veiled.fibers
  rwa [Table.size_modify, Table.size_modify] at sizes

theorem nextId_eq (veiled : Veiled f m m') : m'.fibers.nextId = m.fibers.nextId :=
  congrArg (fun n => (⟨n + 1⟩ : FiberId)) veiled.size_eq

/-! ## New fibers -/

theorem pushFiber (veiled : Veiled f m m') (fiber : Fiber σ) :
    Veiled f { m with fibers := m.fibers.push fiber }
      { m' with fibers := m'.fibers.push fiber } := by
  have next := veiled.nextId_eq
  obtain ⟨fibers, record, rfl, same, hushed⟩ := veiled.exists_eq
  obtain ⟨own, row, lone⟩ := veiled.lone
  refine ⟨?_, hushed, rfl, own, Table.get?_push_of_some fiber row, lone⟩
  show (fibers.push fiber).modify f _ = (m.fibers.push fiber).modify f _
  rw [Table.modify_push, Table.modify_push, same, show fibers.nextId = _ from next]

theorem spawnChild (veiled : Veiled f m m') (other : p ≠ f) (node : Node σ)
    (context : Context Value) (reader : ExitReader) :
    (m'.spawnChild p node context reader).1 = (m.spawnChild p node context reader).1 ∧
      Veiled f (m.spawnChild p node context reader).2
        (m'.spawnChild p node context reader).2 := by
  unfold Machine.spawnChild
  rw [veiled.read p Fiber.scope fun _ _ => rfl, veiled.isInterrupted_eq other, veiled.nextId_eq]
  refine ⟨rfl, trace (modifyFiber (veiled.pushFiber _) p ?_) _⟩
  exact fun same => absurd same other

theorem fork (veiled : Veiled f m m') (other : p ≠ f) (node : Node σ) (context : Context Value) :
    (m'.fork p node context).1 = (m.fork p node context).1 ∧
      Veiled f (m.fork p node context).2 (m'.fork p node context).2 := by
  obtain ⟨child, born⟩ := veiled.spawnChild other node context .joiner
  refine ⟨child, ?_⟩
  unfold Machine.fork
  simp only [child]
  exact born.enqueue _

theorem startRoot (veiled : Veiled f m m') (node : Node σ) :
    Veiled f (m.startRoot node).2 (m'.startRoot node).2 := by
  have next := veiled.nextId_eq
  obtain ⟨fibers, record, rfl, same, hushed⟩ := veiled.exists_eq
  unfold Machine.startRoot Machine.spawnRoot
  simp only [show fibers.nextId = _ from next]
  refine enqueue ?_ _
  let row : Fiber σ :=
    { parent := none, scope := m.scopes.nextId, reader := .handle
      run := some { next := .eval node } }
  have pushed := (veiled.pushFiber row).trace (.rootSpawned m.fibers.nextId)
  exact ⟨pushed.fibers, pushed.record, rfl, pushed.lone⟩

/-! ## Groups -/

theorem setGroup (veiled : Veiled f m m') (k : GroupId) (group : Group σ) :
    Veiled f (m.setGroup k group) (m'.setGroup k group) := by
  obtain ⟨fibers, record, rfl, same, hushed⟩ := veiled.exists_eq
  exact ⟨same, hushed, rfl, veiled.lone⟩

theorem pushGroup (veiled : Veiled f m m') (group : Group σ) :
    Veiled f { m with groups := m.groups.push group }
      { m' with groups := m'.groups.push group } := by
  obtain ⟨fibers, record, rfl, same, hushed⟩ := veiled.exists_eq
  exact ⟨same, hushed, rfl, veiled.lone⟩

theorem enqueueAll (veiled : Veiled f m m') (fibers : List FiberId) :
    Veiled f (m.enqueueAll fibers) (m'.enqueueAll fibers) :=
  veiled.foldl (fun _ _ g h => h.enqueue g) fibers

theorem spawnMembers (veiled : Veiled f m m') (other : p ≠ f) (context : Context Value)
    (k : GroupId) (nodes : List (Nat × Node σ)) :
    (m'.spawnMembers p context k nodes).1 = (m.spawnMembers p context k nodes).1 ∧
      Veiled f (m.spawnMembers p context k nodes).2 (m'.spawnMembers p context k nodes).2 := by
  induction nodes generalizing m m' with
  | nil => exact ⟨rfl, veiled⟩
  | cons node nodes ih =>
      obtain ⟨index, node⟩ := node
      obtain ⟨child, born⟩ := veiled.spawnChild other node context (.group k index)
      obtain ⟨children, rest⟩ := ih born
      simp only [Machine.spawnMembers]
      rw [child, children]
      exact ⟨rfl, rest⟩

theorem startRace (veiled : Veiled f m m') (other : p ≠ f) (context : Context Value)
    (nodes : List (Node σ)) :
    (m'.startRace p context nodes).1 = (m.startRace p context nodes).1 ∧
      Veiled f (m.startRace p context nodes).2 (m'.startRace p context nodes).2 := by
  have groups : m'.groups = m.groups := by rw [veiled.rest]
  have pushed := veiled.pushGroup (.race { parent := p, members := [], remaining := nodes.length })
  unfold Machine.startRace
  rw [groups] at pushed ⊢
  obtain ⟨children, born⟩ := pushed.spawnMembers other context m.groups.nextId
    (Machine.numbered nodes)
  refine ⟨rfl, ?_⟩
  simp only
  rw [children]
  exact (born.setGroup _ _).enqueueAll _

theorem fill (veiled : Veiled f m m') (k : GroupId) {all : Gathering σ} (other : all.parent ≠ f) :
    Veiled f (m.fill k all) (m'.fill k all) := by
  unfold Machine.fill
  split
  · exact veiled
  · obtain ⟨children, born⟩ := veiled.spawnMembers other all.context k
      (all.queue.take (all.limit - all.running.length))
    simp only
    rw [children]
    exact (born.setGroup _ _).enqueueAll _

theorem startAll (veiled : Veiled f m m') (other : p ≠ f) (context : Context Value)
    (nodes : List (Node σ)) (options : AllOptions) :
    (m'.startAll p context nodes options).1 = (m.startAll p context nodes options).1 ∧
      Veiled f (m.startAll p context nodes options).2
        (m'.startAll p context nodes options).2 := by
  have groups : m'.groups = m.groups := by rw [veiled.rest]
  unfold Machine.startAll
  let all := Gathering.task p context nodes options
  have pushed := veiled.pushGroup (.all all)
  rw [groups] at pushed ⊢
  have filled : ∀ k, Veiled f (Machine.fill _ k all) (Machine.fill _ k all) := fun k =>
    pushed.fill k other
  exact ⟨rfl, filled m.groups.nextId⟩

theorem ite {c : Prop} [Decidable c] {a a' b b' : Machine σ} (yes : Veiled f a a')
    (no : Veiled f b b') : Veiled f (if c then a else b) (if c then a' else b') := by
  split
  · exact yes
  · exact no

theorem raceExit (veiled : Veiled f m m') (k : GroupId) (race : Race) (x : Exit) :
    Veiled f (m.raceExit k race x) (m'.raceExit k race x) := by
  have settled := veiled.setGroup k (.race { race with
    remaining := race.remaining - 1
    winner := some (race.winner.getD x) })
  have told := settled.ite (c := race.winner.isSome)
    ((settled.trace (.raceSettled race.parent (race.members.length - 1))).interruptAll
      race.members)
  unfold Machine.raceExit
  exact (told.deliver _ _).ite told

theorem allExit (veiled : Veiled f m m') (k : GroupId) {all : Gathering σ}
    (other : all.parent ≠ f) (index : Nat) (x : Exit) :
    Veiled f (m.allExit k all index x) (m'.allExit k all index x) := by
  unfold Machine.allExit
  rw [veiled.isInterrupted_eq other]
  obtain ⟨-, -, parent, -⟩ := Gathering.settle_cases all index x (m.isInterrupted all.parent)
  generalize all.settle index x (m.isInterrupted all.parent) = result at parent ⊢
  obtain ⟨siblings, all'⟩ := result
  have settled := veiled.setGroup k (.all all')
  have told := settled.ite (c := siblings.isEmpty)
    ((settled.trace (.allFailed all'.parent siblings.length)).interruptAll siblings)
  have other' : all'.parent ≠ f := by
    rw [show all'.parent = all.parent from parent]
    exact other
  exact (told.deliver _ _).ite (told.fill k other')

/-- The exit of a member reaches its group, unless the veiled fiber waits for the group. -/
theorem memberExit (veiled : Veiled f m m') (k : GroupId)
    (other : ∀ all, m.groups.get? k = some (.all all) → all.parent ≠ f) (index : Nat) (x : Exit) :
    Veiled f (m.memberExit k index x) (m'.memberExit k index x) := by
  have groups : m'.groups = m.groups := by rw [veiled.rest]
  unfold Machine.memberExit
  rw [groups]
  split
  · exact veiled.raceExit k _ x
  · rename_i all row
    exact veiled.allExit k (other all row) index x
  · exact veiled

/-! ## Ends -/

theorem takeExit (veiled : Veiled f m m') (g : FiberId) :
    (m'.takeExit g).1 = (m.takeExit g).1 ∧ Veiled f (m.takeExit g).2 (m'.takeExit g).2 := by
  have exit : (m'.fiber? g).bind (·.exit) = (m.fiber? g).bind (·.exit) :=
    veiled.find g _ fun _ _ => rfl
  unfold Machine.takeExit
  rw [exit]
  split
  · refine ⟨rfl, veiled.modifyFiber g ?_⟩
    exact fun _ => ⟨fun _ => rfl, fun _ => List.Subset.refl _, fun _ => rfl⟩
  · exact ⟨rfl, veiled⟩

theorem tellWatcher (veiled : Veiled f m m') (g : FiberId) (w : WaitId) (how : Watch) :
    Veiled f (m.tellWatcher g w how) (m'.tellWatcher g w how) := by
  obtain ⟨exit, taken⟩ := veiled.takeExit g
  cases how with
  | join =>
      simp only [Machine.tellWatcher, exit]
      exact taken.resume w _
  | await =>
      simp only [Machine.tellWatcher, exit]
      exact taken.resume w _
  | interrupt => exact veiled.resume w _

theorem watch (veiled : Veiled f m m') (g : FiberId) (w : WaitId) (how : Watch) :
    Veiled f (m.watch g w how) (m'.watch g w how) := by
  unfold Machine.watch Machine.status
  rw [veiled.statusOf_eq]
  split
  · exact veiled.tellWatcher g w how
  · refine veiled.modifyFiber g ?_
    exact fun _ => ⟨fun _ => rfl, fun _ => List.Subset.refl _, fun _ => rfl⟩

theorem detach (veiled : Veiled f m m') (g : FiberId) (parent : Option FiberId) :
    Veiled f (m.detach g parent) (m'.detach g parent) := by
  cases parent with
  | some p =>
      refine veiled.modifyFiber p ?_
      exact fun _ => ⟨fun _ => rfl, fun _ => List.filter_subset_self _, fun _ => rfl⟩
  | none =>
      obtain ⟨fibers, record, rfl, same, hushed⟩ := veiled.exists_eq
      exact ⟨same, hushed, rfl, veiled.lone⟩

theorem handOver (veiled : Veiled f m m') (g : FiberId) (reader : ExitReader)
    (other : ∀ k i, reader.place = some (k, i) → ∀ all, m.groups.get? k = some (.all all) →
      all.parent ≠ f) (x : Exit) :
    Veiled f (m.handOver g reader x) (m'.handOver g reader x) := by
  cases reader with
  | joiner => exact veiled
  | group k i => exact veiled.memberExit k (other k i rfl) i x
  | handle =>
      obtain ⟨fibers, record, rfl, same, hushed⟩ := veiled.exists_eq
      exact ⟨same, hushed, rfl, veiled.lone⟩

theorem childGone (veiled : Veiled f m m') (p : FiberId) :
    (m'.childGone p).1 = (m.childGone p).1 ∧ Veiled f (m.childGone p).2 (m'.childGone p).2 := by
  have closing : (m'.fiber? p).bind (·.closing) = (m.fiber? p).bind (·.closing) :=
    veiled.find p _ fun _ _ => rfl
  unfold Machine.childGone
  rw [closing]
  split
  · exact ⟨rfl, veiled⟩
  · refine ⟨rfl, veiled.modifyFiber p ?_⟩
    exact fun _ => ⟨fun _ => rfl, fun _ => List.Subset.refl _, fun _ => rfl⟩

/-- A fiber that is about to end is not a child of the fiber without children. -/
theorem parent_ne (veiled : Veiled f m m') (coherent : Coherent m.core { leaving := some g })
    {fiber : Fiber σ} (row : m.core.fibers.get? g = some fiber) (live : fiber.verdict = none) :
    fiber.parent ≠ some f := by
  intro child
  have kin : m.core.kin g = some fiber.kin := Table.view_of_row _ row
  obtain ⟨k, kinF⟩ := Option.isSome_iff_exists.1 (coherent.family.parent_older kin child).2
  have listed := (coherent.family.mem_children kinF).2 ⟨fiber.kin, kin, child, live⟩
  obtain ⟨fiberF, rowF, rfl⟩ := Table.exists_row_of_view kinF
  have none : fiberF.children = [] := veiled.childless rowF
  rw [show fiberF.kin.children = fiberF.children from rfl, none] at listed
  cases listed

/-- The groups to which the exit of an ending fiber goes belong to other fibers. -/
theorem group_ne (veiled : Veiled f m m') (coherent : Coherent m.core { leaving := some g })
    {fiber : Fiber σ} (row : m.core.fibers.get? g = some fiber) (live : fiber.verdict = none)
    {k : GroupId} {i : Nat} (placed : fiber.reader.place = some (k, i)) {all : Gathering σ}
    (group : m.groups.get? k = some (.all all)) : all.parent ≠ f := by
  rintro rfl
  have place : m.core.place g = some (k, i) := (Table.find_of_row _ row).trans placed
  obtain ⟨G, row', parent⟩ := coherent.seating.member place
  obtain rfl := Option.some.inj (row'.symm.trans group)
  refine veiled.parent_ne coherent row live ?_
  exact (Table.find_of_row _ row).symm.trans parent

/-- A fiber ends, and perhaps some of the fibers above it. -/
theorem completeWithin (height : Nat) {x : Exit} (veiled : Veiled f m m')
    (coherent : Coherent m.core { leaving := some g }) (enough : g.raw ≤ height)
    (ends : Coherent.Ends m.core g) :
    Veiled f (m.completeWithin height g x) (m'.completeWithin height g x) := by
  induction height generalizing m m' g x with
  | zero => exact veiled
  | succ height ih =>
      obtain ⟨fiber, row, running, unsaved, silent⟩ := ends
      have live : fiber.verdict = none := by
        simp [Fiber.verdict, running, FiberStatus.isTerminal]
      have nothing : ∀ y, (none : Option (FiberId × Exit)) = some (g, y) → y = x := by simp
      have handed := coherent.handed_of_ends row running unsaved silent nothing (.inl rfl)
      have heard := coherent.heard_of_row row live enough
      -- the row of the other machine differs in its mark only
      obtain ⟨b, row'⟩ : ∃ b, m'.fiber? g = some { fiber with interrupted := b } := by
        rcases veiled.row g with ⟨none, -⟩ | ⟨fiber', b, row₁, row₂, -⟩
        · cases none.symm.trans row
        · obtain rfl := Option.some.inj (row.symm.trans row₁)
          exact ⟨b, row₂⟩
      rw [Coherent.completeWithin_succ (show m.fiber? g = some fiber from row),
        Coherent.completeWithin_succ row']
      have ended : Veiled f (m.modifyFiber g fun fiber => fiber.ended x)
          (m'.modifyFiber g fun fiber => fiber.ended x) :=
        veiled.modifyFiber g fun _ => ⟨fun _ => rfl, fun _ => List.nil_subset _, fun _ => rfl⟩
      have gone := ((ended.trace (.exited g x)).detach g fiber.parent).handOver g fiber.reader
        (fun k i placed all group => by
          refine @group_ne _ _ _ _ _ veiled coherent _ row live _ _ placed all ?_
          rw [← group]
          cases fiber.parent <;> rfl) x
      show Veiled f (fiber.observers.foldl _ _) (fiber.observers.foldl _ _)
      generalize Machine.handOver _ g fiber.reader x = n at handed gone ⊢
      generalize Machine.handOver _ g fiber.reader x = n' at gone ⊢
      generalize fiber.observers = observers at handed heard ⊢
      induction observers generalizing n n' with
      | nil => exact gone
      | cons observer observers ih' =>
          obtain ⟨told, heard'⟩ := Coherent.tell_observer (f := g)
            (fun leaving low last same => leaving.completeWithin height low last same (.inl rfl))
            handed heard
          refine ih' _ _ ?_ told heard'
          cases observer with
          | watcher w how => exact gone.tellWatcher g w how
          | closing p =>
              obtain ⟨exit, hears⟩ := gone.childGone p
              have last := Coherent.childGone (p := p) handed rfl
              unfold Coherent.tell
              simp only
              generalize n.childGone p = result at exit hears last ⊢
              generalize n'.childGone p = result' at exit hears ⊢
              obtain ⟨exit₁, n₁⟩ := result
              obtain ⟨exit₂, n₂⟩ := result'
              simp only at exit
              subst exit
              cases exit₂ with
              | none => exact hears
              | some exit₂ =>
                  obtain ⟨leaving, -, ends⟩ := last
                  exact ih hears leaving (heard.2 p (by simp [Observer.asker?])) ends

theorem awaitChild (veiled : Veiled f m m') (p c : FiberId) :
    Veiled f (m.awaitChild p c) (m'.awaitChild p c) := by
  refine veiled.modifyFiber c ?_
  exact fun _ => ⟨fun _ => rfl, fun _ => List.Subset.refl _, fun _ => rfl⟩

/-- The program of the fiber on the worker has an exit. -/
theorem finish (veiled : Veiled f m m') (coherent : Coherent m.core { held := some g })
    (x : Exit) : Veiled f (m.finish g x) (m'.finish g x) := by
  obtain ⟨fiber, row, -⟩ := coherent.row_of_held rfl
  have row' : m.fiber? g = some fiber := row
  unfold Machine.finish
  rw [veiled.read g Fiber.children fun _ _ => rfl, row', Option.map_some, Option.getD_some]
  dsimp only
  split
  · rename_i alone
    obtain ⟨leaving, ends⟩ := coherent.leave_of_held row (List.isEmpty_iff.1 alone)
    unfold Machine.complete
    rw [veiled.size_eq]
    exact veiled.completeWithin _ leaving (Nat.le_of_lt (Table.raw_lt_nextId row)) ends
  · refine foldl (interruptAll (modifyFiber (veiled.trace _) g ?_) _)
      (fun _ _ c h => h.awaitChild g c) _
    exact fun _ => ⟨fun _ => rfl, fun _ => List.Subset.refl _, fun _ => rfl⟩

end Veiled

end EffectFibers
