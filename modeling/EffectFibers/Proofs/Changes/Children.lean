import EffectFibers.Machine.Complete
import EffectFibers.Machine.Group
import EffectFibers.Proofs.Changes.Spares
import EffectFibers.Proofs.Coherence.Complete

/-!
# Children, groups and ends, change by change

A fiber gets children when it starts them itself, or when a group of its own starts the next ones.
It hands an exit to its group, which may interrupt others and tell the parent, and its end is told
to those who watch it.

## Main statements

* `Evolves.spawnChild`, `Evolves.startRace`, `Evolves.startAll` – new children.
* `Evolves.completeWithin`, `Evolves.finish` – the end of a fiber.
-/

namespace EffectFibers

variable {σ : Type}

namespace Evolves

variable {actor : Option FiberId} {deals : Bool} {m m' : Machine σ} {f g p : FiberId} {w : WaitId}
  {k : GroupId} {reader : ExitReader}

/-! ## New fibers -/

theorem spawnChild (own : actor = some p ∨ m.LeadsGroup p) (node : Node σ)
    (context : Context Value) (reader : ExitReader) :
    Evolves actor deals m (m.spawnChild p node context reader).2 := by
  unfold Machine.spawnChild
  refine (of_change (.pushFiber ?_ ?_)).trans
    ((of_change (.adopt m.fibers.nextId ?_)).trans (trace _ (.inr rfl)))
  · exact ⟨⟨node, context, rfl⟩, rfl, rfl, rfl, rfl, rfl, rfl, rfl⟩
  · exact rfl
  · exact own

theorem fork (node : Node σ) (context : Context Value) :
    Evolves (some p) deals m (m.fork p node context).2 :=
  (spawnChild (.inl rfl) node context .joiner).trans (enqueue _ _)

theorem startRoot (m : Machine σ) (node : Node σ) : Evolves actor deals m (m.startRoot node).2 := by
  have noted : Evolves actor deals m { m with scopes := m.scopes.push [] } := by
    refine of_change (.quiet ⟨rfl, rfl, rfl, rfl, rfl, fun s known => ?_, ?_⟩ fun _ => rfl)
    · obtain ⟨memo, row⟩ := Option.isSome_iff_exists.1 known
      rw [Table.get?_push_of_some [] row]
      rfl
    rintro w ⟨scope, layer, listed⟩
    refine .inl ⟨scope, layer, ?_⟩
    simp only [Machine.memo, Table.get?_push] at listed ⊢
    split at listed
    · cases listed
    · exact listed
  have born : Evolves actor deals { m with scopes := m.scopes.push [] } (m.spawnRoot node).2 := by
    refine (of_change (.pushFiber ?_ ?_)).trans (trace _ (.inr rfl))
    · exact ⟨⟨node, .empty, rfl⟩, rfl, rfl, rfl, rfl, rfl, rfl, rfl⟩
    · exact Option.isSome_iff_exists.2 ⟨[], Table.get?_push_self _ _⟩
  have listed : Evolves actor deals (m.spawnRoot node).2 (m.startRoot node).2 :=
    of_change (.quiet (.of_scopes rfl rfl rfl rfl rfl rfl) fun _ => rfl)
  exact (noted.trans born).trans listed

theorem spawnMembers (own : actor = some p ∨ m.LeadsGroup p) (context : Context Value)
    (k : GroupId) (nodes : List (Nat × Node σ)) :
    Evolves actor deals m (m.spawnMembers p context k nodes).2 := by
  induction nodes generalizing m with
  | nil => exact refl m
  | cons node nodes ih =>
      obtain ⟨index, node⟩ := node
      have first : Evolves actor deals m _ := spawnChild own node context (.group k index)
      exact first.trans (ih (own.imp_right first.leadsGroup))

/-! ## Groups -/

theorem setGroup {group : Group σ} (before : Group σ) (row : m.groups.get? k = some before)
    (parent : group.parent = before.parent) : Evolves actor deals m (m.setGroup k group) := by
  refine of_change (.setGroup fun other row' => ?_)
  obtain rfl := Option.some.inj (row.symm.trans row')
  exact parent

theorem pushGroup {group : Group σ} (parent : group.parent = p) (row : (m.fiber? p).isSome) :
    Evolves (some p) deals m { m with groups := m.groups.push group } := by
  subst parent
  exact of_change (.pushGroup rfl row)

theorem startRace (row : (m.fiber? p).isSome) (context : Context Value) (nodes : List (Node σ)) :
    Evolves (some p) deals m (m.startRace p context nodes).2 := by
  let race : Race := { parent := p, members := [], remaining := nodes.length }
  have pushed : Evolves (some p) deals m { m with groups := m.groups.push (.race race) } :=
    pushGroup rfl row
  have born := pushed.trans (spawnMembers (.inl rfl) context m.groups.nextId
    (Machine.numbered nodes))
  unfold Machine.startRace
  generalize spawned : Machine.spawnMembers
    { m with groups := m.groups.push (.race race) } p context
    m.groups.nextId (Machine.numbered nodes) = result at born ⊢
  obtain ⟨children, n⟩ := result
  have row' : n.groups.get? m.groups.nextId = some (.race race) := by
    have groups := (Machine.spares_spawnMembers { m with groups := m.groups.push (.race race) } p
      context m.groups.nextId (Machine.numbered nodes)).groups
    rw [spawned] at groups
    rw [groups]
    exact Table.get?_push_self _ _
  simp only [race] at spawned
  simp only [spawned]
  have formed : Evolves (some p) deals n (n.setGroup m.groups.nextId
      (.race { race with members := children.map (·.2) })) := setGroup _ row' rfl
  exact born.trans (formed.trans (enqueueAll _ _))

theorem fill {all before : Gathering σ} (row : m.groups.get? k = some (.all before))
    (parent : all.parent = before.parent) : Evolves actor deals m (m.fill k all) := by
  unfold Machine.fill
  simp only
  split
  · exact refl m
  · have leads : m.LeadsGroup all.parent := ⟨k, .all before, row, parent.symm⟩
    have born : Evolves actor deals m (m.spawnMembers all.parent all.context k
        (all.queue.take (all.limit - all.running.length))).2 :=
      spawnMembers (.inr leads) all.context k _
    have groups := (m.spares_spawnMembers all.parent all.context k
      (all.queue.take (all.limit - all.running.length))).groups
    generalize m.spawnMembers all.parent all.context k
      (all.queue.take (all.limit - all.running.length)) = result at born groups ⊢
    obtain ⟨children, n⟩ := result
    have row' : n.groups.get? k = some (.all before) := groups ▸ row
    let after : Gathering σ := { all with
      queue := all.queue.drop (all.limit - all.running.length), running := all.running ++ children }
    have formed : Evolves actor deals n (n.setGroup k (.all after)) := setGroup _ row' parent
    exact born.trans (formed.trans (enqueueAll _ _))

theorem startAll (row : (m.fiber? p).isSome) (context : Context Value) (nodes : List (Node σ))
    (options : AllOptions) : Evolves (some p) deals m (m.startAll p context nodes options).2 := by
  let all := Gathering.task p context nodes options
  have pushed : Evolves (some p) deals m { m with groups := m.groups.push (.all all) } :=
    pushGroup rfl row
  have filled : Evolves (some p) deals { m with groups := m.groups.push (.all all) }
      (Machine.fill { m with groups := m.groups.push (.all all) } m.groups.nextId all) :=
    fill (Table.get?_push_self _ _) rfl
  exact pushed.trans filled

theorem raceExit {race : Race} (row : m.groups.get? k = some (.race race))
    (asleep : m.core.awaits race.parent = some k) (x : Exit) :
    Evolves actor deals m (m.raceExit k race x) := by
  let after : Race := { race with
    remaining := race.remaining - 1, winner := some (race.winner.getD x) }
  have settled : Evolves actor deals m (m.setGroup k (.race after)) := setGroup _ row rfl
  have told : Evolves actor deals m (if race.winner.isSome then m.setGroup k (.race after)
      else ((m.setGroup k (.race after)).trace
        (.raceSettled race.parent (race.members.length - 1))).interruptAll race.members) := by
    split
    · exact settled
    · exact settled.trans ((trace _ (.inr rfl)).trans (interruptAll _ _))
  -- interrupting the losers wakes nobody who sleeps on a group
  have asleep' : Core.awaits (Machine.core (if race.winner.isSome then m.setGroup k (.race after)
      else ((m.setGroup k (.race after)).trace
        (.raceSettled race.parent (race.members.length - 1))).interruptAll race.members))
      race.parent = some k := by
    split
    · exact asleep
    · have calm := Coherent.calm_interruptAll ((m.setGroup k (.race after)).trace
        (.raceSettled race.parent (race.members.length - 1))) race.members
      rw [Machine.core_trace_of_quiet _ rfl rfl] at calm
      exact (congrFun calm.awaits _).trans asleep
  unfold Machine.raceExit
  simp only
  split
  · exact told.trans (of_change (.deliver _ (told.leadsGroup ⟨k, _, row, rfl⟩) asleep'))
  · exact told

theorem parent_settle (all : Gathering σ) (index : Nat) (x : Exit) (interrupted : Bool) :
    (all.settle index x interrupted).2.parent = all.parent := by
  unfold Gathering.settle Gathering.fail
  grind

theorem allExit {all : Gathering σ} (row : m.groups.get? k = some (.all all))
    (asleep : m.core.awaits all.parent = some k) (index : Nat) (x : Exit) :
    Evolves actor deals m (m.allExit k all index x) := by
  have parent := parent_settle all index x (m.isInterrupted all.parent)
  unfold Machine.allExit
  generalize all.settle index x (m.isInterrupted all.parent) = result at parent ⊢
  obtain ⟨siblings, after⟩ := result
  simp only at parent ⊢
  have settled : Evolves actor deals m (m.setGroup k (.all after)) := setGroup _ row parent
  have known : (m.setGroup k (.all after)).groups.get? k = some (.all after) := by
    simp [Machine.setGroup, Table.get?_modify, row]
  have told : Evolves actor deals m (if siblings.isEmpty then m.setGroup k (.all after)
      else ((m.setGroup k (.all after)).trace
        (.allFailed after.parent siblings.length)).interruptAll siblings) ∧
      Table.get? (Machine.groups (if siblings.isEmpty then m.setGroup k (.all after)
      else ((m.setGroup k (.all after)).trace
        (.allFailed after.parent siblings.length)).interruptAll siblings)) k =
          some (.all after) ∧
      Core.awaits (Machine.core (if siblings.isEmpty then m.setGroup k (.all after)
      else ((m.setGroup k (.all after)).trace
        (.allFailed after.parent siblings.length)).interruptAll siblings)) after.parent =
          some k := by
    rw [parent]
    split
    · exact ⟨settled, known, asleep⟩
    · have calm := Coherent.calm_interruptAll ((m.setGroup k (.all after)).trace
        (.allFailed all.parent siblings.length)) siblings
      rw [Machine.core_trace_of_quiet _ rfl rfl] at calm
      exact ⟨settled.trans ((trace _ (.inr rfl)).trans (interruptAll _ _)),
        (congrArg (fun t => Table.get? t k) calm.groups).trans known,
        (congrFun calm.awaits _).trans asleep⟩
  obtain ⟨told, row', asleep'⟩ := told
  split
  · exact told.trans (of_change (.deliver _ ⟨k, _, row', rfl⟩ asleep'))
  · exact told.trans (fill row' rfl)

theorem memberExit (asleep : ∀ group, m.groups.get? k = some group →
      m.core.awaits group.parent = some k) (index : Nat) (x : Exit) :
    Evolves actor deals m (m.memberExit k index x) := by
  unfold Machine.memberExit
  split
  · rename_i race row
    exact raceExit row (asleep _ row) x
  · rename_i all row
    exact allExit row (asleep _ row) index x
  · exact refl m

/-! ## The end of a fiber -/

/-- A change that does not concern the fiber's own program. -/
theorem mild {change : Fiber σ → Fiber σ} (mild : ∀ fiber, Fiber.Mild fiber (change fiber))
    (kept : deals = false → ∀ fiber : Fiber σ, fiber.SameBook (change fiber)) :
    Evolves actor deals m (m.modifyFiber g change) :=
  of_change (.mild (fun fiber _ => mild fiber) fun leaves fiber _ => kept leaves fiber)

theorem takeExit (m : Machine σ) (g : FiberId) : Evolves actor true m (m.takeExit g).2 := by
  unfold Machine.takeExit
  split
  · exact mild (fun _ => ⟨rfl, rfl, rfl, rfl, rfl, rfl, List.Subset.refl _, fun _ _ => id,
      ⟨rfl, rfl, rfl⟩⟩) nofun
  · exact refl m

theorem tellWatcher (untimed : m.Untimed w) (g : FiberId) (how : Watch) :
    Evolves actor true m (m.tellWatcher g w how) := by
  have taken : Evolves actor true m (m.takeExit g).2 := takeExit m g
  cases how with
  | join => exact taken.trans (resume (untimed.mono taken.keepsWaits) _)
  | await => exact taken.trans (resume (untimed.mono taken.keepsWaits) _)
  | interrupt => exact resume_null m w

theorem watch (untimed : m.Untimed w) (g : FiberId) (how : Watch) :
    Evolves actor true m (m.watch g w how) := by
  unfold Machine.watch
  split
  · exact tellWatcher untimed g how
  · exact of_change (.watch g how untimed rfl)

theorem detach (m : Machine σ) (g : FiberId) (parent : Option FiberId) :
    Evolves actor deals m (m.detach g parent) := by
  cases parent with
  | none => exact of_change (.quiet (.of_scopes rfl rfl rfl rfl rfl rfl) fun _ => rfl)
  | some p =>
      exact mild (fun fiber => ⟨rfl, rfl, rfl, rfl, rfl, rfl, List.filter_sublist.subset,
        fun _ _ => id, ⟨rfl, rfl, rfl⟩⟩) fun _ _ => ⟨rfl, rfl, rfl⟩

theorem handOver (asleep : ∀ k i group, reader.place = some (k, i) →
      m.groups.get? k = some group → m.core.awaits group.parent = some k) (g : FiberId) (x : Exit) :
    Evolves actor deals m (m.handOver g reader x) := by
  cases reader with
  | joiner => exact refl m
  | group k place => exact memberExit (fun group => asleep k place group rfl) place x
  | handle => exact of_change (.quiet (.of_scopes rfl rfl rfl rfl rfl rfl) fun _ => rfl)

theorem awaitChild (p : FiberId) (m : Machine σ) (c : FiberId) :
    Evolves actor true m (m.awaitChild p c) := by
  refine mild (fun _ => ⟨rfl, rfl, rfl, rfl, rfl, rfl, List.Subset.refl _, fun w how listed => ?_,
    ⟨rfl, rfl, rfl⟩⟩) nofun
  simpa using listed

/-- Who has counted the end of a child has a program that has ended. -/
theorem childGone (m : Machine σ) (p : FiberId) : Evolves actor deals m (m.childGone p).2 ∧
    ((m.childGone p).1.isSome → ∃ fiber, (m.childGone p).2.fiber? p = some fiber ∧
      fiber.closing.isSome) := by
  unfold Machine.childGone
  split
  · exact ⟨refl m, by simp⟩
  · rename_i closing known
    obtain ⟨fiber, row, ends⟩ := Option.bind_eq_some_iff.1 known
    refine ⟨of_change (.mild (fun before row' => ?_) fun _ _ _ => ⟨rfl, rfl, rfl⟩), fun _ => ?_⟩
    · obtain rfl := Option.some.inj (row.symm.trans row')
      exact ⟨rfl, rfl, rfl, rfl, rfl, by simp [ends], List.Subset.refl _, fun _ _ => id,
        ⟨rfl, rfl, rfl⟩⟩
    · refine ⟨{ fiber with closing := some { closing with remaining := closing.remaining - 1 } },
        ?_, rfl⟩
      rw [Machine.fiber?_modifyFiber, if_pos rfl, row]
      rfl

/-- When a member of a group has ended, the parent of the group sleeps on it. -/
theorem asleep_of_leaving {fiber : Fiber σ} (coherent : Coherent m.core { leaving := some g })
    (row : m.fiber? g = some fiber) (ends : Coherent.Ends m.core g) (x : Exit) {i : Nat}
    {group : Group σ} (member : fiber.place = some (k, i))
    (known : Table.get? (((m.modifyFiber g fun fiber => fiber.ended x).trace (.exited g x)).detach g
      fiber.parent).groups k = some group) :
    Core.awaits (((m.modifyFiber g fun fiber => fiber.ended x).trace (.exited g x)).detach g
      fiber.parent).core group.parent = some k := by
  obtain ⟨fiber', row', running, unsaved, silent⟩ := ends
  obtain rfl := Option.some.inj (row.symm.trans row')
  have retired := coherent.retire row running unsaved silent x (by simp) (.inl rfl)
  obtain ⟨placed, -⟩ := Coherent.place_retired row x fiber.parent
  rw [member] at retired placed
  rcases retired.seating.awaited placed (.inr rfl) known with asleep | ⟨held, -⟩
  · exact asleep
  · cases held

/-- The parent of a fiber that has ended forgets it, and its reader gets its exit. -/
theorem leave {fiber : Fiber σ} (coherent : Coherent m.core { leaving := some g })
    (row : m.fiber? g = some fiber) (ends : Coherent.Ends m.core g) (x : Exit) :
    Evolves actor deals ((m.modifyFiber g fun fiber => fiber.ended x).trace (.exited g x))
      ((((m.modifyFiber g fun fiber => fiber.ended x).trace (.exited g x)).detach g
        fiber.parent).handOver g fiber.reader x) :=
  (detach _ g fiber.parent).trans
    (handOver (fun _ _ _ member known => asleep_of_leaving coherent row ends x member known) g x)

/-- After the end of a fiber others are told, and perhaps some of the fibers above it end. -/
theorem afterEnd_of {height : Nat} (tidy : m.Tidy)
    (coherent : Coherent m.core { leaving := some g })
    (enough : g.raw ≤ height + 1) (ends : Coherent.Ends m.core g)
    (above : ∀ {n : Machine σ} {p : FiberId} {y : Exit}, n.Tidy →
      Coherent n.core { leaving := some p } → p.raw ≤ height → Coherent.Ends n.core p →
      (∃ fiber, n.fiber? p = some fiber ∧ fiber.closing.isSome) →
      Evolves actor true n (n.completeWithin height p y)) (x : Exit) :
    Evolves actor true (m.modifyFiber g fun fiber => fiber.ended x)
      (m.completeWithin (height + 1) g x) := by
  obtain ⟨fiber, row, running, unsaved, silent⟩ := ends
  have ended : Change (some g) true m (m.modifyFiber g fun fiber => fiber.ended x) :=
    .ended x rfl (.inl rfl)
  have tidy' := ended.tidy tidy
  have noted : Evolves actor true (m.modifyFiber g fun fiber => fiber.ended x)
      ((m.modifyFiber g fun fiber => fiber.ended x).trace (.exited g x)) := trace _ (.inl rfl)
  have gone := noted.trans (leave coherent row ⟨fiber, row, running, unsaved, silent⟩ x)
  have unpromised : ∀ y, (none : Option (FiberId × Exit)) = some (g, y) → y = x := by simp
  have handed := coherent.handed_of_ends row running unsaved silent unpromised (.inl rfl)
  have live : fiber.verdict = none := by
    simp [Fiber.verdict, running, FiberStatus.isTerminal]
  have heard := coherent.heard_of_row row live enough
  have untimed : ∀ w how, .watcher w how ∈ fiber.observers →
      (m.modifyFiber g fun fiber => fiber.ended x).Untimed w := fun w how listed =>
    (tidy.watchers row listed).mono ended.keepsWaits
  rw [Coherent.completeWithin_succ (show m.fiber? g = some fiber from row)]
  generalize Machine.handOver _ g fiber.reader x = n at gone handed ⊢
  generalize fiber.observers = observers at untimed handed heard ⊢
  -- the fold goes on from a machine that has evolved from the first one
  induction observers generalizing n with
  | nil => exact gone
  | cons observer observers ih' =>
      obtain ⟨told, heard'⟩ := Coherent.tell_observer (f := g)
        (fun leaving low last same => leaving.completeWithin height low last same (.inl rfl))
        handed heard
      refine ih' _ ?_ (fun w how listed => untimed w how (by simp [listed])) told heard'
      cases observer with
      | watcher w how =>
          exact gone.trans (tellWatcher ((untimed w how (by simp)).mono gone.keepsWaits) g how)
      | closing p =>
          have low : p.raw ≤ height := heard.2 p (by simp [Observer.asker?])
          have late : Coherent n.core { late := some p } := by
            simpa [Coherent.asker, Observer.asker?] using handed
          have outcome := Coherent.childGone late rfl
          have counts : Evolves actor true n (n.childGone p).2 ∧ _ := childGone n p
          obtain ⟨counted, closes⟩ := counts
          rw [Coherent.tell]
          generalize n.childGone p = result at outcome counted closes ⊢
          obtain ⟨exit, n'⟩ := result
          cases exit with
          | none => exact gone.trans counted
          | some exit =>
              obtain ⟨leaving, -, last⟩ := outcome
              have after := gone.trans counted
              exact after.trans (above (after.tidy tidy') leaving low last (closes rfl))

/-- A fiber ends whose program has ended, and with it perhaps some of the fibers above it. -/
theorem completeWithin (height : Nat) (tidy : m.Tidy)
    (coherent : Coherent m.core { leaving := some g }) (enough : g.raw ≤ height)
    (ends : Coherent.Ends m.core g)
    (gone : actor = some g ∨ ∃ fiber, m.fiber? g = some fiber ∧ fiber.closing.isSome) (x : Exit) :
    Evolves actor true m (m.completeWithin height g x) := by
  induction height generalizing m g x with
  | zero => exact refl m
  | succ height ih =>
      exact (of_change (.ended x rfl gone)).trans (afterEnd_of tidy coherent enough ends
        (fun tidy coherent low ends closes => ih tidy coherent low ends (.inr closes) _) x)

/-- What follows the end of a fiber concerns others. -/
theorem afterEnd (tidy : m.Tidy) (coherent : Coherent m.core { leaving := some g })
    (ends : Coherent.Ends m.core g) (x : Exit) :
    Evolves actor true (m.modifyFiber g fun fiber => fiber.ended x) (m.complete g x) := by
  obtain ⟨fiber, row, -⟩ := id ends
  have bound : g.raw ≤ m.fibers.size := Nat.le_of_lt_succ (Table.raw_lt_nextId row)
  exact afterEnd_of tidy coherent (Nat.le_succ_of_le bound) ends
    (fun tidy coherent low ends closes => completeWithin _ tidy coherent low ends (.inr closes) _) x

/-- The program of the actor has an exit. -/
theorem finish (tidy : m.Tidy) (coherent : Coherent m.core { held := some g }) (x : Exit) :
    Evolves (some g) true m (m.finish g x) := by
  obtain ⟨fiber, row, -⟩ := coherent.row_of_held rfl
  have row' : m.fiber? g = some fiber := row
  unfold Machine.finish
  simp only [row', Option.map_some, Option.getD_some]
  split
  · rename_i alone
    obtain ⟨leaving, ends⟩ := coherent.leave_of_held row (List.isEmpty_iff.1 alone)
    exact completeWithin _ tidy leaving (Nat.le_of_lt (Table.raw_lt_nextId row)) ends (.inl rfl) x
  · refine (trace _ (.inr rfl)).trans ((of_change (.own rfl (fun fiber => ?_) fun fiber => ?_)).trans
      ((interruptAll _ _).trans (foldl _ (fun m c => awaitChild g m c) _)))
    · exact ⟨rfl, rfl, rfl, rfl⟩
    · exact ⟨rfl, rfl, rfl⟩

end Evolves

end EffectFibers
