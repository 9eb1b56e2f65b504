import EffectFibers.Machine.Launch
import EffectFibers.Proofs.LayersOnce
import EffectFibers.Proofs.Services.Combinators
import EffectFibers.Proofs.Services.Run

/-!
# Services are found

The set of services that a program needs is gathered from its visible parts, and what the rest needs
is for the program to declare.  A program that does so, and whose set is empty, finds every service
that it looks up: in each of its fibers, in the constructors of its layers, after failures and
interrupts, and whatever else runs on the machine.  Such a program cannot be told that a service is
missing.

## Main definitions

* `Stride.LooksUp`, `Stride.Finds` – a fiber looks up a service, and gets it.

## Main statements

* `services_are_found` – a program that declares what it needs, and is accepted, gets what it looks
  up.
-/

namespace EffectFibers

variable {σ : Type}

/-! ## Lookups -/

/-- The tree of a lookup goes on with the service of a context, or with a defect. -/
theorem Effect.exists_reader (tag : Tag) : ∃ reader : Context Value → Action σ (Node σ),
    (Effect.service tag).node = .access reader ∧
      (∀ c v, c.get? tag = some v → reader c = Node.given (.ok v)) ∧
      ∀ c, c.get? tag = none → reader c = pure (.die (.missingService tag.name)) :=
  ⟨_, rfl, fun c v found => by simp only [found], fun c missing => by simp only [missing]⟩

namespace Stride

/-- The tree of a lookup is evaluated. -/
def LooksUp (t : Stride σ) (tag : Tag) : Prop := t.slice.run.next = .eval (Effect.service tag).node

/-- The service is there, and the fiber goes on with it. -/
def Finds (t : Stride σ) (tag : Tag) : Prop :=
  ∃ v ticket, t.slice.run.context.get? tag = some v ∧
    t.result.control = .eval (.once ticket (.ok v))

/-- A lookup finds the service in the context of the fiber, or it dies as the service is missing.
No interrupt is noticed in between. -/
theorem finds_or_dies {t : Stride σ} {tag : Tag} (looks : t.LooksUp tag) : t.Finds tag ∨
    t.slice.run.context.get? tag = none ∧
      t.result.control = .eval (.die (.missingService tag.name)) := by
  obtain ⟨reader, same, finds, misses⟩ := Effect.exists_reader (σ := σ) tag
  have step : t.result = t.machine.build t.slice.run (reader t.slice.run.context) := by
    rw [result, Machine.stepRun, looks, same]
    rfl
  cases found : t.slice.run.context.get? tag with
  | some v =>
      rw [finds _ v found] at step
      exact .inl ⟨v, t.machine.world.tickets.next.1, found, by rw [step]; rfl⟩
  | none =>
      rw [misses _ found] at step
      exact .inr ⟨rfl, by rw [step]; rfl⟩

end Stride

/-! ## The lookups of a program -/

namespace Moment

variable {μ : Moment σ} {strict : ScopeId → Prop} {cat : Catalogue} {event : Event σ}
  {f : FiberId} {s : ScopeId} {t : Stride σ} {tag : Tag}

/-- In the runs that are meant, a lookup finds its service. -/
theorem Served.finds (reachable : Reachable μ) (served : μ.Served strict cat) (meant : strict s)
    (belongs : μ.Belongs f s) (stride : μ.strideAt f event = some t) (looks : t.LooksUp tag) :
    t.Finds tag := by
  obtain ⟨-, ready, -⟩ := reachable.stride stride
  obtain ⟨fiber, row, rfl⟩ := belongs
  obtain ⟨goal, -, next⟩ : t.slice.run.Fits (strict fiber.scope) cat :=
    served.fits f fiber _ row ready
  rw [looks] at next
  obtain ⟨tags, covers, needs⟩ := next
  have declared : tags tag.id := (Node.needs_access.1 needs).1 tag t.machine.world rfl
  obtain ⟨v, found⟩ := Context.exists_service (covers meant tag.id declared)
  refine (Stride.finds_or_dies looks).resolve_right fun dies => ?_
  rw [found] at dies
  cases dies.1

/-- A program that was accepted needs no services, and has become a root fiber. -/
theorem of_launch {m m' : Machine σ} {e : Effect σ} {root : FiberId}
    (accepted : m.launch e = .ok (root, m')) :
    (∀ t, e.requires.contains t ≠ true) ∧ m.startRoot e.node = (root, m') := by
  unfold Machine.launch at accepted
  cases vetted : m.vet e with
  | error refused => simp [vetted, bind, Except.bind] at accepted
  | ok _ =>
      refine ⟨fun t needed => ?_, by simpa [vetted, bind, Except.bind, pure, Except.pure]
        using accepted⟩
      unfold Machine.vet at vetted
      split at vetted
      · cases vetted
      · split at vetted
        · cases vetted
        · rename_i empty
          exact Requirements.not_contains_of_isEmpty (by simpa using empty) needed

/-- From its start on, the runs are served in which an accepted program has its fibers. -/
theorem Reachable.served_launch (reachable : Reachable μ) {e : Effect σ} {root : FiberId}
    {m : Machine σ} (accepted : μ.machine.launch e = .ok (root, m))
    (declares : e.Declares cat fun t => e.requires.contains t = true)
    (served : μ.Served (fun s => s = μ.machine.scopes.nextId) cat) :
    ∃ later, (μ.apply (.start e.node)).Served (fun s => s = μ.machine.scopes.nextId) later ∧
      (μ.apply (.start e.node)).Belongs root μ.machine.scopes.nextId := by
  obtain ⟨nothing, started⟩ := of_launch accepted
  have suits : e.node.Suits True cat none .empty :=
    ⟨_, fun _ t needed => absurd needed (nothing t), declares.needs fun _ => id⟩
  have fits : (Event.start e.node).Suits (μ.machine.scopes.nextId = μ.machine.scopes.nextId) cat := by
    rw [eq_self]
    exact suits
  obtain ⟨later, -, served'⟩ := reachable.served_apply served fits
  refine ⟨later, served', ?_⟩
  obtain rfl := congrArg Prod.fst started
  exact μ.belongs_start e.node

/-- Every service that a program looks up is found, if the program is accepted and declares what
the effects need that its functions return.  The identities of its layers have been handed out by
the time it is started, and what else is started on the machine takes back no such identity. -/
theorem services_are_found {world : World σ} {budget : Nat} {before after : List (Event σ)}
    {cat : Catalogue} {e : Effect σ} {root : FiberId} {m : Machine σ}
    (accepted : ((initial world budget).run before).machine.launch e = .ok (root, m))
    (declares : e.Declares cat fun t => e.requires.contains t = true)
    (known : ((initial world budget).run before).machine.world.Knows cat)
    (others : ∀ node, .start node ∈ before ++ after → node.Tame) {s : ScopeId} {f : FiberId}
    (ours : ((initial world budget).run (before ++ .start e.node :: after)).Belongs root s)
    (member : ((initial world budget).run (before ++ .start e.node :: after)).Belongs f s)
    {event : Event σ} {t : Stride σ} {tag : Tag}
    (stride : ((initial world budget).run (before ++ .start e.node :: after)).strideAt f event =
      some t)
    (looks : t.LooksUp tag) : t.Finds tag := by
  have first : Reachable (initial world budget) := .initial world budget
  have launched := first.run before
  rw [run_append, run_cons] at ours member stride
  generalize same : (initial world budget).run before = μ at *
  -- until the program is started, nothing is promised of anybody, and nothing is catalogued
  have served : (initial world budget).Served (fun s => s = μ.machine.scopes.nextId)
      fun _ => none := served_initial fun l t listed => by cases listed
  obtain ⟨early, -, served⟩ := first.served_run served
    (fun node listed => others node (List.mem_append_left after listed))
    fun events node rest split here => (first.run events).nextId_ne node rest <| by
      rw [here, ← same, split, run_append, run_cons]
  rw [same] at served
  have waiting : μ.Served (fun s => s = μ.machine.scopes.nextId) cat :=
    served.recatalogue launched (by rintro s rfl; exact Table.get?_nextId _) known
  -- from then on, the programs that are started get runs of their own
  obtain ⟨later, begun, belongs⟩ := launched.served_launch accepted declares waiting
  have started := launched.apply (.start e.node)
  obtain ⟨last, -, going⟩ := started.served_run begun
    (fun node listed => others node (List.mem_append_right before listed))
    fun events node rest _ => launched.nextId_ne e.node events
  have meant := ours.unique (started.belongs_run belongs after)
  exact going.finds (started.run after) meant member stride looks

/-! ## A service that is built from another one -/

/-- The tag of a second number. -/
def twiceTag : Tag := { id := ⟨2⟩, name := "twice" }

/-- A layer for a number. -/
def numberLayer : Layer Unit where
  nodes := [{
    id := ⟨1⟩
    name := Layer.defaultName numberTag
    outputs := .of numberTag
    inputs := .none
    build := .succeed (.context numberSeven) }]
  exports := .of numberTag

/-- Twice the number. -/
def twiceNumber : Effect Unit :=
  (Effect.service numberTag).map fun v => pure (match v with
    | .int n => .int (2 * n)
    | v => v)

/-- A layer whose service is twice the number, which it has to look up. -/
def twiceLayer : Layer Unit where
  nodes := [{
    id := ⟨2⟩
    name := Layer.defaultName twiceTag
    outputs := .of twiceTag
    inputs := twiceNumber.requires
    build := .flatMap twiceNumber.node fun v => (match v with
      | .alien => pure (.die .typeMismatch)
      | service => Node.given (.ok (Layer.single twiceTag service)) : Action Unit (Node Unit)) }]
  exports := .of twiceTag

/-- A continuation looks up the number that a layer has built from the number of another layer. -/
def lateLookup : Effect Unit :=
  ((Effect.unit.flatMap fun _ => pure (Effect.service twiceTag)).requiring twiceTag).provide
    (twiceLayer.provide numberLayer)

/-- Which services the two layers stand for. -/
def twoLayers : Catalogue := fun l =>
  if l = ⟨1⟩ then some numberTag.id else if l = ⟨2⟩ then some twiceTag.id else none

/-- A world in which both layers have been made. -/
def twoMade : World Unit := { host := (), layers := { issued := 2 } }

/-- The program after some operations of the worker. -/
def lookingUp (works : Nat) : Moment Unit :=
  (initial twoMade 100).run ([] ++ .start lateLookup.node :: List.replicate works .work)

theorem numberLayer_declares : numberLayer.Declares twoLayers := by
  have made : ((Layer.succeed numberTag (.int 7) : Action Unit (Layer Unit)) (fun _ => .running)
    { host := () }).result = .ok numberLayer := rfl
  refine .succeed made fun n listed t produced => ?_
  obtain rfl := List.mem_singleton.1 listed
  obtain rfl := Requirements.contains_of.1 produced
  rfl

theorem twiceLayer_declares : twiceLayer.Declares twoLayers := by
  have made : (Layer.ofNode twiceTag twiceNumber.node twiceNumber.requires (fun _ => .running)
    { host := (), layers := { issued := 1 } }).result = .ok twiceLayer := rfl
  refine .ofNode (.map (.service numberTag) fun _ => .pure _) made fun n listed t produced => ?_
  obtain rfl := List.mem_singleton.1 listed
  obtain rfl := Requirements.contains_of.1 produced
  rfl

/-- The number of the continuation is declared, and then provided. -/
theorem lateLookup_declares (tags : TagId → Prop) : lateLookup.Declares twoLayers tags := by
  refine .provide (.requiring (.flatMap_of_yields .unit fun v => .pure fun later _ => ?_) _)
    (.provide twiceLayer_declares numberLayer_declares)
  exact ⟨.service twiceTag, fun t needed => .inr needed⟩

theorem knows_twoLayers : twoMade.Knows twoLayers := by
  intro l t listed
  unfold twoLayers at listed
  split at listed
  · rename_i first
    simp [first, twoMade]
  · split at listed
    · rename_i second
      simp [second, twoMade]
    · cases listed

/-- The constructor of the second layer finds the service of the first one, and the continuation
finds that of the second one. -/
theorem late_lookup_finds :
    (∃ t, (lookingUp 11).strideAt ⟨1⟩ .work = some t ∧ t.LooksUp numberTag ∧ t.Finds numberTag) ∧
    ∃ t, (lookingUp 31).strideAt ⟨1⟩ .work = some t ∧ t.LooksUp twiceTag ∧ t.Finds twiceTag := by
  have accepted : ((initial twoMade 100).run []).machine.launch lateLookup =
      .ok (⟨1⟩, (lookingUp 0).machine) := rfl
  have alone : ∀ works node, .start node ∈ [] ++ List.replicate works (.work : Event Unit) →
      node.Tame := by simp
  have ours : ∀ works, (lookingUp works).Belongs ⟨1⟩ ⟨1⟩ := fun works =>
    ((Reachable.initial twoMade 100).apply (.start lateLookup.node)).belongs_run
      (belongs_start _ _) (List.replicate works .work)
  constructor
  · obtain ⟨t, stride, looks⟩ : ∃ t, (lookingUp 11).strideAt ⟨1⟩ .work = some t ∧
        t.LooksUp numberTag := ⟨_, rfl, rfl⟩
    exact ⟨t, stride, looks, services_are_found accepted (lateLookup_declares _) knows_twoLayers
      (alone 11) (ours 11) (ours 11) stride looks⟩
  · obtain ⟨t, stride, looks⟩ : ∃ t, (lookingUp 31).strideAt ⟨1⟩ .work = some t ∧
        t.LooksUp twiceTag := ⟨_, rfl, rfl⟩
    exact ⟨t, stride, looks, services_are_found accepted (lateLookup_declares _) knows_twoLayers
      (alone 31) (ours 31) (ours 31) stride looks⟩

end Moment

end EffectFibers
