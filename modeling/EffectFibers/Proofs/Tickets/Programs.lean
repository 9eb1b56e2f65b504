import EffectFibers.Proofs.Services.Plans
import EffectFibers.Proofs.Tickets.Bears

/-!
# Programs of constructors and combinators

Whatever is put together with the constructors and combinators bears no ticket, and so may be
evaluated again and again.  It does not matter what the values, the failures and the answers of user
code are; user code itself has no way to deal in tickets.

## Main definitions

* `Effect.Composed`, `Layer.Composed` – what is put together with the constructors and combinators.

## Main statements

* `Effect.Composed.bears` – the tree of such a program bears no ticket.
* `Effect.Composed.acquireUseRelease`, `Effect.Composed.timeout`, … – what is composed of others.
-/

namespace EffectFibers

variable {σ : Type}

mutual

/-- A program is put together with the constructors and combinators, and so are the effects that its
functions return.  User code has nothing to do with tickets. -/
inductive Effect.Composed : Effect σ → Prop
  | succeed (v : Value) : Effect.Composed (.succeed v)
  | fail (f : Failure) : Effect.Composed (.fail f)
  | die (d : Defect) : Effect.Composed (.die d)
  | sync {thunk : Action σ Value} (calm : thunk.Calm) : Effect.Composed (.sync thunk)
  | trySync {thunk : Action σ (Except Failure Value)} (calm : thunk.Calm) :
    Effect.Composed (.trySync thunk)
  | asyncOp {register : WaitId → Action σ (Option (Cleanup σ))}
    (calm : Action.CalmRegistration register) : Effect.Composed (.asyncOp register)
  | service (t : Tag) : Effect.Composed (.service t)
  | context : Effect.Composed .context
  | sleep (d : Duration) : Effect.Composed (.sleep d)
  | yieldNow : Effect.Composed .yieldNow
  | logAt (level : Level) (message : String) : Effect.Composed (.logAt level message)
  | map {e : Effect σ} {f : Value → Action σ Value} (first : Effect.Composed e)
    (calm : ∀ v, (f v).Calm) : Effect.Composed (e.map f)
  | flatMap {e : Effect σ} {k : Value → Action σ (Effect σ)} (first : Effect.Composed e)
    (calm : ∀ v, (k v).Calm)
    (returned : ∀ v roster w e', (k v roster w).result = .ok e' → Effect.Composed e') :
    Effect.Composed (e.flatMap k)
  | zipRight {e next : Effect σ} (first : Effect.Composed e) (second : Effect.Composed next) :
    Effect.Composed (e.zipRight next)
  | tap {e : Effect σ} {k : Value → Action σ (Effect σ)} (first : Effect.Composed e)
    (calm : ∀ v, (k v).Calm)
    (returned : ∀ v roster w e', (k v roster w).result = .ok e' → Effect.Composed e') :
    Effect.Composed (e.tap k)
  | mapError {e : Effect σ} {f : Failure → Action σ Failure} (first : Effect.Composed e)
    (calm : ∀ failure, (f failure).Calm) : Effect.Composed (e.mapError f)
  | catchAll {e : Effect σ} {handler : Failure → Action σ (Effect σ)} (first : Effect.Composed e)
    (calm : ∀ failure, (handler failure).Calm)
    (returned : ∀ failure roster w e', (handler failure roster w).result = .ok e' →
      Effect.Composed e') : Effect.Composed (e.catchAll handler)
  | catchTags {e : Effect σ} {handlers : List (String × (Failure → Action σ (Effect σ)))}
    (first : Effect.Composed e) (calm : ∀ entry ∈ handlers, ∀ failure, (entry.2 failure).Calm)
    (returned : ∀ entry ∈ handlers, ∀ failure roster w e',
      (entry.2 failure roster w).result = .ok e' → Effect.Composed e') :
    Effect.Composed (e.catchTags handlers)
  | either {e : Effect σ} (first : Effect.Composed e) : Effect.Composed e.either
  | ensuring {e finalizer : Effect σ} (first : Effect.Composed e)
    (last : Effect.Composed finalizer) : Effect.Composed (e.ensuring finalizer)
  | uninterruptible {e : Effect σ} (inner : Effect.Composed e) : Effect.Composed e.uninterruptible
  | provide {e : Effect σ} {l : Layer σ} (body : Effect.Composed e) (layer : Layer.Composed l) :
    Effect.Composed (e.provide l)
  | requiring {e : Effect σ} (inner : Effect.Composed e) (t : Tag) :
    Effect.Composed (e.requiring t)
  | retry {e : Effect σ} (inner : Effect.Composed e) (s : Schedule Failure) :
    Effect.Composed (e.retry s)
  | repeating {e : Effect σ} (inner : Effect.Composed e) (s : Schedule Value) :
    Effect.Composed (e.repeating s)
  | withLogSpan {e : Effect σ} (inner : Effect.Composed e) (label : String) :
    Effect.Composed (e.withLogSpan label)
  | raceAll {es : List (Effect σ)} (all : ∀ e ∈ es, Effect.Composed e) :
    Effect.Composed (.raceAll es)
  | allWith {es : List (Effect σ)} (all : ∀ e ∈ es, Effect.Composed e) (options : AllOptions) :
    Effect.Composed (.allWith es options)
  | allSettled {es : List (Effect σ)} (all : ∀ e ∈ es, Effect.Composed e)
    (concurrency : Concurrency) : Effect.Composed (.allSettled es concurrency)
  | fork {e : Effect σ} (inner : Effect.Composed e) : Effect.Composed e.fork
  | join (f : FiberId) : Effect.Composed (.join f)
  | awaitExit (f : FiberId) : Effect.Composed (.awaitExit f)
  | interrupt (f : FiberId) : Effect.Composed (.interrupt f)

/-- A layer is put together with the constructors and combinators of layers, from effects that were
put together in the same way. -/
inductive Layer.Composed : Layer σ → Prop
  | succeed {t : Tag} {service : Value} {roster w l}
    (made : ((Layer.succeed t service : Action σ (Layer σ)) roster w).result = .ok l) :
    Layer.Composed l
  | ofNode {t : Tag} {e : Effect σ} {roster w l} (source : Effect.Composed e)
    (made : (Layer.ofNode t e.node e.requires roster w).result = .ok l) : Layer.Composed l
  | named {l : Layer σ} (inner : Layer.Composed l) (name : String) : Layer.Composed (l.named name)
  | merge {l m : Layer σ} (first : Layer.Composed l) (second : Layer.Composed m) :
    Layer.Composed (l.merge m)
  | provide {l dependency : Layer σ} (inner : Layer.Composed l)
    (below : Layer.Composed dependency) : Layer.Composed (l.provide dependency)
  | provideMerge {l dependency : Layer σ} (inner : Layer.Composed l)
    (below : Layer.Composed dependency) : Layer.Composed (l.provideMerge dependency)
  | mapError {l l' : Layer σ} {f : Failure → Action σ Failure} {roster w}
    (inner : Layer.Composed l) (calm : ∀ failure, (f failure).Calm)
    (made : (l.mapError f roster w).result = .ok l') : Layer.Composed l'

end

/-! ## What user code builds -/

namespace Action

variable {α : Type} {code : Action σ α}

theorem Calm.bind {β : Type} {f : α → Action σ β} (first : code.Calm) (second : ∀ a, (f a).Calm) :
    (code >>= f).Calm := by
  intro roster w
  simp only [Bind.bind, Action.bind]
  cases (code roster w).result with
  | error p => exact first roster w
  | ok a => exact (first roster w).trans (second a roster _)

/-- User code that draws no ticket, and ends with an effect whose tree bears none. -/
abbrev Returns (code : Action σ (Effect σ)) : Prop :=
  code.Draws fun ticket e => ticket = none ∧ e.node.Bears none

end Action

namespace Effect

variable {e : Effect σ}

/-- The tree of an effect that user code returns. -/
theorem builds_node {code : Action σ (Effect σ)}
    (draws : code.Draws fun ticket e => e.node.Bears ticket) :
    (do return (← code).node : Action σ (Node σ)).Builds :=
  draws.map fun _ _ bears => bears

theorem builds_of_returns {code : Action σ (Effect σ)} (returns : code.Returns) :
    (do return (← code).node : Action σ (Node σ)).Builds :=
  Action.Draws.map returns fun _ _ drawn => drawn.1 ▸ drawn.2

theorem builds_expecting {k : Value → Action σ (Node σ)} (builds : ∀ v, (k v).Builds)
    (v : Value) : (expecting k v).Builds := by
  cases v with
  | alien => exact Node.builds_die _
  | _ => exact builds _

theorem builds_expectingFailure {k : Failure → Action σ (Node σ)}
    (builds : ∀ failure, (k failure).Builds) (failure : Failure) :
    (expectingFailure k failure).Builds := by
  cases failure with
  | alien => exact Node.builds_die _
  | _ => exact builds _

theorem builds_collecting (collect : List Value → Except (Cause Failure) (List Value))
    (v : Value) : (collecting collect v : Action σ (Node σ)).Builds := by
  unfold collecting
  split
  · split
    · exact Node.builds_given _
    · exact Node.builds_given _
  · exact Node.builds_die _

/-! ## The trees of combinators -/

theorem bears_sync {thunk : Action σ Value} (calm : thunk.Calm) : (sync thunk).node.Bears none :=
  ⟨rfl, calm.bind fun _ => .pure _⟩

theorem bears_trySync {thunk : Action σ (Except Failure Value)} (calm : thunk.Calm) :
    (trySync thunk).node.Bears none :=
  ⟨rfl, calm.bind fun x => by cases x <;> exact .pure _⟩

theorem bears_service (t : Tag) : (service t : Effect σ).node.Bears none := by
  refine Node.bears_access.2 ⟨rfl, fun c => ?_⟩
  split
  · exact Node.builds_given _
  · exact Node.builds_die _

theorem bears_context : (context : Effect σ).node.Bears none :=
  Node.bears_access.2 ⟨rfl, fun _ => Node.builds_given _⟩

theorem bears_map {f : Value → Action σ Value} (first : e.node.Bears none)
    (calm : ∀ v, (f v).Calm) : (e.map f).node.Bears none :=
  Node.bears_flatMap.2 ⟨first, .again (builds_expecting fun v =>
    .bind_calm (calm v) fun _ => Node.builds_given _)⟩

theorem bears_flatMap {k : Value → Action σ (Effect σ)} (first : e.node.Bears none)
    (returns : ∀ v, (k v).Returns) : (e.flatMap k).node.Bears none :=
  Node.bears_flatMap.2 ⟨first, .again (builds_expecting fun v => builds_of_returns (returns v))⟩

theorem bears_zipRight {next : Effect σ} (first : e.node.Bears none)
    (second : next.node.Bears none) : (e.zipRight next).node.Bears none :=
  Node.bears_flatMap.2 ⟨first, .again fun _ => Node.builds_pure second⟩

/-- The value that is kept goes into a continuation, for a ticket. -/
theorem bears_tap {k : Value → Action σ (Effect σ)} (first : e.node.Bears none)
    (returns : ∀ v, (k v).Returns) : (e.tap k).node.Bears none :=
  Node.bears_flatMap.2 ⟨first, .again (builds_expecting fun v =>
    .bind (returns v) fun _ reusable => Action.Draws.freshTicket.map fun _ ticket drawn =>
      Node.bears_flatMap.2 ⟨reusable, drawn ▸ .once ticket v⟩)⟩

theorem bears_mapError {f : Failure → Action σ Failure} (first : e.node.Bears none)
    (calm : ∀ failure, (f failure).Calm) : (e.mapError f).node.Bears none :=
  Node.bears_recover.2 ⟨rfl, first, builds_expectingFailure fun failure =>
    .bind_calm (calm failure) fun _ => Node.builds_given _⟩

theorem bears_catchAll {handler : Failure → Action σ (Effect σ)} (first : e.node.Bears none)
    (draws : ∀ failure, (handler failure).Draws fun ticket e => e.node.Bears ticket) :
    (e.catchAll handler).node.Bears none :=
  Node.bears_recover.2 ⟨rfl, first, builds_expectingFailure fun failure =>
    builds_node (draws failure)⟩

theorem bears_catchTags {handlers : List (String × (Failure → Action σ (Effect σ)))}
    (first : e.node.Bears none) (returns : ∀ entry ∈ handlers, ∀ failure, (entry.2 failure).Returns) :
    (e.catchTags handlers).node.Bears none := by
  refine Node.bears_recover.2 ⟨rfl, first, builds_expectingFailure fun failure => ?_⟩
  split
  · rename_i tag handler found
    exact builds_of_returns (returns _ (List.mem_of_find?_eq_some found) failure)
  · exact Node.builds_given _

theorem bears_either (first : e.node.Bears none) : e.either.node.Bears none :=
  bears_catchAll (bears_map first fun _ => .pure _) fun _ =>
    (Node.builds_given _).map fun _ _ bears => bears

theorem bears_allNode {es : List (Effect σ)} (all : ∀ e ∈ es, e.node.Bears none)
    (options : AllOptions) : (allNode es options).node.Bears none :=
  ⟨rfl, Node.allReusable_iff.2 (List.forall_mem_map.2 all)⟩

theorem bears_collecting {es : List (Effect σ)} (all : ∀ e ∈ es, e.node.Bears none)
    (options : AllOptions) (collect : List Value → Except (Cause Failure) (List Value)) :
    (Node.flatMap (allNode es options).node (collecting collect)).Bears none :=
  Node.bears_flatMap.2 ⟨bears_allNode all options, .again (builds_collecting collect)⟩

theorem bears_raceAll {es : List (Effect σ)} (all : ∀ e ∈ es, e.node.Bears none) :
    (raceAll es).node.Bears none :=
  ⟨rfl, Node.allReusable_iff.2 (List.forall_mem_map.2 all)⟩

theorem bears_fork (inner : e.node.Bears none) : e.fork.node.Bears none :=
  Node.bears_flatMap.2 ⟨⟨rfl, inner⟩, .again fun _ => Node.builds_given _⟩

end Effect

/-! ## Layers -/

/-- The constructors of a layer bear no tickets. -/
def Layer.Reusable (l : Layer σ) : Prop := ∀ layer ∈ l.nodes, layer.build.Bears none

namespace Layer

variable {l m l' : Layer σ} {roster : Roster} {w : World σ}

theorem Reusable.union {first second : List (LayerNode σ)}
    (left : ∀ layer ∈ first, layer.build.Bears none)
    (right : ∀ layer ∈ second, layer.build.Bears none) :
    ∀ layer ∈ unionNodes first second, layer.build.Bears none :=
  fun layer listed => (mem_unionNodes listed).elim (left layer) (right layer)

theorem Reusable.named (reusable : l.Reusable) (name : String) : (l.named name).Reusable := by
  unfold Layer.named
  split
  · rename_i node only
    have first : node.build.Bears none := reusable node (by simp [only])
    intro layer listed
    obtain rfl := List.mem_singleton.1 listed
    exact first
  · exact reusable

theorem reusable_of_atomic {t : Tag} {inputs : Requirements} {build : Node σ}
    (bears : build.Bears none) (made : (atomic t inputs build roster w).result = .ok l) :
    l.Reusable := by
  obtain rfl := Except.ok.inj made
  intro layer listed
  obtain rfl := List.mem_singleton.1 listed
  exact bears

theorem reusable_of_succeed {t : Tag} {service : Value}
    (made : ((succeed t service : Action σ (Layer σ)) roster w).result = .ok l) : l.Reusable := by
  have bears : (Node.succeed (single t service) : Node σ).Bears none := rfl
  exact reusable_of_atomic bears made

theorem reusable_of_ofNode {t : Tag} {source : Node σ} {requires : Requirements}
    (bears : source.Bears none) (made : (ofNode t source requires roster w).result = .ok l) :
    l.Reusable := by
  refine reusable_of_atomic (Node.bears_flatMap.2 ⟨bears, .again fun v => ?_⟩) made
  cases v with
  | alien => exact Node.builds_die _
  | _ => exact Node.builds_given _

theorem Reusable.mapError {f : Failure → Action σ Failure} (reusable : l.Reusable)
    (calm : ∀ failure, (f failure).Calm) (made : (l.mapError f roster w).result = .ok l') :
    l'.Reusable := by
  obtain ⟨nodes, mapped, rest⟩ := Action.exists_of_bind made
  obtain rfl := Except.ok.inj rest
  intro layer listed
  obtain ⟨source, listed', _, renewed⟩ := (Action.exists_of_mapM mapped).1 layer listed
  obtain rfl := Except.ok.inj renewed
  refine Node.bears_recover.2 ⟨rfl, reusable source listed', fun failure => ?_⟩
  cases failure with
  | alien => exact Node.builds_die _
  | _ => exact .bind_calm (calm _) fun _ => Node.builds_given _

/-- The plan of a layer has its constructors. -/
theorem Reusable.plan (reusable : l.Reusable) : Plan.Reusable l.plan := by
  cases planned : l.plan with
  | error e => trivial
  | ok order =>
      exact Layers.reusable_iff.2 fun layer listed =>
        reusable layer ((planLayers_ok planned).1.mem_iff.1 listed)

end Layer

/-! ## Programs -/

mutual

/-- The tree of a program that was put together with the constructors and combinators bears no
ticket. -/
theorem Effect.Composed.bears : ∀ {e : Effect σ}, e.Composed → e.node.Bears none
  | _, .succeed _ | _, .fail _ | _, .die _ | _, .sleep _ | _, .yieldNow | _, .logAt .. => rfl
  | _, .join _ | _, .awaitExit _ | _, .interrupt _ => rfl
  | _, .sync calm => Effect.bears_sync calm
  | _, .trySync calm => Effect.bears_trySync calm
  | _, .asyncOp calm => ⟨rfl, calm⟩
  | _, .service t => Effect.bears_service t
  | _, .context => Effect.bears_context
  | _, .map first calm => Effect.bears_map first.bears calm
  | _, .flatMap first calm returned => Effect.bears_flatMap first.bears fun v =>
    (calm v).draws fun roster w e' ends => (returned v roster w e' ends).bears
  | _, .zipRight first second => Effect.bears_zipRight first.bears second.bears
  | _, .tap first calm returned => Effect.bears_tap first.bears fun v =>
    (calm v).draws fun roster w e' ends => (returned v roster w e' ends).bears
  | _, .mapError first calm => Effect.bears_mapError first.bears calm
  | _, .catchAll first calm returned => Effect.bears_catchAll first.bears fun failure roster w =>
    ⟨none, .nothing (calm failure roster w), fun e' ends =>
      (returned failure roster w e' ends).bears⟩
  | _, .catchTags first calm returned =>
    Effect.bears_catchTags first.bears fun entry listed failure =>
      (calm entry listed failure).draws fun roster w e' ends =>
        (returned entry listed failure roster w e' ends).bears
  | _, .either first => Effect.bears_either first.bears
  | _, .ensuring first last => ⟨rfl, first.bears, last.bears⟩
  | _, .uninterruptible inner | _, .retry inner _ | _, .repeating inner _
  | _, .withLogSpan inner _ => ⟨rfl, inner.bears⟩
  | _, .provide body layer => ⟨rfl, body.bears, layer.reusable.plan⟩
  | _, .requiring inner _ => inner.bears
  | _, .raceAll all => Effect.bears_raceAll fun e listed => (all e listed).bears
  | _, .allWith all options =>
    Effect.bears_collecting (fun e listed => (all e listed).bears) options _
  | _, .allSettled all _ => Effect.bears_collecting (fun e listed => (all e listed).bears) _ _
  | _, .fork inner => Effect.bears_fork inner.bears

theorem Layer.Composed.reusable : ∀ {l : Layer σ}, l.Composed → l.Reusable
  | _, .succeed made => Layer.reusable_of_succeed made
  | _, .ofNode source made => Layer.reusable_of_ofNode source.bears made
  | _, .named inner name => inner.reusable.named name
  | _, .merge first second => Layer.Reusable.union first.reusable second.reusable
  | _, .provide inner below => Layer.Reusable.union below.reusable inner.reusable
  | _, .provideMerge inner below => Layer.Reusable.union below.reusable inner.reusable
  | _, .mapError inner calm made => inner.reusable.mapError calm made

end

/-! ## Combinators that are composed of others -/

namespace Effect.Composed

variable {e f : Effect σ}

theorem unit : (Effect.unit : Effect σ).Composed := .succeed .null

theorem log (message : String) : (Effect.log message : Effect σ).Composed := .logAt .info message

theorem never : (Effect.never : Effect σ).Composed :=
  .asyncOp fun _ => ⟨.pure none, fun _ _ _ ends => by cases Except.ok.inj ends⟩

theorem tryBlocking (work : Except Panic (Except Failure Value)) :
    (Effect.tryBlocking work : Effect σ).Composed :=
  .asyncOp fun _ => ⟨fun _ w => .refl w, fun _ _ _ ends => by cases Except.ok.inj ends⟩

theorem withService {t : Tag} {k : Value → Action σ (Effect σ)} (calm : ∀ v, (k v).Calm)
    (returned : ∀ v roster w e', (k v roster w).result = .ok e' → e'.Composed) :
    (Effect.withService t k).Composed := .flatMap (.service t) calm returned

theorem asUnit (first : e.Composed) : e.asUnit.Composed := .map first fun _ => .pure _

theorem catchTag {tag : String} {handler : Failure → Action σ (Effect σ)} (first : e.Composed)
    (calm : ∀ failure, (handler failure).Calm)
    (returned : ∀ failure roster w e', (handler failure roster w).result = .ok e' → e'.Composed) :
    (e.catchTag tag handler).Composed :=
  .catchTags first (fun _ listed failure => List.mem_singleton.1 listed ▸ calm failure)
    fun _ listed failure => List.mem_singleton.1 listed ▸ returned failure

theorem acquireUseRelease {use release : Value → Action σ (Effect σ)} (acquire : e.Composed)
    (uses : ∀ v, (use v).Calm)
    (used : ∀ v roster w e', (use v roster w).result = .ok e' → e'.Composed)
    (releases : ∀ v, (release v).Calm)
    (released : ∀ v roster w e', (release v roster w).result = .ok e' → e'.Composed) :
    (e.acquireUseRelease use release).Composed := by
  refine .flatMap (.uninterruptible acquire) (fun _ => .pure _) fun v _ _ e' ends => ?_
  obtain rfl := Except.ok.inj ends
  exact .ensuring (.flatMap unit (fun _ => uses v) fun _ => used v)
    (.flatMap unit (fun _ => releases v) fun _ => released v)

/-- A service that is provided by itself is provided by a new layer. -/
theorem provideService {t : Tag} {service : Value} {roster : Roster} {w : World σ}
    (inner : e.Composed) (made : (e.provideService t service roster w).result = .ok f) :
    f.Composed := by
  obtain ⟨l, new, rest⟩ := Action.exists_of_bind made
  obtain rfl := Except.ok.inj rest
  exact .provide inner (.succeed new)

theorem retryN (inner : e.Composed) (n : Nat) : (e.retryN n).Composed := .retry inner _

theorem delay (inner : e.Composed) (d : Duration) : (e.delay d).Composed :=
  .zipRight (.sleep d) inner

theorem race (first : e.Composed) (second : f.Composed) : (e.race f).Composed :=
  .raceAll (by simp [first, second])

theorem timeout (inner : e.Composed) (limit : Duration) : (e.timeout limit).Composed :=
  inner.race (.zipRight (.sleep limit) (.die _))

theorem timeoutFail (inner : e.Composed) (limit : Duration) (failure : Failure) :
    (e.timeoutFail limit failure).Composed :=
  inner.race (.zipRight (.sleep limit) (.fail failure))

theorem all {es : List (Effect σ)} (all : ∀ e ∈ es, e.Composed) : (Effect.all es).Composed :=
  .allWith all {}

end Effect.Composed

end EffectFibers
