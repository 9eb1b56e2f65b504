import EffectFibers.Proofs.Exports.Constructing
import EffectFibers.Proofs.Exports.Keeping
import EffectFibers.Proofs.PlansExact

/-!
# A body sees the exports

The context of a provided body is put together from what the run has built for the layers of the
plan, and what is not exported is taken out again.  So under an exported tag the body finds the
service of the one constructor that produces it, made by the one build of this constructor that has
succeeded in the run, and under any other tag it finds what the context around the `provide` has.
The constructors themselves see more: all that comes before them in the plan.

It does not matter which of the layers were built before, which of them this fiber builds and for
which it waits, and what happens in between.

## Main definitions

* `Moment.Serves` – where a service comes from.
* `Moment.Shows` – a context shows the services of some layers over an outer context.
* `Moment.ShowsExports` – what a provision shows to its body and to its constructors.

## Main statements

* `Moment.exports_are_shown` – it shows them what it should.
-/

namespace EffectFibers

variable {σ : Type} {cat : Catalogue} {t : TagId}

/-! ## What is found in contexts that are supplied -/

theorem Context.ordered_mergeAll (contexts : List (Context Value)) :
    (mergeAll contexts).services.Ordered := by
  induction contexts using List.reverseRecOn with
  | nil => exact TagMap.ordered_empty
  | append_singleton contexts c ih =>
      rw [mergeAll_append]
      exact ih.union

/-- Of the constructors in a plan, one at most produces a service. -/
theorem producer_unique {nodes layers : List (LayerNode σ)} (valid : planLayers nodes = .ok layers)
    {n m : LayerNode σ} (first : n ∈ layers) (second : m ∈ layers)
    (here : n.outputs.contains t = true) (there : m.outputs.contains t = true) : n = m := by
  have clean : ClashFree nodes := by
    rw [← firstClash_eq_none_iff]
    cases clash : firstClash nodes with
    | none => rfl
    | some error => cases (planLayers_of_clash clash).symm.trans valid
  have perm := (planLayers_ok valid).1
  have symm : Std.Symm fun n m : LayerNode σ => ¬ n.Clashes m :=
    ⟨fun n m apart ⟨u, first, second⟩ => apart ⟨u, second, first⟩⟩
  by_contra other
  exact clean.forall (perm.subset first) (perm.subset second) other ⟨t, here, there⟩

namespace Memo

variable {memo : Memo} {layers : List (LayerNode σ)} {contexts : List (Context Value)}

/-- What has been built for a layer has the service of the layer, and no other one. -/
def Exact (cat : Catalogue) (memo : Memo) : Prop :=
  ∀ l c, memo.context? l = some c → ∃ t, cat l = some t ∧ c.Holds t

theorem Supplies.exists_context (supplies : memo.Supplies layers contexts) {n : LayerNode σ}
    (listed : n ∈ layers) : ∃ c ∈ contexts, memo.context? n.id = some c := by
  induction supplies with
  | nil => cases listed
  | cons known _ ih =>
      rcases List.mem_cons.1 listed with rfl | later
      · exact ⟨_, List.mem_cons_self, known⟩
      · obtain ⟨c, listed, known⟩ := ih later
        exact ⟨c, List.mem_cons_of_mem _ listed, known⟩

theorem Supplies.exists_layer (supplies : memo.Supplies layers contexts) {c : Context Value}
    (listed : c ∈ contexts) : ∃ n ∈ layers, memo.context? n.id = some c := by
  induction supplies with
  | nil => cases listed
  | cons known _ ih =>
      rcases List.mem_cons.1 listed with rfl | later
      · exact ⟨_, List.mem_cons_self, known⟩
      · obtain ⟨n, listed, known⟩ := ih later
        exact ⟨n, List.mem_cons_of_mem _ listed, known⟩

/-- What is supplied for a constructor has the one service that it produces. -/
theorem Exact.holds (exact : memo.Exact cat) {n : LayerNode σ} (made : n.Made cat)
    {c : Context Value} (known : memo.context? n.id = some c) :
    ∃ u, c.Holds u ∧ ∀ v, n.outputs.contains v = true ↔ u = v := by
  obtain ⟨u, listed, holds⟩ := exact n.id c known
  obtain ⟨u', listed', outputs, -⟩ := made
  obtain rfl : u = u' := Option.some.inj (listed.symm.trans listed')
  exact ⟨u, holds, outputs⟩

variable (exact : memo.Exact cat) (made : ∀ n ∈ layers, n.Made cat)
  (supplies : memo.Supplies layers contexts)

include exact made supplies

theorem Supplies.ordered : ∀ c ∈ contexts, c.services.Ordered := by
  intro c listed
  obtain ⟨n, among, known⟩ := supplies.exists_layer listed
  obtain ⟨u, holds, -⟩ := exact.holds (made n among) known
  exact holds.ordered

/-- Under a tag that one constructor produces, its service is found. -/
theorem Supplies.find?_of_produces
    (alone : ∀ n ∈ layers, ∀ m ∈ layers, n.outputs.contains t = true →
      m.outputs.contains t = true → n = m) {n : LayerNode σ} (among : n ∈ layers)
    (produces : n.outputs.contains t = true) :
    ∃ c, memo.context? n.id = some c ∧ c.Holds t ∧
      (Context.mergeAll contexts).services.find? t = c.services.find? t := by
  obtain ⟨c, listed, known⟩ := supplies.exists_context among
  obtain ⟨u, holds, outputs⟩ := exact.holds (made n among) known
  obtain rfl := (outputs t).1 produces
  refine ⟨c, known, holds, ?_⟩
  refine Context.find?_mergeAll (Supplies.ordered exact made supplies) (fun d listed' has => ?_)
    listed (holds.contains_iff.2 rfl)
  obtain ⟨m, among', known'⟩ := supplies.exists_layer listed'
  obtain ⟨v, holds', outputs'⟩ := exact.holds (made m among') known'
  have produces' := (outputs' u).2 (holds'.contains_iff.1 has)
  obtain rfl := alone n among m among' produces produces'
  exact Option.some.inj (known'.symm.trans known)

/-- Under a tag that no constructor produces, nothing is found. -/
theorem Supplies.find?_of_nobody (nobody : ∀ n ∈ layers, ¬ n.outputs.contains t = true) :
    (Context.mergeAll contexts).services.find? t = none := by
  refine Context.find?_mergeAll_eq_none (Supplies.ordered exact made supplies) fun c listed => ?_
  obtain ⟨n, among, known⟩ := supplies.exists_layer listed
  obtain ⟨u, holds, outputs⟩ := exact.holds (made n among) known
  by_contra has
  have has : c.contains t = true := by simpa using has
  exact nobody n among ((outputs t).2 (holds.contains_iff.1 has))

end Memo

/-- Whether a step evaluates a node that provides layers. -/
def Step.provides : Step σ → Bool
  | .eval (.provide ..) => true
  | _ => false

/-! ## What is shown -/

namespace Moment

/-- In the history of a run, a service comes from the one constructor among some that produces it:
one event has built the constructor, and it has brought the context with just this service. -/
def Serves (μ : Moment σ) (events : List (Event σ)) (s : ScopeId) (layers : List (LayerNode σ))
    (t : TagId) (service : Service Value) : Prop :=
  ∃ n ∈ layers, (∀ m ∈ layers, m.outputs.contains t = true ↔ m = n) ∧
    ∃ (tag : Tag) (v : Value), tag.id = t ∧ service = ⟨tag.name, v⟩ ∧
      μ.BuiltOnce events s n.id (Context.empty.insert tag v)

/-- Under the visible tags a context has services of some layers, and under all others what the
outer context has. -/
structure Shows (μ : Moment σ) (events : List (Event σ)) (s : ScopeId)
    (layers : List (LayerNode σ)) (visible : TagId → Prop) (outer context : Context Value) :
    Prop where
  inner : ∀ t, visible t → ∃ service, context.services.find? t = some service ∧
    μ.Serves events s layers t service
  outer : ∀ t, ¬ visible t → context.services.find? t = outer.services.find? t

/-- In a run that begins after its node was evaluated, a provision has had frames of its own on the
stack at every moment but perhaps the last one: so far its body has not come next. -/
def GetsReady (f : FiberId) (p : Provision σ) (μ : Moment σ) (events : List (Event σ)) : Prop :=
  ∀ first, first <+: events → first ≠ events → (μ.run first).stack f ≠ p.stack

/-- What a provision shows whose node is evaluated in an event of a history, to its body and to its
constructors. -/
structure ShowsExports (μ : Moment σ) (before : List (Event σ)) (event : Event σ)
    (after : List (Event σ)) (f : FiberId) (s : ScopeId) (p : Provision σ) : Prop where
  /-- It gets ready, until the body comes next or a build has failed. -/
  course : ProvideCourse f s p (μ.run (before ++ [event])) after
  /-- When the body comes next, it finds the exports over the outer context. -/
  body : GetsReady f p (μ.run (before ++ [event])) after →
    ∀ run, (μ.run (before ++ event :: after)).Next f run → run.next = .eval p.body →
    run.stack = p.stack →
    μ.Shows (before ++ event :: after) s p.layers (· ∈ p.exports) p.outer run.context
  /-- A constructor of the plan that the fiber evaluates finds the outputs of all constructors
  before it in the plan over the outer context. -/
  constructors : GetsReady f p (μ.run (before ++ [event])) after →
    ∀ event' t build n todo, (μ.run (before ++ event :: after)).strideAt f event' = some t →
    build.owning = true → build.todo = n :: todo →
    t.Evaluates n.build (.layers build :: p.stack) →
    ∃ done, p.layers = done ++ n :: todo ∧
      μ.Shows (before ++ event :: after) s done (fun t => ∃ m ∈ done, m.outputs.contains t = true)
        p.outer t.slice.run.context

variable {μ : Moment σ} {f : FiberId} {s : ScopeId} {p : Provision σ} {run run' : RunState σ}
  {world : World σ} {budget : Nat} {events : List (Event σ)}

/-- One step comes next. -/
theorem Next.unique (next : μ.Next f run) (next' : μ.Next f run') : run = run' := by
  cases next with
  | ready position =>
      cases next' with
      | ready position' => simpa using position.symm.trans position'
      | stepped position' _ => cases position.symm.trans position'
  | stepped position same =>
      cases next' with
      | ready position' => cases position.symm.trans position'
      | stepped position' same' =>
          obtain ⟨rfl, goes⟩ : _ ∧ _ := by simpa using position.symm.trans position'
          rw [same, same', goes]

theorem Next.stack (next : μ.Next f run) : μ.stack f = run.stack := by
  obtain ⟨last, rest, same⟩ := next.rest?
  rw [stack_of_rest rest, same]

/-- While a provision is under way, there is a frame above what the body will find. -/
theorem Preparing.stack_ne (preparing : μ.Preparing f s p) : μ.stack f ≠ p.stack := by
  obtain ⟨build, done, -, last, rest, suffix⟩ := preparing
  rw [stack_of_rest rest]
  intro bare
  rw [bare] at suffix
  exact absurd suffix.length_le (Nat.not_succ_le_self _)

/-- A provision that gets ready is still under way, or it is ready only now. -/
theorem ProvideCourse.of_getsReady (course : ProvideCourse f s p μ events)
    (ready : GetsReady f p μ events) :
    (μ.run events).Preparing f s p ∨
      (∃ contexts run, ((μ.run events).machine.memo s).Supplies p.layers contexts ∧
        (μ.run events).Next f run ∧ run.stack = p.stack ∧
        run.context = p.outer.merge ((Context.mergeAll contexts).restrict p.exports)) ∨
      ∃ run cause, (μ.run events).Next f run ∧ run.stack = p.stack ∧
        run.next = .done (.error cause) := by
  have whole {before after : List (Event σ)} {run : RunState σ} (split : before ++ after = events)
      (next : (μ.run before).Next f run) (below : run.stack = p.stack) : before = events := by
    by_contra short
    exact ready before (split ▸ List.prefix_append _ _) short (next.stack.trans below)
  cases course with
  | preparing under live => exact .inl (under _ (List.prefix_refl _))
  | entered under supplies next body below context =>
      have same := whole rfl next below
      rw [← same]
      exact .inr (.inl ⟨_, _, supplies, next, below, context⟩)
  | failed under next hands below =>
      have same := whole rfl next below
      rw [← same]
      exact .inr (.inr ⟨_, _, next, below, hands⟩)

/-- When the body comes next, it comes with what is let out of what the run has built. -/
theorem ProvideCourse.context_of_body (course : ProvideCourse f s p μ events)
    (ready : GetsReady f p μ events) (next : (μ.run events).Next f run)
    (body : run.next = .eval p.body) (below : run.stack = p.stack) :
    ∃ contexts, ((μ.run events).machine.memo s).Supplies p.layers contexts ∧
      run.context = p.outer.merge ((Context.mergeAll contexts).restrict p.exports) := by
  rcases course.of_getsReady ready with
    preparing | ⟨contexts, run', supplies, next', -, context⟩ | ⟨run', cause, next', -, hands⟩
  · exact absurd (next.stack.trans below) preparing.stack_ne
  · obtain rfl := next.unique next'
    exact ⟨contexts, supplies, context⟩
  · obtain rfl := next.unique next'
    cases body.symm.trans hands

/-- A constructor that is evaluated comes with what the run has built for the layers before it. -/
theorem ProvideCourse.context_of_constructor (course : ProvideCourse f s p μ events)
    (reachable : Reachable (μ.run events)) (ready : GetsReady f p μ events) {event : Event σ}
    {t : Stride σ} {build : LayerBuild σ} {node : Node σ}
    (stride : (μ.run events).strideAt f event = some t) (owning : build.owning = true)
    (evaluates : t.Evaluates node (.layers build :: p.stack)) :
    ∃ done contexts, p.layers = done ++ build.todo ∧
      ((μ.run events).machine.memo s).Supplies done contexts ∧
      t.slice.run.context = p.outer.merge (.mergeAll contexts) := by
  have above : (μ.run events).stack f ≠ p.stack := by
    rw [← (reachable.stacks_of_stride stride).1, evaluates.2]
    exact List.cons_ne_self _ _
  rcases course.of_getsReady ready with
    preparing | ⟨-, run, -, next, below, -⟩ | ⟨run, -, next, below, -⟩
  · exact reachable.constructs_in_plan preparing stride owning evaluates
  · exact absurd (next.stack.trans below) above
  · exact absurd (next.stack.trans below) above

/-- What the run has built for a constructor is the one service that the constructor produces. -/
theorem serves_of_built {layers : List (LayerNode σ)} {n : LayerNode σ} {c : Context Value}
    (alone : ∀ n ∈ layers, ∀ m ∈ layers, n.outputs.contains t = true →
      m.outputs.contains t = true → n = m) (among : n ∈ layers)
    (produces : n.outputs.contains t = true)
    (known : (((initial world budget).run events).machine.memo s).context? n.id = some c)
    (holds : c.Holds t) : ∃ service, c.services.find? t = some service ∧
      (initial world budget).Serves events s layers t service := by
  obtain ⟨tag, v, rfl, rfl⟩ := holds
  have nothing : ((initial world budget).machine.memo s).context? n.id = none := by
    rw [memo_initial]
    rfl
  have found : (Context.empty.insert tag v).services.find? tag.id = some ⟨tag.name, v⟩ :=
    (TagMap.find?_insert _ _ _ _).trans (if_pos rfl)
  refine ⟨⟨tag.name, v⟩, found, n, among, fun m among' => ?_, tag, v, rfl, rfl,
    (Reachable.initial world budget).builtOnce nothing known⟩
  constructor
  · intro produces'
    exact alone m among' n among produces' produces
  · rintro rfl
    exact produces

/-- Contexts that are supplied are put over an outer context, without what is not visible. -/
theorem shows_of_supplies {layers : List (LayerNode σ)} {contexts : List (Context Value)}
    {visible : TagId → Prop} {d : Context Value}
    (exact : (((initial world budget).run events).machine.memo s).Exact cat)
    (made : ∀ n ∈ layers, n.Made cat)
    (alone : ∀ t, ∀ n ∈ layers, ∀ m ∈ layers, n.outputs.contains t = true →
      m.outputs.contains t = true → n = m)
    (supplies : (((initial world budget).run events).machine.memo s).Supplies layers contexts)
    (ordered : d.services.Ordered)
    (produced : ∀ t, visible t → ∃ n ∈ layers, n.outputs.contains t = true)
    (kept : ∀ t, visible t → d.services.find? t = (Context.mergeAll contexts).services.find? t)
    (hidden : ∀ t, ¬ visible t → d.services.find? t = none) (outer : Context Value) :
    (initial world budget).Shows events s layers visible outer (outer.merge d) := by
  constructor
  · intro t shown
    obtain ⟨n, among, produces⟩ := produced t shown
    obtain ⟨c, known, holds, found⟩ :=
      Memo.Supplies.find?_of_produces exact made supplies (alone t) among produces
    obtain ⟨service, has, serves⟩ := serves_of_built (alone t) among produces known holds
    refine ⟨service, ?_, serves⟩
    rw [Context.merge, TagMap.find?_union ordered, kept t shown, found, has, Option.some_or]
  · intro t other
    rw [Context.merge, TagMap.find?_union ordered, hidden t other, Option.none_or]

/-- With the exports of a layer over it, a context shows them. -/
theorem shows_exports {l : Layer σ} {layers : List (LayerNode σ)} {contexts : List (Context Value)}
    (exact : (((initial world budget).run events).machine.memo s).Exact cat) (made : l.Made cat)
    (valid : l.plan = .ok layers)
    (supplies : (((initial world budget).run events).machine.memo s).Supplies layers contexts)
    (outer : Context Value) :
    (initial world budget).Shows events s layers (· ∈ l.exports.ids) outer
      (outer.merge ((Context.mergeAll contexts).restrict l.exports.ids)) := by
  refine shows_of_supplies exact (made.of_plan valid)
    (fun t n first m second => producer_unique valid first second) supplies TagMap.ordered_restrict
    (fun t exported => ?_) (fun t exported => ?_) (fun t other => ?_) outer
  · obtain ⟨n, among, produces⟩ := made.exports t (Requirements.mem_ids.1 exported)
    exact ⟨n, (planLayers_ok valid).1.symm.subset among, produces⟩
  · exact TagMap.find?_restrict.trans (if_pos exported)
  · exact TagMap.find?_restrict.trans (if_neg other)

/-- With all that some constructors of a plan have made over it, a context shows it. -/
theorem shows_outputs {l : Layer σ} {layers done : List (LayerNode σ)}
    {contexts : List (Context Value)}
    (exact : (((initial world budget).run events).machine.memo s).Exact cat) (made : l.Made cat)
    (valid : l.plan = .ok layers) (among : ∀ n ∈ done, n ∈ layers)
    (supplies : (((initial world budget).run events).machine.memo s).Supplies done contexts)
    (outer : Context Value) :
    (initial world budget).Shows events s done (fun t => ∃ m ∈ done, m.outputs.contains t = true)
      outer (outer.merge (.mergeAll contexts)) := by
  have made : ∀ n ∈ done, n.Made cat := fun n listed => made.of_plan valid n (among n listed)
  refine shows_of_supplies exact made
    (fun t n first m second => producer_unique valid (among n first) (among m second)) supplies
    (Context.ordered_mergeAll contexts) (fun t shown => shown) (fun t _ => rfl)
    (fun t other => ?_) outer
  exact Memo.Supplies.find?_of_nobody exact made supplies
    fun n listed produces => other ⟨n, listed, produces⟩

/-- A provision shows to its body just the exports of the layer, each one made by the one build of
its constructor that has succeeded in the run, and to each constructor what comes before it in the
plan.  All layers that the run provides are made with the combinators. -/
theorem exports_are_shown {l : Layer σ} {layers : List (LayerNode σ)} {body : Node σ}
    {before after : List (Event σ)} {event : Event σ} {u : Stride σ} (assembled : l.Assembled cat)
    (valid : l.plan = .ok layers)
    (provides : ProvidesAllAssembled cat u.scope (initial world budget) (before ++ event :: after))
    (stride : ((initial world budget).run before).strideAt f event = some u)
    (evaluates : u.slice.run.next = .eval (.provide body l.plan l.exports.ids)) :
    (initial world budget).ShowsExports before event after f u.scope
      { body, layers, exports := l.exports.ids, outer := u.slice.run.context
        below := u.slice.run.stack } := by
  have reachable : Reachable ((initial world budget).run before) :=
    (Reachable.initial world budget).run before
  have exact : (((initial world budget).run (before ++ event :: after)).machine.memo
      u.scope).Exact cat := fun k c built => holds_of_built provides built
  rw [valid] at evaluates
  have course := reachable.provide_course stride evaluates after
  have start (events : List (Event σ)) : (initial world budget).run (before ++ event :: events) =
      (((initial world budget).run before).apply event).run events := run_append ..
  have first := start []
  rw [run_nil] at first
  refine ⟨first ▸ course, fun ready run next same below => ?_,
    fun ready event' t build n todo stride' owning next evaluates' => ?_⟩
  · rw [first] at ready
    rw [start] at next
    obtain ⟨contexts, supplies, context⟩ := course.context_of_body ready next same below
    rw [context]
    rw [← start] at supplies
    exact shows_exports exact assembled.made valid supplies _
  · rw [first] at ready
    rw [start] at stride'
    obtain ⟨done, contexts, plan, supplies, context⟩ := course.context_of_constructor
      ((reachable.apply event).run after) ready stride' owning evaluates'
    have plan : layers = done ++ n :: todo := next ▸ plan
    refine ⟨done, plan, ?_⟩
    rw [context]
    rw [← start] at supplies
    exact shows_outputs exact assembled.made valid
      (fun n listed => plan ▸ List.mem_append_left _ listed) supplies _

/-! ## A port that is hidden -/

/-- Where nobody is about to provide layers. -/
theorem providesAssembled_of_other {event : Event σ}
    (other : (μ.machine.running.any (·.run.next.provides)) = false) :
    μ.ProvidesAssembled cat s event := by
  intro f u body plan exports stride _ next
  obtain ⟨-, -, running, -⟩ := strideAt_eq_some_iff.1 stride
  rw [running, Option.any_some, next] at other
  cases other

/-- Where a fiber is about to provide a layer that the combinators have made. -/
theorem providesAssembled_of_running {event : Event σ} {slice : Slice σ} {l : Layer σ} {body : Node σ}
    (running : μ.machine.running = some slice) (assembled : l.Assembled cat)
    (evaluates : slice.run.next = .eval (.provide body l.plan l.exports.ids)) :
    μ.ProvidesAssembled cat s event := by
  intro f u body' plan exports stride _ next
  obtain ⟨-, -, running', -⟩ := strideAt_eq_some_iff.1 stride
  obtain rfl := Option.some.inj (running.symm.trans running')
  obtain ⟨-, rfl, rfl⟩ : _ ∧ l.plan = plan ∧ l.exports.ids = exports := by
    simpa using evaluates.symm.trans next
  exact ⟨l, assembled, rfl, rfl⟩

theorem providesAllAssembled_replicate {n : Nat} {event : Event σ}
    (each : ∀ k < n, (μ.run (.replicate k event)).ProvidesAssembled cat s event) :
    ProvidesAllAssembled cat s μ (.replicate n event) := by
  induction n generalizing μ with
  | zero => trivial
  | succ n ih =>
      exact ⟨each 0 (Nat.succ_pos n), ih fun k less => each (k + 1) (Nat.succ_lt_succ less)⟩

/-- The tag of a port. -/
def portTag : Tag := { id := ⟨1⟩, name := "port" }

/-- The tag of an address. -/
def addressTag : Tag := { id := ⟨2⟩, name := "address" }

/-- A layer for a service that exists already, made after a number of other layers. -/
def existing (issued : Nat) (t : Tag) (v : Value) : Layer Unit where
  nodes := [{ id := ⟨issued + 1⟩, name := Layer.defaultName t, outputs := .of t, inputs := .none
              build := .succeed (Layer.single t v) }]
  exports := .of t

theorem assembled_existing {issued : Nat} {t : Tag} (v : Value)
    (listed : cat ⟨issued + 1⟩ = some t.id) : (existing issued t v).Assembled cat := by
  have made : ((Layer.succeed t v : Action Unit (Layer Unit)) (fun _ => .running)
      { host := (), layers := ⟨issued⟩ }).result = .ok (existing issued t v) := rfl
  refine .succeed made fun n among u produces => ?_
  obtain rfl := List.mem_singleton.1 among
  rw [← Requirements.contains_of.1 produces]
  exact listed

/-- A layer for a port. -/
def port : Layer Unit := existing 0 portTag (.int 7)

/-- A layer for an address, with another port that it does not let out. -/
def address : Layer Unit :=
  (existing 2 addressTag (.str "local")).provide (existing 1 portTag (.int 8))

/-- The layer for an address inside of the one for a port. -/
def nested : Node Unit :=
  .provide (.provide (.succeed .null) address.plan address.exports.ids) port.plan port.exports.ids

/-- That program after some operations of the worker. -/
def nesting (works : Nat) : Moment Unit :=
  (initial { host := () } 100).run (.start nested :: List.replicate works .work)

/-- Which services the three constructors have. -/
def portsAndAddress : Catalogue := fun l => some (if l = ⟨3⟩ then addressTag.id else portTag.id)

theorem assembled_port : port.Assembled portsAndAddress := assembled_existing _ rfl

theorem assembled_address : address.Assembled portsAndAddress :=
  (assembled_existing _ rfl).provide (assembled_existing _ rfl)

theorem providesAllAssembled_nested :
    ProvidesAllAssembled portsAndAddress ⟨1⟩ (initial { host := () } 100)
      (.start nested :: List.replicate 16 .work) := by
  refine ⟨fun f u body plan exports stride => (by cases stride), ?_⟩
  refine providesAllAssembled_replicate fun k less => ?_
  have others : ∀ k < 16, k ≠ 1 → k ≠ 7 →
      ((nesting k).machine.running.any (·.run.next.provides)) = false := by decide +kernel
  by_cases outer : k = 1
  · subst outer
    exact providesAssembled_of_running rfl assembled_port rfl
  by_cases inner : k = 7
  · subst inner
    exact providesAssembled_of_running rfl assembled_address rfl
  exact providesAssembled_of_other (others k less outer inner)

/-- The body inside finds the address, and the outer port instead of the hidden one. -/
theorem hidden_port_is_not_seen :
    ∃ run service layers, (nesting 16).Next ⟨1⟩ run ∧ run.next = .eval (.succeed .null) ∧
      run.context.services.find? portTag.id = some ⟨"port", .int 7⟩ ∧
      run.context.services.find? addressTag.id = some service ∧
      address.plan = .ok layers ∧
      (initial { host := () } 100).Serves (.start nested :: List.replicate 16 .work) ⟨1⟩ layers
        addressTag.id service := by
  let outer : Context Value := Context.empty.insert portTag (.int 7)
  let run : RunState Unit :=
    { next := .eval (.succeed .null), stack := [.restore outer, .restore .empty]
      context := outer.insert addressTag (.str "local") }
  obtain ⟨layers, valid⟩ : ∃ layers, address.plan = .ok layers := ⟨_, rfl⟩
  obtain ⟨u, stride, scope, evaluates, around, below⟩ : ∃ u,
      (nesting 7).strideAt ⟨1⟩ .work = some u ∧ u.scope = ⟨1⟩ ∧
      u.slice.run.next = .eval (.provide (.succeed .null) address.plan address.exports.ids) ∧
      u.slice.run.context = outer ∧ u.slice.run.stack = [.restore .empty] :=
    ⟨_, rfl, rfl, rfl, rfl, rfl⟩
  have next : (nesting 16).Next ⟨1⟩ run := .stepped rfl rfl
  have provides : ProvidesAllAssembled portsAndAddress u.scope (initial { host := () } 100)
      ((.start nested :: List.replicate 7 .work) ++ .work :: List.replicate 8 .work) := by
    rw [scope]
    exact providesAllAssembled_nested
  have shown := exports_are_shown assembled_address valid provides stride evaluates
  rw [scope, around, below] at shown
  have shows := shown.body ?_ run next rfl rfl
  · have exported : addressTag.id ∈ address.exports.ids := by decide
    have hidden : portTag.id ∉ address.exports.ids := by decide
    obtain ⟨service, found, serves⟩ := shows.inner addressTag.id exported
    exact ⟨run, service, layers, next, rfl, shows.outer portTag.id hidden, found, valid, serves⟩
  · -- the frame of the layers is there until the last one is built
    have busy : ∀ k < 8, ((nesting (8 + k)).stack ⟨1⟩).length = 3 := by decide +kernel
    intro first short other bare
    obtain ⟨rest, split⟩ := short
    obtain ⟨total, works, -⟩ := List.append_eq_replicate_iff.1 split
    have less : first.length < 8 := by
      refine Nat.lt_of_le_of_ne (by omega) fun all => other ?_
      rw [works, all]
    have stack := busy first.length less
    rw [nesting, List.replicate_add, ← List.cons_append, run_append, ← works] at stack
    have same := congrArg List.length bare
    cases stack.symm.trans same

end Moment

end EffectFibers
