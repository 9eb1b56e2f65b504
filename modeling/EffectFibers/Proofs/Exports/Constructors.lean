import EffectFibers.Proofs.Exports.Lookups
import EffectFibers.Proofs.Services.Plans

/-!
# Constructors that make one service

A layer is made of constructors of three kinds: one has its service already, one wraps the value of
an effect, and one changes the failure of another constructor.  Whatever the effect and the user
code on the way do, such a tree has no other value than a context with just the one service, under
the tag that the constructor declares.  How the layers are composed does not matter for this.

## Main definitions

* `Context.Holds` – a context with one service.
* `Node.Makes` – a tree that can have no other value than such a context.
* `Layer.Made` – a layer of such constructors.
* `Layer.Assembled` – a layer that is made with the constructors and combinators of layers.

## Main statements

* `Layer.Assembled.made` – the combinators make layers of such constructors.
-/

namespace EffectFibers

variable {σ : Type} {cat : Catalogue} {t : TagId}

/-- A context that holds one service, under the given tag. -/
def Context.Holds (t : TagId) (c : Context Value) : Prop :=
  ∃ (tag : Tag) (service : Value), tag.id = t ∧ c = Context.empty.insert tag service

/-- An exit that brings such a context, if it brings a value. -/
def Exit.Brings (t : TagId) (x : Exit) : Prop :=
  ∀ v, x = .ok v → ∃ c, v = .context c ∧ c.Holds t

/-- A tree that has no other value than a context with one service, whatever the values, the
failures and the answers of user code may be on the way. -/
inductive Node.Makes (t : TagId) : Node σ → Prop
  | succeed {v} (brings : Exit.Brings t (.ok v)) : Makes t (.succeed v)
  | fail {c} : Makes t (.fail c)
  | once {ticket x} (brings : Exit.Brings t x) : Makes t (.once ticket x)
  | flatMap {source next}
    (makes : ∀ v roster w n, (next v roster w).result = .ok n → Makes t n) :
    Makes t (.flatMap source next)
  | recover {source handler} (makes : Makes t source)
    (recovers : ∀ failure roster w n, (handler failure roster w).result = .ok n → Makes t n) :
    Makes t (.recover source handler)

/-- A constructor that makes its one output, under which its identity is catalogued. -/
def LayerSpec.Made (cat : Catalogue) (n : LayerNode σ) : Prop :=
  ∃ t, cat n.id = some t ∧ (∀ u, n.outputs.contains u = true ↔ t = u) ∧ n.build.Makes t

/-- A layer of such constructors, which lets out nothing but their outputs. -/
def Layer.Made (cat : Catalogue) (l : Layer σ) : Prop := l.Consists (LayerSpec.Made cat)

/-! ## What a context with one service has -/

namespace Context.Holds

variable {c : Context Value}

theorem contains_iff (holds : c.Holds t) {u : TagId} : c.contains u = true ↔ t = u := by
  obtain ⟨tag, service, rfl, rfl⟩ := holds
  simp

theorem ordered (holds : c.Holds t) : c.services.Ordered := by
  obtain ⟨tag, service, rfl, rfl⟩ := holds
  exact TagMap.ordered_empty.insert

end Context.Holds

theorem Exit.brings_single (tag : Tag) (service : Value) :
    Exit.Brings tag.id (.ok (Layer.single tag service)) := by
  intro v same
  obtain rfl := Except.ok.inj same
  exact ⟨_, rfl, tag, service, rfl, rfl⟩

theorem Exit.brings_error (c : Cause Failure) : Exit.Brings t (.error c) :=
  fun _ same => by cases same

/-- User code that gives an exit builds a tree for it. -/
theorem Node.makes_of_given {x : Exit} (brings : x.Brings t) {roster : Roster} {w : World σ}
    {n : Node σ} (built : ((Node.given x : Action σ (Node σ)) roster w).result = .ok n) :
    n.Makes t := by
  obtain ⟨ticket, -, built⟩ := Action.exists_of_bind built
  obtain rfl := Except.ok.inj built
  exact .once brings

/-! ## The combinators -/

namespace LayerSpec.Made

/-- Constructors with one identity have the same outputs. -/
theorem same_outputs {n m : LayerNode σ} (first : n.Made cat) (second : m.Made cat)
    (same : n.id = m.id) (u : TagId) :
    n.outputs.contains u = true ↔ m.outputs.contains u = true := by
  obtain ⟨t, listed, outputs, -⟩ := first
  obtain ⟨t', listed', outputs', -⟩ := second
  obtain rfl : t = t' := Option.some.inj (listed.symm.trans (same ▸ listed'))
  rw [outputs, outputs']

end LayerSpec.Made

namespace Layer

variable {l dependency l' : Layer σ} {roster : Roster} {w : World σ} {tag : Tag}

theorem made_of_atomic {inputs : Requirements} {build : Node σ} (makes : build.Makes tag.id)
    (made : (atomic tag inputs build roster w).result = .ok l) (filed : l.Filed cat) :
    l.Made cat := by
  obtain rfl := Except.ok.inj made
  have produced : ∀ u, (Requirements.of tag).contains u = true ↔ tag.id = u :=
    fun u => Requirements.contains_of
  refine ⟨fun n listed => ?_, fun u exported => ⟨_, List.mem_singleton_self _, exported⟩⟩
  have listed' := filed n listed tag.id
  obtain rfl := List.mem_singleton.1 listed
  exact ⟨tag.id, listed' ((produced tag.id).2 rfl), produced, makes⟩

/-- A layer for a service that exists already. -/
theorem made_of_succeed {service : Value}
    (made : ((succeed tag service : Action σ (Layer σ)) roster w).result = .ok l)
    (filed : l.Filed cat) : l.Made cat :=
  made_of_atomic (.succeed (Exit.brings_single tag service)) made filed

/-- A layer whose service is the value of a tree, whatever the tree does. -/
theorem made_of_ofNode {source : Node σ} {requires : Requirements}
    (made : (ofNode tag source requires roster w).result = .ok l) (filed : l.Filed cat) :
    l.Made cat := by
  refine made_of_atomic (.flatMap fun v roster w n built => ?_) made filed
  cases v with
  | alien =>
      obtain rfl := Except.ok.inj built
      exact .fail
  | _ => exact Node.makes_of_given (Exit.brings_single tag _) built

namespace Made

theorem merge (made : l.Made cat) (others : dependency.Made cat) : (l.merge dependency).Made cat :=
  Consists.merge LayerSpec.Made.same_outputs made others

theorem provide (made : l.Made cat) (others : dependency.Made cat) :
    (l.provide dependency).Made cat :=
  Consists.provide LayerSpec.Made.same_outputs made others

theorem provideMerge (made : l.Made cat) (others : dependency.Made cat) :
    (l.provideMerge dependency).Made cat :=
  Consists.provideMerge LayerSpec.Made.same_outputs made others

theorem named (made : l.Made cat) (name : String) : (l.named name).Made cat :=
  Consists.named made name fun _ kept => kept

/-- A layer whose failure is changed. -/
theorem mapError {f : Failure → Action σ Failure} (made : l.Made cat)
    (renewed : (l.mapError f roster w).result = .ok l') (filed : l'.Filed cat) : l'.Made cat := by
  refine Consists.mapError made renewed fun n m w made listed renewed => ?_
  have filed := filed m listed
  obtain ⟨t, -, outputs, makes⟩ := made
  obtain rfl := Except.ok.inj renewed
  refine ⟨⟨t, filed t ((outputs t).2 rfl), outputs, .recover makes ?_⟩, rfl⟩
  intro failure roster w n built
  cases failure with
  | alien =>
      obtain rfl := Except.ok.inj built
      exact .fail
  | _ =>
      obtain ⟨changed, -, built⟩ := Action.exists_of_bind built
      exact Node.makes_of_given (Exit.brings_error _) built

/-- A plan of such a layer lists just its constructors. -/
theorem of_plan {layers : List (LayerNode σ)} (made : l.Made cat) (valid : l.plan = .ok layers) :
    ∀ n ∈ layers, n.Made cat :=
  fun n listed => made.nodes n ((planLayers_ok valid).1.subset listed)

end Made

/-- A layer is made with the constructors and combinators of layers, from any effects and any user
code, and its constructors are catalogued for what they produce. -/
inductive Assembled (cat : Catalogue) : Layer σ → Prop
  | succeed {t : Tag} {service : Value} {roster w l}
    (made : ((Layer.succeed t service : Action σ (Layer σ)) roster w).result = .ok l)
    (filed : l.Filed cat) : Assembled cat l
  | ofNode {t : Tag} {source : Node σ} {requires : Requirements} {roster w l}
    (made : (Layer.ofNode t source requires roster w).result = .ok l) (filed : l.Filed cat) :
    Assembled cat l
  | named {l : Layer σ} (assembled : Assembled cat l) (name : String) :
    Assembled cat (l.named name)
  | merge {l m : Layer σ} (first : Assembled cat l) (second : Assembled cat m) :
    Assembled cat (l.merge m)
  | provide {l dependency : Layer σ} (assembled : Assembled cat l)
    (below : Assembled cat dependency) : Assembled cat (l.provide dependency)
  | provideMerge {l dependency : Layer σ} (assembled : Assembled cat l)
    (below : Assembled cat dependency) : Assembled cat (l.provideMerge dependency)
  | mapError {l l' : Layer σ} {f : Failure → Action σ Failure} {roster w}
    (assembled : Assembled cat l) (made : (l.mapError f roster w).result = .ok l')
    (filed : l'.Filed cat) : Assembled cat l'

/-- Such a layer has constructors of one service only. -/
theorem Assembled.made (assembled : l.Assembled cat) : l.Made cat := by
  induction assembled with
  | succeed made filed => exact made_of_succeed made filed
  | ofNode made filed => exact made_of_ofNode made filed
  | named _ name ih => exact ih.named name
  | merge _ _ first second => exact first.merge second
  | provide _ _ ih below => exact ih.provide below
  | provideMerge _ _ ih below => exact ih.provideMerge below
  | mapError _ made filed ih => exact ih.mapError made filed

end Layer

end EffectFibers
