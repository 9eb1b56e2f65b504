import EffectFibers.Proofs.Layers.Memory
import EffectFibers.Proofs.Services.Lawful

/-!
# New fibers, and what the machine has kept for them

User code may make layers, and a step may start new fibers: a child with a node of its parent, the
members of a group, a program in a run of its own.  All of this leaves what the machine keeps fit for
its use, and so do the layers of a run, as long as only contexts that have the service of a layer
are kept for it.

## Main statements

* `Machine.lawful_perform` – user code.
* `Machine.lawful_fork`, `Machine.lawful_startRace`, `Machine.lawful_startAll` – new children.
* `Machine.lawful_lookUpLayer`, `Machine.lawful_completeBuild` – the layers of a run.
-/

namespace EffectFibers.Machine

variable {σ : Type} {strict : ScopeId → Prop} {cat : Catalogue} {old : FiberId → Prop}
  {m : Machine σ} {f p : FiberId} {context : Context Value} {node : Node σ}

/-! ## User code -/

/-- User code may make new layers, and ends with something good. -/
theorem lawful_perform {α : Type} {code : Action σ α} {good : Catalogue → α → Prop}
    (lawful : m.Lawful strict cat old) (yields : code.Yields cat good) :
    ∃ later, cat.Within later ∧ (m.perform code).2.Lawful strict later old ∧
      ∀ a, (m.perform code).1 = .ok a → good later a := by
  obtain ⟨later, grown, known, result⟩ := yields (statusOf m.fibers) m.world cat (.refl cat)
    lawful.known
  exact ⟨later, grown, lawful_law.perform (lawful.setWorld grown known), result⟩

/-- Tame code makes no layers that matter. -/
theorem lawful_perform_of_tame {α : Type} {code : Action σ α} (lawful : m.Lawful strict cat old)
    (tame : code.Tame) : (m.perform code).2.Lawful strict cat old :=
  lawful_law.perform (lawful.setWorld (.refl cat) (lawful.known.of_le (tame _ _)))

/-! ## Children and programs -/

theorem lawful_fork (lawful : m.Lawful strict cat old) {row : Fiber σ}
    (found : m.fiber? p = some row) (suits : node.Suits (strict row.scope) cat none context) :
    (m.fork p node context).2.Lawful strict cat old :=
  lawful_law.enqueue (lawful_spawnChild lawful found suits .joiner) _

theorem lawful_startRace (lawful : m.Lawful strict cat old) {children : List (Node σ)}
    (hosts : m.Hosts strict cat p context (numbered children)) :
    (m.startRace p context children).2.Lawful strict cat old := by
  let race : Race := { parent := p, members := [], remaining := children.length }
  have pushed : { m with groups := m.groups.push (.race race) }.Lawful strict cat old :=
    lawful_pushGroup lawful trivial
  have born := lawful_spawnMembers pushed hosts m.groups.nextId
  refine lawful_enqueueAll (lawful_setGroup born _ ?_) _
  trivial

theorem lawful_startAll (lawful : m.Lawful strict cat old) {children : List (Node σ)}
    (hosts : m.Hosts strict cat p context (numbered children)) (options : AllOptions) :
    (m.startAll p context children options).2.Lawful strict cat old := by
  let all := Gathering.task p context children options
  have pushed : { m with groups := m.groups.push (.all all) }.Lawful strict cat old :=
    lawful_pushGroup lawful hosts
  have waits : HostsGroup strict cat { m with groups := m.groups.push (.all all) } (.all all) :=
    hosts
  exact lawful_fill pushed _ waits

/-- A program is started in a run of its own. -/
theorem lawful_startRoot (lawful : m.Lawful strict cat old)
    (suits : node.Suits (strict m.scopes.nextId) cat none .empty) :
    (m.startRoot node).2.Lawful strict cat old := by
  have noted : { m with scopes := m.scopes.push [] }.Lawful strict cat old :=
    ⟨lawful.known, lawful.tame, lawful.starts, lawful.hosts, fun s l c holds entry =>
      lawful.built s l c holds (m.memo_startRoot node s ▸ entry)⟩
  let root : Fiber σ := {
    parent := none
    scope := m.scopes.nextId
    reader := .handle
    run := some { next := .eval node } }
  have born : { { m with scopes := m.scopes.push [] } with
      fibers := m.fibers.push root }.Lawful strict cat old := by
    refine lawful_pushFiber noted rfl fun run saved => ?_
    obtain rfl := Option.some.inj saved
    exact ⟨node, .empty, rfl, suits⟩
  exact born.congr rfl rfl rfl rfl

/-! ## The layers of a run -/

/-- What a run remembers of its layers changes; a context that is new there has the service. -/
theorem lawful_modifyMemo (lawful : m.Lawful strict cat old) (s : ScopeId) {change : Memo → Memo}
    (fit : ∀ memo l c, strict s → (change memo).get? l = some (.built c) →
      memo.get? l = some (.built c) ∨ ∃ t, cat l = some t ∧ c.contains t = true) :
    (m.modifyMemo s change).Lawful strict cat old := by
  refine ⟨lawful.known, lawful.tame, lawful.starts, lawful.hosts, fun r l c holds entry => ?_⟩
  rw [memo, modifyMemo, Table.get?_modify] at entry
  split at entry
  · rename_i same
    subst same
    cases row : m.scopes.get? s with
    | none => simp [row, Memo.get?] at entry
    | some known =>
        have changed : (change (m.memo s)).get? l = some (.built c) := by
          simpa [memo, row] using entry
        exact (fit _ l c holds changed).elim (lawful.built s l c holds) id
  · exact lawful.built r l c holds entry

/-- Looking a layer up finds its service, if it has been built. -/
theorem lawful_lookUpLayer (lawful : m.Lawful strict cat old) (s : ScopeId) (layer : LayerNode σ)
    (f : FiberId) : (m.lookUpLayer s layer f).2.Lawful strict cat old ∧
      ∀ c, strict s → (m.lookUpLayer s layer f).1 = .built c →
        ∃ t, cat layer.id = some t ∧ c.contains t = true := by
  unfold lookUpLayer
  split
  · rename_i c found
    refine ⟨lawful, fun d holds same => ?_⟩
    obtain rfl := LayerState.built.inj same
    exact lawful.built s layer.id c holds found
  · exact ⟨lawful, fun c _ same => by cases same⟩
  · refine ⟨lawful_law.trace (lawful_modifyMemo lawful s fun memo l c _ entry => ?_) _,
      fun c _ same => by cases same⟩
    rw [Memo.get?_insert] at entry
    split at entry
    · cases entry
    · exact .inl entry

theorem lawful_joinBuild (lawful : m.Lawful strict cat old) (s : ScopeId) (l : LayerId)
    (w : WaitId) : (m.joinBuild s l w).Lawful strict cat old := by
  unfold joinBuild
  split
  · refine lawful_modifyMemo lawful s fun memo k c _ entry => ?_
    rw [Memo.get?_insert] at entry
    split at entry
    · cases entry
    · exact .inl entry
  · exact lawful_law.resume lawful w _

/-- A context is kept for a layer that has the service of the layer. -/
theorem lawful_completeBuild (lawful : m.Lawful strict cat old) (s : ScopeId) {layer : LayerNode σ}
    {c : Context Value} (has : strict s → ∃ t, cat layer.id = some t ∧ c.contains t = true) :
    (m.completeBuild s layer c).Lawful strict cat old := by
  refine lawful_law.wake (lawful_law.trace ?_ _) _ _
  refine lawful_modifyMemo lawful s fun memo l d holds entry => ?_
  rw [Memo.get?_insert] at entry
  split at entry
  · rename_i same
    obtain rfl := MemoEntry.built.inj (Option.some.inj entry)
    exact .inr (same ▸ has holds)
  · exact .inl entry

theorem lawful_forgetBuild (lawful : m.Lawful strict cat old) (s : ScopeId) (layer : LayerNode σ)
    (outcome : BuildOutcome) (x : Exit) :
    (m.forgetBuild s layer outcome x).Lawful strict cat old := by
  unfold forgetBuild
  split
  · refine lawful_law.wake (lawful_law.trace (lawful_modifyMemo lawful s fun memo l c _ entry => ?_) _) _ _
    rw [Memo.get?_erase] at entry
    split at entry
    · cases entry
    · exact .inl entry
  · exact lawful

end EffectFibers.Machine
