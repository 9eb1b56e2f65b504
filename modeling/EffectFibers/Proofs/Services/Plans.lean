import EffectFibers.Proofs.Plans.Order
import EffectFibers.Proofs.Services.Needs

/-!
# What the plan of a layer needs

A layer that is made of constructors, composed and renamed in any way, is a graph in which each
constructor looks up its inputs only and ends with its output.  The plan of such a graph puts every
constructor behind those that produce its inputs, so each finds its inputs among what has been
built before it, or they are requirements of the whole layer and come from outside.

## Main definitions

* `LayerSpec.Supplies`, `Layer.Supplies` – a constructor, and a layer, keep what they promise.

## Main statements

* `Layer.Supplies.merge`, `Layer.Supplies.mapError`, … – the compositions keep it, too.
* `Layer.Supplies.plan` – the plan of a layer needs the requirements of the layer.
-/

namespace EffectFibers

variable {σ : Type} {cat later : Catalogue} {tags ready : TagId → Prop} {exports : List TagId}

/-! ## Constructors and layers -/

/-- A constructor has one output, for which it is catalogued, looks up its inputs only, and ends
with its output. -/
def LayerSpec.Supplies (cat : Catalogue) (n : LayerNode σ) : Prop :=
  ∃ t, cat n.id = some t ∧ (∀ u, n.outputs.contains u = true ↔ t = u) ∧
    n.build.Needs True cat (fun u => n.inputs.contains u = true) (some t)

/-- The constructors of a layer keep what they promise, and its exports are outputs of them. -/
structure Layer.Supplies (cat : Catalogue) (l : Layer σ) : Prop where
  nodes : ∀ n ∈ l.nodes, n.Supplies cat
  exports : ∀ t, l.exports.contains t = true → ∃ n ∈ l.nodes, n.outputs.contains t = true

/-- Constructors with one identity have the same outputs. -/
theorem LayerSpec.Supplies.same_outputs {n m : LayerNode σ} (first : n.Supplies cat)
    (second : m.Supplies cat) (same : n.id = m.id) (t : TagId) :
    n.outputs.contains t = true ↔ m.outputs.contains t = true := by
  obtain ⟨u, listed, outputs, -⟩ := first
  obtain ⟨v, listed', outputs', -⟩ := second
  obtain rfl : u = v := Option.some.inj (listed.symm.trans (same ▸ listed'))
  rw [outputs, outputs']

/-! ## Plans -/

theorem LayerSpec.dependsOn_iff {ν : Type} {consumer producer : LayerSpec ν} :
    consumer.dependsOn producer = true ↔
      ∃ t, consumer.inputs.contains t = true ∧ producer.outputs.contains t = true := by
  simp [dependsOn]

/-- What is still to come of a plan, when what it needs is ready or produced on the way. -/
theorem Layers.need_of_order (order : List (LayerNode σ)) (supplies : ∀ n ∈ order, n.Supplies cat)
    (alone : ∀ n ∈ order, n.dependsOn n = false)
    (ordered : order.Pairwise fun first second => first.dependsOn second = false)
    (inputs : ∀ n ∈ order, ∀ u, n.inputs.contains u = true →
      tags u ∨ ready u ∨ ∃ p ∈ order, p.outputs.contains u = true)
    (outputs : ∀ t ∈ exports, ready t ∨ ∃ p ∈ order, p.outputs.contains t = true) :
    Layers.Need True order cat tags ready exports := by
  induction order generalizing ready with
  | nil => exact fun _ t exported => by simpa using outputs t exported
  | cons n rest ih =>
      obtain ⟨t, listed, produces, needs⟩ := supplies n List.mem_cons_self
      obtain ⟨before, ordered⟩ := List.pairwise_cons.1 ordered
      refine ⟨some t, fun _ => ⟨t, rfl, listed⟩, needs.mono (fun _ => .refl cat) fun u needed => ?_,
        ih ?_ ?_ ordered ?_ ?_⟩
      · -- what the first one consumes is not produced by itself, nor by a later one
        rcases inputs n List.mem_cons_self u needed with outside | there | ⟨p, listed, produced⟩
        · exact .inl outside
        · exact .inr there
        · have depends : n.dependsOn p = true := LayerSpec.dependsOn_iff.2 ⟨u, needed, produced⟩
          rcases List.mem_cons.1 listed with rfl | behind
          · simp [alone p List.mem_cons_self] at depends
          · simp [before p behind] at depends
      · exact fun m listed => supplies m (List.mem_cons_of_mem n listed)
      · exact fun m listed => alone m (List.mem_cons_of_mem n listed)
      · intro m listed u needed
        rcases inputs m (List.mem_cons_of_mem n listed) u needed with
          outside | there | ⟨p, listed, produced⟩
        · exact .inl outside
        · exact .inr (.inl (.inl there))
        · rcases List.mem_cons.1 listed with rfl | behind
          · exact .inr (.inl (.inr (congrArg some ((produces u).1 produced))))
          · exact .inr (.inr ⟨p, behind, produced⟩)
      · intro u exported
        rcases outputs u exported with there | ⟨p, listed, produced⟩
        · exact .inl (.inl there)
        · rcases List.mem_cons.1 listed with rfl | behind
          · exact .inl (.inr (congrArg some ((produces u).1 produced)))
          · exact .inr ⟨p, behind, produced⟩

namespace Layer

variable {l dependency : Layer σ}

theorem contains_requirements {t : TagId} : l.requirements.contains t = true ↔
    (∃ n ∈ l.nodes, n.inputs.contains t = true) ∧
      ¬ ∃ n ∈ l.nodes, n.outputs.contains t = true := by
  simp [requirements]

/-- A plan needs nothing from outside but the requirements of the layer. -/
theorem Supplies.plan (supplies : l.Supplies cat)
    (outside : ∀ t, l.requirements.contains t = true → tags t) :
    Plan.Need True l.plan cat tags l.exports.ids := by
  cases planned : l.plan with
  | error e => trivial
  | ok order =>
      obtain ⟨perm, alone, ordered⟩ := planLayers_ok planned
      refine Layers.need_of_order order (fun n listed => supplies.nodes n (perm.mem_iff.1 listed))
        alone ordered (fun n listed u needed => ?_) fun t exported => ?_
      · by_cases produced : ∃ p ∈ l.nodes, p.outputs.contains u = true
        · obtain ⟨p, listed, produced⟩ := produced
          exact .inr (.inr ⟨p, perm.mem_iff.2 listed, produced⟩)
        · exact .inl (outside u
            (contains_requirements.2 ⟨⟨n, perm.mem_iff.1 listed, needed⟩, produced⟩))
      · obtain ⟨n, listed, produced⟩ := supplies.exports t (Requirements.mem_ids.1 exported)
        exact .inr ⟨n, perm.mem_iff.2 listed, produced⟩

/-! ## Compositions -/

/-- A constructor is put behind others, unless one of them has its identity. -/
def addNode (kept : List (LayerNode σ)) (node : LayerNode σ) : List (LayerNode σ) :=
  if kept.any (·.id == node.id) then kept else kept ++ [node]

section Union

variable {kept nodes first second : List (LayerNode σ)} {node n : LayerNode σ}

theorem mem_addNode (listed : n ∈ addNode kept node) : n ∈ kept ∨ n = node := by
  unfold addNode at listed
  split at listed
  · exact .inl listed
  · simpa using listed

theorem subset_addNode : kept ⊆ addNode kept node := by
  unfold addNode
  split
  · exact List.Subset.refl kept
  · exact List.subset_append_left kept [node]

theorem exists_addNode : ∃ m ∈ addNode kept node, m.id = node.id := by
  unfold addNode
  split
  · rename_i there
    simpa using there
  · exact ⟨node, by simp, rfl⟩

theorem mem_foldl_addNode (listed : n ∈ nodes.foldl addNode kept) : n ∈ kept ∨ n ∈ nodes := by
  induction nodes generalizing kept with
  | nil => exact .inl listed
  | cons node nodes ih =>
      rcases ih listed with early | late
      · exact (mem_addNode early).imp_right fun same => List.mem_cons.2 (.inl same)
      · exact .inr (List.mem_cons_of_mem node late)

theorem subset_foldl_addNode : kept ⊆ nodes.foldl addNode kept := by
  induction nodes generalizing kept with
  | nil => exact List.Subset.refl kept
  | cons node nodes ih => exact fun m there => ih (subset_addNode there)

theorem exists_foldl_addNode (listed : n ∈ nodes) :
    ∃ m ∈ nodes.foldl addNode kept, m.id = n.id := by
  induction nodes generalizing kept with
  | nil => cases listed
  | cons node nodes ih =>
      rw [List.foldl_cons]
      rcases List.mem_cons.1 listed with rfl | behind
      · obtain ⟨m, there, same⟩ : ∃ m ∈ addNode kept n, m.id = n.id := exists_addNode
        exact ⟨m, subset_foldl_addNode there, same⟩
      · exact ih behind

/-- A union keeps a constructor for every identity, and adds none. -/
theorem mem_unionNodes (listed : n ∈ unionNodes first second) : n ∈ first ∨ n ∈ second :=
  List.mem_append.1 ((mem_foldl_addNode listed).resolve_left List.not_mem_nil)

theorem exists_unionNodes (listed : n ∈ first ∨ n ∈ second) :
    ∃ m ∈ unionNodes first second, m.id = n.id :=
  exists_foldl_addNode (List.mem_append.2 listed)

end Union

/-- The constructors of a layer have some property, and its exports are outputs of them. -/
structure Consists (P : LayerNode σ → Prop) (l : Layer σ) : Prop where
  nodes : ∀ n ∈ l.nodes, P n
  exports : ∀ t, l.exports.contains t = true → ∃ n ∈ l.nodes, n.outputs.contains t = true

section Consists

variable {P : LayerNode σ → Prop} (same_outputs : ∀ {n m : LayerNode σ}, P n → P m → n.id = m.id →
  ∀ t, n.outputs.contains t = true ↔ m.outputs.contains t = true)

include same_outputs

/-- The constructors of two layers side by side produce what those of both produce. -/
theorem consists_union {first second : List (LayerNode σ)} (left : ∀ n ∈ first, P n)
    (right : ∀ n ∈ second, P n) :
    (∀ n ∈ unionNodes first second, P n) ∧
      ∀ t, (∃ n, (n ∈ first ∨ n ∈ second) ∧ n.outputs.contains t = true) →
        ∃ n ∈ unionNodes first second, n.outputs.contains t = true := by
  have all : ∀ n, n ∈ first ∨ n ∈ second → P n :=
    fun n listed => listed.elim (left n) (right n)
  refine ⟨fun n listed => all n (mem_unionNodes listed), ?_⟩
  rintro t ⟨n, listed, produced⟩
  obtain ⟨twin, listed', same⟩ := exists_unionNodes listed
  exact ⟨twin, listed',
    (same_outputs (all twin (mem_unionNodes listed')) (all n listed) same t).2 produced⟩

theorem Consists.merge (consists : l.Consists P) (others : dependency.Consists P) :
    (l.merge dependency).Consists P := by
  obtain ⟨nodes, produced⟩ := consists_union same_outputs consists.nodes others.nodes
  refine ⟨nodes, fun t exported => produced t ?_⟩
  rcases Requirements.contains_union.1 exported with exported | exported
  · obtain ⟨n, listed, produced⟩ := consists.exports t exported
    exact ⟨n, .inl listed, produced⟩
  · obtain ⟨n, listed, produced⟩ := others.exports t exported
    exact ⟨n, .inr listed, produced⟩

theorem Consists.provide (consists : l.Consists P) (others : dependency.Consists P) :
    (l.provide dependency).Consists P := by
  obtain ⟨nodes, produced⟩ := consists_union same_outputs others.nodes consists.nodes
  refine ⟨nodes, fun t exported => produced t ?_⟩
  obtain ⟨n, listed, produced⟩ := consists.exports t exported
  exact ⟨n, .inr listed, produced⟩

theorem Consists.provideMerge (consists : l.Consists P) (others : dependency.Consists P) :
    (l.provideMerge dependency).Consists P := by
  obtain ⟨nodes, produced⟩ := consists_union same_outputs others.nodes consists.nodes
  refine ⟨nodes, fun t exported => produced t ?_⟩
  rcases Requirements.contains_union.1 exported with exported | exported
  · obtain ⟨n, listed, produced⟩ := consists.exports t exported
    exact ⟨n, .inr listed, produced⟩
  · obtain ⟨n, listed, produced⟩ := others.exports t exported
    exact ⟨n, .inl listed, produced⟩

end Consists

/-- A name is of no consequence. -/
theorem Consists.named {P : LayerNode σ → Prop} (consists : l.Consists P) (name : String)
    (anyName : ∀ n, P n → P { n with name }) : (l.named name).Consists P := by
  unfold Layer.named
  split
  · rename_i node only
    refine ⟨fun n listed => ?_, fun t exported => ?_⟩
    · obtain rfl := List.mem_singleton.1 listed
      exact anyName node (consists.nodes node (by simp [only]))
    · obtain ⟨n, listed, produced⟩ := consists.exports t exported
      rw [only, List.mem_singleton] at listed
      exact ⟨_, List.mem_singleton_self _, listed ▸ produced⟩
  · exact consists

theorem supplies_iff_consists : l.Supplies cat ↔ l.Consists (LayerSpec.Supplies cat) :=
  ⟨fun supplies => ⟨supplies.nodes, supplies.exports⟩,
    fun consists => ⟨consists.nodes, consists.exports⟩⟩

theorem Supplies.merge (supplies : l.Supplies cat) (others : dependency.Supplies cat) :
    (l.merge dependency).Supplies cat :=
  supplies_iff_consists.2 (.merge LayerSpec.Supplies.same_outputs
    (supplies_iff_consists.1 supplies) (supplies_iff_consists.1 others))

theorem Supplies.provide (supplies : l.Supplies cat) (others : dependency.Supplies cat) :
    (l.provide dependency).Supplies cat :=
  supplies_iff_consists.2 (.provide LayerSpec.Supplies.same_outputs
    (supplies_iff_consists.1 supplies) (supplies_iff_consists.1 others))

theorem Supplies.provideMerge (supplies : l.Supplies cat) (others : dependency.Supplies cat) :
    (l.provideMerge dependency).Supplies cat :=
  supplies_iff_consists.2 (.provideMerge LayerSpec.Supplies.same_outputs
    (supplies_iff_consists.1 supplies) (supplies_iff_consists.1 others))

theorem Supplies.named (supplies : l.Supplies cat) (name : String) :
    (l.named name).Supplies cat :=
  supplies_iff_consists.2 ((supplies_iff_consists.1 supplies).named name fun _ kept => kept)

/-! ## Layers that are made -/

/-- The constructors of a layer are catalogued for what they produce. -/
def Filed (cat : Catalogue) (l : Layer σ) : Prop :=
  ∀ n ∈ l.nodes, ∀ t, n.outputs.contains t = true → cat n.id = some t

variable {roster : Roster} {w : World σ} {t : Tag}

theorem supplies_of_atomic {inputs : Requirements} {build : Node σ}
    (needs : build.Needs True cat (fun u => inputs.contains u = true) (some t.id))
    (made : (atomic t inputs build roster w).result = .ok l) (filed : l.Filed cat) :
    l.Supplies cat := by
  obtain rfl := Except.ok.inj made
  have produced : ∀ u, (Requirements.of t).contains u = true ↔ t.id = u :=
    fun u => Requirements.contains_of
  refine ⟨fun n listed => ?_, fun u exported => ⟨_, List.mem_singleton_self _, exported⟩⟩
  have listed' := filed n listed t.id
  obtain rfl := List.mem_singleton.1 listed
  exact ⟨t.id, listed' ((produced t.id).2 rfl), produced, needs⟩

theorem fits_single (v : Value) : (single t v).Fits (some t.id) := ⟨_, rfl, by simp⟩

/-- A layer for a service that exists already. -/
theorem supplies_of_succeed {service : Value}
    (made : ((succeed t service : Action σ (Layer σ)) roster w).result = .ok l)
    (filed : l.Filed cat) : l.Supplies cat := by
  have needs : (Node.succeed (single t service) : Node σ).Needs True cat
      (fun u => Requirements.none.contains u = true) (some t.id) := fits_single service
  exact supplies_of_atomic needs made filed

/-- A layer whose service is the value of a tree. -/
theorem supplies_of_ofNode {source : Node σ} {requires : Requirements}
    (needs : source.Needs True cat (fun u => requires.contains u = true) none)
    (made : (ofNode t source requires roster w).result = .ok l) (filed : l.Filed cat) :
    l.Supplies cat := by
  refine supplies_of_atomic (Node.needs_flatMap.2 ⟨needs, fun v => ?_⟩) made filed
  cases v with
  | alien => exact Node.leads_die _
  | _ => exact Node.leads_given fun v same => Except.ok.inj same ▸ fits_single _

end Layer

/-! ## Layers whose failure is changed -/

instance : LawfulMonad (Action σ) :=
  .mk' _ (fun x => Action.bind_pure x) (fun a f => Action.pure_bind a f) fun x f g => by
    funext roster w
    simp only [Bind.bind, Action.bind]
    cases (x roster w).result with
    | error p => rfl
    | ok a => cases second : (f a roster (x roster w).world).result <;> simp [second]

namespace Action

variable {α β : Type} {roster : Roster} {w : World σ}

theorem exists_of_bind {x : Action σ α} {f : α → Action σ β} {b : β}
    (made : ((x >>= f) roster w).result = .ok b) :
    ∃ a, (x roster w).result = .ok a ∧ (f a roster (x roster w).world).result = .ok b := by
  simp only [Bind.bind, Action.bind] at made
  cases first : (x roster w).result with
  | error p =>
      rw [first] at made
      cases made
  | ok a =>
      rw [first] at made
      exact ⟨a, rfl, made⟩

/-- What user code makes of a list, it makes of the entries. -/
theorem exists_of_mapM {f : α → Action σ β} {as : List α} {bs : List β}
    (made : (as.mapM f roster w).result = .ok bs) :
    (∀ b ∈ bs, ∃ a ∈ as, ∃ w, (f a roster w).result = .ok b) ∧
      ∀ a ∈ as, ∃ b ∈ bs, ∃ w, (f a roster w).result = .ok b := by
  induction as generalizing bs w with
  | nil =>
      obtain rfl := Except.ok.inj made
      simp
  | cons a as ih =>
      rw [List.mapM_cons] at made
      obtain ⟨b, first, made⟩ := exists_of_bind made
      obtain ⟨rest, others, made⟩ := exists_of_bind made
      obtain rfl := Except.ok.inj made
      obtain ⟨sources, results⟩ := ih others
      refine ⟨List.forall_mem_cons.2 ⟨⟨a, List.mem_cons_self, w, first⟩, fun c listed => ?_⟩,
        List.forall_mem_cons.2 ⟨⟨b, List.mem_cons_self, w, first⟩, fun c listed => ?_⟩⟩
      · obtain ⟨d, listed, made⟩ := sources c listed
        exact ⟨d, List.mem_cons_of_mem a listed, made⟩
      · obtain ⟨d, listed, made⟩ := results c listed
        exact ⟨d, List.mem_cons_of_mem b listed, made⟩

end Action

/-- A constructor whose failure is changed is a constructor of the same kind. -/
theorem Layer.supplies_of_mapNodeError {f : Failure → Action σ Failure} {n m : LayerNode σ}
    {roster : Roster} {w : World σ} (supplies : n.Supplies cat) (tame : ∀ failure, (f failure).Tame)
    (made : (Layer.mapNodeError f n roster w).result = .ok m)
    (filed : ∀ t, m.outputs.contains t = true → cat m.id = some t) :
    m.Supplies cat ∧ m.outputs = n.outputs := by
  obtain ⟨t, listed, outputs, needs⟩ := supplies
  obtain rfl := Except.ok.inj made
  refine ⟨⟨t, filed t ((outputs t).2 rfl), outputs, ?_⟩, rfl⟩
  refine Node.needs_recover.2 ⟨needs, fun failure => ?_⟩
  cases failure with
  | alien => exact Node.leads_die _
  | _ =>
      refine ((tame _).yields.bind fun later _ _ _ => ?_).leads
      exact (Node.leads_given fun v same => by cases same).yields

/-- If every constructor keeps its outputs and its property when its failure is changed, so does a
layer. -/
theorem Layer.Consists.mapError {P Q : LayerNode σ → Prop} {l l' : Layer σ}
    {f : Failure → Action σ Failure} {roster : Roster} {w : World σ} (consists : l.Consists P)
    (made : (l.mapError f roster w).result = .ok l')
    (renewed : ∀ n m w, P n → m ∈ l'.nodes → (Layer.mapNodeError f n roster w).result = .ok m →
      Q m ∧ m.outputs = n.outputs) : l'.Consists Q := by
  obtain ⟨nodes, mapped, rest⟩ := Action.exists_of_bind made
  obtain rfl := Except.ok.inj rest
  obtain ⟨sources, results⟩ := Action.exists_of_mapM mapped
  refine ⟨fun m listed => ?_, fun t exported => ?_⟩
  · obtain ⟨n, listed', w, made⟩ := sources m listed
    exact (renewed n m w (consists.nodes n listed') listed made).1
  · obtain ⟨n, listed, produced⟩ := consists.exports t exported
    obtain ⟨m, listed', w, made⟩ := results n listed
    have same := (renewed n m w (consists.nodes n listed) listed' made).2
    exact ⟨m, listed', same ▸ produced⟩

theorem Layer.Supplies.mapError {l l' : Layer σ} {f : Failure → Action σ Failure} {roster : Roster}
    {w : World σ} (supplies : l.Supplies cat) (tame : ∀ failure, (f failure).Tame)
    (made : (l.mapError f roster w).result = .ok l') (filed : l'.Filed cat) : l'.Supplies cat := by
  refine supplies_iff_consists.2 ((supplies_iff_consists.1 supplies).mapError made ?_)
  exact fun _ m _ supplies listed renewed =>
    supplies_of_mapNodeError supplies tame renewed (filed m listed)

end EffectFibers
