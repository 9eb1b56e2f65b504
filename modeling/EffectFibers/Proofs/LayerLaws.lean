import EffectFibers.Proofs.Exports.Lookups
import EffectFibers.Proofs.Plans.Alike
import EffectFibers.Proofs.Services.Plans

/-!
# Laws of composition

Layers are made of constructors with identities, and a composition puts constructors side by side
and keeps each identity once.  Whatever was composed before, no identity occurs twice in a layer, and
constructors with the same identity consume and produce the same.  From this follow the laws: merging
is associative and idempotent on the nose, it is commutative up to the order of the constructors, the
two ways to feed a layer into another differ in their exports only, and a layer whose failures are
changed has the same graph with new identities throughout.

## Main definitions

* `Shelf` – layers that were made and composed in a world, in any way.
* `Layer.Renews` – a layer has the graph of another one, with new identities.
* `Layer.Laws` – the laws of composition.

## Main statements

* `Shelf.lawful` – what is known about all layers on a shelf.
* `Shelf.laws` – the laws hold for all of them.
-/

namespace EffectFibers

variable {σ : Type}

/-! ## Constructors side by side -/

namespace Layer

variable {kept nodes first second third : List (LayerNode σ)} {node n : LayerNode σ}

theorem addNode_of_mem (there : ∃ m ∈ kept, m.id = node.id) : addNode kept node = kept := by
  have listed : kept.any (·.id == node.id) = true := by simpa using there
  rw [addNode, if_pos listed]

theorem addNode_of_new (new : ∀ m ∈ kept, m.id ≠ node.id) :
    addNode kept node = kept ++ [node] := by
  have unlisted : ¬ kept.any (·.id == node.id) = true := by simpa using new
  rw [addNode, if_neg unlisted]

theorem nodup_addNode (nodup : (kept.map (·.id)).Nodup) :
    ((addNode kept node).map (·.id)).Nodup := by
  by_cases there : ∃ m ∈ kept, m.id = node.id
  · rwa [addNode_of_mem there]
  · have new : ∀ m ∈ kept, m.id ≠ node.id := fun m listed same => there ⟨m, listed, same⟩
    rw [addNode_of_new new, List.map_append, List.map_singleton]
    refine List.nodup_append.2 ⟨nodup, List.nodup_singleton _, fun id old id' only => ?_⟩
    obtain ⟨m, listed, rfl⟩ := List.mem_map.1 old
    obtain rfl := List.mem_singleton.1 only
    exact new m listed

/-- No identity occurs twice among constructors that were put side by side. -/
theorem nodup_unionNodes (first second : List (LayerNode σ)) :
    ((unionNodes first second).map (·.id)).Nodup := by
  have nodup : ∀ (nodes kept : List (LayerNode σ)), (kept.map (·.id)).Nodup →
      ((nodes.foldl addNode kept).map (·.id)).Nodup := by
    intro nodes
    induction nodes with
    | nil => exact fun kept nodup => nodup
    | cons node nodes ih => exact fun kept nodup => ih _ (nodup_addNode nodup)
  exact nodup (first ++ second) [] List.nodup_nil

/-- Constructors that are there already are not added. -/
theorem foldl_addNode_of_there (there : ∀ n ∈ nodes, ∃ m ∈ kept, m.id = n.id) :
    nodes.foldl addNode kept = kept := by
  induction nodes with
  | nil => rfl
  | cons node nodes ih =>
      rw [List.foldl_cons, addNode_of_mem (there node List.mem_cons_self)]
      exact ih fun n listed => there n (List.mem_cons_of_mem _ listed)

/-- Constructors with identities of their own are added as they are. -/
theorem foldl_addNode_of_nodup (nodup : ((kept ++ nodes).map (·.id)).Nodup) :
    nodes.foldl addNode kept = kept ++ nodes := by
  induction nodes generalizing kept with
  | nil => exact (List.append_nil kept).symm
  | cons node nodes ih =>
      have new : ∀ m ∈ kept, m.id ≠ node.id := by
        rw [List.map_append] at nodup
        exact fun m listed => (List.nodup_append.1 nodup).2.2 _ (List.mem_map_of_mem listed) _
          List.mem_cons_self
      rw [List.foldl_cons, addNode_of_new new, ih (by simpa using nodup), List.append_assoc]
      rfl

/-- To leave out identities that came before makes no difference to those that come later. -/
theorem foldl_addNode_foldl (kept nodes : List (LayerNode σ)) :
    (nodes.foldl addNode []).foldl addNode kept = nodes.foldl addNode kept := by
  induction nodes using List.reverseRecOn with
  | nil => rfl
  | append_singleton nodes node ih =>
      rw [List.foldl_append, List.foldl_append, List.foldl_cons, List.foldl_nil, List.foldl_cons,
        List.foldl_nil]
      by_cases there : ∃ m ∈ nodes.foldl addNode [], m.id = node.id
      · obtain ⟨m, listed, same⟩ := there
        obtain ⟨twin, listed', same'⟩ : ∃ twin ∈ nodes.foldl addNode kept, twin.id = m.id :=
          exists_foldl_addNode ((mem_foldl_addNode listed).resolve_left List.not_mem_nil)
        rw [addNode_of_mem ⟨m, listed, same⟩, ih, addNode_of_mem ⟨twin, listed', same'.trans same⟩]
      · rw [addNode_of_new fun m listed same => there ⟨m, listed, same⟩, List.foldl_append, ih]
        rfl

theorem unionNodes_eq (first second : List (LayerNode σ)) :
    unionNodes first second = second.foldl addNode (first.foldl addNode []) :=
  List.foldl_append

theorem unionNodes_assoc (first second third : List (LayerNode σ)) :
    unionNodes (unionNodes first second) third =
      unionNodes first (unionNodes second third) := by
  have once : ∀ nodes : List (LayerNode σ), (nodes.foldl addNode []).foldl addNode [] =
      nodes.foldl addNode [] := foldl_addNode_foldl []
  calc unionNodes (unionNodes first second) third
      = third.foldl addNode (((first ++ second).foldl addNode []).foldl addNode []) :=
        unionNodes_eq _ _
    _ = third.foldl addNode (second.foldl addNode (first.foldl addNode [])) := by
        rw [once, List.foldl_append]
    _ = (second ++ third).foldl addNode (first.foldl addNode []) := List.foldl_append.symm
    _ = unionNodes first (unionNodes second third) := by
        rw [unionNodes_eq first, unionNodes, ← foldl_addNode_foldl]
        rfl

theorem unionNodes_self (nodup : (nodes.map (·.id)).Nodup) : unionNodes nodes nodes = nodes := by
  have same : nodes.foldl addNode [] = nodes := foldl_addNode_of_nodup nodup
  rw [unionNodes_eq, same]
  exact foldl_addNode_of_there fun n listed => ⟨n, listed, rfl⟩

end Layer

/-! ## Names of tags -/

/-- A requirement set shows its tags by their names. -/
def Requirements.Named (names : TagId → String) (r : Requirements) : Prop :=
  ∀ t name, r.tags.find? t = some name → name = names t

namespace Requirements

variable {names : TagId → String} {r s : Requirements} {rs : List Requirements} {t : TagId}

theorem ordered_of (t : Tag) : (of t).tags.Ordered := TagMap.ordered_empty.insert

theorem named_of {t : Tag} (own : t.name = names t.id) : (of t).Named names := by
  intro u name found
  have found : (TagMap.empty.insert t.id t.name).find? u = some name := found
  rw [TagMap.find?_insert] at found
  split at found
  · rename_i same
    obtain rfl := Option.some.inj found
    rw [own, same]
  · cases found

theorem Named.union (named : r.Named names) (named' : s.Named names) (ordered : s.tags.Ordered) :
    (r.union s).Named names := by
  intro t name found
  have found : (r.tags.union s.tags).find? t = some name := found
  rw [TagMap.find?_union ordered, Option.or_eq_some_iff] at found
  rcases found with found | ⟨-, found⟩
  · exact named' t name found
  · exact named t name found

theorem Named.without (named : r.Named names) (tags : List TagId) :
    (r.without tags).Named names := by
  intro t name found
  have found : (r.tags.without tags).find? t = some name := found
  rw [TagMap.find?_without] at found
  split at found
  · cases found
  · exact named t name found

theorem ordered_unionAll (rs : List Requirements) : (unionAll rs).tags.Ordered := by
  have united : ∀ (rs : List Requirements) (r : Requirements), r.tags.Ordered →
      (rs.foldl union r).tags.Ordered := by
    intro rs
    induction rs with
    | nil => exact fun r ordered => ordered
    | cons s rs ih => exact fun r ordered => ih (r.union s) (TagMap.Ordered.union ordered)
  exact united rs none TagMap.ordered_empty

theorem named_unionAll (named : ∀ r ∈ rs, r.Named names) (ordered : ∀ r ∈ rs, r.tags.Ordered) :
    (unionAll rs).Named names := by
  have united : ∀ r : Requirements, r.Named names → (rs.foldl union r).Named names := by
    induction rs with
    | nil => exact fun r named => named
    | cons s rs ih =>
        refine fun r before => ih (fun r listed => named r (List.mem_cons_of_mem _ listed))
          (fun r listed => ordered r (List.mem_cons_of_mem _ listed)) (r.union s) ?_
        exact before.union (named s List.mem_cons_self) (ordered s List.mem_cons_self)
  exact united none nofun

/-- Two sets with the same tags, all shown by their names, are equal. -/
theorem Named.ext (named : r.Named names) (named' : s.Named names) (ordered : r.tags.Ordered)
    (ordered' : s.tags.Ordered) (same : ∀ t, r.contains t = true ↔ s.contains t = true) : r = s := by
  have found : ∀ {q : Requirements}, q.Named names → ∀ t, q.tags.find? t =
      if q.contains t = true then some (names t) else Option.none := by
    intro q named t
    rw [contains, TagMap.contains_eq_isSome]
    cases look : q.tags.find? t with
    | none => rfl
    | some name => simp [named t name look]
  have tags : r.tags = s.tags := ordered.ext ordered' fun t => by
    rw [found named, found named']
    exact if_congr (same t) rfl rfl
  obtain ⟨_⟩ := r
  obtain ⟨_⟩ := s
  exact congrArg Requirements.mk tags

/-- Two sets with the same tags list them in the same order. -/
theorem ids_eq (ordered : r.tags.Ordered) (ordered' : s.tags.Ordered)
    (same : ∀ t, r.contains t = true ↔ s.contains t = true) : r.ids = s.ids :=
  ordered.tags_eq ordered' same

theorem union_assoc (q : Requirements) (ordered : r.tags.Ordered) (ordered' : s.tags.Ordered)
    (start : q.tags.Ordered) : (q.union r).union s = q.union (r.union s) := by
  have tags : (q.tags.union r.tags).union s.tags = q.tags.union (r.tags.union s.tags) := by
    refine start.union.union.ext start.union fun t => ?_
    rw [TagMap.find?_union ordered', TagMap.find?_union ordered, TagMap.find?_union ordered.union,
      TagMap.find?_union ordered', Option.or_assoc]
  exact congrArg Requirements.mk tags

theorem union_self (ordered : r.tags.Ordered) : r.union r = r := by
  have tags : r.tags.union r.tags = r.tags := by
    refine ordered.union.ext ordered fun t => ?_
    rw [TagMap.find?_union ordered, Option.or_self]
  obtain ⟨_⟩ := r
  exact congrArg Requirements.mk tags

end Requirements

/-! ## Layers that were made in a world -/

/-- User code makes something, and leaves a world. -/
def Action.Makes {α : Type} (code : Action σ α) (world : World σ) (a : α) (world' : World σ) :
    Prop :=
  ∃ roster, (code roster world).result = .ok a ∧ (code roster world).world = world'

/-- Layers that were made one after the other, from services and trees or out of layers that were
made before.  A layer can be used as often as one likes.  In between, other code may run, which at
most hands out identities.  A tag has one name, which it was made with. -/
inductive Shelf (names : TagId → String) : World σ → List (Layer σ) → Prop
  | empty (world : World σ) : Shelf names world []
  | later {world world' : World σ} {layers : List (Layer σ)} (shelf : Shelf names world layers)
    (issued : world.layers.issued ≤ world'.layers.issued) : Shelf names world' layers
  | succeed {world world' : World σ} {layers : List (Layer σ)} (shelf : Shelf names world layers)
    {t : Tag} {service : Value} {l : Layer σ} (own : t.name = names t.id)
    (made : (Layer.succeed t service).Makes world l world') : Shelf names world' (l :: layers)
  | ofNode {world world' : World σ} {layers : List (Layer σ)} (shelf : Shelf names world layers)
    {t : Tag} {source : Node σ} {requires : Requirements} {l : Layer σ} (own : t.name = names t.id)
    (ordered : requires.tags.Ordered)
    (made : (Layer.ofNode t source requires).Makes world l world') :
    Shelf names world' (l :: layers)
  | named {world : World σ} {layers : List (Layer σ)} (shelf : Shelf names world layers)
    {l : Layer σ} (listed : l ∈ layers) (name : String) : Shelf names world (l.named name :: layers)
  | merge {world : World σ} {layers : List (Layer σ)} (shelf : Shelf names world layers)
    {l m : Layer σ} (listed : l ∈ layers) (listed' : m ∈ layers) :
    Shelf names world (l.merge m :: layers)
  | provide {world : World σ} {layers : List (Layer σ)} (shelf : Shelf names world layers)
    {l m : Layer σ} (listed : l ∈ layers) (listed' : m ∈ layers) :
    Shelf names world (l.provide m :: layers)
  | provideMerge {world : World σ} {layers : List (Layer σ)} (shelf : Shelf names world layers)
    {l m : Layer σ} (listed : l ∈ layers) (listed' : m ∈ layers) :
    Shelf names world (l.provideMerge m :: layers)
  | mapError {world world' : World σ} {layers : List (Layer σ)} (shelf : Shelf names world layers)
    {l l' : Layer σ} (listed : l ∈ layers) {f : Failure → Action σ Failure}
    (made : (l.mapError f).Makes world l' world') : Shelf names world' (l' :: layers)

/-! ## Changing failures -/

namespace Layer

variable {l l' : Layer σ} {f : Failure → Action σ Failure} {roster : Roster}
  {world world' : World σ}

theorem mapM_mapNodeError (f : Failure → Action σ Failure) (nodes : List (LayerNode σ))
    (roster : Roster) (world : World σ) :
    ∃ nodes', nodes.mapM (mapNodeError f) roster world =
        ⟨.ok nodes', { world with layers := ⟨world.layers.issued + nodes.length⟩ }, []⟩ ∧
      nodes'.map (·.face) = nodes.map (·.face) ∧
      nodes'.map (·.id.raw) = List.range' (world.layers.issued + 1) nodes.length := by
  induction nodes generalizing world with
  | nil => exact ⟨[], rfl, rfl, rfl⟩
  | cons node nodes ih =>
      obtain ⟨node', renewed, face, id⟩ : ∃ node' : LayerNode σ, mapNodeError f node roster world =
          ⟨.ok node', { world with layers := ⟨world.layers.issued + 1⟩ }, []⟩ ∧
          node'.face = node.face ∧ node'.id.raw = world.layers.issued + 1 := ⟨_, rfl, rfl, rfl⟩
      obtain ⟨nodes', others, faces, ids⟩ :=
        ih { world with layers := ⟨world.layers.issued + 1⟩ }
      refine ⟨node' :: nodes', ?_, by rw [List.map_cons, List.map_cons, face, faces], ?_⟩
      · rw [List.mapM_cons]
        simp only [Bind.bind, Action.bind, renewed, others, List.length_cons]
        rw [Nat.add_right_comm]
        rfl
      · rw [List.map_cons, ids, id, List.length_cons, List.range'_succ]

/-- To change the failures of a layer succeeds, and hands out one identity for each constructor. -/
theorem makes_mapError (l : Layer σ) (f : Failure → Action σ Failure) (roster : Roster)
    (world : World σ) :
    ∃ l', (l.mapError f roster world).result = .ok l' ∧
      (l.mapError f roster world).world =
        { world with layers := ⟨world.layers.issued + l.nodes.length⟩ } ∧
      l'.exports = l.exports ∧ l'.nodes.map (·.face) = l.nodes.map (·.face) ∧
      l'.nodes.map (·.id.raw) = List.range' (world.layers.issued + 1) l.nodes.length := by
  obtain ⟨nodes', renewed, faces, ids⟩ := mapM_mapNodeError f l.nodes roster world
  refine ⟨{ l with nodes := nodes' }, ?_, ?_, rfl, faces, ids⟩
  all_goals
    unfold mapError
    simp only [Bind.bind, Action.bind, renewed]
    rfl

end Layer

/-! ## What is known about a shelf -/

/-- What is known about layers that were made in a world. -/
structure Lawful (names : TagId → String) (world : World σ) (layers : List (Layer σ)) : Prop where
  /-- No identity occurs twice in a layer. -/
  nodup : ∀ l ∈ layers, (l.nodes.map (·.id)).Nodup
  /-- All identities were handed out. -/
  issued : ∀ l ∈ layers, ∀ n ∈ l.nodes, n.id.raw ≤ world.layers.issued
  /-- Constructors with one identity consume and produce the same. -/
  twins : ∀ l ∈ layers, ∀ m ∈ layers, ∀ n ∈ l.nodes, ∀ k ∈ m.nodes, n.id = k.id →
    n.inputs = k.inputs ∧ n.outputs = k.outputs
  inputs : ∀ l ∈ layers, ∀ n ∈ l.nodes, n.inputs.tags.Ordered
  exports : ∀ l ∈ layers, l.exports.tags.Ordered ∧ l.exports.Named names

namespace Lawful

variable {names : TagId → String} {world world' : World σ} {layers : List (Layer σ)}
  {l l' m : Layer σ}

/-- A layer whose constructors are those of other layers, but for their names. -/
theorem cons_of_old (lawful : Lawful names world layers) (nodup : (l.nodes.map (·.id)).Nodup)
    (old : ∀ n ∈ l.nodes, ∃ m ∈ layers, ∃ k ∈ m.nodes, n.id = k.id ∧ n.inputs = k.inputs ∧
      n.outputs = k.outputs)
    (exports : l.exports.tags.Ordered ∧ l.exports.Named names) :
    Lawful names world (l :: layers) where
  nodup := List.forall_mem_cons.2 ⟨nodup, lawful.nodup⟩
  issued := by
    refine List.forall_mem_cons.2 ⟨fun n listed => ?_, lawful.issued⟩
    obtain ⟨m, there, k, listed', same, -⟩ := old n listed
    rw [same]
    exact lawful.issued m there k listed'
  twins := by
    -- every constructor is the twin of one on the shelf
    have origin : ∀ m ∈ l :: layers, ∀ n ∈ m.nodes, ∃ m' ∈ layers, ∃ k ∈ m'.nodes, n.id = k.id ∧
        n.inputs = k.inputs ∧ n.outputs = k.outputs :=
      List.forall_mem_cons.2 ⟨old, fun m there n listed => ⟨m, there, n, listed, rfl, rfl, rfl⟩⟩
    intro m there m' there' n listed k listed' same
    obtain ⟨o, known, source, listed, id, inputs, outputs⟩ := origin m there n listed
    obtain ⟨o', known', source', listed', id', inputs', outputs'⟩ := origin m' there' k listed'
    have twins := lawful.twins o known o' known' source listed source' listed'
      (id.symm.trans (same.trans id'))
    rw [inputs, outputs, inputs', outputs']
    exact twins
  inputs := by
    refine List.forall_mem_cons.2 ⟨fun n listed => ?_, lawful.inputs⟩
    obtain ⟨m, there, k, listed', -, inputs, -⟩ := old n listed
    rw [inputs]
    exact lawful.inputs m there k listed'
  exports := List.forall_mem_cons.2 ⟨exports, lawful.exports⟩

/-- A layer whose constructors are new. -/
theorem cons_of_new (lawful : Lawful names world layers) (nodup : (l.nodes.map (·.id)).Nodup)
    (new : ∀ n ∈ l.nodes, world.layers.issued < n.id.raw ∧ n.id.raw ≤ world'.layers.issued)
    (later : world.layers.issued ≤ world'.layers.issued)
    (inputs : ∀ n ∈ l.nodes, n.inputs.tags.Ordered)
    (exports : l.exports.tags.Ordered ∧ l.exports.Named names) :
    Lawful names world' (l :: layers) where
  nodup := List.forall_mem_cons.2 ⟨nodup, lawful.nodup⟩
  issued := List.forall_mem_cons.2 ⟨fun n listed => (new n listed).2,
    fun m there n listed => (lawful.issued m there n listed).trans later⟩
  twins := by
    have apart : ∀ m ∈ layers, ∀ k ∈ m.nodes, ∀ n ∈ l.nodes, n.id ≠ k.id := by
      intro m there k listed' n listed same
      have old := lawful.issued m there k listed'
      rw [← same] at old
      exact Nat.not_lt.2 old (new n listed).1
    intro m there m' there' n listed k listed' same
    rcases List.mem_cons.1 there with rfl | known <;> rcases List.mem_cons.1 there' with rfl | known'
    · obtain rfl := List.inj_on_of_nodup_map nodup listed listed' same
      exact ⟨rfl, rfl⟩
    · exact absurd same (apart m' known' k listed' n listed)
    · exact absurd same.symm (apart m known n listed k listed')
    · exact lawful.twins m known m' known' n listed k listed' same
  inputs := List.forall_mem_cons.2 ⟨inputs, lawful.inputs⟩
  exports := List.forall_mem_cons.2 ⟨exports, lawful.exports⟩

/-- A layer of one constructor. -/
theorem cons_of_atomic (lawful : Lawful names world layers) {t : Tag} {inputs : Requirements}
    {build : Node σ} (own : t.name = names t.id) (ordered : inputs.tags.Ordered)
    (made : (Layer.atomic t inputs build).Makes world l world') :
    Lawful names world' (l :: layers) := by
  obtain ⟨roster, result, rfl⟩ := made
  obtain rfl := Except.ok.inj result
  refine lawful.cons_of_new (List.nodup_singleton _) (fun n listed => ?_) (Nat.le_succ _)
    (fun n listed => ?_) ⟨Requirements.ordered_of t, Requirements.named_of own⟩
  · obtain rfl := List.mem_singleton.1 listed
    exact ⟨Nat.lt_succ_self _, Nat.le_refl _⟩
  · obtain rfl := List.mem_singleton.1 listed
    exact ordered

/-- Constructors of two layers side by side are constructors of one of them. -/
theorem old_of_union (listed : l ∈ layers) (listed' : m ∈ layers) :
    ∀ n ∈ unionNodes l.nodes m.nodes, ∃ m ∈ layers, ∃ k ∈ m.nodes, n.id = k.id ∧
      n.inputs = k.inputs ∧ n.outputs = k.outputs := fun n there =>
  (Layer.mem_unionNodes there).elim (fun first => ⟨l, listed, n, first, rfl, rfl, rfl⟩)
    fun second => ⟨m, listed', n, second, rfl, rfl, rfl⟩

theorem exports_union (lawful : Lawful names world layers) (listed : l ∈ layers)
    (listed' : m ∈ layers) : (l.exports.union m.exports).tags.Ordered ∧
      (l.exports.union m.exports).Named names := by
  obtain ⟨ordered, named⟩ := lawful.exports l listed
  obtain ⟨ordered', named'⟩ := lawful.exports m listed'
  exact ⟨TagMap.Ordered.union ordered, named.union named' ordered'⟩

theorem cons_named (lawful : Lawful names world layers) (listed : l ∈ layers) (name : String) :
    Lawful names world (l.named name :: layers) := by
  have nodup := lawful.nodup l listed
  have exports := lawful.exports l listed
  unfold Layer.named
  split
  · rename_i node only
    refine lawful.cons_of_old (List.nodup_singleton _) (fun n there => ?_) exports
    obtain rfl := List.mem_singleton.1 there
    exact ⟨l, listed, node, by simp [only], rfl, rfl, rfl⟩
  · exact lawful.cons_of_old nodup (fun n there => ⟨l, listed, n, there, rfl, rfl, rfl⟩) exports

theorem cons_mapError (lawful : Lawful names world layers) (listed : l ∈ layers)
    {f : Failure → Action σ Failure} (made : (l.mapError f).Makes world l' world') :
    Lawful names world' (l' :: layers) := by
  obtain ⟨roster, result, rfl⟩ := made
  obtain ⟨l'', result', world', exports, faces, ids⟩ := Layer.makes_mapError l f roster world
  obtain rfl := Except.ok.inj (result.symm.trans result')
  rw [world']
  refine lawful.cons_of_new ?_ (fun n there => ?_) (Nat.le_add_right _ _) (fun n there => ?_)
    (exports ▸ lawful.exports l listed)
  · have nodup : (l'.nodes.map (·.id.raw)).Nodup := ids ▸ List.nodup_range'
    exact List.Nodup.of_map (·.raw) (by rwa [List.map_map])
  · have raw : n.id.raw ∈ l'.nodes.map (·.id.raw) := List.mem_map_of_mem there
    rw [ids, List.mem_range'_1] at raw
    exact ⟨raw.1, by show _ ≤ world.layers.issued + l.nodes.length; omega⟩
  · have face : n.face ∈ l.nodes.map (·.face) := faces ▸ List.mem_map_of_mem there
    obtain ⟨k, listed', same⟩ := List.mem_map.1 face
    have inputs : n.face.inputs = k.face.inputs := by rw [same]
    show n.face.inputs.tags.Ordered
    rw [inputs]
    exact lawful.inputs l listed k listed'

end Lawful

/-- Whatever was composed before, all layers on a shelf are lawful. -/
theorem Shelf.lawful {names : TagId → String} {world : World σ} {layers : List (Layer σ)}
    (shelf : Shelf names world layers) : Lawful names world layers := by
  induction shelf with
  | empty world =>
      constructor <;>
        · intro l listed
          cases listed
  | later _ issued ih =>
      exact { ih with issued := fun l listed n there => (ih.issued l listed n there).trans issued }
  | succeed _ own made ih => exact ih.cons_of_atomic own TagMap.ordered_empty made
  | ofNode _ own ordered made ih => exact ih.cons_of_atomic own ordered made
  | named _ listed name ih => exact ih.cons_named listed name
  | merge _ listed listed' ih =>
      exact ih.cons_of_old (Layer.nodup_unionNodes _ _) (Lawful.old_of_union listed listed')
        (ih.exports_union listed listed')
  | provide _ listed listed' ih =>
      have exports := ih.exports _ listed
      exact ih.cons_of_old (Layer.nodup_unionNodes _ _) (Lawful.old_of_union listed' listed) exports
  | provideMerge _ listed listed' ih =>
      exact ih.cons_of_old (Layer.nodup_unionNodes _ _) (Lawful.old_of_union listed' listed)
        (ih.exports_union listed listed')
  | mapError _ listed made ih => exact ih.cons_mapError listed made

/-! ## The laws -/

namespace Layer

/-- A layer has the graph of another one, and shows it place by place, with identities that no layer
had before. -/
structure Renews (layers : List (Layer σ)) (l l' : Layer σ) : Prop where
  exports : l'.exports = l.exports
  /-- Names, inputs and outputs stay as they are. -/
  faces : l'.nodes.map (·.face) = l.nodes.map (·.face)
  new : ∀ n ∈ l'.nodes, ∀ m ∈ layers, ∀ k ∈ m.nodes, n.id ≠ k.id
  distinct : (l'.nodes.map (·.id)).Nodup
  /-- Both graphs are refused with the same error, or planned in the same order. -/
  plan : (∃ error, l.plan = .error error ∧ l'.plan = .error error) ∨
    ∃ order order', ∃ places : List Nat, l.plan = .ok order ∧ l'.plan = .ok order' ∧
      places.Perm (List.range l.nodes.length) ∧ order.map some = places.map (l.nodes[·]?) ∧
      order'.map some = places.map (l'.nodes[·]?)

/-- The laws of composition, for three layers out of some that were made in a world. -/
structure Laws (names : TagId → String) (world : World σ) (layers : List (Layer σ))
    (a b c : Layer σ) : Prop where
  /-- No identity occurs twice. -/
  distinct : (a.nodes.map (·.id)).Nodup
  /-- Merging is associative and idempotent; this is so for constructors, exports, requirements and
  plan. -/
  assoc : (a.merge b).merge c = a.merge (b.merge c)
  idem : a.merge a = a
  /-- The order of merging does not matter to what is let out and to what is needed. -/
  exports_comm : (a.merge b).exports = (b.merge a).exports
  needs_comm : (a.merge b).requirements.ids = (b.merge a).requirements.ids
  /-- If the inputs are shown by the names of their tags, the requirements are shown alike, too. -/
  requirements_comm : (∀ n ∈ a.nodes ++ b.nodes, n.inputs.Named names) →
    (a.merge b).requirements = (b.merge a).requirements
  /-- Both plans have the same constructors, or both graphs are refused for one kind of reason. -/
  plan_comm : PlansAlike (a.merge b).plan (b.merge a).plan
  /-- The two ways to feed a layer into another differ in the exports only. -/
  provided : (a.provide b).nodes = (a.provideMerge b).nodes ∧
    (a.provide b).requirements = (a.provideMerge b).requirements ∧
    (a.provide b).plan = (a.provideMerge b).plan
  exported : (a.provide b).exports = a.exports ∧
    (a.provideMerge b).exports = a.exports.union b.exports
  /-- To change the failures succeeds, and the new layer renews the old one. -/
  renewed : ∀ (f : Failure → Action σ Failure) (roster : Roster),
    ∃ a', (a.mapError f roster world).result = .ok a' ∧ Renews layers a a'

section

variable {a b : Layer σ} {layers : List (Layer σ)} {names : TagId → String} {world : World σ}

theorem requirements_iff_of_twins (twins : HasTwins a.nodes b.nodes)
    (twins' : HasTwins b.nodes a.nodes) (t : TagId) :
    a.requirements.contains t = true ↔ b.requirements.contains t = true := by
  have inputs : ∀ {a b : Layer σ}, HasTwins a.nodes b.nodes →
      (∃ n ∈ a.nodes, n.inputs.contains t = true) → ∃ n ∈ b.nodes, n.inputs.contains t = true := by
    rintro a b twins ⟨n, listed, needs⟩
    obtain ⟨k, there, -, same, -⟩ := twins n listed
    exact ⟨k, there, same ▸ needs⟩
  have outputs : ∀ {a b : Layer σ}, HasTwins a.nodes b.nodes →
      (∃ n ∈ a.nodes, n.outputs.contains t = true) →
      ∃ n ∈ b.nodes, n.outputs.contains t = true := by
    rintro a b twins ⟨n, listed, produces⟩
    obtain ⟨k, there, -, -, same⟩ := twins n listed
    exact ⟨k, there, same ▸ produces⟩
  rw [contains_requirements, contains_requirements]
  exact and_congr ⟨inputs twins, inputs twins'⟩ (not_congr ⟨outputs twins, outputs twins'⟩)

theorem ordered_requirements (l : Layer σ) : l.requirements.tags.Ordered :=
  (Requirements.ordered_unionAll _).without _

theorem named_requirements (named : ∀ n ∈ a.nodes, n.inputs.Named names)
    (ordered : ∀ n ∈ a.nodes, n.inputs.tags.Ordered) : a.requirements.Named names := by
  refine (Requirements.named_unionAll ?_ ?_).without _
  · exact List.forall_mem_map.2 named
  · exact List.forall_mem_map.2 ordered

/-- Two layers that are merged in either order have the same constructors but for their names. -/
theorem hasTwins_merge (lawful : Lawful names world layers) (listed : a ∈ layers)
    (listed' : b ∈ layers) : HasTwins (a.merge b).nodes (b.merge a).nodes := by
  intro n there
  have either : ∃ l ∈ layers, n ∈ l.nodes := (mem_unionNodes there).elim
    (fun first => ⟨a, listed, first⟩) fun second => ⟨b, listed', second⟩
  obtain ⟨l, known, inside⟩ := either
  obtain ⟨k, there', same⟩ := exists_unionNodes (mem_unionNodes there).symm
  obtain ⟨l', known', inside'⟩ : ∃ l ∈ layers, k ∈ l.nodes := (mem_unionNodes there').elim
    (fun first => ⟨b, listed', first⟩) fun second => ⟨a, listed, second⟩
  exact ⟨k, there', same, lawful.twins l' known' l known k inside' n inside same⟩

theorem renews_of_made (lawful : Lawful names world layers) {a' : Layer σ}
    (exports : a'.exports = a.exports) (faces : a'.nodes.map (·.face) = a.nodes.map (·.face))
    (ids : a'.nodes.map (·.id.raw) = List.range' (world.layers.issued + 1) a.nodes.length) :
    Renews layers a a' where
  exports := exports
  faces := faces
  new n listed m there k listed' same := by
    have raw : n.id.raw ∈ a'.nodes.map (·.id.raw) := List.mem_map_of_mem listed
    have old := lawful.issued m there k listed'
    rw [ids, List.mem_range'_1] at raw
    rw [← same] at old
    omega
  distinct := by
    have nodup : (a'.nodes.map (·.id.raw)).Nodup := ids ▸ List.nodup_range'
    exact List.Nodup.of_map (·.raw) (by rwa [List.map_map])
  plan := planLayers_of_faces faces.symm

end

end Layer

/-- However layers were made and composed, the laws of composition hold for them. -/
theorem Shelf.laws {names : TagId → String} {world : World σ} {layers : List (Layer σ)}
    (shelf : Shelf names world layers) {a b c : Layer σ} (first : a ∈ layers) (second : b ∈ layers)
    (third : c ∈ layers) : Layer.Laws names world layers a b c := by
  have lawful := shelf.lawful
  obtain ⟨ordered, named⟩ := lawful.exports a first
  obtain ⟨ordered', named'⟩ := lawful.exports b second
  have twins := Layer.hasTwins_merge lawful first second
  have twins' := Layer.hasTwins_merge lawful second first
  have same := Layer.requirements_iff_of_twins twins twins'
  refine
    { distinct := lawful.nodup a first
      assoc := ?_
      idem := ?_
      exports_comm := ?_
      needs_comm := Requirements.ids_eq (Layer.ordered_requirements _)
        (Layer.ordered_requirements _) same
      requirements_comm := fun own => ?_
      plan_comm := plansAlike_of_twins (Layer.nodup_unionNodes _ _) (Layer.nodup_unionNodes _ _)
        twins twins'
      provided := ⟨rfl, rfl, rfl⟩
      exported := ⟨rfl, rfl⟩
      renewed := fun f roster => ?_ }
  · have nodes := Layer.unionNodes_assoc a.nodes b.nodes c.nodes
    have exports := Requirements.union_assoc a.exports ordered' (lawful.exports c third).1 ordered
    simp only [Layer.merge, nodes, exports]
  · have nodes := Layer.unionNodes_self (lawful.nodup a first)
    have exports := Requirements.union_self ordered
    simp only [Layer.merge, nodes, exports]
  · refine (named.union named' ordered').ext (named'.union named ordered)
      (TagMap.Ordered.union ordered) (TagMap.Ordered.union ordered') fun t => ?_
    exact Requirements.contains_union.trans (or_comm.trans Requirements.contains_union.symm)
  · have inputs : ∀ n, n ∈ a.nodes ∨ n ∈ b.nodes → n.inputs.Named names ∧ n.inputs.tags.Ordered :=
      fun n listed => ⟨own n (List.mem_append.2 listed),
        listed.elim (lawful.inputs a first n) (lawful.inputs b second n)⟩
    have shown : (a.merge b).requirements.Named names :=
      Layer.named_requirements (fun n there => (inputs n (Layer.mem_unionNodes there)).1)
        fun n there => (inputs n (Layer.mem_unionNodes there)).2
    have shown' : (b.merge a).requirements.Named names :=
      Layer.named_requirements (fun n there => (inputs n (Layer.mem_unionNodes there).symm).1)
        fun n there => (inputs n (Layer.mem_unionNodes there).symm).2
    exact shown.ext shown' (Layer.ordered_requirements _) (Layer.ordered_requirements _) same
  · obtain ⟨a', result, -, exports, faces, ids⟩ := Layer.makes_mapError a f roster world
    exact ⟨a', result, Layer.renews_of_made lawful exports faces ids⟩

/-! ## A layer, one that needs it, and a renamed copy -/

/-- The names of two tags. -/
def shownAs (t : TagId) : String := if t.raw = 1 then "Config" else "Database"

/-- A layer for a service that exists already. -/
def configLayer : Layer Unit :=
  let t : Tag := ⟨⟨1⟩, "Config"⟩
  { nodes := [{
      id := ⟨1⟩, name := "Layer(Config)", outputs := .of t, inputs := .none
      build := .succeed (Layer.single t .null) }]
    exports := .of t }

/-- A renamed copy has the identity of the original, so merging the two adds nothing. -/
theorem renamed_layer_obeys_laws : ∃ database : Layer Unit,
    let world : World Unit := { host := (), layers := ⟨2⟩ }
    let layers := [configLayer.named "mine", database, configLayer]
    Shelf shownAs world layers ∧ database.requirements = .of ⟨⟨1⟩, "Config"⟩ ∧
    (configLayer.merge (configLayer.named "mine")).nodes.map (·.name) = ["Layer(Config)"] ∧
    Layer.Laws shownAs world layers configLayer database (configLayer.named "mine") := by
  obtain ⟨database, made, needs⟩ : ∃ database : Layer Unit,
      (Layer.ofNode ⟨⟨2⟩, "Database"⟩ (.succeed .null) (.of ⟨⟨1⟩, "Config"⟩)).Makes
        { host := (), layers := ⟨1⟩ } database { host := (), layers := ⟨2⟩ } ∧
      database.requirements = .of ⟨⟨1⟩, "Config"⟩ := ⟨_, ⟨fun _ => .running, rfl, rfl⟩, rfl⟩
  have config : (Layer.succeed ⟨⟨1⟩, "Config"⟩ .null).Makes { host := () } configLayer
      { host := (), layers := ⟨1⟩ } := ⟨fun _ => .running, rfl, rfl⟩
  have first : Shelf shownAs { host := (), layers := ⟨1⟩ } [configLayer] :=
    (Shelf.empty { host := () }).succeed rfl config
  have shelf := (first.ofNode rfl (Requirements.ordered_of _) made).named (l := configLayer)
    (by simp) "mine"
  exact ⟨database, shelf, needs, rfl, shelf.laws (by simp) (by simp) (by simp)⟩

end EffectFibers
