import EffectFibers.Proofs.Plans.Stuck

/-!
# Plans are exact

A graph of constructors is refused for two reasons only.  Two of its constructors produce the same
service; then the first such service in composition order is named.  Or the dependencies run in a
circle; then all constructors are named that lie on one or depend on one that does.  Every other
graph has a plan, and it is the first one: of all orders in which each constructor comes after those
it depends on, it is the least when they are compared place by place.

The sorting is greedy, so what it has placed so far is the beginning of every good order that does
not come later.  That is what is kept from step to step.

## Main definitions

* `LayerSpec.Clashes` – two constructors produce the same service.
* `FirstClash` – the first clash in composition order.
* `Follows` – an order in which each constructor comes after those it depends on.
* `Layer.PlansExactly` – what is known about the plan of a layer.

## Main statements

* `Layer.plans_exactly` – it holds for every layer.
-/

namespace EffectFibers

variable {ν : Type} {layers : List (LayerSpec ν)} {i j : Nat}

/-! ## Services with two producers -/

/-- Two constructors produce the same service. -/
def LayerSpec.Clashes (l l' : LayerSpec ν) : Prop :=
  ∃ t, l.outputs.contains t = true ∧ l'.outputs.contains t = true

/-- No two constructors of a graph produce the same service. -/
def ClashFree (layers : List (LayerSpec ν)) : Prop := layers.Pairwise fun l l' => ¬ l.Clashes l'

/-- The first clash in composition order: a constructor produces a service that an earlier one
produces as well, no two before it clash, and it produces no such service before this one. -/
def FirstClash (layers : List (LayerSpec ν)) (service first second : String) : Prop :=
  ∃ earlier producer consumer later before t after,
    layers = earlier ++ consumer :: later ∧ ClashFree earlier ∧
    consumer.outputs.tags.entries = before ++ (t, service) :: after ∧
    (∀ entry ∈ before, ∀ l ∈ earlier, l.outputs.contains entry.1 = false) ∧
    producer ∈ earlier ∧ producer.outputs.contains t = true ∧
    first = producer.name ∧ second = consumer.name

theorem Requirements.contains_iff {r : Requirements} {t : TagId} :
    r.contains t = true ↔ ∃ name, (t, name) ∈ r.tags.entries := by
  rw [contains, TagMap.contains, TagMap.find?, Option.isSome_map, List.find?_isSome]
  constructor
  · rintro ⟨⟨u, name⟩, listed, same⟩
    obtain rfl := of_decide_eq_true same
    exact ⟨name, listed⟩
  · rintro ⟨name, listed⟩
    exact ⟨(t, name), listed, decide_eq_true rfl⟩

variable {earlier : List (LayerSpec ν)} {l : LayerSpec ν} {error : LayerError}

/-- A clash with one of the earlier constructors. -/
theorem clashWith_eq_some (clash : clashWith earlier l = some error) :
    ∃ before t service after, l.outputs.tags.entries = before ++ (t, service) :: after ∧
      (∀ entry ∈ before, ∀ l ∈ earlier, l.outputs.contains entry.1 = false) ∧
      ∃ producer ∈ earlier, producer.outputs.contains t = true ∧
        error = .duplicateService service producer.name l.name := by
  obtain ⟨before, ⟨t, service⟩, after, split, found, none⟩ := List.findSome?_eq_some_iff.1 clash
  obtain ⟨producer, known, rfl⟩ := Option.map_eq_some_iff.1 found
  have produces := List.find?_some known
  refine ⟨before, t, service, after, split, fun entry listed l' known' => ?_, producer,
    List.mem_of_find?_eq_some known, produces, rfl⟩
  have missing := List.find?_eq_none.1 (Option.map_eq_none_iff.1 (none entry listed)) l' known'
  simpa using missing

theorem clashWith_eq_none_iff : clashWith earlier l = none ↔ ∀ l' ∈ earlier, ¬ l'.Clashes l := by
  simp only [clashWith, List.findSome?_eq_none_iff, Option.map_eq_none_iff, List.find?_eq_none]
  constructor
  · rintro clean l' listed ⟨t, here, there⟩
    obtain ⟨name, entry⟩ := Requirements.contains_iff.1 there
    exact clean _ entry l' listed here
  · rintro apart ⟨t, name⟩ entry l' listed here
    exact apart l' listed ⟨t, here, Requirements.contains_iff.2 ⟨name, entry⟩⟩

/-- The walk over a graph finds the first clash, or there is none. -/
theorem clashAfter_cases (seen layers : List (LayerSpec ν)) (clean : ClashFree seen) :
    match clashAfter seen layers with
    | none => ClashFree (seen ++ layers)
    | some error => ∃ service first second, error = .duplicateService service first second ∧
        FirstClash (seen ++ layers) service first second := by
  induction layers generalizing seen with
  | nil => simpa [clashAfter] using clean
  | cons l rest ih =>
      unfold clashAfter
      cases clash : clashWith seen l with
      | some error =>
          obtain ⟨before, t, service, after, split, none, producer, known, produces, rfl⟩ :=
            clashWith_eq_some clash
          exact ⟨service, producer.name, l.name, rfl, seen, producer, l, rest, before, t, after, rfl,
            clean, split, none, known, produces, rfl, rfl⟩
      | none =>
          have apart := clashWith_eq_none_iff.1 clash
          have clean' : ClashFree (seen ++ [l]) :=
            List.pairwise_append.2 ⟨clean, List.pairwise_singleton _ l,
              fun l' listed k only => List.mem_singleton.1 only ▸ apart l' listed⟩
          simpa using ih (seen ++ [l]) clean'

/-- Two constructors clash where there is a first clash. -/
theorem FirstClash.not_clashFree {service first second : String}
    (clash : FirstClash layers service first second) : ¬ ClashFree layers := by
  obtain ⟨earlier, producer, consumer, later, before, t, after, rfl, -, split, -, known, produces,
    -, -⟩ := clash
  intro clean
  have apart := (List.pairwise_append.1 clean).2.2 producer known consumer List.mem_cons_self
  exact apart ⟨t, produces, Requirements.contains_iff.2 ⟨service, split ▸ by simp⟩⟩

theorem firstClash_eq_none_iff : firstClash layers = none ↔ ClashFree layers := by
  have found := clashAfter_cases [] layers List.Pairwise.nil
  unfold firstClash
  cases clash : clashAfter [] layers with
  | none =>
      rw [clash] at found
      exact ⟨fun _ => by simpa using found, fun _ => rfl⟩
  | some error =>
      rw [clash] at found
      obtain ⟨service, first, second, -, first_clash⟩ := found
      exact ⟨nofun, fun clean => absurd clean first_clash.not_clashFree⟩

theorem firstClash_eq_some (clash : firstClash layers = some error) :
    ∃ service first second, error = .duplicateService service first second ∧
      FirstClash layers service first second := by
  have found := clashAfter_cases [] layers List.Pairwise.nil
  rw [show clashAfter [] layers = some error from clash] at found
  exact found

/-! ## The least order -/

/-- An order of the places of a graph in which each constructor comes after those it depends on. -/
structure Follows (layers : List (LayerSpec ν)) (places : List Nat) : Prop where
  perm : places.Perm (List.range layers.length)
  after : ∀ before i later, places = before ++ i :: later → ∀ j, DependsAt layers i j → j ∈ before

/-- Something is a beginning of a list, or comes before it where they first differ. -/
def Leads (start places : List Nat) : Prop :=
  start <+: places ∨ ∃ common a b rest later, start = common ++ a :: rest ∧
    places = common ++ b :: later ∧ a < b

theorem Leads.eq_or_lt {start places : List Nat} (leads : Leads start places)
    (long : places.length ≤ start.length) : start = places ∨ List.Lex (· < ·) start places := by
  rcases leads with beginning | ⟨common, a, b, rest, later, rfl, rfl, less⟩
  · exact .inl (beginning.eq_of_length_le long)
  · exact .inr (List.Lex.append_left _ (.rel less) common)

namespace Sorting

variable {s : Sorting} {places : List Nat}

/-- Who comes next in a good order, after all that has been placed, is ready. -/
theorem Sound.ready_of_follows (sound : Sound layers s) (follows : Follows layers places)
    {rest : List Nat} (begins : places = s.placed.reverse ++ i :: rest) : i ∈ s.ready := by
  have nodup : places.Nodup := follows.perm.nodup_iff.2 List.nodup_range
  have listed : i ∈ places := begins ▸ by simp
  have apart := (List.nodup_append.1 (begins ▸ nodup)).2.2
  refine (sound.ready i).2 ⟨List.mem_range.1 (follows.perm.mem_iff.1 listed), fun placed => ?_,
    List.eq_nil_iff_forall_not_mem.2 fun j missed => ?_⟩
  · exact apart i (List.mem_reverse.2 placed) i List.mem_cons_self rfl
  · obtain ⟨depends, unplaced⟩ := mem_missing.1 missed
    exact unplaced (List.mem_reverse.1 (follows.after _ i rest begins j depends))

/-- What has been placed goes on to be the beginning of every good order that does not come
later. -/
theorem Sound.leads_place (sound : Sound layers s) (follows : Follows layers places)
    (leads : Leads s.placed.reverse places) :
    Leads (s.place layers.toArray).placed.reverse places := by
  cases first : s.ready with
  | nil =>
      rw [place_of_nobody first]
      exact leads
  | cons j ready =>
      rw [placed_place first, List.reverse_cons]
      rcases leads with ⟨rest, rfl⟩ | ⟨common, a, b, rest, later, start, rfl, less⟩
      · obtain ⟨inside, unplaced, -⟩ := (sound.ready j).1 (first ▸ List.mem_cons_self)
        have here : j ∈ s.placed.reverse ++ rest :=
          follows.perm.mem_iff.2 (List.mem_range.2 inside)
        have later : j ∈ rest :=
          (List.mem_append.1 here).resolve_left fun before =>
            unplaced (List.mem_reverse.1 before)
        obtain ⟨i, rest, rfl⟩ := List.exists_cons_of_ne_nil (List.ne_nil_of_mem later)
        have next := first ▸ sound.ready_of_follows follows rfl
        rcases List.mem_cons.1 next with rfl | behind
        · exact .inl ⟨rest, by simp⟩
        · have least := (List.pairwise_cons.1 (first ▸ sound.increasing)).1 i behind
          exact .inr ⟨s.placed.reverse, j, i, [], rest, by simp, rfl, least⟩
      · exact .inr ⟨common, a, b, rest ++ [j], later, by simp [start], rfl, less⟩

theorem leads_run (follows : Follows layers places) :
    Leads (run layers.toArray).placed.reverse places := by
  rw [run_eq_after]
  generalize layers.length = steps
  induction steps with
  | zero => exact .inl List.nil_prefix
  | succ steps ih => exact after_succ layers steps ▸ (sound_after layers steps).leads_place follows ih

/-- When all are placed, each comes after those it depends on. -/
theorem Sound.follows (sound : Sound layers s) (all : layers.length ≤ s.placed.length) :
    Follows layers s.placed.reverse where
  perm := (List.reverse_perm _).trans (sound.perm all)
  after before i later split j depends := by
    have here : i ∈ s.placed := List.mem_reverse.1 (split ▸ by simp)
    obtain ⟨there, other⟩ := sound.closed i here j depends
    have listed : j ∈ before ++ i :: later := split ▸ List.mem_reverse.2 there
    rcases List.mem_append.1 listed with first | last
    · exact first
    · have ordered := List.pairwise_reverse.2 sound.ordered
      rw [split] at ordered
      have independent := (List.pairwise_cons.1 (List.pairwise_append.1 ordered).2.1).1 j
        ((List.mem_cons.1 last).resolve_left other)
      exact absurd depends independent

end Sorting

/-! ## What a plan is -/

theorem planLayers_of_clash (clash : firstClash layers = some error) :
    planLayers layers = .error error := by
  rw [planLayers, clash]

/-- A graph without clashes is sorted. -/
theorem planLayers_of_clashFree (clean : ClashFree layers) :
    planLayers layers =
      if (Sorting.run layers.toArray).placed.length < layers.length then
        .error (.cycle ((List.range layers.length).filterMap fun i =>
          if ((Sorting.run layers.toArray).waiting[i]?).any (0 < ·) then
            (layers[i]?).map (·.name)
          else none))
      else .ok ((Sorting.run layers.toArray).placed.reverse.filterMap fun i => layers[i]?) := by
  rw [planLayers, firstClash_eq_none_iff.2 clean]
  simp

theorem map_some_filterMap {α β : Type} {f : α → Option β} {as : List α}
    (known : ∀ a ∈ as, (f a).isSome) : (as.filterMap f).map some = as.map f := by
  induction as with
  | nil => rfl
  | cons a as ih =>
      obtain ⟨b, image⟩ := Option.isSome_iff_exists.1 (known a List.mem_cons_self)
      rw [List.filterMap_cons_some image, List.map_cons, List.map_cons, image,
        ih fun a listed => known a (List.mem_cons_of_mem _ listed)]

/-- A graph without clashes is refused exactly if it has a circle. -/
theorem planLayers_eq_cycle_iff (clean : ClashFree layers) :
    (∃ names, planLayers layers = .error (.cycle names)) ↔
      ∃ i, Relation.TransGen (DependsAt layers) i i := by
  rw [← Sorting.length_placed_run_lt_iff, planLayers_of_clashFree clean]
  split
  · rename_i stuck
    exact ⟨fun _ => stuck, fun _ => ⟨_, rfl⟩⟩
  · rename_i all
    exact ⟨nofun, fun stuck => absurd stuck all⟩

/-- The constructors that are named lie on a circle or depend on one that does. -/
theorem stuck_of_planLayers {names : List String}
    (refused : planLayers layers = .error (.cycle names)) :
    ∃ stuck : List Nat, stuck.Pairwise (· < ·) ∧ (∀ i, i ∈ stuck ↔ Stuck layers i) ∧
      names.map some = stuck.map fun i => (layers[i]?).map (·.name) := by
  classical
  have clean : ClashFree layers := by
    rw [← firstClash_eq_none_iff]
    cases clash : firstClash layers with
    | none => rfl
    | some error =>
        obtain ⟨service, first, second, rfl, -⟩ := firstClash_eq_some clash
        cases (planLayers_of_clash clash).symm.trans refused
  rw [planLayers_of_clashFree clean] at refused
  split at refused
  · obtain rfl := LayerError.cycle.inj (Except.error.inj refused)
    refine ⟨(List.range layers.length).filter (Stuck layers), List.pairwise_lt_range.filter _,
      fun i => ?_, ?_⟩
    · simpa using fun stuck : Stuck layers i => stuck.lt
    · calc
        _ = (((List.range layers.length).filter (Stuck layers)).filterMap
              fun i => (layers[i]?).map (·.name)).map some := by
          rw [List.filterMap_filter]
          refine congrArg (List.map some) (List.filterMap_congr fun i listed => ?_)
          simp [Sorting.waiting_run_pos_iff (List.mem_range.1 listed)]
        _ = _ := map_some_filterMap fun i listed => by
          simp [(of_decide_eq_true (List.mem_filter.1 listed).2).lt]
  · cases refused

/-- A graph without clashes and circles has a plan, and it is the least of the good orders. -/
theorem planLayers_of_acyclic (clean : ClashFree layers)
    (acyclic : ¬ ∃ i, Relation.TransGen (DependsAt layers) i i) :
    ∃ order places, planLayers layers = .ok order ∧
      order.map some = places.map (fun i => layers[i]?) ∧ Follows layers places ∧
      ∀ other, Follows layers other → places = other ∨ List.Lex (· < ·) places other := by
  have all := Nat.not_lt.1 (mt Sorting.length_placed_run_lt_iff.1 acyclic)
  have follows := (Sorting.sound_run layers).follows all
  refine ⟨_, _, by rw [planLayers_of_clashFree clean, if_neg (Nat.not_lt.2 all)],
    map_some_filterMap fun i listed => ?_, follows, fun other good => ?_⟩
  · simp [List.mem_range.1 (follows.perm.mem_iff.1 listed)]
  · refine (Sorting.leads_run good).eq_or_lt (Nat.le_of_eq ?_)
    rw [good.perm.length_eq, follows.perm.length_eq]

/-! ## Layers -/

namespace Layer

variable {σ : Type}

/-- What is known about the plan of a layer. -/
structure PlansExactly (l : Layer σ) : Prop where
  /-- It is refused for a service exactly if two constructors produce the same one. -/
  duplicate_iff : (∃ service first second,
    l.plan = .error (.duplicateService service first second)) ↔ ¬ ClashFree l.nodes
  /-- The first clash in composition order is named. -/
  duplicate : ∀ service first second, l.plan = .error (.duplicateService service first second) →
    FirstClash l.nodes service first second
  /-- Otherwise it is refused for a cycle exactly if the dependencies run in a circle. -/
  cycle_iff : ClashFree l.nodes → ((∃ names, l.plan = .error (.cycle names)) ↔
    ∃ i, Relation.TransGen (DependsAt l.nodes) i i)
  /-- Those are named, in composition order, that lie on a circle or depend on one that does. -/
  cycle : ∀ names, l.plan = .error (.cycle names) → ∃ stuck : List Nat, stuck.Pairwise (· < ·) ∧
    (∀ i, i ∈ stuck ↔ Stuck l.nodes i) ∧
    names.map some = stuck.map fun i => (l.nodes[i]?).map (·.name)
  /-- Otherwise it has a plan: all constructors, each after those it depends on, and of all such
  orders the least one. -/
  planned : ClashFree l.nodes → (¬ ∃ i, Relation.TransGen (DependsAt l.nodes) i i) →
    ∃ order places, l.plan = .ok order ∧ order.map some = places.map (fun i => l.nodes[i]?) ∧
      Follows l.nodes places ∧
      ∀ other, Follows l.nodes other → places = other ∨ List.Lex (· < ·) places other
  /-- No count of dependencies falls below zero. -/
  counts : ∀ s i, Sorting.Releases l.nodes s i → ∃ n, s.waiting[i]? = some (n + 1)

/-- The plan of a layer is exact: it is refused for the first service with two producers, else for
all constructors on circles or behind them, and else it is the least order in which each constructor
comes after those it depends on. -/
theorem plans_exactly (l : Layer σ) : l.PlansExactly where
  duplicate_iff := by
    rw [← firstClash_eq_none_iff]
    constructor
    · rintro ⟨service, first, second, refused⟩ clean
      rw [plan, planLayers_of_clashFree (firstClash_eq_none_iff.1 clean)] at refused
      split at refused <;> cases refused
    · intro clash
      obtain ⟨error, clash⟩ := Option.ne_none_iff_exists'.1 clash
      obtain ⟨service, first, second, rfl, -⟩ := firstClash_eq_some clash
      exact ⟨service, first, second, planLayers_of_clash clash⟩
  duplicate service first second refused := by
    cases clash : firstClash l.nodes with
    | none =>
        rw [plan, planLayers_of_clashFree (firstClash_eq_none_iff.1 clash)] at refused
        split at refused <;> cases refused
    | some error =>
        obtain ⟨service', first', second', rfl, found⟩ := firstClash_eq_some clash
        cases (planLayers_of_clash clash).symm.trans refused
        exact found
  cycle_iff := planLayers_eq_cycle_iff
  cycle _ := stuck_of_planLayers
  planned := planLayers_of_acyclic
  counts _ _ := Sorting.Releases.waits

end Layer

end EffectFibers
