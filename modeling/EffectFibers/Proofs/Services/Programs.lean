import EffectFibers.Effect.Concurrent
import EffectFibers.Proofs.Services.Plans

/-!
# Programs that declare what they need

An effect knows the services that its visible parts need.  What the result of a continuation, of a
handler, or of a function that uses or releases a resource needs, it knows only if the program
declares it.  A program does so if every effect that one of its functions returns needs only what is
declared around the function; this holds of the constructors of its layers, too, each of which is a
program of its own with the inputs for its declaration.  Of the visible parts nothing is asked: that
the sets which the combinators gather from them are complete is what has to be shown.

User code may make layers, even while a program runs.  Each has a new identity, so a program comes
with a catalogue of its layers, and what a function returns is judged by a later catalogue.

## Main definitions

* `Effect.Declares`, `Layer.Declares` – programs, and layers, that declare what they need.

## Main statements

* `Effect.Declares.needs` – the tree of such a program looks up nothing but its requirements.
-/

namespace EffectFibers

variable {σ : Type}

/-! ## Programs -/

/-- How a catalogue grows while user code runs: with the layers that the code makes. -/
abbrev Growth (σ : Type) := Roster → World σ → Catalogue → Catalogue

/-- A catalogue grows with the layers that user code makes. -/
def Action.Files {α : Type} (code : Action σ α) (cat : Catalogue) (growth : Growth σ) : Prop :=
  ∀ roster w later, cat.Within later → w.Knows later →
    later.Within (growth roster w later) ∧ (code roster w).world.Knows (growth roster w later)

mutual

/-- A program is built with the constructors and combinators, and the effects that its functions
return need only the given services, which are declared around the functions, besides what is
provided there. -/
inductive Effect.Declares : Catalogue → (TagId → Prop) → Effect σ → Prop
  | succeed {cat tags} (v : Value) : Effect.Declares cat tags (.succeed v)
  | fail {cat tags} (f : Failure) : Effect.Declares cat tags (.fail f)
  | die {cat tags} (d : Defect) : Effect.Declares cat tags (.die d)
  | sync {cat tags} {thunk : Action σ Value} (tame : thunk.Tame) :
    Effect.Declares cat tags (.sync thunk)
  | trySync {cat tags} {thunk : Action σ (Except Failure Value)} (tame : thunk.Tame) :
    Effect.Declares cat tags (.trySync thunk)
  | asyncOp {cat tags} {register : WaitId → Action σ (Option (Cleanup σ))}
    (tame : Action.TameRegistration register) : Effect.Declares cat tags (.asyncOp register)
  | service {cat tags} (t : Tag) : Effect.Declares cat tags (.service t)
  | context {cat tags} : Effect.Declares cat tags .context
  | sleep {cat tags} (d : Duration) : Effect.Declares cat tags (.sleep d)
  | yieldNow {cat tags} : Effect.Declares cat tags .yieldNow
  | logAt {cat tags} (level : Level) (message : String) :
    Effect.Declares cat tags (.logAt level message)
  | map {cat tags} {e : Effect σ} {f : Value → Action σ Value} (first : Effect.Declares cat tags e)
    (tame : ∀ v, (f v).Tame) : Effect.Declares cat tags (e.map f)
  | flatMap {cat tags} {e : Effect σ} {k : Value → Action σ (Effect σ)} {growth : Value → Growth σ}
    (first : Effect.Declares cat tags e) (files : ∀ v, (k v).Files cat (growth v))
    (returned : ∀ v roster w later e', cat.Within later → w.Knows later →
      (k v roster w).result = .ok e' → Effect.Declares (growth v roster w later) tags e')
    (inside : ∀ v roster w later e', cat.Within later → w.Knows later →
      (k v roster w).result = .ok e' → e'.requires.Among tags) :
    Effect.Declares cat tags (e.flatMap k)
  | zipRight {cat tags} {e next : Effect σ} (first : Effect.Declares cat tags e)
    (second : Effect.Declares cat tags next) : Effect.Declares cat tags (e.zipRight next)
  | tap {cat tags} {e : Effect σ} {k : Value → Action σ (Effect σ)} {growth : Value → Growth σ}
    (first : Effect.Declares cat tags e) (files : ∀ v, (k v).Files cat (growth v))
    (returned : ∀ v roster w later e', cat.Within later → w.Knows later →
      (k v roster w).result = .ok e' → Effect.Declares (growth v roster w later) tags e')
    (inside : ∀ v roster w later e', cat.Within later → w.Knows later →
      (k v roster w).result = .ok e' → e'.requires.Among tags) :
    Effect.Declares cat tags (e.tap k)
  | mapError {cat tags} {e : Effect σ} {f : Failure → Action σ Failure}
    (first : Effect.Declares cat tags e) (tame : ∀ failure, (f failure).Tame) :
    Effect.Declares cat tags (e.mapError f)
  | catchAll {cat tags} {e : Effect σ} {handler : Failure → Action σ (Effect σ)}
    {growth : Failure → Growth σ} (first : Effect.Declares cat tags e)
    (files : ∀ failure, (handler failure).Files cat (growth failure))
    (returned : ∀ failure roster w later e', cat.Within later → w.Knows later →
      (handler failure roster w).result = .ok e' →
        Effect.Declares (growth failure roster w later) tags e')
    (inside : ∀ failure roster w later e', cat.Within later → w.Knows later →
      (handler failure roster w).result = .ok e' → e'.requires.Among tags) :
    Effect.Declares cat tags (e.catchAll handler)
  | catchTags {cat tags} {e : Effect σ}
    {handlers : List (String × (Failure → Action σ (Effect σ)))}
    {growth : String × (Failure → Action σ (Effect σ)) → Failure → Growth σ}
    (first : Effect.Declares cat tags e)
    (files : ∀ entry ∈ handlers, ∀ failure, (entry.2 failure).Files cat (growth entry failure))
    (returned : ∀ entry ∈ handlers, ∀ failure roster w later e', cat.Within later →
      w.Knows later → (entry.2 failure roster w).result = .ok e' →
        Effect.Declares (growth entry failure roster w later) tags e')
    (inside : ∀ entry ∈ handlers, ∀ failure roster w later e', cat.Within later →
      w.Knows later → (entry.2 failure roster w).result = .ok e' → e'.requires.Among tags) :
    Effect.Declares cat tags (e.catchTags handlers)
  | either {cat tags} {e : Effect σ} (first : Effect.Declares cat tags e) :
    Effect.Declares cat tags e.either
  | ensuring {cat tags} {e finalizer : Effect σ} (first : Effect.Declares cat tags e)
    (last : Effect.Declares cat tags finalizer) : Effect.Declares cat tags (e.ensuring finalizer)
  | uninterruptible {cat tags} {e : Effect σ} (inner : Effect.Declares cat tags e) :
    Effect.Declares cat tags e.uninterruptible
  | provide {cat tags} {e : Effect σ} {l : Layer σ}
    (body : Effect.Declares cat (fun t => tags t ∨ l.exports.contains t = true) e)
    (layer : Layer.Declares cat l) : Effect.Declares cat tags (e.provide l)
  | requiring {cat tags} {e : Effect σ} (inner : Effect.Declares cat tags e) (t : Tag) :
    Effect.Declares cat tags (e.requiring t)
  | retry {cat tags} {e : Effect σ} (inner : Effect.Declares cat tags e) (s : Schedule Failure) :
    Effect.Declares cat tags (e.retry s)
  | repeating {cat tags} {e : Effect σ} (inner : Effect.Declares cat tags e) (s : Schedule Value) :
    Effect.Declares cat tags (e.repeating s)
  | withLogSpan {cat tags} {e : Effect σ} (inner : Effect.Declares cat tags e) (label : String) :
    Effect.Declares cat tags (e.withLogSpan label)
  | raceAll {cat tags} {es : List (Effect σ)} (all : ∀ e ∈ es, Effect.Declares cat tags e) :
    Effect.Declares cat tags (.raceAll es)
  | allWith {cat tags} {es : List (Effect σ)} (all : ∀ e ∈ es, Effect.Declares cat tags e)
    (options : AllOptions) : Effect.Declares cat tags (.allWith es options)
  | allSettled {cat tags} {es : List (Effect σ)} (all : ∀ e ∈ es, Effect.Declares cat tags e)
    (concurrency : Concurrency) : Effect.Declares cat tags (.allSettled es concurrency)
  | fork {cat tags} {e : Effect σ} (inner : Effect.Declares cat tags e) :
    Effect.Declares cat tags e.fork
  | join {cat tags} (f : FiberId) : Effect.Declares cat tags (.join f)
  | awaitExit {cat tags} (f : FiberId) : Effect.Declares cat tags (.awaitExit f)
  | interrupt {cat tags} (f : FiberId) : Effect.Declares cat tags (.interrupt f)

/-- A layer is built with the constructors and combinators of layers, is catalogued, and the effects
that it is made of declare what they need, as its inputs. -/
inductive Layer.Declares : Catalogue → Layer σ → Prop
  | succeed {cat} {t : Tag} {service : Value} {roster w l}
    (made : ((Layer.succeed t service : Action σ (Layer σ)) roster w).result = .ok l)
    (filed : l.Filed cat) : Layer.Declares cat l
  | ofNode {cat} {t : Tag} {e : Effect σ} {roster w l}
    (declares : Effect.Declares cat (fun u => e.requires.contains u = true) e)
    (made : (Layer.ofNode t e.node e.requires roster w).result = .ok l) (filed : l.Filed cat) :
    Layer.Declares cat l
  | named {cat} {l : Layer σ} (declares : Layer.Declares cat l) (name : String) :
    Layer.Declares cat (l.named name)
  | merge {cat} {l m : Layer σ} (first : Layer.Declares cat l) (second : Layer.Declares cat m) :
    Layer.Declares cat (l.merge m)
  | provide {cat} {l dependency : Layer σ} (declares : Layer.Declares cat l)
    (below : Layer.Declares cat dependency) : Layer.Declares cat (l.provide dependency)
  | provideMerge {cat} {l dependency : Layer σ} (declares : Layer.Declares cat l)
    (below : Layer.Declares cat dependency) : Layer.Declares cat (l.provideMerge dependency)
  | mapError {cat} {l l' : Layer σ} {f : Failure → Action σ Failure} {roster w}
    (declares : Layer.Declares cat l) (tame : ∀ failure, (f failure).Tame)
    (made : (l.mapError f roster w).result = .ok l') (filed : l'.Filed cat) :
    Layer.Declares cat l'

end

/-! ## What user code builds -/

variable {cat : Catalogue} {tags : TagId → Prop}

section UserCode

variable {α : Type} {code : Action σ α} {growth : Growth σ} {goal : Option TagId}

theorem Action.Files.yields {good : Catalogue → α → Prop} (files : code.Files cat growth)
    (result : ∀ roster w later a, cat.Within later → w.Knows later →
      (code roster w).result = .ok a → good (growth roster w later) a) : code.Yields cat good :=
  fun roster w later grown known =>
    have filed := files roster w later grown known
    ⟨_, filed.1, filed.2, fun a ends => result roster w later a grown known ends⟩

namespace Effect

/-- The tree of an effect that user code builds. -/
theorem leads_node {code : Action σ (Effect σ)}
    (yields : code.Yields cat fun later e => e.node.Needs True later tags goal) :
    (do return (← code).node : Action σ (Node σ)).Leads True cat tags goal :=
  (yields.bind fun _ _ _ needs => .pure fun _ further =>
    needs.mono (fun _ => further) fun _ => id).leads

theorem leads_expecting {k : Value → Action σ (Node σ)}
    (leads : ∀ v, (k v).Leads True cat tags goal) (v : Value) : (expecting k v).Leads True cat tags goal := by
  cases v with
  | alien => exact Node.leads_die _
  | _ => exact leads _

theorem leads_expectingFailure {k : Failure → Action σ (Node σ)}
    (leads : ∀ failure, (k failure).Leads True cat tags goal) (failure : Failure) :
    (expectingFailure k failure).Leads True cat tags goal := by
  cases failure with
  | alien => exact Node.leads_die _
  | _ => exact leads _

theorem leads_handOver (ticket : Ticket) (v u : Value) :
    (handOver ticket v u : Action σ (Node σ)).Leads True cat tags none :=
  fun _ _ => (Action.Tame.useTicket ticket).yields.bind fun _ good _ _ => by
    cases good with
    | true => exact (Node.leads_any _).yields
    | false => exact (Node.leads_die _).yields

theorem leads_collecting (collect : List Value → Except (Cause Failure) (List Value)) (v : Value) :
    (collecting collect v : Action σ (Node σ)).Leads True cat tags none := by
  unfold collecting
  split
  · split
    · exact Node.leads_any _
    · exact Node.leads_any _
  · exact Node.leads_die _

end Effect

end UserCode

/-! ## The trees of combinators -/

namespace Effect

variable {e : Effect σ}

/-- Two services have different trees, if there is a world to try them in. -/
theorem service_node_injective (w : World σ) {s t : Tag}
    (same : (service s : Effect σ).node = (service t).node) : s.id = t.id := by
  by_contra different
  have readers := Node.access.inj same
  -- in a context that has one of the services, only one of the trees dies
  have replies := congrArg Reply.result
    (congrFun (congrFun (congrFun readers (Context.empty.insert s .null)) fun _ => .running) w)
  simp only [Context.get?_insert, if_neg different, if_pos] at replies
  cases Except.ok.inj replies

theorem needs_service {t : Tag} (declared : tags t.id) :
    (service t : Effect σ).node.Needs True cat tags none := by
  refine Node.needs_access.2 ⟨fun u w same => service_node_injective w same ▸ declared, fun c => ?_⟩
  split
  · exact Node.leads_any _
  · exact Node.leads_die _

theorem needs_context : (context : Effect σ).node.Needs True cat tags none := by
  refine Node.needs_access.2 ⟨fun t w same => ?_, fun c => Node.leads_any _⟩
  have replies := congrArg Reply.result
    (congrFun (congrFun (congrFun (Node.access.inj same) Context.empty) fun _ => .running) w)
  cases Except.ok.inj replies

theorem needs_map {f : Value → Action σ Value} (first : e.node.Needs True cat tags none)
    (tame : ∀ v, (f v).Tame) : (e.map f).node.Needs True cat tags none :=
  Node.needs_flatMap.2 ⟨first, leads_expecting fun v _ _ =>
    (tame v).yields.bind fun _ _ _ _ => (Node.leads_any _).yields⟩

theorem needs_flatMap {k : Value → Action σ (Effect σ)} (first : e.node.Needs True cat tags none)
    (yields : ∀ v, (k v).Yields cat fun later e' => e'.node.Needs True later tags none) :
    (e.flatMap k).node.Needs True cat tags none :=
  Node.needs_flatMap.2 ⟨first, leads_expecting fun v => leads_node (yields v)⟩

theorem needs_tap {k : Value → Action σ (Effect σ)} (first : e.node.Needs True cat tags none)
    (yields : ∀ v, (k v).Yields cat fun later e' => e'.node.Needs True later tags none) :
    (e.tap k).node.Needs True cat tags none :=
  Node.needs_flatMap.2 ⟨first, leads_expecting fun v => .leads <| (yields v).bind
    fun _ _ _ needs => Action.Tame.freshTicket.yields.bind fun _ ticket grown _ =>
      .pure fun _ further => Node.needs_flatMap.2
        ⟨needs.mono (fun _ => grown.trans further) fun _ => id, leads_handOver ticket v⟩⟩

theorem needs_mapError {f : Failure → Action σ Failure} (first : e.node.Needs True cat tags none)
    (tame : ∀ failure, (f failure).Tame) : (e.mapError f).node.Needs True cat tags none :=
  Node.needs_recover.2 ⟨first, leads_expectingFailure fun failure _ _ =>
    (tame failure).yields.bind fun _ _ _ _ => (Node.leads_any _).yields⟩

theorem needs_catchAll {handler : Failure → Action σ (Effect σ)}
    (first : e.node.Needs True cat tags none)
    (yields : ∀ failure, (handler failure).Yields cat
      fun later e' => e'.node.Needs True later tags none) :
    (e.catchAll handler).node.Needs True cat tags none :=
  Node.needs_recover.2 ⟨first, leads_expectingFailure fun failure => leads_node (yields failure)⟩

theorem needs_catchTags {handlers : List (String × (Failure → Action σ (Effect σ)))}
    (first : e.node.Needs True cat tags none)
    (yields : ∀ entry ∈ handlers, ∀ failure,
      (entry.2 failure).Yields cat fun later e' => e'.node.Needs True later tags none) :
    (e.catchTags handlers).node.Needs True cat tags none := by
  refine Node.needs_recover.2 ⟨first, leads_expectingFailure fun failure => ?_⟩
  split
  · rename_i tag handler found
    exact leads_node (yields _ (List.mem_of_find?_eq_some found) failure)
  · exact Node.leads_any _

theorem needs_either (first : e.node.Needs True cat tags none) :
    e.either.node.Needs True cat tags none :=
  needs_catchAll (needs_map first fun _ => .pure _) fun failure =>
    have given : (Node.given (.ok (.result (.error failure))) : Action σ (Node σ)).Leads True cat
        tags none := Node.leads_any _
    given.yields.bind fun _ _ _ needs => .pure fun _ further =>
      needs.mono (fun _ => further) fun _ => id

theorem needs_collecting {es : List (Effect σ)} {options : AllOptions}
    (all : ∀ e ∈ es, e.node.Needs True cat tags none)
    (collect : List Value → Except (Cause Failure) (List Value)) :
    (Node.flatMap (allNode es options).node (collecting collect)).Needs True cat tags none :=
  Node.needs_flatMap.2
    ⟨⟨rfl, Node.allNeed_iff.2 (List.forall_mem_map.2 all)⟩, leads_collecting collect⟩

theorem needs_raceAll {es : List (Effect σ)} (all : ∀ e ∈ es, e.node.Needs True cat tags none) :
    (raceAll es).node.Needs True cat tags none :=
  ⟨rfl, Node.allNeed_iff.2 (List.forall_mem_map.2 all)⟩

theorem needs_trySync {thunk : Action σ (Except Failure Value)} (tame : thunk.Tame) :
    (trySync thunk).node.Needs True cat tags none :=
  ⟨rfl, tame.bind fun x => by cases x <;> exact .pure _⟩

end Effect

/-! ## What the trees need -/

mutual

/-- The set of requirements of a program is complete: its tree looks up nothing else, if the set is
within what is declared around it. -/
theorem Effect.Declares.needs : ∀ {cat : Catalogue} {tags : TagId → Prop} {e : Effect σ},
    e.Declares cat tags → e.requires.Among tags → e.node.Needs True cat tags none
  | _, _, _, .succeed _, _ | _, _, _, .fail _, _ | _, _, _, .die _, _ => trivial
  | _, _, _, .sync tame, _ => ⟨rfl, tame.bind fun _ => .pure _⟩
  | _, _, _, .trySync tame, _ => Effect.needs_trySync tame
  | _, _, _, .asyncOp tame, _ => ⟨rfl, tame⟩
  | _, _, _, .service _, among => Effect.needs_service (among _ (Requirements.contains_of.2 rfl))
  | _, _, _, .context, _ => Effect.needs_context
  | _, _, _, .sleep _, _ | _, _, _, .yieldNow, _ | _, _, _, .logAt .., _ => rfl
  | _, _, _, .join _, _ | _, _, _, .awaitExit _, _ | _, _, _, .interrupt _, _ => rfl
  | _, _, _, .map first tame, among => Effect.needs_map (first.needs among) tame
  | _, _, _, .flatMap first files returned inside, among =>
    Effect.needs_flatMap (first.needs among) fun v =>
      (files v).yields fun roster w later e' grown known ends =>
        (returned v roster w later e' grown known ends).needs
          (inside v roster w later e' grown known ends)
  | _, _, _, .zipRight first second, among =>
    have ⟨among, among'⟩ := Requirements.among_union.1 among
    Node.needs_flatMap.2 ⟨first.needs among, fun _ _ grown => .pure fun _ further =>
      (second.needs among').mono (fun holds => (grown holds).trans further) fun _ => id⟩
  | _, _, _, .tap first files returned inside, among =>
    Effect.needs_tap (first.needs among) fun v =>
      (files v).yields fun roster w later e' grown known ends =>
        (returned v roster w later e' grown known ends).needs
          (inside v roster w later e' grown known ends)
  | _, _, _, .mapError first tame, among => Effect.needs_mapError (first.needs among) tame
  | _, _, _, .catchAll first files returned inside, among =>
    Effect.needs_catchAll (first.needs among) fun failure =>
      (files failure).yields fun roster w later e' grown known ends =>
        (returned failure roster w later e' grown known ends).needs
          (inside failure roster w later e' grown known ends)
  | _, _, _, .catchTags first files returned inside, among =>
    Effect.needs_catchTags (first.needs among) fun entry listed failure =>
      (files entry listed failure).yields fun roster w later e' grown known ends =>
        (returned entry listed failure roster w later e' grown known ends).needs
          (inside entry listed failure roster w later e' grown known ends)
  | _, _, _, .either first, among => Effect.needs_either (first.needs among)
  | _, _, _, .ensuring first last, among =>
    have ⟨among, among'⟩ := Requirements.among_union.1 among
    ⟨rfl, first.needs among, last.needs among'⟩
  | _, _, _, .uninterruptible inner, among | _, _, _, .retry inner _, among
  | _, _, _, .repeating inner _, among | _, _, _, .withLogSpan inner _, among =>
    ⟨rfl, inner.needs among⟩
  | _, _, _, .provide body layer, among =>
    have ⟨among, outside⟩ := Requirements.among_union.1 among
    have among := Requirements.among_without.1 among
    ⟨rfl, (body.needs fun t needed => (among t needed).imp_right Requirements.mem_ids.1).mono
      (fun _ => .refl _) fun _ => Or.imp_right Requirements.mem_ids.2, layer.supplies.plan outside⟩
  | _, _, _, .requiring inner t, among =>
    inner.needs fun u needed => among u (Requirements.contains_insert.2 (.inr needed))
  | _, _, _, .raceAll all, among => Effect.needs_raceAll fun e listed =>
    (all e listed).needs (Requirements.among_unionAll.1 among _ (List.mem_map_of_mem listed))
  | _, _, _, .allWith all _, among | _, _, _, .allSettled all _, among =>
    Effect.needs_collecting (fun e listed => (all e listed).needs
      (Requirements.among_unionAll.1 among _ (List.mem_map_of_mem listed))) _
  | _, _, _, .fork inner, among =>
    Node.needs_flatMap.2 ⟨⟨rfl, inner.needs among⟩, fun _ => Node.leads_any _⟩

/-- A layer keeps what it promises. -/
theorem Layer.Declares.supplies : ∀ {cat : Catalogue} {l : Layer σ}, l.Declares cat →
    l.Supplies cat
  | _, _, .succeed made filed => Layer.supplies_of_succeed made filed
  | _, _, .ofNode declares made filed =>
    Layer.supplies_of_ofNode (declares.needs fun _ => id) made filed
  | _, _, .named declares name => declares.supplies.named name
  | _, _, .merge first second => first.supplies.merge second.supplies
  | _, _, .provide declares below => declares.supplies.provide below.supplies
  | _, _, .provideMerge declares below => declares.supplies.provideMerge below.supplies
  | _, _, .mapError declares tame made filed => declares.supplies.mapError tame made filed

end

end EffectFibers
