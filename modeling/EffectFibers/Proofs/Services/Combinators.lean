import EffectFibers.Proofs.Services.Programs
import Mathlib.Tactic.Choose

/-!
# Combinators that are composed of others

Some combinators are made of others, so a program that uses them declares what it needs if its parts
do.  A continuation that makes a layer has to file the new identity, and a program that was built
before goes on declaring what it needs.

## Main statements

* `Effect.Declares.mono` – more declared services and a later catalogue do no harm.
* `Effect.Declares.flatMap_of_yields` – the rule for a continuation, without naming how the
  catalogue grows.
* `Effect.Declares.provideService` – a service that is provided by itself.
* `Effect.Declares.acquireUseRelease`, `Effect.Declares.timeout`, … – what is composed of others.
-/

namespace EffectFibers

variable {σ : Type} {α : Type} {cat later : Catalogue} {tags : TagId → Prop}

/-! ## Later catalogues -/

theorem Action.Files.mono {code : Action σ α} {growth : Growth σ} (files : code.Files cat growth)
    (grown : cat.Within later) : code.Files later growth :=
  fun roster w last further known => files roster w last (grown.trans further) known

theorem Layer.Filed.mono {l : Layer σ} (filed : l.Filed cat) (grown : cat.Within later) :
    l.Filed later :=
  fun n listed t produced => grown _ t (filed n listed t produced)

mutual

theorem Effect.Declares.mono : ∀ {cat later : Catalogue} {tags more : TagId → Prop} {e : Effect σ},
    e.Declares cat tags → cat.Within later → (∀ t, tags t → more t) → e.Declares later more
  | _, _, _, _, _, .succeed v, _, _ => .succeed v
  | _, _, _, _, _, .fail f, _, _ => .fail f
  | _, _, _, _, _, .die d, _, _ => .die d
  | _, _, _, _, _, .sync tame, _, _ => .sync tame
  | _, _, _, _, _, .trySync tame, _, _ => .trySync tame
  | _, _, _, _, _, .asyncOp tame, _, _ => .asyncOp tame
  | _, _, _, _, _, .service t, _, _ => .service t
  | _, _, _, _, _, .context, _, _ => .context
  | _, _, _, _, _, .sleep d, _, _ => .sleep d
  | _, _, _, _, _, .yieldNow, _, _ => .yieldNow
  | _, _, _, _, _, .logAt level message, _, _ => .logAt level message
  | _, _, _, _, _, .map first tame, grown, wider => .map (first.mono grown wider) tame
  | _, _, _, _, _, .flatMap first files returned inside, grown, wider =>
    .flatMap (first.mono grown wider) (fun v => (files v).mono grown)
      (fun v roster w last e' further known ends =>
        (returned v roster w last e' (grown.trans further) known ends).mono (.refl _) wider)
      fun v roster w last e' further known ends =>
        (inside v roster w last e' (grown.trans further) known ends).mono wider
  | _, _, _, _, _, .zipRight first second, grown, wider =>
    .zipRight (first.mono grown wider) (second.mono grown wider)
  | _, _, _, _, _, .tap first files returned inside, grown, wider =>
    .tap (first.mono grown wider) (fun v => (files v).mono grown)
      (fun v roster w last e' further known ends =>
        (returned v roster w last e' (grown.trans further) known ends).mono (.refl _) wider)
      fun v roster w last e' further known ends =>
        (inside v roster w last e' (grown.trans further) known ends).mono wider
  | _, _, _, _, _, .mapError first tame, grown, wider => .mapError (first.mono grown wider) tame
  | _, _, _, _, _, .catchAll first files returned inside, grown, wider =>
    .catchAll (first.mono grown wider) (fun failure => (files failure).mono grown)
      (fun failure roster w last e' further known ends =>
        (returned failure roster w last e' (grown.trans further) known ends).mono (.refl _) wider)
      fun failure roster w last e' further known ends =>
        (inside failure roster w last e' (grown.trans further) known ends).mono wider
  | _, _, _, _, _, .catchTags first files returned inside, grown, wider =>
    .catchTags (first.mono grown wider)
      (fun entry listed failure => (files entry listed failure).mono grown)
      (fun entry listed failure roster w last e' further known ends =>
        (returned entry listed failure roster w last e' (grown.trans further) known ends).mono
          (.refl _) wider)
      fun entry listed failure roster w last e' further known ends =>
        (inside entry listed failure roster w last e' (grown.trans further) known ends).mono wider
  | _, _, _, _, _, .either first, grown, wider => .either (first.mono grown wider)
  | _, _, _, _, _, .ensuring first last, grown, wider =>
    .ensuring (first.mono grown wider) (last.mono grown wider)
  | _, _, _, _, _, .uninterruptible inner, grown, wider =>
    .uninterruptible (inner.mono grown wider)
  | _, _, _, _, _, .provide body layer, grown, wider =>
    .provide (body.mono grown fun t => Or.imp_left (wider t)) (layer.mono grown)
  | _, _, _, _, _, .requiring inner t, grown, wider => .requiring (inner.mono grown wider) t
  | _, _, _, _, _, .retry inner s, grown, wider => .retry (inner.mono grown wider) s
  | _, _, _, _, _, .repeating inner s, grown, wider => .repeating (inner.mono grown wider) s
  | _, _, _, _, _, .withLogSpan inner label, grown, wider =>
    .withLogSpan (inner.mono grown wider) label
  | _, _, _, _, _, .raceAll all, grown, wider =>
    .raceAll fun e listed => (all e listed).mono grown wider
  | _, _, _, _, _, .allWith all options, grown, wider =>
    .allWith (fun e listed => (all e listed).mono grown wider) options
  | _, _, _, _, _, .allSettled all concurrency, grown, wider =>
    .allSettled (fun e listed => (all e listed).mono grown wider) concurrency
  | _, _, _, _, _, .fork inner, grown, wider => .fork (inner.mono grown wider)
  | _, _, _, _, _, .join f, _, _ => .join f
  | _, _, _, _, _, .awaitExit f, _, _ => .awaitExit f
  | _, _, _, _, _, .interrupt f, _, _ => .interrupt f

theorem Layer.Declares.mono : ∀ {cat later : Catalogue} {l : Layer σ}, l.Declares cat →
    cat.Within later → l.Declares later
  | _, _, _, .succeed made filed, grown => .succeed made (filed.mono grown)
  | _, _, _, .ofNode declares made filed, grown =>
    .ofNode (declares.mono grown fun _ => id) made (filed.mono grown)
  | _, _, _, .named declares name, grown => .named (declares.mono grown) name
  | _, _, _, .merge first second, grown => .merge (first.mono grown) (second.mono grown)
  | _, _, _, .provide declares below, grown => .provide (declares.mono grown) (below.mono grown)
  | _, _, _, .provideMerge declares below, grown =>
    .provideMerge (declares.mono grown) (below.mono grown)
  | _, _, _, .mapError declares tame made filed, grown =>
    .mapError (declares.mono grown) tame made (filed.mono grown)

end

/-! ## Continuations -/

/-- How the catalogue grows while user code runs that ends with something good. -/
theorem Action.Yields.exists_files {code : Action σ α} {good : Catalogue → α → Prop}
    (yields : code.Yields cat good) :
    ∃ growth : Growth σ, code.Files cat growth ∧ ∀ roster w later a, cat.Within later →
      w.Knows later → (code roster w).result = .ok a → good (growth roster w later) a := by
  choose! growth within known result using yields
  exact ⟨growth, fun roster w later grown knows =>
    ⟨within roster w later grown knows, known roster w later grown knows⟩,
    fun roster w later a grown knows => result roster w later grown knows a⟩

namespace Effect.Declares

variable {e f : Effect σ} {k : Value → Action σ (Effect σ)}

theorem flatMap_of_yields (first : e.Declares cat tags)
    (yields : ∀ v, (k v).Yields cat fun later e' =>
      e'.Declares later tags ∧ e'.requires.Among tags) : (e.flatMap k).Declares cat tags := by
  choose growth files fine using fun v => (yields v).exists_files
  exact .flatMap first files
    (fun v roster w later e' grown known ends => (fine v roster w later e' grown known ends).1)
    fun v roster w later e' grown known ends => (fine v roster w later e' grown known ends).2

theorem catchTags_of_yields {handlers : List (String × (Failure → Action σ (Effect σ)))}
    (first : e.Declares cat tags) (yields : ∀ entry ∈ handlers, ∀ failure,
      (entry.2 failure).Yields cat fun later e' =>
        e'.Declares later tags ∧ e'.requires.Among tags) :
    (e.catchTags handlers).Declares cat tags := by
  choose! growth files fine using
    fun entry listed failure => (yields entry listed failure).exists_files
  exact .catchTags first files
    (fun entry listed failure roster w later e' grown known ends =>
      (fine entry listed failure roster w later e' grown known ends).1)
    fun entry listed failure roster w later e' grown known ends =>
      (fine entry listed failure roster w later e' grown known ends).2

/-! ## Sequential combinators -/

theorem unit : (Effect.unit : Effect σ).Declares cat tags := .succeed .null

theorem log (message : String) : (Effect.log message : Effect σ).Declares cat tags :=
  .logAt .info message

theorem never : (Effect.never : Effect σ).Declares cat tags :=
  .asyncOp fun _ => ⟨.pure none, fun _ _ _ ends => by cases Except.ok.inj ends⟩

theorem tryBlocking (work : Except Panic (Except Failure Value)) :
    (Effect.tryBlocking work : Effect σ).Declares cat tags :=
  .asyncOp fun _ => ⟨(Action.Tame.request _).bind fun _ => .pure none,
    fun _ _ _ ends => by cases Except.ok.inj ends⟩

theorem withService {t : Tag} (yields : ∀ v, (k v).Yields cat fun later e' =>
    e'.Declares later tags ∧ e'.requires.Among tags) :
    (Effect.withService t k).Declares cat tags :=
  flatMap_of_yields (.service t) yields

theorem asUnit (first : e.Declares cat tags) : e.asUnit.Declares cat tags :=
  .map first fun _ => .pure _

theorem catchTag {tag : String} {handler : Failure → Action σ (Effect σ)}
    (first : e.Declares cat tags) (yields : ∀ failure, (handler failure).Yields cat
      fun later e' => e'.Declares later tags ∧ e'.requires.Among tags) :
    (e.catchTag tag handler).Declares cat tags :=
  catchTags_of_yields first fun _ listed failure => List.mem_singleton.1 listed ▸ yields failure

/-- Both functions are called inside the guarded region, so each may count on what is declared
around it. -/
theorem acquireUseRelease {use release : Value → Action σ (Effect σ)}
    (acquire : e.Declares cat tags)
    (uses : ∀ v, (use v).Yields cat fun later e' =>
      e'.Declares later tags ∧ e'.requires.Among tags)
    (releases : ∀ v, (release v).Yields cat fun later e' =>
      e'.Declares later tags ∧ e'.requires.Among tags) :
    (e.acquireUseRelease use release).Declares cat tags := by
  have inside : ∀ {code : Action σ (Effect σ)} {later}, cat.Within later →
      (code.Yields cat fun later e' => e'.Declares later tags ∧ e'.requires.Among tags) →
      (Effect.unit.flatMap fun _ => code).Declares later tags := fun grown yields =>
    flatMap_of_yields unit fun _ => yields.mono grown fun _ _ _ fine => fine
  refine flatMap_of_yields (.uninterruptible acquire) fun v => .pure fun later grown =>
    ⟨.ensuring (inside grown (uses v)) (inside grown (releases v)), ?_⟩
  exact Requirements.among_union.2 ⟨Requirements.among_none, Requirements.among_none⟩

theorem retryN (inner : e.Declares cat tags) (n : Nat) : (e.retryN n).Declares cat tags :=
  .retry inner _

theorem delay (inner : e.Declares cat tags) (d : Duration) : (e.delay d).Declares cat tags :=
  .zipRight (.sleep d) inner

/-! ## Concurrent combinators -/

theorem race (first : e.Declares cat tags) (second : f.Declares cat tags) :
    (e.race f).Declares cat tags :=
  .raceAll (by simp [first, second])

theorem timeout (inner : e.Declares cat tags) (limit : Duration) :
    (e.timeout limit).Declares cat tags :=
  inner.race (.zipRight (.sleep limit) (.die _))

theorem timeoutFail (inner : e.Declares cat tags) (limit : Duration) (failure : Failure) :
    (e.timeoutFail limit failure).Declares cat tags :=
  inner.race (.zipRight (.sleep limit) (.fail failure))

theorem all {es : List (Effect σ)} (all : ∀ e ∈ es, e.Declares cat tags) :
    (Effect.all es).Declares cat tags :=
  .allWith all {}

end Effect.Declares

/-! ## New layers -/

/-- A new layer is filed under the service that it is for. -/
def Catalogue.file (cat : Catalogue) (l : LayerId) (t : TagId) : Catalogue :=
  fun k => if k = l then some t else cat k

namespace Layer

variable {t : Tag}

/-- A layer that is made has a new identity, which can be filed. -/
theorem yields_atomic (inputs : Requirements) (build : Node σ) :
    (atomic t inputs build).Yields cat fun later l => l.Filed later ∧ l.exports = .of t ∧
      (∀ u, l.requirements.contains u = true → inputs.contains u = true) ∧
      ∃ roster w, (atomic t inputs build roster w).result = .ok l := by
  intro roster w later _ known
  refine ⟨later.file w.layers.next.1 t.id, fun l u listed => ?_, fun l u listed => ?_,
    fun l made => ?_⟩
  · have old : l ≠ w.layers.next.1 := by
      rintro rfl
      exact Nat.not_succ_le_self _ (known _ u listed)
    rwa [Catalogue.file, if_neg old]
  · show l.raw ≤ w.layers.issued + 1
    unfold Catalogue.file at listed
    split at listed
    · rename_i new
      simp [new, Supply.next]
    · exact Nat.le_succ_of_le (known l u listed)
  · refine ⟨?_, ?_, ?_, roster, w, made⟩ <;> obtain rfl := Except.ok.inj made
    · intro n listed u produced
      obtain rfl := List.mem_singleton.1 listed
      obtain rfl := Requirements.contains_of.1 produced
      exact if_pos rfl
    · rfl
    · intro u needed
      obtain ⟨n, listed, needed⟩ := (contains_requirements.1 needed).1
      obtain rfl := List.mem_singleton.1 listed
      exact needed

theorem yields_succeed (service : Value) :
    (succeed t service : Action σ (Layer σ)).Yields cat fun later l =>
      l.Declares later ∧ l.exports = .of t ∧ ∀ u, l.requirements.contains u ≠ true := by
  refine (yields_atomic .none _).mono (.refl cat) ?_
  rintro later l - ⟨filed, exports, inputs, roster, w, made⟩
  exact ⟨.succeed made filed, exports, fun u needed => by cases inputs u needed⟩

theorem yields_ofNode {e : Effect σ}
    (declares : e.Declares cat fun u => e.requires.contains u = true) :
    (ofNode t e.node e.requires).Yields cat fun later l => l.Declares later ∧ l.exports = .of t ∧
      l.requirements.Among fun u => e.requires.contains u = true := by
  refine (yields_atomic e.requires _).mono (.refl cat) ?_
  rintro later l grown ⟨filed, exports, inputs, roster, w, made⟩
  exact ⟨.ofNode (declares.mono grown fun _ => id) made filed, exports, inputs⟩

end Layer

/-- A service that is provided by itself is provided by a new layer. -/
theorem Effect.Declares.provideService {e : Effect σ} {t : Tag}
    (body : e.Declares cat fun u => tags u ∨ t.id = u)
    (among : e.requires.Among fun u => tags u ∨ t.id = u) (service : Value) :
    (e.provideService t service).Yields cat fun later e' =>
      e'.Declares later tags ∧ e'.requires.Among tags := by
  refine (Layer.yields_succeed service).bind ?_
  rintro later l grown ⟨layer, exports, inputs⟩
  refine .pure fun last further => ⟨.provide ?_ (layer.mono further), ?_⟩
  · rw [exports]
    simpa using body.mono (grown.trans further) fun _ => id
  · refine Requirements.among_union.2 ⟨Requirements.among_without.2 ?_, fun u needed => ?_⟩
    · rw [exports]
      simpa using among
    · exact absurd needed (inputs u)

end EffectFibers
