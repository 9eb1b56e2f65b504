import EffectFibers.Effect
import EffectFibers.Proofs.Services.Contexts

/-!
# What a tree needs

A tree is safe to run in a context if every service that it looks up is there, whatever the values,
the failures and the answers of user code may be.  This file says so by recursion on the tree: the
tags that the context of a node has to have go down into the parts, `provide` adds the exports of
its layers, and a constructor gets what the constructors before it supply.

The context that the constructor of a layer ends with is kept under the identity of the layer, and
other fibers take it from there.  So one has to know which service an identity stands for.  User
code may make new layers at any time, and the knowledge grows with them: what is said about a
continuation is said for every later catalogue.

Programs that promise nothing are read in the same way, without the claims about services; then no
catalogue matters.

## Main definitions

* `Catalogue` – which service each layer identity stands for.
* `Action.Yields` – user code ends with something good, under a later catalogue.
* `Node.Needs` – the tree looks up nothing but the given tags, and ends with a context for a
  service if it has to.

## Main statements

* `Node.Needs.mono` – more services and a later catalogue do no harm.
-/

namespace EffectFibers

variable {σ α β : Type}

/-! ## Catalogues -/

/-- Which service each layer identity stands for. -/
abbrev Catalogue := LayerId → Option TagId

/-- What a catalogue says stays true in a later one. -/
def Catalogue.Within (cat later : Catalogue) : Prop := ∀ l t, cat l = some t → later l = some t

namespace Catalogue.Within

variable {cat later last : Catalogue}

theorem refl (cat : Catalogue) : cat.Within cat := fun _ _ known => known

theorem trans (first : cat.Within later) (second : later.Within last) : cat.Within last :=
  fun l t known => second l t (first l t known)

end Catalogue.Within

/-- The identities in a catalogue have been handed out, so a new layer has none of them. -/
def World.Knows (w : World σ) (cat : Catalogue) : Prop :=
  ∀ l t, cat l = some t → l.raw ≤ w.layers.issued

theorem World.Knows.of_le {w w' : World σ} {cat : Catalogue} (known : w.Knows cat)
    (further : w.layers.issued ≤ w'.layers.issued) : w'.Knows cat :=
  fun l t listed => Nat.le_trans (known l t listed) further

/-! ## User code -/

namespace Action

/-- User code that takes back no layer identity. -/
def Tame (code : Action σ α) : Prop :=
  ∀ roster w, w.layers.issued ≤ (code roster w).world.layers.issued

/-- A callback is registered, and tidied up after, without taking back any layer identity. -/
def TameRegistration (register : WaitId → Action σ (Option (Cleanup σ))) : Prop :=
  ∀ wait, (register wait).Tame ∧
    ∀ roster w cleanup, (register wait roster w).result = .ok (some cleanup) → cleanup.Tame

/-- User code that ends, if it ends well, with something good.  It may have made new layers. -/
def Yields (code : Action σ α) (cat : Catalogue) (good : Catalogue → α → Prop) : Prop :=
  ∀ roster w later, cat.Within later → w.Knows later →
    ∃ last, later.Within last ∧ (code roster w).world.Knows last ∧
      ∀ a, (code roster w).result = .ok a → good last a

variable {code : Action σ α} {cat later : Catalogue} {good better : Catalogue → α → Prop}

theorem Tame.yields (tame : code.Tame) : code.Yields cat fun _ _ => True :=
  fun roster w later _ known =>
    ⟨later, .refl later, known.of_le (tame roster w), fun _ _ => trivial⟩

namespace Tame

theorem pure (a : α) : (Pure.pure a : Action σ α).Tame := fun _ _ => Nat.le_refl _

theorem bind {f : α → Action σ β} (first : code.Tame) (second : ∀ a, (f a).Tame) :
    (code >>= f).Tame := by
  intro roster w
  simp only [Bind.bind, Action.bind]
  cases (code roster w).result with
  | error p => exact first roster w
  | ok a => exact Nat.le_trans (first roster w) (second a roster _)

theorem request (r : Request) : (Action.request r : Action σ Unit).Tame := fun _ _ => Nat.le_refl _

theorem freshTicket : (Action.freshTicket : Action σ Ticket).Tame := fun _ _ => Nat.le_refl _

theorem useTicket (t : Ticket) : (Action.useTicket t : Action σ Bool).Tame :=
  fun _ _ => Nat.le_refl _

end Tame

namespace Yields

theorem mono (yields : code.Yields cat good) (grown : cat.Within later)
    (fine : ∀ last a, later.Within last → good last a → better last a) :
    code.Yields later better := by
  intro roster w last further known
  obtain ⟨end_, grown', known', result⟩ := yields roster w last (grown.trans further) known
  exact ⟨end_, grown', known', fun a ends => fine end_ a (further.trans grown') (result a ends)⟩

theorem pure {a : α} (fine : ∀ later, cat.Within later → good later a) :
    (Pure.pure a : Action σ α).Yields cat good := by
  intro roster w later grown known
  refine ⟨later, .refl later, known, fun b ends => ?_⟩
  obtain rfl : a = b := Except.ok.inj ends
  exact fine later grown

theorem panic {p : Panic} : (Action.panic p : Action σ α).Yields cat good := by
  intro roster w later _ known
  exact ⟨later, .refl later, known, fun a ends => by cases ends⟩

theorem bind {f : α → Action σ β} {fine : Catalogue → β → Prop} (yields : code.Yields cat good)
    (goesOn : ∀ later a, cat.Within later → good later a → (f a).Yields later fine) :
    (code >>= f).Yields cat fine := by
  intro roster w later grown known
  obtain ⟨middle, grown', known', result⟩ := yields roster w later grown known
  simp only [Bind.bind, Action.bind]
  cases ends : (code roster w).result with
  | error p => exact ⟨middle, grown', known', fun b fails => by cases fails⟩
  | ok a =>
      obtain ⟨last, grown'', known'', result'⟩ :=
        goesOn middle a (grown.trans grown') (result a ends) roster _ middle (.refl middle) known'
      exact ⟨last, grown'.trans grown'', known'', result'⟩

end Yields

end Action

/-! ## Trees -/

/-- A value that a constructor may end with: a context that has the service.  Anything is good
enough for those who expect no service. -/
def Value.Fits : Option TagId → Value → Prop
  | none, _ => True
  | some t, v => ∃ c, v = .context c ∧ c.contains t = true

mutual

/-- A tree looks up nothing but the given tags, whatever happens while it runs, and its value fits
what is expected. -/
def Node.Needs (strict : Prop) : Node σ → Catalogue → (TagId → Prop) → Option TagId → Prop
  | .succeed v, _, _, goal => v.Fits goal
  | .fail _, _, _, _ => True
  | .sync thunk, _, _, goal => goal = none ∧ Action.Tame thunk
  | .once _ exit, _, _, goal => ∀ v, exit = .ok v → v.Fits goal
  | .async register, _, _, goal => goal = none ∧ Action.TameRegistration register
  | .flatMap source next, cat, tags, goal => source.Needs strict cat tags none ∧
      ∀ v roster w later, (strict → cat.Within later) → w.Knows later →
        Reply.Need strict (next v roster w) later tags goal
  | .recover source handler, cat, tags, goal => source.Needs strict cat tags goal ∧
      ∀ failure roster w later, (strict → cat.Within later) → w.Knows later →
        Reply.Need strict (handler failure roster w) later tags goal
  | .ensuring source finalizer, cat, tags, goal =>
      goal = none ∧ source.Needs strict cat tags none ∧ finalizer.Needs strict cat tags none
  | .uninterruptible source, cat, tags, goal | .retry source _, cat, tags, goal
  | .repeated source _ _, cat, tags, goal | .fork source, cat, tags, goal
  | .span _ source, cat, tags, goal => goal = none ∧ source.Needs strict cat tags none
  | .provide body plan exports, cat, tags, goal =>
      goal = none ∧ body.Needs strict cat (fun t => tags t ∨ t ∈ exports) none ∧
        Plan.Need strict plan cat tags exports
  | .race children, cat, tags, goal | .all children _, cat, tags, goal =>
      goal = none ∧ Node.AllNeed strict children cat tags
  | .access reader, cat, tags, goal =>
      (∀ (t : Tag) (_ : World σ), Node.access reader = (Effect.service t).node → tags t.id) ∧
      ∀ context roster w later, (strict → cat.Within later) → w.Knows later →
        Reply.Need strict (reader context roster w) later tags goal
  | .watch .., _, _, goal | .awaitBuild _, _, _, goal | .sleep _, _, _, goal
  | .log .., _, _, goal | .yield, _, _, goal => goal = none

/-- The tree that user code has built needs nothing else. -/
def Reply.Need (strict : Prop) : Reply σ (Node σ) → Catalogue → (TagId → Prop) → Option TagId → Prop
  | ⟨result, world, _⟩, cat, tags, goal =>
    ∃ later, cat.Within later ∧ world.Knows later ∧ Built.Need strict result later tags goal

def Built.Need (strict : Prop) : Except Panic (Node σ) → Catalogue → (TagId → Prop) →
    Option TagId → Prop
  | .ok node, cat, tags, goal => node.Needs strict cat tags goal
  | .error _, _, _, _ => True

/-- Trees that run side by side, for their effects or their values. -/
def Node.AllNeed (strict : Prop) : List (Node σ) → Catalogue → (TagId → Prop) → Prop
  | [], _, _ => True
  | node :: rest, cat, tags => node.Needs strict cat tags none ∧ Node.AllNeed strict rest cat tags

def Plan.Need (strict : Prop) : Except LayerError (List (LayerSpec (Node σ))) → Catalogue →
    (TagId → Prop) → List TagId → Prop
  | .error _, _, _, _ => True
  | .ok layers, cat, tags, exports => Layers.Need strict layers cat tags (fun _ => False) exports

/-- The layers that are still to come in a plan: each finds what it needs in the context around the
plan or among what is ready by then, and in the end all exports are ready. -/
def Layers.Need (strict : Prop) : List (LayerSpec (Node σ)) → Catalogue → (TagId → Prop) →
    (TagId → Prop) → List TagId → Prop
  | [], _, _, ready, exports => strict → ∀ t ∈ exports, ready t
  | ⟨id, _, _, _, build⟩ :: rest, cat, tags, ready, exports =>
    ∃ goal, (strict → ∃ t, goal = some t ∧ cat id = some t) ∧
      build.Needs strict cat (fun u => tags u ∨ ready u) goal ∧
      Layers.Need strict rest cat tags (fun u => ready u ∨ goal = some u) exports

end

/-! ## More services and a later catalogue -/

mutual

theorem Node.needs_mono {strict : Prop} {cat later : Catalogue} {tags more : TagId → Prop}
    {goal : Option TagId} (n : Node σ) (needs : n.Needs strict cat tags goal) (grown : strict → cat.Within later)
    (inside : ∀ t, tags t → more t) : n.Needs strict later more goal := by
  have beyond : ∀ last, (strict → later.Within last) → strict → cat.Within last :=
    fun last further holds => (grown holds).trans (further holds)
  cases n with
  | flatMap source next =>
      exact ⟨source.needs_mono needs.1 grown inside, fun v roster w last further known =>
        Reply.need_mono (next v roster w) (needs.2 v roster w last (beyond last further) known)
          inside⟩
  | recover source handler =>
      exact ⟨source.needs_mono needs.1 grown inside, fun failure roster w last further known =>
        Reply.need_mono (handler failure roster w)
          (needs.2 failure roster w last (beyond last further) known) inside⟩
  | ensuring source finalizer =>
      exact ⟨needs.1, source.needs_mono needs.2.1 grown inside,
        finalizer.needs_mono needs.2.2 grown inside⟩
  | uninterruptible source | retry source _ | repeated source _ _ | fork source | span _ source =>
      exact ⟨needs.1, source.needs_mono needs.2 grown inside⟩
  | provide body plan exports =>
      exact ⟨needs.1, body.needs_mono needs.2.1 grown fun t => Or.imp_left (inside t),
        Plan.need_mono plan needs.2.2 grown inside⟩
  | race children | all children _ =>
      exact ⟨needs.1, Node.allNeed_mono children needs.2 grown inside⟩
  | access reader =>
      exact ⟨fun t w same => inside t.id (needs.1 t w same),
        fun context roster w last further known => Reply.need_mono (reader context roster w)
          (needs.2 context roster w last (beyond last further) known) inside⟩
  | _ => exact needs

theorem Reply.need_mono {strict : Prop} {cat : Catalogue} {tags more : TagId → Prop}
    {goal : Option TagId} (reply : Reply σ (Node σ)) (need : Reply.Need strict reply cat tags goal)
    (inside : ∀ t, tags t → more t) : Reply.Need strict reply cat more goal := by
  obtain ⟨result, world, requests⟩ := reply
  obtain ⟨later, grown, known, need⟩ := need
  exact ⟨later, grown, known, Built.need_mono result need inside⟩

theorem Built.need_mono {strict : Prop} {cat : Catalogue} {tags more : TagId → Prop}
    {goal : Option TagId} (built : Except Panic (Node σ)) (need : Built.Need strict built cat tags goal)
    (inside : ∀ t, tags t → more t) : Built.Need strict built cat more goal := by
  cases built with
  | ok node => exact node.needs_mono need (fun _ => .refl cat) inside
  | error _ => trivial

theorem Node.allNeed_mono {strict : Prop} {cat later : Catalogue} {tags more : TagId → Prop}
    (nodes : List (Node σ)) (need : Node.AllNeed strict nodes cat tags)
    (grown : strict → cat.Within later) (inside : ∀ t, tags t → more t) : Node.AllNeed strict nodes later more := by
  cases nodes with
  | nil => trivial
  | cons node rest =>
      exact ⟨node.needs_mono need.1 grown inside, Node.allNeed_mono rest need.2 grown inside⟩

theorem Plan.need_mono {strict : Prop} {cat later : Catalogue} {tags more : TagId → Prop}
    {exports : List TagId} (plan : Except LayerError (List (LayerSpec (Node σ))))
    (need : Plan.Need strict plan cat tags exports) (grown : strict → cat.Within later)
    (inside : ∀ t, tags t → more t) : Plan.Need strict plan later more exports := by
  cases plan with
  | error _ => trivial
  | ok layers => exact Layers.need_mono layers need grown inside

theorem Layers.need_mono {strict : Prop} {cat later : Catalogue} {tags more ready : TagId → Prop}
    {exports : List TagId} (layers : List (LayerSpec (Node σ)))
    (need : Layers.Need strict layers cat tags ready exports) (grown : strict → cat.Within later)
    (inside : ∀ t, tags t → more t) : Layers.Need strict layers later more ready exports := by
  cases layers with
  | nil => exact need
  | cons layer rest =>
      obtain ⟨id, _, _, _, build⟩ := layer
      obtain ⟨goal, listed, needs, need⟩ := need
      refine ⟨goal, fun holds => ?_, build.needs_mono needs grown fun u => Or.imp_left (inside u),
        Layers.need_mono rest need grown inside⟩
      obtain ⟨t, same, listed⟩ := listed holds
      exact ⟨t, same, grown holds id t listed⟩

end

theorem Node.Needs.mono {strict : Prop} {n : Node σ} {cat later : Catalogue}
    {tags more : TagId → Prop} {goal : Option TagId} (needs : n.Needs strict cat tags goal)
    (grown : strict → cat.Within later) (inside : ∀ t, tags t → more t) : n.Needs strict later more goal :=
  n.needs_mono needs grown inside

/-! ## What comes after a value -/

variable {strict : Prop} {cat later : Catalogue} {tags more : TagId → Prop} {goal : Option TagId}

/-- User code ends with a tree that needs nothing but the given tags. -/
def Action.Leads (strict : Prop) (code : Action σ (Node σ)) (cat : Catalogue) (tags : TagId → Prop)
    (goal : Option TagId) : Prop :=
  ∀ start, (strict → cat.Within start) →
    code.Yields start fun later n => n.Needs strict later tags goal

theorem Action.Leads.yields {code : Action σ (Node σ)} (leads : code.Leads strict cat tags goal) :
    code.Yields cat fun later n => n.Needs strict later tags goal :=
  leads cat fun _ => .refl cat

theorem Action.Yields.leads {code : Action σ (Node σ)}
    (yields : code.Yields cat fun later n => n.Needs True later tags goal) :
    code.Leads True cat tags goal :=
  fun _ grown => yields.mono (grown trivial) fun _ _ _ needs => needs

theorem Reply.need_iff {reply : Reply σ (Node σ)} : Reply.Need strict reply cat tags goal ↔
    ∃ later, cat.Within later ∧ reply.world.Knows later ∧
      ∀ n, reply.result = .ok n → n.Needs strict later tags goal := by
  obtain ⟨result, world, requests⟩ := reply
  rw [Reply.Need]
  refine exists_congr fun later => and_congr_right fun _ => and_congr_right fun _ => ?_
  cases result with
  | ok node => simp [Built.Need]
  | error p => simp [Built.Need]

theorem Action.leads_iff {code : Action σ (Node σ)} : code.Leads strict cat tags goal ↔
    ∀ roster w later, (strict → cat.Within later) → w.Knows later →
      Reply.Need strict (code roster w) later tags goal := by
  simp only [Leads, Yields, Reply.need_iff]
  constructor
  · intro leads roster w later grown known
    exact leads later grown roster w later (.refl later) known
  · intro need start grown roster w later further known
    exact need roster w later (fun holds => (grown holds).trans further) known

theorem Action.Leads.mono {code : Action σ (Node σ)} (leads : code.Leads strict cat tags goal)
    (grown : strict → cat.Within later) (inside : ∀ t, tags t → more t) :
    code.Leads strict later more goal := by
  intro start further
  refine Yields.mono (leads start fun holds => (grown holds).trans (further holds)) (.refl start) ?_
  exact fun last _ _ needs => Node.Needs.mono needs (fun _ => .refl last) inside

namespace Node

variable {source : Node σ}

theorem needs_flatMap {next : Value → Action σ (Node σ)} :
    (Node.flatMap source next).Needs strict cat tags goal ↔
      source.Needs strict cat tags none ∧ ∀ v, (next v).Leads strict cat tags goal := by
  simp only [Action.leads_iff]
  exact Iff.rfl

theorem needs_recover {handler : Failure → Action σ (Node σ)} :
    (Node.recover source handler).Needs strict cat tags goal ↔
      source.Needs strict cat tags goal ∧
        ∀ failure, (handler failure).Leads strict cat tags goal := by
  simp only [Action.leads_iff]
  exact Iff.rfl

theorem needs_access {reader : Context Value → Action σ (Node σ)} :
    (Node.access reader).Needs strict cat tags goal ↔
      (∀ (t : Tag) (_ : World σ), Node.access reader = (Effect.service t).node → tags t.id) ∧
        ∀ context, (reader context).Leads strict cat tags goal := by
  simp only [Action.leads_iff]
  exact Iff.rfl

theorem allNeed_iff {nodes : List (Node σ)} :
    Node.AllNeed strict nodes cat tags ↔ ∀ n ∈ nodes, n.Needs strict cat tags none := by
  induction nodes with
  | nil => simp [Node.AllNeed]
  | cons n rest ih => rw [Node.AllNeed, ih, List.forall_mem_cons]

/-- An exit that is given for a ticket needs nothing. -/
theorem leads_given {x : Exit} (fits : ∀ v, x = .ok v → v.Fits goal) :
    (Node.given x : Action σ (Node σ)).Leads strict cat tags goal := by
  exact fun _ _ => Action.Tame.freshTicket.yields.bind fun _ _ _ _ => .pure fun _ _ => fits

/-- Any exit will do for those who expect no service. -/
theorem leads_any (x : Exit) : (Node.given x : Action σ (Node σ)).Leads strict cat tags none :=
  leads_given fun _ _ => trivial

theorem leads_die (d : Defect) : (pure (.die d) : Action σ (Node σ)).Leads strict cat tags goal :=
  fun _ _ => .pure fun _ _ => trivial

end Node

end EffectFibers
