import EffectFibers.Effect.Concurrent

/-!
# Trees that are good for one evaluation

Where a combinator has a value in its hands and may not copy it, the value goes into a tree that can
be evaluated once, or into a continuation that can be called once.  Either is good for a ticket.

Such things are never parts of a tree that may be evaluated again.  They are made while a program
runs, by the code that comes after a value: it draws one ticket and answers with a tree that bears
it, at the root.  The parts of the tree bear none, and so does every tree that a program was put
together from.  This file says so by recursion on the tree; what user code builds later on is in it.

## Main definitions

* `World.Issues` – which ticket was drawn between two worlds.
* `Action.Calm`, `Action.Draws` – user code that draws no ticket, or at most one.
* `Node.Bears` – the ticket that a tree bears, if it does not bear none.
* `Action.Builds` – user code that answers with a tree which bears what was drawn for it.

## Main statements

* `Node.builds_given`, `Action.Draws.bind` – how such code is put together.
-/

namespace EffectFibers

variable {σ α β : Type}

/-! ## Tickets and worlds -/

/-- The same tickets have been issued in both worlds, and the same ones are unused. -/
structure World.SameTickets (w w' : World σ) : Prop where
  issued : w'.tickets = w.tickets
  unused : w'.unused = w.unused

namespace World.SameTickets

variable {w w' w'' : World σ}

theorem refl (w : World σ) : w.SameTickets w := ⟨rfl, rfl⟩

theorem trans (first : w.SameTickets w') (second : w'.SameTickets w'') : w.SameTickets w'' :=
  ⟨second.issued.trans first.issued, second.unused.trans first.unused⟩

end World.SameTickets

/-- The ticket that was issued between two worlds, if there was one; none was used. -/
inductive World.Issues (w w' : World σ) : Option Ticket → Prop
  | nothing (same : w.SameTickets w') : Issues w w' none
  | ticket (issued : w'.tickets = w.tickets.next.2)
    (unused : w'.unused = w.tickets.next.1 :: w.unused) : Issues w w' (some w.tickets.next.1)

/-! ## User code -/

namespace Action

/-- User code that has nothing to do with tickets. -/
def Calm (code : Action σ α) : Prop :=
  ∀ roster (w : World σ), w.SameTickets (code roster w).world

/-- A callback is registered, and tidied up after, without anything to do with tickets. -/
def CalmRegistration (register : WaitId → Action σ (Option (Cleanup σ))) : Prop :=
  ∀ wait, (register wait).Calm ∧
    ∀ roster w cleanup, (register wait roster w).result = .ok (some cleanup) → cleanup.Calm

/-- User code that draws at most one ticket, and if it ends well, ends with something that is good
for what was drawn. -/
def Draws (code : Action σ α) (good : Option Ticket → α → Prop) : Prop :=
  ∀ roster (w : World σ), ∃ ticket, w.Issues (code roster w).world ticket ∧
    ∀ a, (code roster w).result = .ok a → good ticket a

variable {code : Action σ α} {good : Option Ticket → α → Prop}

namespace Calm

theorem pure (a : α) : (Pure.pure a : Action σ α).Calm := fun _ w => .refl w

theorem ofExcept (x : Except Panic α) : (Action.ofExcept x : Action σ α).Calm := by
  cases x with
  | ok a => exact pure a
  | error p => exact fun _ w => .refl w

/-- Code without tickets, of whose result something is known. -/
theorem draws (calm : code.Calm) {fine : α → Prop}
    (result : ∀ roster w a, (code roster w).result = .ok a → fine a) :
    code.Draws fun ticket a => ticket = none ∧ fine a :=
  fun roster w => ⟨none, .nothing (calm roster w), fun a ends => ⟨rfl, result roster w a ends⟩⟩

end Calm

namespace Draws

theorem pure {a : α} (fine : good none a) : (Pure.pure a : Action σ α).Draws good :=
  fun _ w => ⟨none, .nothing (.refl w), fun _ ends => Except.ok.inj ends ▸ fine⟩

theorem freshTicket : (Action.freshTicket : Action σ Ticket).Draws fun ticket t => ticket = some t :=
  fun _ w => ⟨some w.tickets.next.1, .ticket rfl rfl, fun _ ends => congrArg some (Except.ok.inj ends)⟩

/-- One piece of code after another that draws no ticket. -/
theorem bind {fine : α → Prop} {better : Option Ticket → β → Prop} {f : α → Action σ β}
    (first : code.Draws fun ticket a => ticket = none ∧ fine a)
    (second : ∀ a, fine a → (f a).Draws better) : (code >>= f).Draws better := by
  intro roster w
  obtain ⟨ticket, issues, result⟩ := first roster w
  simp only [Bind.bind, Action.bind]
  cases ends : (code roster w).result with
  | error p => exact ⟨ticket, issues, fun b fails => by cases fails⟩
  | ok a =>
      obtain ⟨rfl, fine⟩ := result a ends
      cases issues with
      | nothing same =>
          -- what the second one draws is the next ticket of the world that the first one got
          obtain ⟨later, issues, result⟩ := second a fine roster (code roster w).world
          refine ⟨later, ?_, result⟩
          cases issues with
          | nothing same' => exact .nothing (same.trans same')
          | ticket issued unused =>
              rw [same.issued] at issued unused ⊢
              exact .ticket issued (same.unused ▸ unused)

theorem bind_calm {better : Option Ticket → β → Prop} {f : α → Action σ β} (first : code.Calm)
    (second : ∀ a, (f a).Draws better) : (code >>= f).Draws better :=
  bind (first.draws fun _ _ _ _ => trivial) fun a _ => second a

/-- What is made of the result keeps its ticket. -/
theorem map {better : Option Ticket → β → Prop} {g : α → β} (draws : code.Draws good)
    (fine : ∀ ticket a, good ticket a → better ticket (g a)) :
    (code >>= fun a => Pure.pure (g a)).Draws better := by
  intro roster w
  obtain ⟨ticket, issues, result⟩ := draws roster w
  simp only [Bind.bind, Action.bind]
  cases ends : (code roster w).result with
  | error p => exact ⟨ticket, issues, fun b fails => by cases fails⟩
  | ok a =>
      exact ⟨ticket, issues, fun b same => Except.ok.inj same ▸ fine ticket a (result a ends)⟩

end Draws

end Action

/-! ## Trees -/

mutual

/-- A tree bears a ticket, or none: only a tree that ends with an exit which was known before, or
goes on with a value which was known before, bears one.  No part of a tree does. -/
def Node.Bears : Node σ → Option Ticket → Prop
  | .once ticket _, borne => borne = some ticket
  | .flatMap source next, borne => source.Bears none ∧
      ((∃ ticket v, borne = some ticket ∧ next = Effect.handOver ticket v) ∨
        borne = none ∧ ∀ v roster w, Reply.Bears (next v roster w) w)
  | .sync thunk, borne => borne = none ∧ Action.Calm thunk
  | .async register, borne => borne = none ∧ Action.CalmRegistration register
  | .recover source handler, borne => borne = none ∧ source.Bears none ∧
      ∀ failure roster w, Reply.Bears (handler failure roster w) w
  | .ensuring source finalizer, borne =>
      borne = none ∧ source.Bears none ∧ finalizer.Bears none
  | .uninterruptible source, borne | .retry source _, borne | .repeated source _ _, borne
  | .fork source, borne | .span _ source, borne => borne = none ∧ source.Bears none
  | .provide body plan _, borne => borne = none ∧ body.Bears none ∧ Plan.Reusable plan
  | .race children, borne | .all children _, borne => borne = none ∧ Node.AllReusable children
  | .access reader, borne =>
      borne = none ∧ ∀ context roster w, Reply.Bears (reader context roster w) w
  | .succeed _, borne | .fail _, borne | .watch .., borne | .awaitBuild _, borne
  | .sleep _, borne | .log .., borne | .yield, borne => borne = none

/-- The tree that user code has built bears the ticket that was drawn meanwhile. -/
def Reply.Bears : Reply σ (Node σ) → World σ → Prop
  | ⟨result, world, _⟩, before => ∃ ticket, before.Issues world ticket ∧ Built.Bears result ticket

def Built.Bears : Except Panic (Node σ) → Option Ticket → Prop
  | .ok node, borne => node.Bears borne
  | .error _, _ => True

/-- Trees that bear no tickets. -/
def Node.AllReusable : List (Node σ) → Prop
  | [] => True
  | node :: rest => node.Bears none ∧ Node.AllReusable rest

def Plan.Reusable : Except LayerError (List (LayerSpec (Node σ))) → Prop
  | .error _ => True
  | .ok layers => Layers.Reusable layers

/-- Constructors whose trees bear no tickets. -/
def Layers.Reusable : List (LayerSpec (Node σ)) → Prop
  | [] => True
  | ⟨_, _, _, _, build⟩ :: rest => build.Bears none ∧ Layers.Reusable rest

end

/-- User code that answers with a tree which bears what was drawn for it. -/
def Action.Builds (code : Action σ (Node σ)) : Prop := code.Draws fun ticket n => n.Bears ticket

/-- A continuation that can be called once, for a ticket, or again and again. -/
inductive Continues : (Value → Action σ (Node σ)) → Option Ticket → Prop
  | once (ticket v) : Continues (Effect.handOver ticket v) (some ticket)
  | again {next} (builds : ∀ v, (next v).Builds) : Continues next none

theorem Reply.bears_iff {reply : Reply σ (Node σ)} {before : World σ} : Reply.Bears reply before ↔
    ∃ ticket, before.Issues reply.world ticket ∧ ∀ n, reply.result = .ok n → n.Bears ticket := by
  obtain ⟨result, world, requests⟩ := reply
  rw [Reply.Bears]
  refine exists_congr fun ticket => and_congr_right fun _ => ?_
  cases result with
  | ok node => simp [Built.Bears]
  | error p => simp [Built.Bears]

theorem Action.builds_iff {code : Action σ (Node σ)} :
    code.Builds ↔ ∀ roster w, Reply.Bears (code roster w) w := by
  simp only [Builds, Draws, Reply.bears_iff]

theorem Layers.reusable_iff {layers : List (LayerNode σ)} :
    Layers.Reusable layers ↔ ∀ layer ∈ layers, layer.build.Bears none := by
  induction layers with
  | nil => simp [Layers.Reusable]
  | cons layer rest ih =>
      obtain ⟨id, name, outputs, inputs, build⟩ := layer
      rw [Layers.Reusable, ih, List.forall_mem_cons]

namespace Node

variable {source : Node σ} {borne : Option Ticket}

theorem bears_flatMap {next : Value → Action σ (Node σ)} :
    (Node.flatMap source next).Bears borne ↔ source.Bears none ∧ Continues next borne := by
  refine and_congr_right fun _ => ⟨?_, fun continues => ?_⟩
  · rintro (⟨ticket, v, rfl, rfl⟩ | ⟨rfl, builds⟩)
    · exact .once ticket v
    · exact .again fun v => Action.builds_iff.2 (builds v)
  · cases continues with
    | once ticket v => exact .inl ⟨ticket, v, rfl, rfl⟩
    | again builds => exact .inr ⟨rfl, fun v => Action.builds_iff.1 (builds v)⟩

theorem bears_recover {handler : Failure → Action σ (Node σ)} :
    (Node.recover source handler).Bears borne ↔
      borne = none ∧ source.Bears none ∧ ∀ failure, (handler failure).Builds := by
  simp only [Action.builds_iff]
  exact Iff.rfl

theorem bears_access {reader : Context Value → Action σ (Node σ)} :
    (Node.access reader).Bears borne ↔ borne = none ∧ ∀ context, (reader context).Builds := by
  simp only [Action.builds_iff]
  exact Iff.rfl

theorem allReusable_iff {nodes : List (Node σ)} :
    Node.AllReusable nodes ↔ ∀ n ∈ nodes, n.Bears none := by
  induction nodes with
  | nil => simp [Node.AllReusable]
  | cons n rest ih => rw [Node.AllReusable, ih, List.forall_mem_cons]

/-- A tree that is made for an exit bears the ticket that it is good for. -/
theorem builds_given (x : Exit) : (Node.given x : Action σ (Node σ)).Builds :=
  Action.Draws.freshTicket.map fun _ _ drawn => drawn

theorem builds_pure {n : Node σ} (reusable : n.Bears none) :
    (pure n : Action σ (Node σ)).Builds := .pure reusable

theorem builds_die (d : Defect) : (pure (.die d) : Action σ (Node σ)).Builds := .pure rfl

end Node

end EffectFibers
