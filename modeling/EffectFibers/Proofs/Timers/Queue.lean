import EffectFibers.Timer.Queue
import Mathlib.Data.List.Nodup
import Mathlib.Data.List.Perm.Basic

/-!
# What a timer queue holds

The keys of a queue and its pending timers are two structures that drift apart: a cancelled timer is
no longer pending, but its key stays until it comes to the front, or until no timer is left.  What
links them is that the keys are in order, that no handle occurs twice, and that every pending timer
has a key.  Then the queue holds its entries, the keys that are pending together with what their
timers do, in the order of the keys; and each operation does to the entries what it would do to a
list of timers without any stale keys.

## Main definitions

* `TimerQueue.WellFormed` – the link between the keys and the pending timers.
* `TimerQueue.entries` – the pending timers with their deadlines, in order.

## Main statements

* `TimerQueue.WellFormed.insert`, `WellFormed.cancel` – inserting and cancelling keep the link.
* `TimerQueue.entries_insert`, `entries_cancel` – what they do to the entries.
* `TimerQueue.pollExpired_polled`, `fireFirst_firedFirst` – what fires, and what is left.
* `TimerQueue.nextDeadline_eq` – the next deadline is that of the first entry.
-/

namespace EffectFibers

/-! ## The order of keys -/

namespace TimerKey

theorem before_iff (a b : TimerKey) :
    a.before b = true ↔
      a.deadline < b.deadline ∨ a.deadline = b.deadline ∧ a.handle.raw < b.handle.raw := by
  simp [before]

theorem before_trans {a b c : TimerKey} (first : a.before b = true) (second : b.before c = true) :
    a.before c = true := by
  rw [before_iff] at *
  omega

theorem not_before_of_before {a b : TimerKey} (before : a.before b = true) :
    ¬ b.before a = true := by
  rw [before_iff] at *
  omega

theorem before_of_not_before {a b : TimerKey} (other : a.handle ≠ b.handle)
    (not_before : ¬ a.before b = true) : b.before a = true := by
  have raw : a.handle.raw ≠ b.handle.raw := fun same => other (congrArg Ident.mk same)
  rw [before_iff] at *
  omega

theorem deadline_le_of_before {a b : TimerKey} (before : a.before b = true) :
    a.deadline ≤ b.deadline := by
  rw [before_iff] at before
  omega

end TimerKey

namespace TimerQueue

variable {β : Type} {q : TimerQueue β} {h : TimerId} {a : β} {k : TimerKey} {rest : List TimerKey}

/-! ## Keys and pending timers -/

/-- The handles of the keys of a queue. -/
def handles (q : TimerQueue β) : List TimerId := q.keys.map (·.handle)

/-- The keys are in order and belong to different timers, every pending timer has a key, and every
timer that was inserted has fired, was cancelled or is pending. -/
structure WellFormed (q : TimerQueue β) : Prop where
  sorted : q.keys.Pairwise fun a b => a.before b = true
  distinct : q.handles.Nodup
  single : (q.pending.map (·.1)).Nodup
  keyed : ∀ e ∈ q.pending, e.1 ∈ q.handles
  accounted : q.inserted = q.fired + q.cancelled + q.size

theorem wellFormed_empty : ({} : TimerQueue β).WellFormed where
  sorted := .nil
  distinct := .nil
  single := .nil
  keyed _ mem := nomatch mem
  accounted := rfl

/-- The pending timers among some keys. -/
def entriesAt (q : TimerQueue β) (keys : List TimerKey) : List (TimerKey × β) :=
  keys.filterMap fun k => (q.action? k.handle).map (k, ·)

/-- The pending timers with their deadlines, in order. -/
def entries (q : TimerQueue β) : List (TimerKey × β) := q.entriesAt q.keys

theorem WellFormed.action?_eq_some_iff (wf : q.WellFormed) :
    q.action? h = some a ↔ (h, a) ∈ q.pending := by
  rw [action?, Option.map_eq_some_iff]
  constructor
  · rintro ⟨⟨g, b⟩, found, rfl⟩
    have handle : g = h := by simpa using List.find?_some found
    exact handle ▸ List.mem_of_find?_eq_some found
  · intro mem
    cases found : q.pending.find? fun entry => entry.1 = h with
    | none =>
        have other := List.find?_eq_none.1 found _ mem
        exact absurd rfl (of_decide_eq_false (Bool.not_eq_true _ ▸ other))
    | some e =>
        have handle : e.1 = h := by simpa using List.find?_some found
        have entry : e = (h, a) :=
          List.inj_on_of_nodup_map wf.single (List.mem_of_find?_eq_some found) mem handle
        exact ⟨e, rfl, congrArg Prod.snd entry⟩

theorem isPending_iff : q.isPending h = true ↔ ∃ a, q.action? h = some a :=
  Option.isSome_iff_exists

theorem mem_entriesAt {keys : List TimerKey} :
    (k, a) ∈ q.entriesAt keys ↔ k ∈ keys ∧ q.action? k.handle = some a := by
  simp only [entriesAt, List.mem_filterMap, Option.map_eq_some_iff, Prod.mk.injEq]
  constructor
  · rintro ⟨l, mem, b, action, rfl, rfl⟩
    exact ⟨mem, action⟩
  · rintro ⟨mem, action⟩
    exact ⟨k, mem, a, action, rfl, rfl⟩

/-- A timer is pending if and only if there is an entry with its handle. -/
theorem WellFormed.mem_pending_iff (wf : q.WellFormed) :
    (h, a) ∈ q.pending ↔ ∃ d, (⟨d, h⟩, a) ∈ q.entries := by
  constructor
  · intro mem
    obtain ⟨k, key, rfl⟩ := List.mem_map.1 (wf.keyed _ mem)
    exact ⟨k.deadline, mem_entriesAt.2 ⟨key, wf.action?_eq_some_iff.2 mem⟩⟩
  · rintro ⟨d, mem⟩
    exact wf.action?_eq_some_iff.1 (mem_entriesAt.1 mem).2

theorem entriesAt_cons (q : TimerQueue β) (k : TimerKey) (rest : List TimerKey) :
    q.entriesAt (k :: rest) = ((q.action? k.handle).map (k, ·)).toList ++ q.entriesAt rest := by
  rw [entriesAt, List.filterMap_cons, entriesAt]
  cases (q.action? k.handle).map (k, ·) <;> rfl

theorem entriesAt_congr {q q' : TimerQueue β} {keys : List TimerKey}
    (same : ∀ k ∈ keys, q'.action? k.handle = q.action? k.handle) :
    q'.entriesAt keys = q.entriesAt keys :=
  List.filterMap_congr fun k mem => by rw [same k mem]

theorem keys_entriesAt_sublist (q : TimerQueue β) (keys : List TimerKey) :
    ((q.entriesAt keys).map (·.1)).Sublist keys := by
  induction keys with
  | nil => exact .slnil
  | cons k rest ih =>
      rw [entriesAt_cons]
      cases q.action? k.handle with
      | none => exact ih.cons k
      | some a => exact ih.cons_cons k

theorem WellFormed.entries_sorted (wf : q.WellFormed) :
    q.entries.Pairwise fun e f => e.1.before f.1 = true :=
  List.pairwise_map.1 (wf.sorted.sublist (q.keys_entriesAt_sublist q.keys))

theorem WellFormed.entries_distinct (wf : q.WellFormed) :
    (q.entries.map (·.1.handle)).Nodup := by
  have sublist := (q.keys_entriesAt_sublist q.keys).map (·.handle)
  rw [List.map_map] at sublist
  exact wf.distinct.sublist sublist

/-- The entries without their deadlines are the pending timers. -/
theorem WellFormed.entries_perm_pending (wf : q.WellFormed) :
    (q.entries.map fun e => (e.1.handle, e.2)).Perm q.pending := by
  have handles : ((q.entries.map fun e => (e.1.handle, e.2)).map (·.1)).Nodup := by
    rw [List.map_map]
    exact wf.entries_distinct
  refine (List.perm_ext_iff_of_nodup (.of_map _ handles) (.of_map _ wf.single)).2 fun e => ?_
  rw [wf.mem_pending_iff, List.mem_map]
  constructor
  · rintro ⟨⟨⟨d, g⟩, b⟩, mem, rfl⟩
    exact ⟨d, mem⟩
  · rintro ⟨d, mem⟩
    exact ⟨_, mem, rfl⟩

theorem WellFormed.length_entries (wf : q.WellFormed) : q.entries.length = q.size := by
  rw [size, ← wf.entries_perm_pending.length_eq, List.length_map]

/-- The stale keys are those whose timers are no longer pending. -/
theorem WellFormed.stale_eq (wf : q.WellFormed) :
    q.stats.stale = q.keys.countP fun k => !q.isPending k.handle := by
  have pending : q.keys.countP (fun k => q.isPending k.handle) = q.size := by
    rw [← wf.length_entries, entries, entriesAt, List.length_filterMap_eq_countP]
    refine List.countP_congr fun k _ => ?_
    rw [Option.isSome_map, isPending]
  have all := List.length_eq_countP_add_countP (fun k : TimerKey => q.isPending k.handle)
    (l := q.keys)
  have rest : q.keys.countP (fun k => ¬ q.isPending k.handle) =
      q.keys.countP fun k => !q.isPending k.handle := by
    refine List.countP_congr fun k _ => ?_
    simp
  show q.keys.length - q.size = _
  omega

/-! ## Inserting -/

theorem insertKey_perm (k : TimerKey) (keys : List TimerKey) :
    (insertKey k keys).Perm (k :: keys) := by
  induction keys with
  | nil => exact .refl _
  | cons l rest ih =>
      rw [insertKey]
      split
      · exact .refl _
      · exact (ih.cons l).trans (.swap k l rest)

theorem insertKey_sorted {keys : List TimerKey}
    (sorted : keys.Pairwise fun a b => a.before b = true)
    (other : ∀ l ∈ keys, k.handle ≠ l.handle) :
    (insertKey k keys).Pairwise fun a b => a.before b = true := by
  induction keys with
  | nil => exact List.pairwise_singleton _ _
  | cons l rest ih =>
      obtain ⟨first, sorted⟩ := List.pairwise_cons.1 sorted
      rw [insertKey]
      split
      · rename_i before
        refine List.pairwise_cons.2 ⟨fun m mem => ?_, List.pairwise_cons.2 ⟨first, sorted⟩⟩
        rcases List.mem_cons.1 mem with rfl | mem
        · exact before
        · exact TimerKey.before_trans before (first m mem)
      · rename_i not_before
        have after : l.before k = true :=
          TimerKey.before_of_not_before (other l List.mem_cons_self) not_before
        refine List.pairwise_cons.2 ⟨fun m mem => ?_, ih sorted fun m mem => other m (.tail _ mem)⟩
        rcases List.mem_cons.1 ((insertKey_perm k rest).mem_iff.1 mem) with rfl | mem
        · exact after
        · exact first m mem

theorem handles_insert (q : TimerQueue β) (d : Int) (h : TimerId) (a : β) :
    (q.insert d h a).handles.Perm (h :: q.handles) :=
  (insertKey_perm ⟨d, h⟩ q.keys).map fun k : TimerKey => k.handle

/-- A timer that is inserted under a handle without a key keeps the link. -/
theorem WellFormed.insert (wf : q.WellFormed) (fresh : h ∉ q.handles) (d : Int) (a : β) :
    (q.insert d h a).WellFormed where
  sorted := by
    refine insertKey_sorted wf.sorted fun l mem same => fresh ?_
    exact List.mem_map.2 ⟨l, mem, same.symm⟩
  distinct := (handles_insert q d h a).nodup_iff.2 (List.nodup_cons.2 ⟨fresh, wf.distinct⟩)
  single := by
    refine List.nodup_cons.2 ⟨fun mem => fresh ?_, wf.single⟩
    obtain ⟨e, entry, rfl⟩ := List.mem_map.1 mem
    exact wf.keyed e entry
  keyed e mem := by
    refine (handles_insert q d h a).mem_iff.2 ?_
    rcases List.mem_cons.1 mem with rfl | mem
    · exact List.mem_cons_self
    · exact .tail _ (wf.keyed e mem)
  accounted := by
    have accounted := wf.accounted
    show q.inserted + 1 = q.fired + q.cancelled + (q.size + 1)
    omega

theorem action?_insert_self (q : TimerQueue β) (d : Int) (h : TimerId) (a : β) :
    (q.insert d h a).action? h = some a := by
  simp [action?, TimerQueue.insert]

theorem action?_insert_of_ne {g : TimerId} (other : g ≠ h) (d : Int) (a : β) :
    (q.insert d h a).action? g = q.action? g := by
  simp [action?, TimerQueue.insert, other.symm]

theorem entries_insert (fresh : h ∉ q.handles) (d : Int) (a : β) :
    (q.insert d h a).entries.Perm ((⟨d, h⟩, a) :: q.entries) := by
  have keys : (q.insert d h a).entries.Perm ((q.insert d h a).entriesAt (⟨d, h⟩ :: q.keys)) :=
    (insertKey_perm ⟨d, h⟩ q.keys).filterMap _
  have others : (q.insert d h a).entriesAt q.keys = q.entriesAt q.keys := by
    refine entriesAt_congr fun k mem => action?_insert_of_ne (fun same => fresh ?_) d a
    exact List.mem_map.2 ⟨k, mem, same⟩
  rw [entriesAt_cons, action?_insert_self, others] at keys
  exact keys

/-! ## Taking a timer out -/

theorem find?_removePending (g h : TimerId) (pending : List (TimerId × β)) :
    (removePending h pending).find? (fun entry => entry.1 = g) =
      if g = h then none else pending.find? fun entry => entry.1 = g := by
  induction pending with
  | nil => simp [removePending]
  | cons e rest ih =>
      rw [removePending] at ih ⊢
      by_cases removed : e.1 = h
      · rw [List.filter_cons_of_neg (by simp [removed]), ih]
        split
        · rfl
        · rename_i other
          rw [List.find?_cons_of_neg]
          simp [removed, Ne.symm other]
      · rw [List.filter_cons_of_pos (by simp [removed])]
        by_cases own : e.1 = g
        · have other : g ≠ h := own ▸ removed
          rw [List.find?_cons_of_pos (by simp [own]), List.find?_cons_of_pos (by simp [own]),
            if_neg other]
        · rw [List.find?_cons_of_neg (by simp [own]), List.find?_cons_of_neg (by simp [own]), ih]

theorem mem_removePending {pending : List (TimerId × β)} {e : TimerId × β} :
    e ∈ removePending h pending ↔ e ∈ pending ∧ e.1 ≠ h := by
  simp [removePending, List.mem_filter]

theorem single_removePending {pending : List (TimerId × β)} (single : (pending.map (·.1)).Nodup) :
    ((removePending h pending).map (·.1)).Nodup :=
  single.sublist ((List.filter_sublist).map _)

/-- Without one of different timers there is one timer less, if it is among them. -/
theorem length_removePending {pending : List (TimerId × β)} (single : (pending.map (·.1)).Nodup)
    (mem : (h, a) ∈ pending) : (removePending h pending).length + 1 = pending.length := by
  induction pending with
  | nil => exact nomatch mem
  | cons e rest ih =>
      obtain ⟨other, single⟩ := List.nodup_cons.1 single
      rw [removePending] at ih ⊢
      rcases List.mem_cons.1 mem with rfl | mem
      · have kept : rest.filter (fun entry => entry.1 ≠ h) = rest := by
          refine List.filter_eq_self.2 fun f entry => ?_
          exact decide_eq_true fun same => other (List.mem_map.2 ⟨f, entry, same⟩)
        rw [List.filter_cons_of_neg (by simp), kept, List.length_cons]
      · have ne : e.1 ≠ h := fun same => other (List.mem_map.2 ⟨_, mem, same.symm⟩)
        rw [List.filter_cons_of_pos (by simp [ne]), List.length_cons, List.length_cons,
          ih single mem]

/-- The entries are those of the other timers, if one timer is taken out. -/
theorem entriesAt_without {q q' : TimerQueue β} (h : TimerId)
    (without : ∀ g, q'.action? g = if g = h then none else q.action? g) (keys : List TimerKey) :
    q'.entriesAt keys = (q.entriesAt keys).filter fun e => e.1.handle ≠ h := by
  induction keys with
  | nil => rfl
  | cons k rest ih =>
      rw [entriesAt_cons, entriesAt_cons, List.filter_append, ih, without k.handle]
      congr 1
      by_cases own : k.handle = h
      · rw [if_pos own]
        cases q.action? k.handle with
        | none => rfl
        | some a => simp [own]
      · rw [if_neg own]
        cases q.action? k.handle with
        | none => rfl
        | some a => simp [own]

/-! ## Cancelling -/

theorem action?_cancel (q : TimerQueue β) (h g : TimerId) :
    (q.cancel h).2.action? g = if g = h then none else q.action? g := by
  show ((removePending h q.pending).find? _).map _ = _
  rw [find?_removePending]
  split
  · rfl
  · rfl

theorem entries_cancel (wf : q.WellFormed) (h : TimerId) :
    (q.cancel h).2.entries = q.entries.filter fun e => e.1.handle ≠ h := by
  show (q.cancel h).2.entriesAt (if (removePending h q.pending).isEmpty then [] else q.keys) = _
  split
  · rename_i empty
    refine (List.filter_eq_nil_iff.2 fun e mem => ?_).symm
    have pending : (e.1.handle, e.2) ∈ q.pending := wf.mem_pending_iff.2 ⟨_, mem⟩
    have removed : removePending h q.pending = [] := List.isEmpty_iff.1 empty
    intro kept
    have left := mem_removePending.2 ⟨pending, of_decide_eq_true kept⟩
    rw [removed] at left
    exact nomatch left
  · exact entriesAt_without h (action?_cancel q h) q.keys

theorem handles_cancel_subset (q : TimerQueue β) (h : TimerId) :
    (q.cancel h).2.handles ⊆ q.handles := by
  intro g mem
  have keys : g ∈ (if (removePending h q.pending).isEmpty then [] else q.keys).map (·.handle) := mem
  split at keys
  · exact nomatch keys
  · exact keys

theorem WellFormed.cancel (wf : q.WellFormed) (h : TimerId) : (q.cancel h).2.WellFormed where
  sorted := by
    show (if (removePending h q.pending).isEmpty then [] else q.keys).Pairwise _
    split
    · exact .nil
    · exact wf.sorted
  distinct := by
    show ((if (removePending h q.pending).isEmpty then [] else q.keys).map _).Nodup
    split
    · exact .nil
    · exact wf.distinct
  single := single_removePending wf.single
  keyed e mem := by
    have kept : e ∈ removePending h q.pending := mem
    show e.1 ∈ (if (removePending h q.pending).isEmpty then [] else q.keys).map _
    rw [if_neg (by simpa using List.ne_nil_of_mem kept)]
    exact wf.keyed e (mem_removePending.1 kept).1
  accounted := by
    have accounted := wf.accounted
    show q.inserted = q.fired + (if q.isPending h then q.cancelled + 1 else q.cancelled) +
      (removePending h q.pending).length
    split
    · rename_i pending
      obtain ⟨a, action⟩ := isPending_iff.1 pending
      have less := length_removePending wf.single (wf.action?_eq_some_iff.1 action)
      rw [size] at accounted
      omega
    · rename_i gone
      have kept : removePending h q.pending = q.pending := by
        refine List.filter_eq_self.2 fun e mem => decide_eq_true fun own => gone ?_
        exact isPending_iff.2 ⟨e.2, wf.action?_eq_some_iff.2 (own ▸ mem)⟩
      rw [kept]
      exact accounted

/-- A timer is pending if and only if it is among the entries. -/
theorem WellFormed.isPending_eq (wf : q.WellFormed) (h : TimerId) :
    q.isPending h = q.entries.any fun e => e.1.handle = h := by
  rw [Bool.eq_iff_iff, isPending_iff, List.any_eq_true]
  constructor
  · rintro ⟨a, action⟩
    obtain ⟨d, mem⟩ := wf.mem_pending_iff.1 (wf.action?_eq_some_iff.1 action)
    exact ⟨_, mem, decide_eq_true rfl⟩
  · rintro ⟨e, mem, own⟩
    exact ⟨e.2, of_decide_eq_true own ▸ (mem_entriesAt.1 mem).2⟩

/-! ## Firing -/

theorem dropFirst_fst (q : TimerQueue β) (k : TimerKey) (rest : List TimerKey) :
    (q.dropFirst k rest).1 = q.action? k.handle := by
  rw [dropFirst]
  split
  · rename_i action
    exact action.symm
  · rename_i none
    exact none.symm

theorem dropFirst_keys (q : TimerQueue β) (k : TimerKey) (rest : List TimerKey) :
    (q.dropFirst k rest).2.keys = rest := by
  rw [dropFirst]
  split <;> rfl

theorem dropFirst_inserted (q : TimerQueue β) (k : TimerKey) (rest : List TimerKey) :
    (q.dropFirst k rest).2.inserted = q.inserted := by
  rw [dropFirst]
  split <;> rfl

theorem dropFirst_cancelled (q : TimerQueue β) (k : TimerKey) (rest : List TimerKey) :
    (q.dropFirst k rest).2.cancelled = q.cancelled := by
  rw [dropFirst]
  split <;> rfl

theorem dropFirst_fired (q : TimerQueue β) (k : TimerKey) (rest : List TimerKey) :
    (q.dropFirst k rest).2.fired = q.fired + (q.action? k.handle).toList.length := by
  rw [dropFirst]
  split
  · rename_i action
    rw [action]
    rfl
  · rename_i none
    rw [none]
    rfl

section Front

variable (wf : q.WellFormed) (front : q.keys = k :: rest)

include wf front

/-- The entries behind the first key. -/
theorem entries_dropFirst : (q.dropFirst k rest).2.entries = q.entriesAt rest := by
  have distinct := wf.distinct
  rw [handles, front] at distinct
  have other : k.handle ∉ rest.map (·.handle) := (List.nodup_cons.1 distinct).1
  rw [entries, dropFirst_keys]
  refine entriesAt_congr fun l mem => ?_
  have ne : l.handle ≠ k.handle := fun same => other (List.mem_map.2 ⟨l, mem, same⟩)
  rw [dropFirst]
  split
  · show ((removePending k.handle q.pending).find? _).map _ = _
    rw [find?_removePending, if_neg ne]
    rfl
  · rfl

theorem WellFormed.dropFirst : (q.dropFirst k rest).2.WellFormed := by
  have distinct := wf.distinct
  have sorted := wf.sorted
  rw [handles, front] at distinct
  rw [front] at sorted
  have keyed : ∀ e ∈ q.pending, e.1 ≠ k.handle → e.1 ∈ rest.map (·.handle) := by
    intro e mem other
    have key := wf.keyed e mem
    rw [handles, front] at key
    exact (List.mem_cons.1 key).resolve_left other
  have accounted := wf.accounted
  rw [size] at accounted
  rw [TimerQueue.dropFirst]
  split
  · rename_i a action
    refine ⟨sorted.of_cons, distinct.of_cons, single_removePending wf.single, ?_, ?_⟩
    · intro e mem
      obtain ⟨mem, other⟩ := mem_removePending.1 mem
      exact keyed e mem other
    · have less := length_removePending wf.single (wf.action?_eq_some_iff.1 action)
      show q.inserted = q.fired + 1 + q.cancelled + (removePending k.handle q.pending).length
      omega
  · rename_i none
    refine ⟨sorted.of_cons, distinct.of_cons, wf.single, ?_, accounted⟩
    intro e mem
    refine keyed e mem fun same => ?_
    have action := wf.action?_eq_some_iff.2 (show (k.handle, e.2) ∈ q.pending from same ▸ mem)
    rw [none] at action
    exact nomatch action

end Front

/-- A poll has fired the timers whose deadlines have passed, in order, and left the others. -/
structure Polled (q : TimerQueue β) (now : Int) (fired : List β) (q' : TimerQueue β) : Prop where
  wellFormed : q'.WellFormed
  answer : fired = (q.entries.filter fun e => e.1.deadline ≤ now).map (·.2)
  entries : q'.entries = q.entries.filter fun e => ¬ e.1.deadline ≤ now
  handles : q'.handles ⊆ q.handles
  inserted : q'.inserted = q.inserted
  cancelled : q'.cancelled = q.cancelled
  counted : q'.fired = q.fired + fired.length

/-- A poll stops at the first deadline that has not passed, because the others come later. -/
theorem polled_of_early (wf : q.WellFormed) {now : Int} (early : ∀ k ∈ q.keys, now < k.deadline) :
    q.Polled now [] q := by
  have later : ∀ e ∈ q.entries, ¬ e.1.deadline ≤ now := by
    intro e mem
    have := early e.1 (mem_entriesAt.1 mem).1
    omega
  refine ⟨wf, ?_, ?_, fun _ mem => mem, rfl, rfl, rfl⟩
  · rw [List.filter_eq_nil_iff.2 fun e mem => by simpa using later e mem]
    rfl
  · exact (List.filter_eq_self.2 fun e mem => by simpa using later e mem).symm

theorem pollKeys_polled (now : Int) (keys : List TimerKey) (wf : q.WellFormed)
    (front : q.keys = keys) : q.Polled now (pollKeys now keys q).1 (pollKeys now keys q).2 := by
  induction keys generalizing q with
  | nil => exact polled_of_early wf fun k mem => nomatch front ▸ mem
  | cons k rest ih =>
      rw [pollKeys]
      split
      · rename_i early
        refine polled_of_early wf fun l mem => ?_
        have sorted := wf.sorted
        rw [front] at sorted mem
        rcases List.mem_cons.1 mem with rfl | mem
        · exact early
        · have := TimerKey.deadline_le_of_before ((List.pairwise_cons.1 sorted).1 l mem)
          omega
      · rename_i due
        have polled := ih (wf.dropFirst front) (q.dropFirst_keys k rest)
        obtain ⟨first, own⟩ : ∃ first, first = ((q.action? k.handle).map (k, ·)).toList := ⟨_, rfl⟩
        have split : q.entries = first ++ (q.dropFirst k rest).2.entries := by
          rw [entries_dropFirst wf front, entries, front, entriesAt_cons, own]
        have passed : ∀ e ∈ first, e.1.deadline ≤ now := by
          intro e mem
          rw [own] at mem
          obtain ⟨a, -, rfl⟩ := Option.map_eq_some_iff.1 (Option.mem_toList.1 mem)
          show k.deadline ≤ now
          omega
        have fires : first.filter (fun e => e.1.deadline ≤ now) = first :=
          List.filter_eq_self.2 fun e mem => by simpa using passed e mem
        have leaves : first.filter (fun e => ¬ e.1.deadline ≤ now) = [] :=
          List.filter_eq_nil_iff.2 fun e mem => by simpa using passed e mem
        have actions : first.map (·.2) = (q.action? k.handle).toList := by
          rw [own]
          cases q.action? k.handle <;> rfl
        refine ⟨polled.wellFormed, ?_, ?_, ?_, ?_, ?_, ?_⟩
        · show (q.dropFirst k rest).1.toList ++ _ = _
          rw [polled.answer, split, List.filter_append, List.map_append, dropFirst_fst, fires,
            actions]
        · show (pollKeys now rest (q.dropFirst k rest).2).2.entries = _
          rw [polled.entries, split, List.filter_append, leaves, List.nil_append]
        · intro g mem
          have tail := polled.handles mem
          rw [handles, dropFirst_keys] at tail
          rw [handles, front]
          exact .tail _ tail
        · exact polled.inserted.trans (q.dropFirst_inserted k rest)
        · exact polled.cancelled.trans (q.dropFirst_cancelled k rest)
        · have counted := polled.counted
          rw [dropFirst_fired] at counted
          show (pollKeys now rest (q.dropFirst k rest).2).2.fired =
            q.fired + ((q.dropFirst k rest).1.toList ++ _).length
          rw [List.length_append, dropFirst_fst, counted]
          omega

theorem pollExpired_polled (wf : q.WellFormed) (now : Int) :
    q.Polled now (q.pollExpired now).1 (q.pollExpired now).2 :=
  pollKeys_polled now q.keys wf rfl

/-! ## Looking at the front -/

theorem entries_skipStale (q : TimerQueue β) : q.skipStale.entries = q.entries := by
  show q.entriesAt (q.keys.dropWhile _) = q.entriesAt q.keys
  generalize q.keys = keys
  induction keys with
  | nil => rfl
  | cons k rest ih =>
      rw [List.dropWhile_cons]
      split
      · rename_i stale
        have none : q.action? k.handle = none := by simpa [isPending] using stale
        rw [ih, entriesAt_cons, none]
        rfl
      · rfl

theorem WellFormed.skipStale (wf : q.WellFormed) : q.skipStale.WellFormed where
  sorted := wf.sorted.sublist (List.dropWhile_sublist _)
  distinct := wf.distinct.sublist ((List.dropWhile_sublist _).map _)
  single := wf.single
  keyed e mem := by
    obtain ⟨d, entry⟩ := wf.mem_pending_iff.1 (show (e.1, e.2) ∈ q.pending from mem)
    rw [← entries_skipStale] at entry
    exact List.mem_map.2 ⟨_, (mem_entriesAt.1 entry).1, rfl⟩
  accounted := wf.accounted

/-- After the stale keys at the front, the first key is that of the first entry. -/
theorem keys_skipStale (q : TimerQueue β) :
    q.skipStale.keys = [] ∧ q.entries = [] ∨
      ∃ k rest a, q.skipStale.keys = k :: rest ∧ q.action? k.handle = some a ∧
        q.entries = (k, a) :: q.entriesAt rest := by
  have same : q.entriesAt q.skipStale.keys = q.entries := q.entries_skipStale
  have head := List.head?_dropWhile_not (fun k : TimerKey => !q.isPending k.handle) q.keys
  rw [show q.keys.dropWhile _ = q.skipStale.keys from rfl] at head
  cases keys : q.skipStale.keys with
  | nil =>
      rw [keys] at same
      exact .inl ⟨rfl, same.symm⟩
  | cons k rest =>
      rw [keys] at same head
      obtain ⟨a, action⟩ := isPending_iff.1 (by simpa using head)
      rw [entriesAt_cons, action] at same
      exact .inr ⟨k, rest, a, rfl, action, same.symm⟩

theorem nextDeadline_eq (q : TimerQueue β) :
    q.nextDeadline.1 = q.entries.head?.map (·.1.deadline) := by
  show q.skipStale.keys.head?.map _ = _
  rcases q.keys_skipStale with ⟨keys, entries⟩ | ⟨k, rest, a, keys, -, entries⟩
  · rw [keys, entries]
    rfl
  · rw [keys, entries]
    rfl

/-- The first timer fires with its deadline, and the others are left. -/
structure FiredFirst (q : TimerQueue β) (answer : Option (Int × β)) (q' : TimerQueue β) : Prop where
  wellFormed : q'.WellFormed
  answer : answer = q.entries.head?.map fun e => (e.1.deadline, e.2)
  entries : q'.entries = q.entries.tail
  handles : q'.handles ⊆ q.handles

theorem handles_skipStale_subset (q : TimerQueue β) : q.skipStale.handles ⊆ q.handles :=
  ((List.dropWhile_sublist _).map _).subset

theorem fireFirst_firedFirst (wf : q.WellFormed) :
    q.FiredFirst q.fireFirst.1 q.fireFirst.2 := by
  rw [fireFirst]
  dsimp only
  rcases q.keys_skipStale with ⟨keys, none⟩ | ⟨k, rest, a, keys, action, entries⟩
  · rw [keys]
    refine ⟨wf.skipStale, ?_, ?_, q.handles_skipStale_subset⟩
    · rw [none]
      rfl
    · exact (q.entries_skipStale.trans none).trans (congrArg List.tail none).symm
  · rw [keys]
    refine ⟨wf.skipStale.dropFirst keys, ?_, ?_, ?_⟩
    · show ((q.skipStale.dropFirst k rest).1.map _) = _
      rw [dropFirst_fst, entries]
      exact congrArg (Option.map _) action
    · exact (entries_dropFirst wf.skipStale keys).trans (congrArg List.tail entries).symm
    · intro g mem
      refine q.handles_skipStale_subset ?_
      rw [TimerQueue.handles, dropFirst_keys] at mem
      rw [TimerQueue.handles, keys]
      exact .tail _ mem

/-- Without the first entry the others are pending. -/
theorem WellFormed.mem_pending_tail {q' : TimerQueue β} {e : TimerKey × β} (wf : q.WellFormed)
    (wf' : q'.WellFormed) (entries : q.entries = e :: q'.entries) (x : TimerId × β) :
    x ∈ q'.pending ↔ x ∈ q.pending ∧ x.1 ≠ e.1.handle := by
  obtain ⟨h, a⟩ := x
  obtain ⟨⟨deadline, g⟩, b⟩ := e
  have distinct := wf.entries_distinct
  rw [entries, List.map_cons, List.nodup_cons] at distinct
  rw [wf.mem_pending_iff, wf'.mem_pending_iff, entries]
  constructor
  · rintro ⟨d, mem⟩
    refine ⟨⟨d, .tail _ mem⟩, fun same => distinct.1 ?_⟩
    exact List.mem_map.2 ⟨_, mem, same⟩
  · rintro ⟨⟨d, mem⟩, other⟩
    rcases List.mem_cons.1 mem with same | mem
    · cases same
      exact absurd rfl other
    · exact ⟨d, mem⟩

end TimerQueue

end EffectFibers
