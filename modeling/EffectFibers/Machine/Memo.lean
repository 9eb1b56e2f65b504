import EffectFibers.Machine.Wait

/-!
# The layers of a run

The fibers of one run share what its layers have produced.  The first fiber that comes to a layer
claims it and builds it; fibers that come meanwhile wait; later ones use the context that was
built.  Only successes are kept.  A build that fails hands a copy of its cause to those who wait,
and a build that is interrupted sends them back to look again; both are forgotten.

## Main definitions

* `Machine.lookUpLayer` – use, claim or wait for a layer.
* `Machine.completeBuild`, `Machine.failBuild`, `Machine.abandonBuild` – the three ends of a build.
-/

namespace EffectFibers

/-- What a fiber finds out about a layer. -/
inductive LayerState
  /-- It is built. -/
  | built (context : Context Value)
  /-- The fiber has claimed it and has to build it. -/
  | claimed
  /-- Another fiber is building it. -/
  | busy

namespace Memo

/-- What is known about a layer. -/
def get? (memo : Memo) (layer : LayerId) : Option MemoEntry :=
  (List.find? (fun entry => entry.1 == layer) memo).map (·.2)

/-- Forget a layer. -/
def erase (memo : Memo) (layer : LayerId) : Memo := memo.filter fun entry => entry.1 != layer

/-- Note something about a layer, in place of what was known. -/
def insert (memo : Memo) (layer : LayerId) (entry : MemoEntry) : Memo :=
  (layer, entry) :: memo.erase layer

/-- Those who wait for a build. -/
def waiters (memo : Memo) (layer : LayerId) : List WaitId :=
  match memo.get? layer with
  | some (.building _ waiters) => waiters
  | _ => []

theorem get?_erase (memo : Memo) (l k : LayerId) :
    (memo.erase l).get? k = if l = k then none else memo.get? k := by
  unfold erase get?
  induction memo with
  | nil => simp
  | cons entry rest ih =>
    by_cases same : entry.1 = l <;> by_cases hit : entry.1 = k <;> grind

theorem get?_insert (memo : Memo) (l k : LayerId) (entry : MemoEntry) :
    (memo.insert l entry).get? k = if l = k then some entry else memo.get? k := by
  by_cases same : l = k
  · simp [insert, get?, same]
  · have kept := get?_erase memo l k
    simp only [same, if_false] at kept ⊢
    simpa [insert, get?, same] using kept

end Memo

namespace Machine

variable {σ : Type}

/-- The layers of a run. -/
def memo (m : Machine σ) (scope : ScopeId) : Memo := (m.scopes.get? scope).getD []

/-- Change what is known about the layers of a run. -/
def modifyMemo (m : Machine σ) (scope : ScopeId) (change : Memo → Memo) : Machine σ :=
  { m with scopes := m.scopes.modify scope change }

/-- Look a layer up.  If nobody has built it or is building it, the fiber claims it. -/
def lookUpLayer (m : Machine σ) (scope : ScopeId) (layer : LayerNode σ) (f : FiberId) :
    LayerState × Machine σ :=
  match (m.memo scope).get? layer.id with
  | some (.built context) => (.built context, m)
  | some (.building ..) => (.busy, m)
  | none =>
    (.claimed,
      (m.modifyMemo scope (·.insert layer.id (.building f []))).trace (.building layer.name f))

/-- End a wait when the build of a layer ends; at once, if nobody is building it. -/
def joinBuild (m : Machine σ) (scope : ScopeId) (layer : LayerId) (w : WaitId) : Machine σ :=
  match (m.memo scope).get? layer with
  | some (.building owner waiters) =>
    m.modifyMemo scope (·.insert layer (.building owner (waiters ++ [w])))
  | _ => m.resume w (.ok .null)

/-- Tell everyone who waits for a build how it has ended for them. -/
def wake (m : Machine σ) (waiters : List WaitId) (exit : Exit) : Machine σ :=
  waiters.foldl (fun m w => m.resume w exit) m

/-- A build has produced a context. -/
def completeBuild (m : Machine σ) (scope : ScopeId) (layer : LayerNode σ)
    (context : Context Value) : Machine σ :=
  let waiters := (m.memo scope).waiters layer.id
  let m := m.modifyMemo scope (·.insert layer.id (.built context))
  (m.trace (.built layer.name waiters.length)).wake waiters (.ok .null)

/-- Forget a build that is under way, and tell those who wait for it. -/
def forgetBuild (m : Machine σ) (scope : ScopeId) (layer : LayerNode σ) (outcome : BuildOutcome)
    (exit : Exit) : Machine σ :=
  match (m.memo scope).get? layer.id with
  | some (.building owner waiters) =>
    let m := m.modifyMemo scope (·.erase layer.id)
    (m.trace (.buildForgotten layer.name owner waiters.length outcome)).wake waiters exit
  | _ => m

/-- A build has failed; those who wait for it get a copy of the cause. -/
def failBuild (m : Machine σ) (scope : ScopeId) (layer : LayerNode σ) (cause : Cause Failure) :
    Machine σ :=
  m.forgetBuild scope layer .failed (.error (layer.copyCause cause))

/-- A build was interrupted; those who wait for it look again. -/
def abandonBuild (m : Machine σ) (scope : ScopeId) (layer : LayerNode σ) : Machine σ :=
  m.forgetBuild scope layer .abandoned (.ok .null)

end Machine

end EffectFibers
