/-!
# The status of a fiber

A fiber is live while it runs or is suspended, and terminal once it has an exit.
-/

namespace EffectFibers

/-- Where a fiber is in its life. -/
inductive FiberStatus
  | running | suspended | succeeded | failed | died | interrupted
  deriving DecidableEq, Repr, Inhabited

namespace FiberStatus

/-- Whether the fiber has ended. -/
def isTerminal : FiberStatus → Bool
  | .running | .suspended => false
  | _ => true

def isLive (s : FiberStatus) : Bool := !s.isTerminal

def text : FiberStatus → String
  | .running => "running"
  | .suspended => "suspended"
  | .succeeded => "succeeded"
  | .failed => "failed"
  | .died => "died"
  | .interrupted => "interrupted"

def debug : FiberStatus → String
  | .running => "Running"
  | .suspended => "Suspended"
  | .succeeded => "Succeeded"
  | .failed => "Failed"
  | .died => "Died"
  | .interrupted => "Interrupted"

/-- The number of a status. -/
def code : FiberStatus → Nat
  | .running => 0
  | .suspended => 1
  | .succeeded => 2
  | .failed => 3
  | .died => 4
  | .interrupted => 5

/-- The status of a number; every number from five on means `interrupted`. -/
def ofCode : Nat → FiberStatus
  | 0 => .running
  | 1 => .suspended
  | 2 => .succeeded
  | 3 => .failed
  | 4 => .died
  | _ => .interrupted

theorem ofCode_code (s : FiberStatus) : ofCode s.code = s := by
  cases s <;> rfl

end FiberStatus

end EffectFibers
