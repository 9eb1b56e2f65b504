import EffectFibers.Variables
import EffectFibers.Text.Quoted

/-!
# Configuration of a runtime

How many workers a runtime has, how long they and the timer thread sleep at most, and how its
threads are called.  Three of the four can come from variables.

## Main statements

* `Config.validate` names the first thing that is wrong, in a fixed order.
-/

namespace EffectFibers

/-- The most workers a runtime may have. -/
def maxWorkers : Nat := 256

/-- What is wrong with a configuration. -/
inductive ConfigError
  | noWorkers
  | tooManyWorkers (count : Nat)
  | zeroParkTimeout
  | zeroTimerPoll
  | emptyThreadName
  deriving DecidableEq, Repr

namespace ConfigError

def text : ConfigError → String
  | .noWorkers => "num_workers must be at least 1"
  | .tooManyWorkers count => s!"num_workers {count} exceeds the maximum of {maxWorkers}"
  | .zeroParkTimeout => "park_timeout must be non-zero"
  | .zeroTimerPoll => "timer_poll_interval must be non-zero"
  | .emptyThreadName => "thread_name_prefix must not be empty"

def debug : ConfigError → String
  | .noWorkers => "NoWorkers"
  | .tooManyWorkers count => s!"TooManyWorkers({count})"
  | .zeroParkTimeout => "ZeroParkTimeout"
  | .zeroTimerPoll => "ZeroTimerPoll"
  | .emptyThreadName => "EmptyThreadName"

end ConfigError

/-- The settings of a runtime. -/
structure Config where
  workers : Nat
  parkTimeout : Duration := .ofMillis 10
  threadName : String := "effex"
  timerPoll : Duration := .ofMillis 10

namespace Config

/-- The settings on a machine with that many processors. -/
def standard (processors : Nat) : Config := { workers := min processors maxWorkers }

/-- The settings that variables give, over the standard ones. -/
def ofVariables (processors : Nat) (vars : Variables) : Config :=
  let base := standard processors
  { base with
    workers := ((vars.find "EFFEX_WORKERS").natural? 64).getD base.workers
    parkTimeout := (vars.find "EFFEX_PARK_TIMEOUT_MS").millis base.parkTimeout
    timerPoll := (vars.find "EFFEX_TIMER_POLL_MS").millis base.timerPoll }

/-- The first thing that is wrong, if anything is. -/
def validate (c : Config) : Except ConfigError Unit :=
  if c.workers = 0 then .error .noWorkers
  else if maxWorkers < c.workers then .error (.tooManyWorkers c.workers)
  else if c.parkTimeout.isZero then .error .zeroParkTimeout
  else if c.timerPoll.isZero then .error .zeroTimerPoll
  else if c.threadName.isEmpty then .error .emptyThreadName
  else .ok ()

/-- The name of a worker thread. -/
def workerName (c : Config) (index : Nat) : String := s!"{c.threadName}-worker-{index}"

/-- The name of the timer thread. -/
def timerName (c : Config) : String := s!"{c.threadName}-timer"

def debug (c : Config) : String :=
  Text.record "RuntimeConfig"
    [("num_workers", toString c.workers),
     ("park_timeout", c.parkTimeout.debug),
     ("thread_name_prefix", Text.quoted c.threadName),
     ("timer_poll_interval", c.timerPoll.debug)]

end Config

/-- A runtime in detailed output: its settings, and whether it has been shut down. -/
def Config.debugRuntime (c : Config) (stopped : Bool) : String :=
  Text.record "Runtime" [("config", c.debug), ("shutdown", toString stopped)]

end EffectFibers
