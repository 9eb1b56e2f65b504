import EffectFibers.Demo

/-!
# The command line

The program prints the demonstration whose name it is given.
-/

namespace EffectFibers

/-- The variables that the demonstrations read. -/
def settingNames : List String :=
  ["EFFEX_WORKERS", "EFFEX_PARK_TIMEOUT_MS", "EFFEX_TIMER_POLL_MS", "APP_DB_URL"]

/-- The variables that are set. -/
def readSettings : IO Variables :=
  settingNames.filterMapM fun name => do
    return (← IO.getEnv name).map fun value => (name, value.toUTF8)

end EffectFibers

open EffectFibers

def main (args : List String) : IO UInt32 := do
  match demo? 1 (← readSettings) (args.head?.getD "basic") with
  | some lines =>
    lines.forM IO.println
    return 0
  | none =>
    IO.eprintln "usage: basic | services"
    return 2
