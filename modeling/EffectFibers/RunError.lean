import EffectFibers.Config

/-!
# Why a program is not started

Planning errors of layer graphs, and the errors that a runtime reports before it starts anything.
-/

namespace EffectFibers

/-- Why the layers of a graph cannot be put in order. -/
inductive LayerError
  /-- These layers lie on a cycle of dependencies or depend on one that does. -/
  | cycle (layers : List String)
  /-- Two layers produce the same service. -/
  | duplicateService (service first second : String)
  deriving DecidableEq, Repr

namespace LayerError

def text : LayerError → String
  | .cycle layers => "layer dependency cycle between: " ++ ", ".intercalate layers
  | .duplicateService service first second =>
    s!"service {service} is provided by both {first} and {second}"

/-- The name of the error. -/
def name : LayerError → String
  | .cycle _ => "Cycle"
  | .duplicateService .. => "DuplicateService"

end LayerError

/-- Why a runtime refuses a program, or does not come up itself. -/
inductive RunError
  | missingServices (services : List String)
  | layer (error : LayerError)
  | config (error : ConfigError)
  | spawn (thread reason : String)
  | shutdown
  deriving DecidableEq, Repr

namespace RunError

def text : RunError → String
  | .missingServices services => "missing services: " ++ ", ".intercalate services
  | .layer error => "invalid layer graph: " ++ error.text
  | .config error => "invalid configuration: " ++ error.text
  | .spawn thread reason => s!"failed to spawn {thread}: {reason}"
  | .shutdown => "runtime is shut down"

/-- The name of the error, with the name of the planning error in it. -/
def name : RunError → String
  | .missingServices _ => "MissingServices"
  | .layer error => "Layer/" ++ error.name
  | .config _ => "Config"
  | .spawn .. => "Spawn"
  | .shutdown => "Shutdown"

end RunError

end EffectFibers
