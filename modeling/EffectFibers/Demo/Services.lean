import EffectFibers.Effect.Concurrent
import EffectFibers.Machine.Blocking

/-!
# A demonstration of services

A repository is built from a configuration, and both are provided to a program through one layer.
Without the layer the program is refused before it starts.  A user that does not exist is a
failure, which the program recovers from by its tag.  The repository is a table from numbers to
names, and the world is not used.
-/

namespace EffectFibers.Demo.Services

/-- The tag of the configuration. -/
def configTag : Tag := ⟨⟨1⟩, "AppConfig"⟩

/-- The tag of the repository. -/
def repoTag : Tag := ⟨⟨2⟩, "UserRepo"⟩

/-- The configuration: the address of the database. -/
def configSource (vars : Variables) : Effect Unit := .trySync <| pure <|
  match (vars.find "APP_DB_URL").plain "memory://users" with
  | "" => .error (.tagged "Config" "config error: APP_DB_URL is empty")
  | url => .ok (.str url)

/-- The users by their numbers. -/
def users : Value := .list [.list [.int 1, .str "ada"], .list [.int 2, .str "grace"]]

/-- The repository, which needs the configuration. -/
def repoSource : Effect Unit := .withService configTag fun config => do
  let url := match config with
    | .str url => url
    | _ => ""
  return (Effect.log ("connecting to " ++ url)).map fun _ => pure users

/-- Both layers, composed. -/
def appLayer (vars : Variables) : Action Unit (Layer Unit) := do
  let repo ← Layer.ofNode repoTag repoSource.node repoSource.requires
  let source := configSource vars
  let config ← Layer.ofNode configTag source.node source.requires
  return (repo.named "UserRepoLive").provide (config.named "ConfigLive")

/-- The name under a number. -/
def nameOf (id : Int) : Value → Option String
  | .list entries => entries.findSome? fun
      | .list [.int key, .str name] => if key = id then some name else none
      | _ => none
  | _ => none

/-- The user with a number, or a stand-in. -/
def lookUp (id : Nat) : Effect Unit :=
  (Effect.withService repoTag fun repo =>
    match nameOf id repo with
    | some name => pure (.succeed (.str name))
    | none => pure (.fail (.tagged "NotFound" s!"user {id} not found")))
  |>.catchTag "NotFound" fun _ => pure (.succeed (.str "<anonymous>"))

/-- Three users at once. -/
def program : Effect Unit := .all [lookUp 1, lookUp 2, lookUp 9]

/-- Names in detailed output. -/
def debugNames : Value → String
  | .list names => Text.bracketed (names.map fun
      | .str s => Text.quoted s
      | _ => "")
  | _ => ""

/-- What happened to the program without its services. -/
def refusalLine : Except RunError (Option Exit) → String
  | .error e => "Rejected: " ++ e.text
  | .ok _ => "Unexpected: program without services started"

/-- What happened to the program with its services. -/
def resultLine : Except RunError (Option Exit) → List String
  | .ok (some (.ok v)) => ["Users: " ++ debugNames v]
  | .ok (some (.error cause)) => ["Program " ++ cause.text Failure.message]
  | .ok none => []
  | .error e => ["Could not start: " ++ e.text]

/-- What the demonstration prints. -/
def output (config : Config) (vars : Variables) : List String :=
  match (appLayer vars).alone { host := () } with
  | .error _ => []
  | .ok (app, world) =>
    let (refusal, m) := (Machine.start world).runBlocking config program
    let (result, _) := m.runBlocking config (program.provide app)
    ["=== effex Services Example ===", "", refusalLine refusal]
      ++ resultLine result ++ ["", "=== Example Complete ==="]

end EffectFibers.Demo.Services
