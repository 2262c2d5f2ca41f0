import CrossRef.Settings.Files

/-! The arguments that the program is called with. A command may have commands of its own, and the options
for all of them may stand before or behind the command's name; the last level that has one wins. -/

namespace CrossRef

namespace Command

/-- The names of the commands at one level, each with those below it. -/
inductive Names where
  | ofList (names : List (String × Names))

namespace Names

def none : Names := ofList []

def isEmpty : Names → Bool
  | ofList names => names.isEmpty

/-- The names below one of the names. -/
def get? : Names → String → Option Names
  | ofList names, name => names.lookup name

/-- Whether words lead to a command. Where there are commands, the one that explains them is there too, and
it has none below it. -/
def isPath : Names → List String → Bool
  | _, [] => true
  | names, word :: rest =>
    match names.get? word with
    | some inner => inner.isPath rest
    | Option.none => !names.isEmpty && word == "help" && rest.isEmpty

end Names

/-- What one level of commands accepts. -/
structure Form where
  /-- The command's full name. -/
  name : String
  /-- Switches with a long name, some of them with a letter. -/
  switches : List (String × Option Char)
  /-- Options with the values that they accept. -/
  options : List (String × (String → Bool))
  /-- How many other arguments there are, all of them needed. -/
  operands : Nat
  /-- The commands below this one. -/
  commands : Names

/-- Why arguments are not a command to carry out. -/
inductive Stop where
  | usage
  | version (name : String)
  | help (name : String)
deriving DecidableEq, Repr

/-- What was found at one level. -/
structure Given where
  switches : List String := []
  options : List (String × String) := []
  operands : List String := []
deriving DecidableEq, Repr, Inhabited

namespace Given

/-- Adds a switch, which may be given once. -/
def addSwitch (given : Given) (name : String) : Except Stop Given :=
  if given.switches.contains name then .error .usage
  else .ok { given with switches := name :: given.switches }

/-- Adds the value of an option, which may be given once. -/
def addOption (given : Given) (form : Form) (name value : String) : Except Stop Given :=
  if (given.options.lookup name).isSome then .error .usage
  else if (form.options.lookup name).any (· value) then
    .ok { given with options := (name, value) :: given.options }
  else .error .usage

def addOperand (given : Given) (form : Form) (value : String) : Except Stop Given :=
  if given.operands.length < form.operands then
    .ok { given with operands := given.operands ++ [value] }
  else .error .usage

/-- Adds what a long name without a value of its own stands for. -/
def addLong (given : Given) (form : Form) (name : String) : Except Stop Given :=
  if name = "version" then .error (.version form.name)
  else if name = "help" then .error (.help form.name)
  else if (form.switches.lookup name).isSome then given.addSwitch name
  else .error .usage

/-- Adds the switches that letters stand for. -/
def addLetters (form : Form) : (given : Given) → List Char → Except Stop Given
  | given, [] => .ok given
  | given, c :: rest =>
    if c = 'V' then .error (.version form.name)
    else if c = 'h' then .error (.help form.name)
    else
      match form.switches.find? (·.2 == some c) with
      | some (name, _) => do addLetters form (← given.addSwitch name) rest
      | none => .error .usage

/-- Whether an argument looks like a switch or an option. -/
def isDashed (arg : String) : Bool :=
  arg.toList.head? == some '-' && arg != "-"

/-- The name and the value of a long argument, without its two dashes. -/
def splitLong (cs : List Char) : String × Option String :=
  match cs.dropWhile (· ≠ '=') with
  | [] => (String.ofList cs, none)
  | _ :: value => (String.ofList (cs.takeWhile (· ≠ '=')), some (String.ofList value))

/-- Reads the arguments of a level, up to the name of a command below it. Behind two dashes there are only
operands. -/
def scan (form : Form) : Given → List String → Except Stop (Given × Option (String × List String))
  | given, [] => .ok (given, none)
  | given, arg :: rest =>
    match arg.toList with
    | ['-', '-'] => do
      let given ← rest.foldlM (fun given value => given.addOperand form value) given
      return (given, none)
    | '-' :: '-' :: long =>
      match splitLong long with
      | (name, some value) => do scan form (← given.addOption form name value) rest
      | (name, none) =>
        if (form.options.lookup name).isSome then
          match rest with
          | value :: rest =>
            if isDashed value then .error .usage
            else do scan form (← given.addOption form name value) rest
          | [] => .error .usage
        else do
          scan form (← given.addLong form name) rest
    | '-' :: letter :: letters => do scan form (← addLetters form given (letter :: letters)) rest
    | _ =>
      if (form.commands.get? arg).isSome then .ok (given, some (arg, rest))
      else if !form.commands.isEmpty && arg == "help" then
        .error (if form.commands.isPath rest then .help form.name else .usage)
      else do scan form (← given.addOperand form arg) rest

end Given

/-- Reads the arguments of a level that has no commands below it. -/
def scanLast (form : Form) (args : List String) : Except Stop Given := do
  let (given, _) ← Given.scan form {} args
  if given.operands.length = form.operands then return given else .error .usage

/-- Reads the arguments of a level that needs a command below it. -/
def scanUpper (form : Form) (args : List String) : Except Stop (Given × String × List String) := do
  match ← Given.scan form {} args with
  | (given, some (name, rest)) => return (given, name, rest)
  | (_, none) => .error .usage

inductive Scope where
  | file
  | solution
deriving DecidableEq, Repr

inductive SettingsCommand where
  | init (level : Level) (force : Bool)
  | view (level : Level)
  | path (level : Level)
deriving DecidableEq, Repr

end Command

inductive Command where
  | references (location : String) (scope : Command.Scope)
  | rename (location newName : String) (isTrial : Bool)
  | status (isDetailed : Bool)
  | settings (command : Command.SettingsCommand)
deriving DecidableEq, Repr

/-- A command with the manifest that it is about. -/
structure Invocation where
  manifest : Path
  command : Command
deriving DecidableEq, Repr

namespace Command

/-- The form of a level: its own parts and those that every level has. -/
def form (name : String) (switches : List (String × Option Char)) (options : List (String × (String → Bool)))
    (operands : Nat) (commands : Names) : Form where
  name
  switches := ("verbose", some 'v') :: switches
  options := ("solution", (· ≠ "")) :: options
  operands
  commands

def programName : String := "symscope"

def programVersion : String := "0.3.0"

/-- The commands about settings. -/
def settingsNames : Names :=
  .ofList [("init", .none), ("show", .none), ("path", .none)]

def topNames : Names :=
  .ofList [("refs", .none), ("rename", .none), ("status", .none), ("config", settingsNames)]

def topForm : Form :=
  form programName [] [] 0 topNames

def referencesForm : Form :=
  form (programName ++ "-refs") [] [("scope", fun value => value == "file" || value == "solution")] 1 .none

def renameForm : Form :=
  form (programName ++ "-rename") [("dry-run", none)] [] 2 .none

def statusForm : Form :=
  form (programName ++ "-status") [("detailed", none)] [] 0 .none

def settingsForm : Form :=
  form (programName ++ "-config") [] [] 0 settingsNames

def initForm : Form :=
  form (programName ++ "-config-init") [("global", none), ("force", some 'f')] [] 0 .none

def levelForm (name : String) : Form :=
  form (programName ++ "-config-" ++ name) [("global", none)] [] 0 .none

private def levelOf (given : Given) : Level :=
  if given.switches.contains "global" then .everywhere else .solution

/-- Reads the commands about settings. -/
def parseSettings (args : List String) : Except Stop (SettingsCommand × List Given) := do
  let (upper, name, rest) ← scanUpper settingsForm args
  if name = "init" then
    let given ← scanLast initForm rest
    return (.init (levelOf given) (given.switches.contains "force"), [upper, given])
  else
    let given ← scanLast (levelForm name) rest
    let command : SettingsCommand := if name = "show" then .view (levelOf given) else .path (levelOf given)
    return (command, [upper, given])

/-- Reads a command, and what was found at the levels below the first. -/
def parseCommand (name : String) (args : List String) : Except Stop (Command × List Given) :=
  if name = "refs" then do
    let given ← scanLast referencesForm args
    let scope : Scope := if given.options.lookup "scope" = some "file" then .file else .solution
    return (.references (given.operands.getD 0 "") scope, [given])
  else if name = "rename" then do
    let given ← scanLast renameForm args
    let isTrial := given.switches.contains "dry-run"
    return (.rename (given.operands.getD 0 "") (given.operands.getD 1 "") isTrial, [given])
  else if name = "status" then do
    let given ← scanLast statusForm args
    return (.status (given.switches.contains "detailed"), [given])
  else do
    let (command, levels) ← parseSettings args
    return (.settings command, levels)

/-- The manifest that is meant: the one named at the lowest level, else the one that the variables name. A
variable without a value is refused where a level falls back on it. -/
def manifestOf (vars : Variables) (levels : List Given) : Except Stop Path :=
  let named := levels.map (·.options.lookup "solution")
  let fallback := vars "SYMSCOPE_SOLUTION"
  if fallback = some "" ∧ named.contains none then .error .usage
  else .ok (.ofText (((named.reverse.findSome? id).orElse fun _ => fallback).getD "symscope.toml"))

/-- Reads the arguments of the program. -/
def parse (vars : Variables) (args : List String) : Except Stop Invocation := do
  let (top, name, rest) ← scanUpper topForm args
  let (command, levels) ← parseCommand name rest
  let manifest ← manifestOf vars (top :: levels)
  return ⟨manifest, command⟩

end Command

end CrossRef
