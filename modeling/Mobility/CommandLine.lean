/-!
# Command lines

A command line names a settings file, and may give a number of partitions. Options are long, with
the value behind an equals sign or in the next argument, or short, with the value in the same or
the next argument. The value of an option is looked at when the next option is found or the line is
over, but an argument that is no option and no value is refused at once.
-/

set_option autoImplicit false

namespace Mobility

/-- What a command line says. -/
structure CommandLine where
  configPath : String
  numParts : Option Nat
deriving DecidableEq

/-- Why a command line isn't run. -/
inductive UsageError where
  | helpWanted
  | versionWanted
  | unknownArgument
  /-- An option has no value. -/
  | missingValue
  /-- An option without a value has one. -/
  | unexpectedValue
  | notANumber
  | repeated
  | missingConfigPath
deriving DecidableEq

/-- What is said instead of running a command line. -/
def UsageError.message : UsageError → String
  | helpWanted =>
    "Usage: mobility --config-path <CONFIG_PATH> [--num-parts <NUM_PARTS>]\n\n" ++
      "Options:\n" ++
      "  -c, --config-path <CONFIG_PATH>\n" ++
      "  -n, --num-parts <NUM_PARTS>\n" ++
      "  -h, --help                       Print help\n" ++
      "  -V, --version                    Print version"
  | versionWanted => "mobility 0.1.0"
  | unknownArgument => "error: unexpected argument found"
  | missingValue => "error: a value is required, but none was supplied"
  | unexpectedValue => "error: unexpected value found"
  | notANumber => "error: invalid value for '--num-parts <NUM_PARTS>'"
  | repeated => "error: an argument cannot be used multiple times"
  | missingConfigPath => "error: required argument '--config-path <CONFIG_PATH>' was not provided"

namespace CommandLine

/-- The options with a value. -/
inductive Setting where
  | configPath
  | numParts
deriving DecidableEq

/-- All options. -/
inductive Choice where
  | setting (which : Setting)
  | help
  | version
deriving DecidableEq

/-- The option with this long name. -/
def longOption (name : String) : Option Choice :=
  match name with
  | "config-path" => some (.setting .configPath)
  | "num-parts" => some (.setting .numParts)
  | "help" => some .help
  | "version" => some .version
  | _ => none

/-- The option with this letter. -/
def shortOption (letter : Char) : Option Choice :=
  match letter with
  | 'c' => some (.setting .configPath)
  | 'n' => some (.setting .numParts)
  | 'h' => some .help
  | 'V' => some .version
  | _ => none

/-- What was read of a command line. -/
structure State where
  configPath : Option String
  numParts : Option Nat
  /-- The last option and its value, which weren't looked at yet. -/
  pending : Option (Setting × Option String)

/-- The number that is written, if it is one of 32 bits. Signs are allowed. -/
def number? (text : String) : Option Nat :=
  let magnitude (digits : List Char) : Option Nat :=
    if digits.isEmpty || !digits.all Char.isDigit then none
    else some (digits.foldl (fun n d => n * 10 + (d.toNat - '0'.toNat)) 0)
  let value := match text.toList with
    | '+' :: digits => magnitude digits
    | '-' :: digits => (magnitude digits).filter (· = 0)
    | digits => magnitude digits
  value.filter (· < 0x100000000)

/-- Takes the value of an option. -/
def assign (s : State) (setting : Setting) (value : String) : Except UsageError State :=
  match setting with
  | .configPath =>
    if s.configPath.isSome then .error .repeated else .ok { s with configPath := some value }
  | .numParts =>
    if s.numParts.isSome then .error .repeated
    else
      match number? value with
      | some n => .ok { s with numParts := some n }
      | none => .error .notANumber

/-- Looks at the last option. -/
def settle (s : State) : Except UsageError State :=
  match s.pending with
  | none => .ok s
  | some (_, none) => .error .missingValue
  | some (setting, some value) => assign { s with pending := none } setting value

/-- Takes an option, with its value if it is in the same argument. -/
def take (s : State) (choice : Choice) (value : Option String) : Except UsageError State := do
  let s ← settle s
  match choice, value with
  | .help, _ => throw .helpWanted
  | .version, _ => throw .versionWanted
  | .setting setting, some value => assign s setting value
  | .setting setting, none => return { s with pending := some (setting, none) }

/-- Takes a long option: what follows two dashes. -/
def takeLong (s : State) (text : List Char) : Except UsageError State :=
  let name := String.ofList (text.takeWhile (· ≠ '='))
  let value := match text.dropWhile (· ≠ '=') with
    | [] => none
    | _ :: value => some (String.ofList value)
  match longOption name, value with
  | none, _ => .error .unknownArgument
  | some (.setting setting), value => take s (.setting setting) value
  | some _, some _ => .error .unexpectedValue
  | some choice, none => take s choice none

/-- Takes short options: what follows one dash. -/
def takeShort (s : State) : List Char → Except UsageError State
  | [] => .ok s
  | letter :: rest =>
    match shortOption letter with
    | none => .error .unknownArgument
    | some (.setting setting) =>
      match rest with
      | [] => take s (.setting setting) none
      | '=' :: value => take s (.setting setting) (some (String.ofList value))
      | value => take s (.setting setting) (some (String.ofList value))
    | some choice => do takeShort (← take s choice none) rest

/-- Takes one argument. -/
def takeArgument (s : State) (argument : String) : Except UsageError State :=
  match argument.toList with
  | '-' :: '-' :: text => takeLong s text
  | '-' :: letter :: rest => takeShort s (letter :: rest)
  | _ =>
    match s.pending with
    | some (setting, none) => .ok { s with pending := some (setting, some argument) }
    | _ => .error .unknownArgument

/-- Takes all arguments. Nothing may follow two dashes on their own. -/
def takeAll (s : State) : List String → Except UsageError State
  | [] => .ok s
  | argument :: rest =>
    if argument = "--" then if rest.isEmpty then .ok s else .error .unknownArgument
    else do takeAll (← takeArgument s argument) rest

/-- Reads a command line. -/
def parse (arguments : List String) : Except UsageError CommandLine := do
  let s ← settle (← takeAll ⟨none, none, none⟩ arguments)
  match s.configPath with
  | some configPath => return ⟨configPath, s.numParts⟩
  | none => throw .missingConfigPath

end CommandLine

end Mobility
