import UtilityCss.Path

/-!
# Arguments of the command line

The arguments name a subcommand and options. Options that concern every subcommand may stand before
or after its name, and one after it counts more; the others belong to their subcommand. A value
follows its option, or is attached to it (`--root=site`, `-rsite`, `-r=site`); short options can
share a dash (`-mfjson`). No option but `-v` may be given twice in the same place.

Arguments are read from left to right, and the first thing that ends the reading decides: a question
for help or for the version, or a mistake.
-/

namespace UtilityCss.CommandLine

/-! ### Subcommands and options -/

/-- Where in the arguments an option stands. -/
inductive Level where
  /-- Before the subcommand. -/
  | top
  /-- After the subcommand that makes a configuration file. -/
  | init
  /-- After the subcommand that builds a project. -/
  | build
  /-- After the subcommand that builds a project whenever it changes. -/
  | watch
deriving DecidableEq, Repr

/-- The subcommand with a name. -/
def Level.ofName? : String → Option Level
  | "init" => some init
  | "build" => some build
  | "watch" => some watch
  | "dev" => some watch
  | _ => none

/-- The name of the subcommand that explains the others. -/
def helpName : String := "help"

/-- The options. -/
inductive Switch where
  /-- The configuration file. -/
  | config
  /-- The root of the project. -/
  | root
  /-- More messages about what is done. -/
  | verbose
  /-- A question for help. -/
  | help
  /-- A question for the version. -/
  | version
  /-- Minify both outputs. -/
  | minify
  /-- Leave the header comment out. -/
  | noComments
  /-- Show detailed figures. -/
  | stats
  /-- The form of the figures. -/
  | format
deriving DecidableEq, Repr

namespace Switch

/-- All options. -/
def all : List Switch :=
  [config, root, verbose, help, version, minify, noComments, stats, format]

/-- The long name of an option. -/
def long : Switch → String
  | config => "config"
  | root => "root"
  | verbose => "verbose"
  | help => "help"
  | version => "version"
  | minify => "minify"
  | noComments => "no-comments"
  | stats => "stats"
  | format => "format"

/-- The letter of an option. -/
def short? : Switch → Option Char
  | config => some 'c'
  | root => some 'r'
  | verbose => some 'v'
  | help => some 'h'
  | version => some 'V'
  | minify => some 'm'
  | noComments => none
  | stats => none
  | format => some 'f'

/-- Whether an option has a value. -/
def takesValue : Switch → Bool
  | config | root | format => true
  | _ => false

/-- Whether an option may stand at a level. -/
def isAllowed (level : Level) : Switch → Bool
  | config | root | verbose | help => true
  | version => level = .top
  | minify | noComments => level = .build || level = .watch
  | stats | format => level = .build

/-- The option with a long name. -/
def ofLong? (level : Level) (name : String) : Option Switch :=
  all.find? fun s => s.isAllowed level && s.long = name

/-- The option with a letter. -/
def ofShort? (level : Level) (letter : Char) : Option Switch :=
  all.find? fun s => s.isAllowed level && s.short? = some letter

end Switch

/-! ### What is asked for -/

/-- The form in which figures are shown. -/
inductive StatsFormat where
  /-- Lines for people. -/
  | text
  /-- An object for programs. -/
  | json
deriving DecidableEq, Repr

/-- The form with a name. -/
def StatsFormat.ofName? : String → Option StatsFormat
  | "text" => some text
  | "json" => some json
  | _ => none

/-- What is to be done. -/
inductive Command where
  /-- Nothing, as there is no subcommand. -/
  | nothing
  /-- Make a configuration file. -/
  | init
  /-- Build the project. -/
  | build (minify noComments stats : Bool) (format : StatsFormat)
  /-- Build the project whenever it changes. -/
  | watch (minify noComments : Bool)
deriving DecidableEq, Repr

/-- What the arguments ask for. -/
structure Invocation where
  /-- The configuration file, if one is named. -/
  configPath : Option Path
  /-- The root of the project. -/
  root : Path
  /-- What is to be done. -/
  command : Command
deriving DecidableEq, Repr

/-- What help can be about. -/
inductive Topic where
  /-- The command as a whole, or a subcommand. -/
  | level (level : Level)
  /-- The subcommand that explains the others. -/
  | help
deriving DecidableEq, Repr

/-- Why nothing is done. -/
inductive Refusal where
  /-- The version is asked for. -/
  | version
  /-- Help is asked for. -/
  | help (topic : Topic)
  /-- The arguments make no sense. -/
  | usage
deriving DecidableEq, Repr

/-! ### Reading -/

/-- The options given at a level, with their values. -/
abbrev Given := List (Switch × String)

/-- Whether a value is one that an option can have. -/
def isValidValue (s : Switch) (value : String) : Bool :=
  s != .format || (StatsFormat.ofName? value).isSome

/-- Note an option with its value. -/
def Given.add (level : Level) (given : Given) (s : Switch) (value : String) :
    Except Refusal Given :=
  match s with
  | .help => .error (.help (.level level))
  | .version => .error .version
  | .verbose => .ok given
  | _ =>
    if (given.lookup s).isSome || !isValidValue s value then .error .usage
    else .ok ((s, value) :: given)

/-- Read the letters after a dash: the options given then, and the one that still waits for its
value. -/
def readLetters (level : Level) : Given → List Char → Except Refusal (Given × Option Switch)
  | given, [] => .ok (given, none)
  | given, letter :: rest =>
    match Switch.ofShort? level letter with
    | none => .error .usage
    | some s =>
      if s.takesValue then
        match rest with
        | [] => .ok (given, some s)
        | '=' :: value => do return (← given.add level s (String.ofList value), none)
        | value => do return (← given.add level s (String.ofList value), none)
      else do readLetters level (← given.add level s "") rest

/-- Read what follows two dashes. -/
def readLong (level : Level) (given : Given) (argument : List Char) :
    Except Refusal (Given × Option Switch) :=
  let name := argument.takeWhile (· != '=')
  match Switch.ofLong? level (String.ofList name), argument.drop name.length with
  | none, _ => .error .usage
  | some s, [] =>
    if s.takesValue then .ok (given, some s) else do return (← given.add level s "", none)
  | some s, _ :: value =>
    if s.takesValue then do return (← given.add level s (String.ofList value), none)
    else .error .usage

/-- Read an argument that is no subcommand. -/
def readOption (level : Level) (given : Given) (argument : String) :
    Except Refusal (Given × Option Switch) :=
  match argument.toList with
  | '-' :: '-' :: rest => readLong level given rest
  | '-' :: letter :: rest => readLetters level given (letter :: rest)
  | _ => .error .usage

/-- Whether an argument is taken for an option wherever it stands. -/
def looksLikeOption (argument : String) : Bool :=
  match argument.toList with
  | '-' :: _ :: _ => true
  | _ => false

/-- The options read at a level. One whose value was an argument of its own is noted only when the
next one comes, or at the end, so a mistake in it may be passed over for a question for help. -/
structure Collected where
  /-- The options that are noted. -/
  given : Given
  /-- The option that is still to be noted. -/
  last : Option (Switch × String)

namespace Collected

/-- No options. -/
def none : Collected := ⟨[], .none⟩

/-- Note the last option. -/
def settle (level : Level) (c : Collected) : Except Refusal Given :=
  match c.last with
  | .none => .ok c.given
  | some (s, value) => c.given.add level s value

end Collected

/-- What has been read: the level, the options before the subcommand, and those at the level. -/
structure Progress where
  /-- The level. -/
  level : Level
  /-- The options before the subcommand. -/
  earlier : Collected
  /-- The options at the level. -/
  current : Collected

/-- What a question about subcommands comes to. -/
def helpAbout : List String → Refusal
  | [] => .help (.level .top)
  | [name] =>
    match Level.ofName? name with
    | some level => .help (.level level)
    | none => if name = helpName then .help .help else .usage
  | _ => .usage

/-- Read arguments one after another. -/
def readAll : Progress → List String → Except Refusal Progress
  | p, [] => .ok p
  | p, argument :: rest =>
    match p.level, Level.ofName? argument with
    -- What was given so far stands before the subcommand.
    | .top, some level => readAll ⟨level, p.current, .none⟩ rest
    | _, _ =>
      if p.level = .top && argument = helpName then .error (helpAbout rest)
      else if argument = "--" then if rest.isEmpty then .ok p else .error .usage
      else
        match p.current.settle p.level with
        | .error e => .error e
        | .ok given =>
          match readOption p.level given argument, rest with
          | .error e, _ => .error e
          | .ok (given, none), rest => readAll { p with current := ⟨given, none⟩ } rest
          | .ok (_, some _), [] => .error .usage
          -- An option that waits for its value takes the next argument, even a subcommand's name.
          | .ok (given, some s), value :: rest =>
            if looksLikeOption value then .error .usage
            else readAll { p with current := ⟨given, some (s, value)⟩ } rest

/-- What is to be done at a level with given options. -/
def commandOf (level : Level) (given : Given) : Command :=
  let has (s : Switch) : Bool := (given.lookup s).isSome
  match level with
  | .top => .nothing
  | .init => .init
  | .build =>
    .build (has .minify) (has .noComments) (has .stats)
      (((given.lookup .format).bind StatsFormat.ofName?).getD .text)
  | .watch => .watch (has .minify) (has .noComments)

/-- What is asked for, by the options before the subcommand and those at the level. -/
def invocationOf (level : Level) (earlier given : Given) : Invocation :=
  let value? (s : Switch) : Option String := (given.lookup s).or (earlier.lookup s)
  { configPath := (value? .config).map Path.mk
    root := ⟨(value? .root).getD "."⟩
    command := commandOf level given }

/-- **What the arguments ask for.** -/
def readArguments (arguments : List String) : Except Refusal Invocation := do
  let p ← readAll ⟨.top, .none, .none⟩ arguments
  let given ← p.current.settle p.level
  return invocationOf p.level (← p.earlier.settle .top) given

end UtilityCss.CommandLine
