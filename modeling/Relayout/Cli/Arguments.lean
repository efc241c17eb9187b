import Relayout.Path.Basic

/-!
# Command lines

A command line names a subcommand, between switches and the words that are its paths. Switches are
read in order, so the first one that ends the program, or the first mistake, decides. No switch
may be given twice and no path may be empty. Arguments are texts, so none has a stray.
-/

namespace Relayout.Cli

inductive Request
  | transform (file root : Path) (dryRun json : Bool)
  | check (file root : Path)

structure Invocation where
  verbose : Bool
  request : Request

inductive Stop
  | misuse
  | version
  | help
  deriving DecidableEq

inductive Effect
  | flag
  /-- The switch is followed by a value. -/
  | value
  | stop (why : Stop)

structure Switch where
  long : Text
  short : Option Char
  effect : Effect

def verboseSwitch : Switch := ⟨"verbose".toList, some 'v', .flag⟩
def helpSwitch : Switch := ⟨"help".toList, some 'h', .stop .help⟩
def versionSwitch : Switch := ⟨"version".toList, some 'V', .stop .version⟩
def dryRunSwitch : Switch := ⟨"dry-run".toList, some 'd', .flag⟩
def jsonSwitch : Switch := ⟨"json".toList, none, .flag⟩
def rootSwitch : Switch := ⟨"root".toList, none, .value⟩

/-- What may be given: these switches and so many words. -/
structure Grammar where
  switches : List Switch
  words : Nat

def programGrammar : Grammar := ⟨[verboseSwitch, helpSwitch, versionSwitch], 0⟩
def transformGrammar : Grammar := ⟨[verboseSwitch, helpSwitch, dryRunSwitch, jsonSwitch], 2⟩
def checkGrammar : Grammar := ⟨[verboseSwitch, helpSwitch, rootSwitch], 1⟩

structure Given where
  flags : List Text
  values : List (Text × Text)
  words : List Text
  /-- The switch whose value comes next. -/
  awaiting : Option Text
  /-- Whether all that follows is words. -/
  wordsOnly : Bool

namespace Given

def none : Given := ⟨[], [], [], .none, false⟩

def hasFlag (g : Given) (s : Switch) : Bool := s.long ∈ g.flags

def value? (g : Given) (s : Switch) : Option Text := (g.values.find? (·.1 = s.long)).map (·.2)

def addWord (grammar : Grammar) (word : Text) (g : Given) : Except Stop Given :=
  if word = [] ∨ grammar.words ≤ g.words.length then .error .misuse
  else .ok { g with words := g.words ++ [word] }

def addValue (name value : Text) (g : Given) : Except Stop Given :=
  if value = [] ∨ g.values.any (·.1 = name) then .error .misuse
  else .ok { g with values := (name, value) :: g.values, awaiting := .none }

/-- A switch to which no value is attached. -/
def addSwitch (s : Switch) (g : Given) : Except Stop Given :=
  match s.effect with
  | .stop why => .error why
  | .value => .ok { g with awaiting := some s.long }
  | .flag =>
    if s.long ∈ g.flags then .error .misuse else .ok { g with flags := s.long :: g.flags }

/-- A switch by its long name, to which a value may be attached. -/
def addLong (grammar : Grammar) (body : Text) (g : Given) : Except Stop Given :=
  let (name, attached) :=
    match Text.cutAt '=' body with
    | some (name, value) => (name, some value)
    | .none => (body, .none)
  match grammar.switches.find? (·.long = name), attached with
  | .none, _ => .error .misuse
  | some s, .none => g.addSwitch s
  | some s, some value =>
    match s.effect with
    | .value => g.addValue s.long value
    | _ => .error .misuse

def addShort (grammar : Grammar) (c : Char) (g : Given) : Except Stop Given :=
  match grammar.switches.find? (·.short = some c) with
  | .none => .error .misuse
  | some s => g.addSwitch s

def addArgument (grammar : Grammar) (g : Given) (argument : Text) : Except Stop Given :=
  if g.wordsOnly then g.addWord grammar argument
  else
    match g.awaiting, argument with
    | some name, ['-'] => g.addValue name ['-']
    | some _, '-' :: _ => .error .misuse
    | some name, value => g.addValue name value
    | .none, ['-', '-'] => .ok { g with wordsOnly := true }
    | .none, '-' :: '-' :: body => g.addLong grammar body
    | .none, '-' :: c :: cs => (c :: cs).foldlM (fun g c => g.addShort grammar c) g
    | .none, word => g.addWord grammar word

end Given

def readGiven (grammar : Grammar) (arguments : List Text) : Except Stop Given := do
  let g ← arguments.foldlM (Given.addArgument grammar) .none
  if g.awaiting.isSome then throw .misuse
  return g

def readTransform (verbose : Bool) (arguments : List Text) : Except Stop Invocation := do
  let g ← readGiven transformGrammar arguments
  match g.words with
  | [file, root] =>
    return ⟨verbose || g.hasFlag verboseSwitch,
      .transform (.ofText file) (.ofText root) (g.hasFlag dryRunSwitch) (g.hasFlag jsonSwitch)⟩
  | _ => throw .misuse

def readCheck (verbose : Bool) (arguments : List Text) : Except Stop Invocation := do
  let g ← readGiven checkGrammar arguments
  match g.words with
  | [file] =>
    return ⟨verbose || g.hasFlag verboseSwitch,
      .check (.ofText file) (.ofText ((g.value? rootSwitch).getD ['/']))⟩
  | _ => throw .misuse

/-- What comes of asking for help by name: of the program or of one of its subcommands. -/
def helpOn : List Text → Stop
  | [] => .help
  | [name] => if ["transform", "check", "help"].any (·.toList = name) then .help else .misuse
  | _ => .misuse

def readFrom (g : Given) : List Text → Except Stop Invocation
  | [] => .error .misuse
  | argument :: rest =>
    if ¬ g.wordsOnly ∧ argument = "transform".toList then
      readTransform (g.hasFlag verboseSwitch) rest
    else if ¬ g.wordsOnly ∧ argument = "check".toList then
      readCheck (g.hasFlag verboseSwitch) rest
    else if ¬ g.wordsOnly ∧ argument = "help".toList then .error (helpOn rest)
    else do readFrom (← g.addArgument programGrammar argument) rest

def readArguments (arguments : List Text) : Except Stop Invocation := readFrom .none arguments

end Relayout.Cli
