import Algol68.Compiler
import Algol68.Tree.Json

/- The command line: its arguments, and what a run does. -/

------ Settings

namespace Algol68

/- Why a command line asks for no run. -/
inductive UsageError
  | displayHelp
  | displayVersion
  | unknownArgument
  | invalidValue
  | valueValidation
  | argumentConflict
  | tooManyValues
deriving DecidableEq, Repr

/- What a command line asks for. -/
structure Settings where
  level : Option Nat := none
  checked : Bool := false
  /- The file the source goes to. -/
  output : Option String := none
  /- The file the marked tree goes to. -/
  annotated : Option String := none
  verbosity : Nat := 0
  /- The file the tree comes from. -/
  tree : Option String := none
deriving DecidableEq, Repr

def Settings.options (settings : Settings) : Options :=
  (Options.ofLevel (settings.level.getD Tier.clauses)).withChecked settings.checked

------ Arguments

namespace CommandLine

/- An argument that takes a value. -/
inductive Valued
  | level
  | output
  | annotated
  | tree
deriving DecidableEq, Repr

/- An argument that takes none. -/
inductive Flag
  | checked
  | verbose
  | help
  | version
deriving DecidableEq, Repr

inductive Named
  | valued (argument : Valued)
  | flag (argument : Flag)
deriving DecidableEq, Repr

def longName? : List Char → Option Named
  | name =>
    if name = "opt-level".toList then some (.valued .level)
    else if name = "output".toList then some (.valued .output)
    else if name = "annotated".toList then some (.valued .annotated)
    else if name = "checked".toList then some (.flag .checked)
    else if name = "verbose".toList then some (.flag .verbose)
    else if name = "help".toList then some (.flag .help)
    else if name = "version".toList then some (.flag .version)
    else none

def shortName? : Char → Option Named
  | 'O' => some (.valued .level)
  | 'o' => some (.valued .output)
  | 'v' => some (.flag .verbose)
  | 'h' => some (.flag .help)
  | 'V' => some (.flag .version)
  | _ => none

/-
  Where the reading of arguments stands. The pending argument is settled when the next one comes,
  and one without a value is still waiting for it.
-/
structure State where
  settings : Settings := {}
  pending : Option (Valued × Option String) := none
  /- Only plain values follow. -/
  trailing : Bool := false
  /- The file of the tree has been named. -/
  treeNamed : Bool := false

/- A step of the reading. -/
abbrev Parse (α : Type) := Except UsageError α

------ Values

def levelOf (text : String) : Parse Nat :=
  match Decimal.signed? text.toList with
  | some n => if 0 ≤ n ∧ n ≤ 9 then .ok n.toNat else .error .valueValidation
  | none => .error .valueValidation

def fileOf (text : String) : Parse String := if text.isEmpty then .error .invalidValue else .ok text

variable (settings : Settings)

def isSet : Valued → Bool
  | .level => settings.level.isSome
  | .output => settings.output.isSome
  | .annotated => settings.annotated.isSome
  | .tree => settings.tree.isSome

def assign (argument : Valued) (text : String) : Parse Settings := do
  match argument with
  | .level => pure { settings with level := some (← levelOf text) }
  | .output => pure { settings with output := some (← fileOf text) }
  | .annotated => pure { settings with annotated := some (← fileOf text) }
  | .tree => pure { settings with tree := some (← fileOf text) }

/- Settle an argument: it needs a value, must not have had one before, and the value must fit. -/
def settle (argument : Valued) (value : Option String) : Parse Settings :=
  match value with
  | none => .error .invalidValue
  | some text =>
    if isSet settings argument then .error .argumentConflict else assign settings argument text

variable (state : State)

def settlePending : Parse State := do
  match state.pending with
  | none => pure state
  | some (argument, value) => do
    let settings ← settle state.settings argument value
    pure { state with settings := settings, pending := none }

def attach (argument : Valued) (value : String) : Parse State := do
  let state ← settlePending state
  let settings ← settle state.settings argument (some value)
  pure { state with settings := settings }

def await (argument : Valued) : Parse State := do
  let state ← settlePending state
  pure { state with pending := some (argument, none) }

def raise (flag : Flag) : Parse State := do
  let state ← settlePending state
  let settings := state.settings
  match flag with
  | .help => throw .displayHelp
  | .version => throw .displayVersion
  | .verbose =>
    pure
      { state with
        settings :=
          { settings with
            verbosity := min (settings.verbosity + 1) 255 } }
  | .checked =>
    if settings.checked then throw .argumentConflict
    else pure { state with settings := { settings with checked := true } }

------ Reading

/- A long name, with a value behind an equals sign. -/
def readLong (chars : List Char) : Parse State :=
  let (name, rest) := chars.span (· != '=')
  match longName? name, rest with
  | some (.valued argument), _ :: value => attach state argument (String.ofList value)
  | some (.valued argument), [] => await state argument
  | some (.flag _), _ :: _ => throw .tooManyValues
  | some (.flag flag), [] => raise state flag
  | none, _ => throw .unknownArgument

def shortValue : List Char → List Char
  | '=' :: value => value
  | value => value

def readShort : State → List Char → Parse State
  | state, [] => pure state
  | state, name :: rest => do
    match shortName? name with
    | some (.flag flag) => readShort (← raise state flag) rest
    | some (.valued argument) =>
      if rest.isEmpty then await state argument
      else attach state argument (String.ofList (shortValue rest))
    | none => throw .unknownArgument

def readPlain (text : String) : Parse State := do
  match state.trailing, state.pending with
  | false, some (argument, none) => pure { state with pending := some (argument, some text) }
  | _, _ => do
    if state.treeNamed then throw .unknownArgument
    let state ← settlePending state
    pure
      { state with
        pending := some (.tree, some text)
        treeNamed := true }

def readArgument (text : String) : Parse State :=
  if state.trailing then readPlain state text
  else
    match text.toList with
    | ['-', '-'] => pure { state with trailing := true }
    | '-' :: '-' :: chars => readLong state chars
    | '-' :: c :: chars => readShort state (c :: chars)
    | _ => readPlain state text

def parse (arguments : List String) : Parse Settings := do
  let state ← arguments.foldlM readArgument {}
  let state ← settlePending state
  pure state.settings

end CommandLine

------ Runs

/- How a run ends. -/
inductive Ending
  | done
  | failed (message : String)
  | faulted (fault : Fault)
deriving DecidableEq, Repr

/-
  What a run leaves: the text of the source file, if it was
  created, the text of the marked tree, and the reports.
-/
structure Outcome where
  source : Option String := none
  annotated : Option String := none
  reports : List Report := []
  functionCount : Nat := 0
  ending : Ending

namespace Settings

/- The run on a tree, after the source file was created. -/
def compileTree (settings : Settings) (tree : SyntaxTree) : Outcome :=
  match tree.compile settings.options with
  | .error fault => { source := some "", ending := .faulted fault }
  | .ok (.error cause) => { source := some "", ending := .failed cause.message }
  | .ok (.ok (compiled, marked)) =>
    let source := some compiled.text
    match compiled.diagnostics.mapM fun diagnostic => Report.ofCause marked diagnostic.cause with
    | .error fault => { source, ending := .faulted fault }
    | .ok reports =>
      { source
        annotated := some marked.write
        reports
        functionCount := compiled.compiled.length
        ending := .done }

/- The run on the text of a tree, which is absent if the file could not be read. -/
def outcome (settings : Settings) (text : Option String) : Outcome :=
  match text with
  | none => { ending := .failed ("Failed to read " ++ settings.tree.getD "") }
  | some text =>
    match SyntaxTree.read? text with
    | none => { ending := .failed "Input is not a serialized syntax tree" }
    | some tree => settings.compileTree tree

end Settings

end Algol68
