set_option autoImplicit false

/-! # Arguments

The command line is read from left to right: options of the program, the name of a command, then
the options of the command and the file it works on. Options that are not bound to a command may
stand on either side of its name. The first argument that does not fit ends the reading, and so does
a question about the program itself. -/

namespace Espalier

/-- The commands. -/
inductive CommandName where
  | print
  | inspect
  | transform
deriving DecidableEq, Repr

/-- The command of a name. -/
def CommandName.ofName? : String → Option CommandName
  | "print" => some .print
  | "inspect" => some .inspect
  | "transform" => some .transform
  | _ => none

/-- An option that is there or not. -/
inductive Switch where
  | verbose
  | lazyScopes
  | json
  | help
  | version
deriving DecidableEq, Repr

/-- An option with a value. -/
inductive Setting where
  | maxDepth
  | rule
deriving DecidableEq, Repr

/-- An option of the command line. -/
inductive CommandOption where
  | switch (s : Switch)
  | setting (s : Setting)
deriving DecidableEq, Repr

namespace CommandOption

/-- The option with a long name. -/
def ofLong? : String → Option CommandOption
  | "verbose" => some (.switch .verbose)
  | "noscope" => some (.switch .lazyScopes)
  | "json" => some (.switch .json)
  | "help" => some (.switch .help)
  | "version" => some (.switch .version)
  | "max-depth" => some (.setting .maxDepth)
  | "rule" => some (.setting .rule)
  | _ => none

/-- The option with a name of one letter. -/
def ofShort? : Char → Option CommandOption
  | 'v' => some (.switch .verbose)
  | 'h' => some (.switch .help)
  | 'V' => some (.switch .version)
  | 'r' => some (.setting .rule)
  | _ => none

/-- Is the option known to the given command, or, without one, to the program? -/
def isKnownTo (command : Option CommandName) : CommandOption → Bool
  | .switch .verbose | .switch .lazyScopes | .switch .help | .setting .maxDepth => true
  | .switch .version => command.isNone
  | .switch .json => command == some .inspect || command == some .transform
  | .setting .rule => command == some .transform

end CommandOption

/-- Why reading the command line ended without a request. -/
inductive Ending where
  | help
  | version
  | misuse
deriving DecidableEq, Repr

/-- What was given on one side of the name of the command. -/
structure Given where
  verbose : Bool := false
  lazyScopes : Bool := false
  json : Bool := false
  maxDepth : Option Nat := none
  rules : List String := []
  file : Option String := none
deriving DecidableEq, Repr

/-- The largest number that can be given. -/
def maxArgument : Nat := Nat.pow 2 64 - 1

/-- A number: decimal digits, with or without a plus sign. -/
def numberArgument? (text : String) : Option Nat :=
  let digits := match text.toList with
    | '+' :: cs => cs
    | cs => cs
  if digits.isEmpty || !digits.all Char.isDigit then none
  else
    let n := digits.foldl (fun n c => n * 10 + (c.toNat - 48)) 0
    if n ≤ maxArgument then some n else none

namespace Given

/-- Give a switch. No switch is given twice. -/
def give (g : Given) : Switch → Except Ending Given
  | .help => .error .help
  | .version => .error .version
  | .verbose => if g.verbose then .error .misuse else .ok { g with verbose := true }
  | .lazyScopes => if g.lazyScopes then .error .misuse else .ok { g with lazyScopes := true }
  | .json => if g.json then .error .misuse else .ok { g with json := true }

/-- Give a setting its value. Only rules can be given more than once. -/
def assign (g : Given) (value : String) : Setting → Except Ending Given
  | .rule => .ok { g with rules := g.rules ++ [value] }
  | .maxDepth =>
    match g.maxDepth, numberArgument? value with
    | none, some n => .ok { g with maxDepth := some n }
    | _, _ => .error .misuse

/-- Give the file. There is one, and its name is not empty. -/
def addFile (g : Given) (name : String) : Except Ending Given :=
  if g.file.isSome || name.isEmpty then .error .misuse else .ok { g with file := some name }

end Given

/-! ## Reading -/

/-- An argument that cannot be a value: it begins with a dash and is not the dash alone. -/
def looksLikeOption (argument : String) : Bool :=
  match argument.toList with
  | '-' :: _ :: _ => true
  | _ => false

/-- A long option without its dashes. Gives the setting that still needs its value. -/
def readLong (command : Option CommandName) (g : Given) (text : List Char) :
    Except Ending (Given × Option Setting) :=
  let name := String.ofList (text.takeWhile (· != '='))
  match CommandOption.ofLong? name, text.dropWhile (· != '=') with
  | none, _ => .error .misuse
  | some option, attached =>
    if !option.isKnownTo command then .error .misuse
    else
      match option, attached with
      | .switch s, [] => do .ok (← g.give s, none)
      | .switch _, _ :: _ => .error .misuse
      | .setting s, [] => .ok (g, some s)
      | .setting s, _ :: value => do .ok (← g.assign (String.ofList value) s, none)

/-- Options of one letter behind one dash. What follows the letter of a setting is its value. -/
def readLetters (command : Option CommandName) (g : Given) :
    List Char → Except Ending (Given × Option Setting)
  | [] => .ok (g, none)
  | c :: cs =>
    match CommandOption.ofShort? c with
    | none => .error .misuse
    | some option =>
      if !option.isKnownTo command then .error .misuse
      else
        match option with
        | .switch s => do readLetters command (← g.give s) cs
        | .setting s =>
          match cs with
          | [] => .ok (g, some s)
          | '=' :: value => do .ok (← g.assign (String.ofList value) s, none)
          | value => do .ok (← g.assign (String.ofList value) s, none)

/-- Read the arguments of a command. `awaiting` is the setting whose value comes next. -/
def readArguments (command : CommandName) :
    Given → Option Setting → List String → Except Ending Given
  | g, none, [] => .ok g
  | _, some _, [] => .error .misuse
  | g, some s, value :: rest =>
    if looksLikeOption value then .error .misuse
    else do readArguments command (← g.assign value s) none rest
  | g, none, argument :: rest =>
    match argument.toList with
    | ['-', '-'] => rest.foldlM Given.addFile g
    | '-' :: '-' :: text => do
      let (g, awaiting) ← readLong (some command) g text
      readArguments command g awaiting rest
    | '-' :: c :: cs => do
      let (g, awaiting) ← readLetters (some command) g (c :: cs)
      readArguments command g awaiting rest
    | _ => do readArguments command (← g.addFile argument) none rest

/-- What a command line asks for. -/
structure Request where
  command : CommandName
  file : String
  rules : List String
  json : Bool
  verbose : Bool
  lazyScopes : Bool
  maxDepth : Option Nat
deriving DecidableEq, Repr

/-- The request made by what stands before and behind the name of the command. What stands behind
it takes precedence. -/
def Request.ofGiven (command : CommandName) (before behind : Given) : Except Ending Request :=
  match behind.file with
  | none => .error .misuse
  | some file =>
    if command = .transform ∧ behind.rules = [] then .error .misuse
    else
      .ok
        { command
          file
          rules := behind.rules
          json := behind.json
          verbose := before.verbose || behind.verbose
          lazyScopes := before.lazyScopes || behind.lazyScopes
          maxDepth := behind.maxDepth.or before.maxDepth }

/-- The help about the program, or about the commands of the given names. -/
def readHelp : List String → Ending
  | [] | ["help"] => .help
  | [name] => if (CommandName.ofName? name).isSome then .help else .misuse
  | _ => .misuse

/-- Read what stands before the name of the command, then the command. -/
def readProgram : Given → Option Setting → List String → Except Ending Request
  | _, _, [] => .error .misuse
  | g, some s, value :: rest =>
    if looksLikeOption value then .error .misuse
    else do readProgram (← g.assign value s) none rest
  | g, none, argument :: rest =>
    match CommandName.ofName? argument with
    | some command => do
      let behind ← readArguments command {} none rest
      Request.ofGiven command g behind
    | none =>
      if argument = "help" then .error (readHelp rest)
      else
        match argument.toList with
        | ['-', '-'] => .error .misuse
        | '-' :: '-' :: text => do
          let (g, awaiting) ← readLong none g text
          readProgram g awaiting rest
        | '-' :: c :: cs => do
          let (g, awaiting) ← readLetters none g (c :: cs)
          readProgram g awaiting rest
        | _ => .error .misuse

/-- Read a command line. -/
def Request.ofArguments (arguments : List String) : Except Ending Request :=
  readProgram {} none arguments

end Espalier
