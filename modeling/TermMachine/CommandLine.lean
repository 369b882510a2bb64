import TermMachine.Execution
import TermMachine.Reader
import TermMachine.Text.Trim

/-!
# The command line

The arguments name a term, given inline, in a file or on standard input, the inputs for it and the
settings of the machine:

    [FILE] [-e|--eval TERM] [-i|--input TERM]... [--step-limit N] [--unbounded] [--seed N]
    [--no-stall-detection] [--list-operators]

An option takes its value from the next argument or after an equals sign, a short one also
directly. A value that begins with a hyphen can only stand after an equals sign. After `--` all
arguments are file names. Each option but `--input` may be given once.

`Options.ofArguments` reads the arguments, and `Options.respond` says what the program prints and
with which code it exits. Reading files and printing are left to the caller.
-/

namespace TermMachine.CommandLine

inductive Source where
  | inline (text : String)
  | file (path : String)
  | standardInput
  deriving DecidableEq, Repr

structure Options where
  file : Option String := none
  eval : Option String := none
  inputs : List String := []
  stepLimit : Option Nat := none
  unbounded : Bool := false
  seed : Option UInt64 := none
  noStallDetection : Bool := false
  listOperators : Bool := false
  deriving DecidableEq, Repr

inductive UsageError where
  | unknownOption (arg : String)
  | missingValue (option : String)
  | unwantedValue (option : String)
  | invalidValue (option value : String)
  | repeated (option : String)
  | tooManyFiles (path : String)
  | conflict (option other : String)
  deriving DecidableEq, Repr

def UsageError.message : UsageError → String
  | unknownOption arg => "unexpected argument '" ++ arg ++ "'"
  | missingValue option => "a value is required for '" ++ option ++ "'"
  | unwantedValue option => "'" ++ option ++ "' takes no value"
  | invalidValue option value => "invalid value '" ++ value ++ "' for '" ++ option ++ "'"
  | repeated option => "'" ++ option ++ "' cannot be used more than once"
  | tooManyFiles path => "unexpected file '" ++ path ++ "'"
  | conflict option other => "'" ++ option ++ "' cannot be used with '" ++ other ++ "'"

/-- The options that take a value. -/
inductive ValueOption where
  | eval | input | stepLimit | seed
  deriving DecidableEq, Repr

/-- The options that take none. -/
inductive Flag where
  | unbounded | noStallDetection | listOperators
  deriving DecidableEq, Repr

def ValueOption.name : ValueOption → String
  | eval => "--eval"
  | input => "--input"
  | stepLimit => "--step-limit"
  | seed => "--seed"

def Flag.name : Flag → String
  | unbounded => "--unbounded"
  | noStallDetection => "--no-stall-detection"
  | listOperators => "--list-operators"

/-- One argument, read by its form alone. -/
inductive Argument where
  /-- All that follows names files. -/
  | separator
  /-- An option, with the value attached to it. -/
  | value (option : ValueOption) (attached : Option String)
  | flag (flag : Flag) (attached : Option String)
  | plain (text : String)
  | unknown (text : String)
  deriving DecidableEq, Repr

namespace Argument

/-- The option that a long name and a value attached to it stand for. -/
def ofLong (arg name : String) (attached : Option String) : Argument :=
  match name with
  | "eval" => value .eval attached
  | "input" => value .input attached
  | "step-limit" => value .stepLimit attached
  | "seed" => value .seed attached
  | "unbounded" => flag .unbounded attached
  | "no-stall-detection" => flag .noStallDetection attached
  | "list-operators" => flag .listOperators attached
  | _ => unknown arg

/-- The value attached to a short option, if anything follows it. -/
def shortValue : List Char → Option String
  | [] => none
  | '=' :: text => some (String.ofList text)
  | text => some (String.ofList text)

def ofString (arg : String) : Argument :=
  match arg.toList with
  | ['-', '-'] => separator
  | '-' :: '-' :: long =>
    let name := String.ofList (long.takeWhile (· ≠ '='))
    match long.dropWhile (· ≠ '=') with
    | [] => ofLong arg name none
    | _ :: text => ofLong arg name (some (String.ofList text))
  | ['-'] => plain arg
  | '-' :: 'e' :: text => value .eval (shortValue text)
  | '-' :: 'i' :: text => value .input (shortValue text)
  | '-' :: _ => unknown arg
  | _ => plain arg

end Argument

/-- The number that a text of decimal digits writes, if it fits in 64 bits. A plus sign may stand
in front. -/
def unsigned64? (text : String) : Option Nat :=
  let digits :=
    match text.toList with
    | '+' :: rest => rest
    | rest => rest
  (Literal.natural? digits).filter (· ≤ 0xFFFFFFFFFFFFFFFF)

namespace Options

def setFile (o : Options) (path : String) : Except UsageError Options :=
  if path.isEmpty then .error (.invalidValue "FILE" path)
  else if o.file.isSome then .error (.tooManyFiles path)
  else .ok { o with file := some path }

def setValue (o : Options) (option : ValueOption) (text : String) : Except UsageError Options :=
  match option with
  | .eval =>
    if o.eval.isSome then .error (.repeated option.name) else .ok { o with eval := some text }
  | .input => .ok { o with inputs := o.inputs ++ [text] }
  | .stepLimit =>
    match unsigned64? text with
    | none => .error (.invalidValue option.name text)
    | some n =>
      if o.stepLimit.isSome then .error (.repeated option.name)
      else .ok { o with stepLimit := some n }
  | .seed =>
    match unsigned64? text with
    | none => .error (.invalidValue option.name text)
    | some n =>
      if o.seed.isSome then .error (.repeated option.name)
      else .ok { o with seed := some n.toUInt64 }

def setFlag (o : Options) (f : Flag) : Except UsageError Options :=
  match f with
  | .unbounded =>
    if o.unbounded then .error (.repeated f.name) else .ok { o with unbounded := true }
  | .noStallDetection =>
    if o.noStallDetection then .error (.repeated f.name)
    else .ok { o with noStallDetection := true }
  | .listOperators =>
    if o.listOperators then .error (.repeated f.name) else .ok { o with listOperators := true }

def addFiles (o : Options) : List String → Except UsageError Options
  | [] => .ok o
  | path :: rest => do addFiles (← o.setFile path) rest

def addArguments (o : Options) : List String → Except UsageError Options
  | [] => .ok o
  | arg :: rest =>
    match Argument.ofString arg with
    | .separator => o.addFiles rest
    | .unknown text => .error (.unknownOption text)
    | .plain path => do addArguments (← o.setFile path) rest
    | .flag f none => do addArguments (← o.setFlag f) rest
    | .flag f (some _) => .error (.unwantedValue f.name)
    | .value option (some text) => do addArguments (← o.setValue option text) rest
    | .value option none =>
      match rest with
      | [] => .error (.missingValue option.name)
      | next :: rest =>
        match Argument.ofString next with
        | .plain text => do addArguments (← o.setValue option text) rest
        | _ => .error (.missingValue option.name)

/-- An inline term excludes a file, and a step limit excludes having none. -/
def checkConflicts (o : Options) : Except UsageError Options :=
  if o.eval.isSome && o.file.isSome then .error (.conflict "--eval" "FILE")
  else if o.unbounded && o.stepLimit.isSome then .error (.conflict "--unbounded" "--step-limit")
  else .ok o

def ofArguments (args : List String) : Except UsageError Options := do
  checkConflicts (← addArguments {} args)

def source (o : Options) : Source :=
  match o.eval, o.file with
  | some text, _ => .inline text
  | none, some path => .file path
  | none, none => .standardInput

def config (o : Options) : Config :=
  let defaults : Config := {}
  let limit := if o.unbounded then none else o.stepLimit <|> defaults.stepLimit
  ⟨limit, o.seed.getD defaults.seed, !o.noStallDetection⟩

end Options

structure Response where
  exitCode : Nat
  out : String
  err : String
  deriving DecidableEq, Repr

def unlines (lines : List String) : String := String.join (lines.map (· ++ "\n"))

def refuse (e : UsageError) : Response := ⟨2, "", "error: " ++ e.message ++ "\n"⟩

def failure (message : String) : Response := ⟨1, "", "Error: " ++ message ++ "\n"⟩

def operatorLines : List String :=
  Operator.all.map fun op => op.name ++ " " ++ " ".intercalate (op.params.map Param.text)

def present (e : Execution) : Response :=
  let printed := e.standardOut.map Term.text
  match e.outcome with
  | .value v => ⟨0, unlines (printed ++ [v.text]), ""⟩
  | .stuck t cause => ⟨1, unlines printed, unlines [cause.message, "  in " ++ t.text]⟩

/-- The terms of several source texts, or the message of the first error. -/
def readAll : List String → Except String (List Term)
  | [] => .ok []
  | text :: rest =>
    match readTerm text with
    | .error err => .error (err.message text)
    | .ok t => do return t :: (← readAll rest)

def runProgram (o : Options) (source : String) : Except String Execution := do
  let source := String.ofList (Text.trim source.toList)
  if source.isEmpty then throw "no term given"
  let program ← (readTerm source).mapError (·.message source)
  let inputs ← readAll o.inputs
  let machine ← (Machine.start o.config).mapError (·.message)
  match execute program inputs machine with
  | .ok execution _ => .ok execution
  | .error halt _ => .error halt.message

/-- The response to options, given the text of the source that they name. A text that cannot be
read is missing. -/
def Options.respond (o : Options) (text : Option String) : Response :=
  if o.listOperators then ⟨0, unlines operatorLines, ""⟩
  else
    match text, o.source with
    | some text, _ =>
      match runProgram o text with
      | .ok execution => present execution
      | .error message => failure message
    | none, .file path => failure ("failed to read " ++ path)
    | none, _ => failure "failed to read standard input"

end TermMachine.CommandLine
