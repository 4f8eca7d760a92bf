import GradedModal.Report.Diagnostic
import GradedModal.Solver.Command
import GradedModal.Syntax.Decode
import GradedModal.Typing.Program

/-!
This module contains the command line: its options, what it does, and what it prints.
-/

namespace GradedModal
namespace CommandLine

inductive Backend where
  | bounded
  | smt
  deriving DecidableEq, Repr

structure Options where
  filename : Option String := none
  debug : Bool := false
  version : Bool := false
  backend : Option Backend := none
  solver : Option String := none
  timeout : Option Nat := none
  bound : Option Nat := none
  deriving Repr

inductive Request where
  | help (full : Bool)
  | version
  | check (filename : String) (options : Options)
  deriving Repr

inductive Expecting where
  | anything
  /-- The value of an option. -/
  | value (name : String)
  /-- A file, even if it looks like an option. -/
  | file
  /-- Nothing, since help was asked for, be it the full text or a summary. -/
  | nothing (full : Bool)
  deriving DecidableEq, Repr

def word? (text : String) : Option Nat :=
  let digits :=
    match text.toList with
    | '+' :: rest => rest
    | cs => cs
  if digits.isEmpty || !digits.all Char.isDigit then
    none
  else
    let n := Decimal.ofDigits digits
    if n ≤ maxWord then some n else none

def backend? : String → Option Backend
  | "bounded" => some .bounded
  | "smt" => some .smt
  | _ => none

def once {α : Type} (known value : Option α) : Option (Option α) :=
  match known, value with
  | none, some a => some (some a)
  | _, _ => none

def Options.set? (o : Options) (name value : String) : Option Options :=
  match name with
  | "prover" => do return { o with backend := ← once o.backend (backend? value) }
  | "z3" => do return { o with solver := ← once o.solver (if value.isEmpty then none else some value) }
  | "timeout" => do return { o with timeout := ← once o.timeout (word? value) }
  | "bound" => do return { o with bound := ← once o.bound (word? value) }
  | _ => none

/--
Whether an argument is an option and not a value. A hyphen alone is a value.
-/
def isOption (arg : String) : Bool :=
  arg.startsWith "-" && arg != "-"

def splitValue (text : String) : String × Option String :=
  let cs := text.toList
  match cs.dropWhile (· != '=') with
  | [] => (text, none)
  | _ :: value => (String.ofList (cs.takeWhile (· != '=')), some (String.ofList value))

def Options.setFile? (o : Options) (arg : String) : Option Options :=
  match o.filename with
  | none => some { o with filename := some arg }
  | some _ => none

/--
Read an option without its hyphens. Flags take no value, and any other option takes one, which may be the
next argument.
-/
def Options.read? (o : Options) (name : String) (value : Option String) : Option (Options × Expecting) :=
  match value with
  | some value => do return (← o.set? name value, .anything)
  | none =>
    if name = "help" then some (o, .nothing true)
    else if name = "debug" then if o.debug then none else some ({ o with debug := true }, .anything)
    else if name = "version" then if o.version then none else some ({ o with version := true }, .anything)
    else some (o, .value name)

def step? (state : Options × Expecting) (arg : String) : Option (Options × Expecting) :=
  let (o, expecting) := state
  match expecting with
  | .nothing full => some (o, .nothing full)
  | .file => do return (← o.setFile? arg, .file)
  | .value name => if isOption arg then none else do return (← o.set? name arg, .anything)
  | .anything =>
    if arg = "--" then
      some (o, .file)
    else if arg.startsWith "--" then
      let (name, value) := splitValue (String.ofList (arg.toList.drop 2))
      o.read? name value
    else if arg.startsWith "-h" then
      some (o, .nothing false)
    else if isOption arg then
      none
    else do
      return (← o.setFile? arg, .anything)

def parse? (args : List String) : Option Request := do
  match ← args.foldlM step? ({}, .anything) with
  | (_, .nothing full) => return .help full
  | (_, .value _) => none
  | (o, _) => if o.version then return .version else return .check (← o.filename) o

inductive Outcome where
  | usage
  | help (full : Bool)
  | version
  | missing (path : String)
  | unreadable (path reason : String)
  | undecodable (path : String)
  | failed (path : String) (error : Error)
  | success (path : String)

/--
What the command asks of the system that it runs on.
-/
structure Host (σ : Type) where
  isPresent : String → StateM σ Bool
  /-- The text of a file, or the reason why there is none. -/
  read : String → StateM σ (Except String String)
  start : Solver.Start σ

def Options.bounds (o : Options) : Bounds :=
  { Bounds.standard with nat := o.bound.getD Bounds.standard.nat }

def Options.command (o : Options) : Solver.Command :=
  ⟨o.solver.getD "z3", o.timeout.map (1000 * ·)⟩

section

variable {σ : Type}

def Options.prover (o : Options) (start : Solver.Start σ) : Prover σ := fun predicate vars =>
  let query := predicate.compile vars
  match o.backend.getD .smt with
  | .bounded => return query.search o.bounds
  | .smt => query.ask o.command start

def checkFile (o : Options) (host : Host σ) (path : String) : StateM σ Outcome := do
  if !(← host.isPresent path) then
    return .missing path
  match ← host.read path with
  | .error reason => return .unreadable path reason
  | .ok text =>
    match Definition.parseList? text with
    | none => return .undecodable path
    | some defs =>
      match (← Program.check .standard (o.prover host.start) o.debug defs).result with
      | .ok () => return .success path
      | .error e => return .failed path e

def run (args : List String) (host : Host σ) : StateM σ Outcome :=
  match parse? args with
  | none => return .usage
  | some (.help full) => return .help full
  | some .version => return .version
  | some (.check path options) => checkFile options host path

end

def usageText : String :=
  "Usage: graded [OPTIONS] [FILENAME]\n"

def summary : String :=
  usageText
    ++ "\nArguments:\n"
    ++ "  [FILENAME]  A JSON file containing the definitions to check\n"
    ++ "\nOptions:\n"
    ++ "      --debug              Log every definition's grade predicate before it is discharged\n"
    ++ "      --prover <PROVER>    The decision procedure for grade predicates "
    ++ "[default: smt] [possible values: bounded, smt]\n"
    ++ "      --z3 <Z3>            The SMT solver executable [default: z3]\n"
    ++ "      --timeout <TIMEOUT>  Give up on a definition's predicate after this many seconds (SMT only)\n"
    ++ "      --bound <BOUND>      The largest natural number tried by the bounded prover\n"
    ++ "      --version            Print the current version\n"
    ++ "  -h, --help               Print help (see more with '--help')\n"

def fullHelp : String :=
  usageText
    ++ "\nArguments:\n"
    ++ "  [FILENAME]\n"
    ++ "          A JSON file containing the definitions to check\n"
    ++ "\nOptions:\n"
    ++ "      --debug\n"
    ++ "          Log every definition's grade predicate before it is discharged\n"
    ++ "\n      --prover <PROVER>\n"
    ++ "          The decision procedure for grade predicates\n"
    ++ "\n          Possible values:\n"
    ++ "          - bounded: Search over small values. A predicate that survives the search is reported as "
    ++ "inconclusive rather than accepted\n"
    ++ "          - smt:     An external SMT solver\n"
    ++ "          \n          [default: smt]\n"
    ++ "\n      --z3 <Z3>\n"
    ++ "          The SMT solver executable\n"
    ++ "          \n          [default: z3]\n"
    ++ "\n      --timeout <TIMEOUT>\n"
    ++ "          Give up on a definition's predicate after this many seconds (SMT only)\n"
    ++ "\n      --bound <BOUND>\n"
    ++ "          The largest natural number tried by the bounded prover\n"
    ++ "\n      --version\n"
    ++ "          Print the current version\n"
    ++ "\n  -h, --help\n"
    ++ "          Print help (see a summary with '-h')\n"

namespace Outcome

def code : Outcome → UInt32
  | .usage => 2
  | .help _ => 0
  | .version => 0
  | .success _ => 0
  | _ => 1

def stdout : Outcome → String
  | .help full => if full then fullHelp else summary
  | .version => "graded 0.1.0\n"
  | .success path => path ++ ": success\n"
  | _ => ""

def diagnostic : Outcome → Report.Diagnostic
  | .missing path => .add .empty none ⟨"file " ++ path ++ " does not exist", none⟩
  | .unreadable path reason => .add .empty none ⟨"could not read " ++ path ++ ": " ++ reason, none⟩
  | .undecodable path => .add .empty (some ⟨.file path, none⟩) ⟨"invalid definitions", none⟩
  | .failed path error => error.report (.file path)
  | _ => .empty

/--
What is printed about a run. The lines that the messages point into are read again from the files.
-/
def stderr {σ : Type} (o : Outcome) (host : Host σ) : StateM σ String :=
  match o with
  | .usage => return "error: unexpected or missing argument\n\n" ++ usageText
  | o => do
    let rendered ← o.diagnostic.renderWith fun
      | .file path => return (← host.read path).toOption
      | .interactive _ => return none
    return String.join (rendered.map (· ++ "\n"))

end Outcome
end CommandLine
end GradedModal
