import StackMachine.Image.Decode
import StackMachine.Machine.Run
import StackMachine.Native.Core
import StackMachine.Text.Decimal
import StackMachine.Verify

/-! The command line, as a function from arguments and files to what is printed. -/

namespace StackMachine

structure Report where
  code : UInt8
  output : String := ""
  errors : String := ""
deriving DecidableEq, Inhabited

structure RunOptions where
  entry : Option String := none
  maxFrames : Option Nat := none
deriving DecidableEq, Inhabited

inductive Command where
  | help
  | run (path : String) (options : RunOptions)
  | verify (path : String)
  | info (path : String)
deriving DecidableEq, Inhabited

inductive UsageError where
  | noCommand
  | unknownCommand (name : String)
  | noInput (command : String) (form : String)
  | noValue (flag : String)
  | invalidFrames (text : String)
  | unknownOption (flag : String)
deriving DecidableEq, Inhabited

inductive CommandError where
  | unreadable (path reason : String)
  | invalid (cause : DecodeError)
  | rejected (causes : List VerifyError)
  | noFunction (name : String)
  | noFunctions
  | failed (cause : CallError)
deriving Inhabited

namespace Command

def runForm : String := "run <module.bkm> [--entry NAME] [--max-frames N]"

def verifyForm : String := "verify <module.bkm>"

def infoForm : String := "info <module.bkm>"

def usage : String :=
  "Usage: brisk <command> [args]\n\nCommands:\n" ++
  "  " ++ runForm ++ "   Verify and run a module\n" ++
  "  " ++ verifyForm ++ "                                Verify a module\n" ++
  "  " ++ infoForm ++ "                                  List a module's functions\n"

end Command

namespace UsageError

def message : UsageError → String
  | noCommand => Command.usage
  | unknownCommand name => "error: unknown command '" ++ name ++ "'\n\n" ++ Command.usage
  | noInput command form =>
    "error: " ++ command ++ " requires an input file\nUsage: brisk " ++ form ++ "\n"
  | noValue flag => "error: " ++ flag ++ " requires a value\n"
  | invalidFrames text => "error: --max-frames expects a positive integer, got '" ++ text ++ "'\n"
  | unknownOption flag => "error: unknown option '" ++ flag ++ "'\n"

end UsageError

namespace CommandError

def code : CommandError → UInt8
  | unreadable _ _ | invalid _ | noFunction _ | noFunctions => 1
  | rejected _ => 2
  | failed _ => 3

def message : CommandError → String
  | unreadable path reason => "error: cannot read '" ++ path ++ "': " ++ reason ++ "\n"
  | invalid cause => "error: invalid module: " ++ cause.message ++ "\n"
  | rejected causes => String.join (causes.map fun cause => "error: " ++ cause.message ++ "\n")
  | noFunction name => "error: no function named '" ++ name ++ "'\n"
  | noFunctions => "error: module has no functions to run\n"
  | failed cause => "runtime error: " ++ cause.message ++ "\n"

def report (e : CommandError) : Report :=
  { code := e.code, errors := e.message }

end CommandError

namespace RunOptions

/-- Flags come with a value each; the last of a kind counts. -/
def parse (options : RunOptions) : List String → Except UsageError RunOptions
  | [] => .ok options
  | [flag] => .error (.noValue flag)
  | flag :: value :: rest =>
    match flag with
    | "--entry" => parse { options with entry := some value } rest
    | "--max-frames" =>
      match (Text.unsigned? UInt64.size value).filter (0 < ·) with
      | some frames => parse { options with maxFrames := some frames } rest
      | none => .error (.invalidFrames value)
    | other => .error (.unknownOption other)

def limits (options : RunOptions) : Limits :=
  match options.maxFrames with
  | some frames => { frames }
  | none => {}

end RunOptions

namespace Command

/-- What stands after the input path is looked at by `run` alone. -/
def parse : List String → Except UsageError Command
  | [] => .error .noCommand
  | name :: args =>
    match name, args with
    | "run", [] => .error (.noInput "run" runForm)
    | "run", path :: options => do return .run path (← RunOptions.parse {} options)
    | "verify", [] => .error (.noInput "verify" verifyForm)
    | "verify", path :: _ => .ok (.verify path)
    | "info", [] => .error (.noInput "info" infoForm)
    | "info", path :: _ => .ok (.info path)
    | "help", _ => .ok .help
    | "--help", _ => .ok .help
    | "-h", _ => .ok .help
    | other, _ => .error (.unknownCommand other)

end Command

abbrev Files := String → Except String Bytes

namespace Files

def module (files : Files) (path : String) : Except CommandError (Module Literal) :=
  match files path with
  | .error reason => .error (.unreadable path reason)
  | .ok bytes =>
    match Module.decode bytes with
    | .ok m => .ok m
    | .error cause => .error (.invalid cause)

end Files

namespace Module

/-- The function to run: the one asked for, or the declared entry, or the first one. -/
def entryPoint (m : Module Literal) (name? : Option String) : Except CommandError UInt16 :=
  match name?, m.entry with
  | some name, _ =>
    match m.find? name with
    | some id => .ok id
    | none => .error (.noFunction name)
  | none, some id => .ok id
  | none, none => if m.functions.isEmpty then .error .noFunctions else .ok 0

def verifiedEntry (m : Module Literal) (name? : Option String) : Except CommandError UInt16 :=
  match m.verify with
  | [] => m.entryPoint name?
  | causes => .error (.rejected causes)

def functionLine (entry : Option UInt16) (index : Nat) (f : Function Literal) : String :=
  let number := toString index
  let arity :=
    if f.minArgs == f.maxArgs then "(" ++ toString f.minArgs.toNat ++ ")"
    else "(" ++ toString f.minArgs.toNat ++ ".." ++ toString f.maxArgs.toNat ++ ")"
  let kind := if f.isNative then "native" else "bytecode"
  let mark := if entry == some (.ofNat index) then "  (entry)" else ""
  String.ofList (List.replicate (4 - number.length) ' ') ++ number ++ "  " ++ f.qualifiedName ++
    "  " ++ arity ++ "  " ++ kind ++ mark ++ "\n"

def listing (m : Module Literal) : String :=
  let functions := m.functions.toList.zipIdx.map fun (f, index) => functionLine m.entry index f
  let globals :=
    if m.globals.isEmpty then []
    else "globals:\n" :: m.globals.toList.map fun (name, value) =>
      "  " ++ name ++ " = " ++ Literal.text value ++ "\n"
  String.join (functions ++ globals)

end Module

namespace Command

def runModule (fuel : Nat) (m : Module Literal) (id : UInt16) (limits : Limits) : Option Report :=
  let (loaded, store) := ({} : Store).loadModule m
  let program := Program.link loaded store Registry.core
  let world : World := { store, console := "", interrupted := false }
  match ({} : Thread).call program limits fuel world (.id id) #[] with
  | none => none
  | some { result := .ok v, thread := _, world } =>
    some { code := 0, output := world.console ++ world.store.display v ++ "\n" }
  | some { result := .error cause, thread := _, world } =>
    let error := CommandError.failed cause
    some { code := error.code, output := world.console, errors := error.message }

def verifyModule (path : String) (m : Module Literal) : Report :=
  let warnings := String.join (m.deadCode.map fun cause => "warning: " ++ cause.message ++ "\n")
  match m.verify with
  | [] =>
    { code := 0, errors := warnings
      output := "OK: " ++ path ++ " (" ++ toString m.functions.size ++ " functions)\n" }
  | causes =>
    let error := CommandError.rejected causes
    { code := error.code, errors := warnings ++ error.message }

/-- Only `run` can use up its fuel. -/
def execute (fuel : Nat) (files : Files) : Command → Option Report
  | help => some { code := 0, errors := usage }
  | run path options =>
    match files.module path with
    | .error error => some error.report
    | .ok m =>
      match m.verifiedEntry options.entry with
      | .error error => some error.report
      | .ok id => runModule fuel m id options.limits
  | verify path =>
    match files.module path with
    | .error error => some error.report
    | .ok m => some (verifyModule path m)
  | info path =>
    match files.module path with
    | .error error => some error.report
    | .ok m => some { code := 0, output := m.listing }

def respond (fuel : Nat) (files : Files) (args : List String) : Option Report :=
  match parse args with
  | .ok command => command.execute fuel files
  | .error error => some { code := 1, errors := error.message }

end Command

end StackMachine
