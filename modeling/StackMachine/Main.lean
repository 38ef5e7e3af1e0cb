import StackMachine.Command

/-! The program: reads the files that a command names, and prints its report. -/

namespace StackMachine

def stepLimit : Nat := 0x4000000000000000

def readReason : IO.Error → String
  | .noFileOrDirectory _ _ _ => "No such file or directory (os error 2)"
  | .permissionDenied _ _ _ => "Permission denied (os error 13)"
  | .inappropriateType _ _ _ => "Is a directory (os error 21)"
  | error => toString error

def readFile (path : String) : IO (Except String Bytes) := do
  try
    let contents ← IO.FS.readBinFile path
    return .ok contents.toList
  catch error => return .error (readReason error)

def inputPath? (args : List String) : Option String :=
  match Command.parse args with
  | .ok (.run path _) => some path
  | .ok (.verify path) => some path
  | .ok (.info path) => some path
  | _ => none

end StackMachine

open StackMachine in
def main (args : List String) : IO UInt32 := do
  let contents ← match inputPath? args with
    | some path => readFile path
    | none => pure (.error "")
  match Command.respond stepLimit (fun _ => contents) args with
  | none => return 3
  | some report =>
    (← IO.getStdout).putStr report.output
    (← IO.getStderr).putStr report.errors
    return report.code.toUInt32
