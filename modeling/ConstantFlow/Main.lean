import ConstantFlow.CommandLine.Run

/-!
# The program

Looks at the file that the command line names and passes the answer on.
-/

namespace ConstantFlow.CommandLine

/-- The numbers of the errors that mean that nothing is there. -/
def absentNumbers : List Nat := [2, 9, 20, 40]

/-- The error of the system behind a failed operation. Its number may come negated. -/
def systemError (e : IO.Error) : SystemError :=
  match e with
  | .noFileOrDirectory _ code details => ofCode code details
  | .invalidArgument _ code details => ofCode code details
  | .permissionDenied _ code details => ofCode code details
  | .inappropriateType _ code details => ofCode code details
  | .resourceExhausted _ code details => ofCode code details
  | .hardwareFault code details => ofCode code details
  | .otherError code details => ofCode code details
  | e => { number := 0, reason := toString e }
where
  ofCode (code : UInt32) (details : String) : SystemError :=
    let number := code.toInt32.toInt.natAbs
    match number with
    | 13 => { number, reason := "Permission denied" }
    | 36 => { number, reason := "File name too long" }
    | _ => { number, reason := details }

/-- Whether a path leads anywhere. -/
def resolves (path : String) : IO Bool := do
  try
    let _ ← IO.FS.realPath path
    return true
  catch _ => return false

/-- What is found at a path of the file system. -/
def look (path : String) : IO PathState := do
  if '\x00' ∈ path.toList then return .missing
  try
    return .file (← IO.FS.readBinFile path).toList
  catch e =>
    let e := systemError e
    if e.number = SystemError.isDirectory.number then return .directory
    else if e.number ∈ absentNumbers then return .missing
    else if ← resolves path then return .unreadable e
    else return .unreachable e

end ConstantFlow.CommandLine

open ConstantFlow ConstantFlow.CommandLine in
def main (words : List String) : IO UInt32 := do
  let outcome ←
    match plan words with
    | .answered o => pure o
    | .analyse o => perform Loading.symbolic o <$> look (normalPath o.file)
  (← IO.getStdout).putStr outcome.stdout
  (← IO.getStderr).putStr outcome.stderr
  match outcome.ending with
  | .exit code => return code.toUInt32
  | .crash c =>
    (← IO.getStderr).putStr (c.message ++ "\n")
    return 1
