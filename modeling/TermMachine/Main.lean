import TermMachine.CommandLine

/-!
# The program

Reads what the arguments name, and prints the response.
-/

namespace TermMachine.Main

open CommandLine

def readStandardInput : IO String := do
  let input ← IO.getStdin
  let mut text := ""
  repeat
    let line ← input.getLine
    if line.isEmpty then break
    text := text ++ line
  return text

def readSource : Source → IO (Option String)
  | .inline text => return some text
  | .file path => try return some (← IO.FS.readFile path) catch _ => return none
  | .standardInput => try return some (← readStandardInput) catch _ => return none

/-- The response to arguments. Nothing is read when the operators are only listed. -/
def respondTo (args : List String) : IO Response := do
  match Options.ofArguments args with
  | .error err => return refuse err
  | .ok options =>
    if options.listOperators then return options.respond none
    else return options.respond (← readSource options.source)

end TermMachine.Main

def main (args : List String) : IO UInt32 := do
  let response ← TermMachine.Main.respondTo args
  IO.print response.out
  IO.eprint response.err
  return response.exitCode.toUInt32
