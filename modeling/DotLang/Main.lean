import DotLang.CommandLine.Run

/-!
# The program

Reads the arguments and the environment, runs on the files of the system, and prints the outcome.
-/

namespace DotLang.CommandLine

/-- The system's text for a failure. -/
def describeFailure : IO.Error → String
  | .noFileOrDirectory _ code _ | .noSuchThing _ code _ => s!"No such file or directory (os error {code})"
  | .permissionDenied _ code _ => s!"Permission denied (os error {code})"
  | .alreadyExists _ code _ => s!"File exists (os error {code})"
  | .inappropriateType _ code _ =>
    if code = 20 then s!"Not a directory (os error {code})" else s!"Is a directory (os error {code})"
  | failure => toString failure

def attempt {α : Type} (action : IO α) : IO (Except String α) := do
  match ← action.toBaseIO with
  | .ok result => return .ok result
  | .error failure => return .error (describeFailure failure)

def systemFiles : Files IO where
  read path := attempt (IO.FS.readBinFile path)
  write path content := attempt (IO.FS.writeFile path content)

end DotLang.CommandLine

open DotLang.CommandLine in
def main (args : List String) : IO UInt32 := do
  let outcome ← run systemFiles args (← IO.getEnv "RUST_LOG")
  IO.print outcome.stdout
  IO.eprint outcome.stderr
  return UInt32.ofNat outcome.exitCode
