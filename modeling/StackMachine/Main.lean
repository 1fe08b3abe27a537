import StackMachine.Demo

/-!
Contract: the command line.  It shows the demonstration program and its run, and reports a failed
run by its message and exit code.
-/

set_option autoImplicit false

open StackMachine in
def main : IO UInt32 := do
  IO.print Demo.transcript
  match Demo.interpretation.result with
  | .ok () => return 0
  | .error error =>
      IO.eprintln error.message
      return error.exitCode.toUInt32
