import SealedLog.Demo

/-!
# The demonstration program

Prints the demonstration with identifiers made from random bytes.
-/

open SealedLog

/-- Prints the transcript; ends with 1 if the log failed. -/
def main : IO UInt32 := do
  let ids ← (List.range Demo.callers.length).mapM fun _ => do
    let random ← IO.getRandomBytes 16
    return Uuid.ofRandom random.data.toList
  match Demo.transcript (fun i => ids.getD i .nil) .epoch with
  | .ok lines =>
    for line in lines do
      IO.println line
    return 0
  | .error e =>
    IO.eprintln ("Error: " ++ e.message)
    return 1
