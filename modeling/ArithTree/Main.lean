import ArithTree.CommandLine
import ArithTree.Random.ChaCha

namespace ArithTree

-- A seed that no one can foresee.
def freshSeed : IO UInt64 := do
  let bytes ← IO.getRandomBytes 8
  return bytes.foldl (fun seed byte => seed <<< 8 ||| byte.toUInt64) 0

-- Writes to standard output and tells whether the device took it.
def tryOutput (text : String) : IO Bool := do
  try
    let out ← IO.getStdout
    out.putStr text
    out.flush
    return true
  catch _ => return false

end ArithTree

open ArithTree in
-- Runs the command line. If the output cannot be written, the report is that of
-- a full device.
def main (arguments : List String) : IO UInt32 := do
  let source := Keystream.ofSeed (← freshSeed)
  let plan := CommandLine.Plan.ofArguments arguments
  let some report := plan.run source .working | return 1
  let report := if ← tryOutput report.output then report else (plan.run source .full).getD report
  IO.eprint report.messages
  return UInt32.ofNat report.code
