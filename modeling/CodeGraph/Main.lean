import CodeGraph.Rehearsal.Command

/-!
# The program

Rehearses a synchronization: the files are read from standard input, and the requests to the store
are printed.
-/

def main (arguments : List String) : IO UInt32 := do
  let values ← CodeGraph.Rehearsal.watchedVariables.mapM fun name => return (name, ← IO.getEnv name)
  let input ← (← IO.getStdin).getLine
  let p := CodeGraph.Rehearsal.perform (fun name => (values.lookup name).join) arguments input
  p.lines.forM IO.println
  p.complaints.forM IO.eprintln
  return p.exitCode.toUInt32
