import Ngram.Command.Perform

/-!
# The program

Carries out its command line against the file system, the standard streams and the clock.
-/

namespace Ngram

/-- The real surroundings. -/
def realHost : Host IO where
  contents path := do
    try
      let bs ← IO.FS.readBinFile path
      return some bs.toList
    catch _ => return none
  save path bs := do
    try
      IO.FS.writeBinFile path ⟨bs.toArray⟩
      return true
    catch _ => return false
  input := do
    let bs ← (← IO.getStdin).readBinToEnd
    return [.data bs.toList]
  print := IO.println
  clock := IO.monoNanosNow

/-- What a failure says on the standard error. -/
def Outcome.complaint : Outcome → Option String
  | .done => none
  | .refused (.help _) | .refused .version => none
  | .refused r => some s!"error: {r.message}"
  | .failed e => some s!"Error: {e.message}"
  | .corpusNotWritten => some "Error: the corpus cannot be written"

end Ngram

def main (arguments : List String) : IO UInt32 := do
  let outcome ← Ngram.Perform.commandLine Ngram.realHost arguments
  if let some text := outcome.complaint then IO.eprintln text
  return outcome.status.toUInt32
