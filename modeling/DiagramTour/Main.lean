import DiagramTour.CommandLine.Answer

/-!
# The command line

Reads the files of a request, writes the answer, and ends with its code.
-/

namespace DiagramTour

/-- How to ask. -/
def usageText : String :=
  "Usage: tour check FILE\n" ++
  "       tour compile FILE\n" ++
  "       tour fmt FILE\n" ++
  "       tour play FILE [--config FILE]\n"

/-- The texts of files, as far as they can be read. -/
def readFiles (files : List String) : IO (List (String × String)) := do
  let mut texts := []
  for file in files do
    match ← (IO.FS.readFile file).toBaseIO with
    | .ok text => texts := (file, text) :: texts
    | .error _ => pure ()
  return texts

/-- Writes an answer. -/
def writeAnswer (a : Answer) : IO UInt32 := do
  IO.print a.output
  for remark in a.remarks do
    IO.eprintln remark
  return a.code.toUInt32

/-- Answers a command line. -/
def answerCommandLine (arguments : List String) : IO UInt32 := do
  match Request.ofArguments arguments with
  | .error usage =>
    IO.eprint usageText
    writeAnswer (.ofUsage usage)
  | .ok request =>
    let texts ← readFiles request.files
    let read := fun file => (texts.find? (·.1 == file)).map Prod.snd
    writeAnswer (.ofRequest read request)

end DiagramTour

/-- The program. -/
def main (arguments : List String) : IO UInt32 :=
  DiagramTour.answerCommandLine arguments
