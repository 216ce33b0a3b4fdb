import DiagramTour.CommandLine.Arguments
import DiagramTour.Compile
import DiagramTour.Playback.Rehearsal
import DiagramTour.Program.Printer

/-!
# Answers

What a command writes, and how it ends.  Nothing here reads a file: an answer is a function of the
request and of what the files say.
-/

namespace DiagramTour

/-- What a command leaves behind. -/
structure Answer where
  /-- Zero if all went well, one for an error, two for a command line that asks for nothing. -/
  code : Nat := 0
  output : String := ""
  /-- What is said about the files, line by line. -/
  remarks : List String := []
deriving DecidableEq, Repr, Inhabited

namespace Answer

/-- The answer of a command that fails, after some remarks. -/
def failure (message : String) (remarks : List String) : Answer :=
  ⟨1, "", remarks ++ ["Error: " ++ message]⟩

/-- What is said about a file that cannot be read. -/
def unreadable (file : String) : String :=
  "Failed to read " ++ file

/-- What is said about a file with errors. -/
def hasErrors (file : String) : String :=
  file ++ " has errors"

/-- What is said about a compilation, line by line. -/
def remarksOn (file : String) (c : Compilation) : List String :=
  c.diagnostics.map fun d => file ++ ":" ++ d.line

/-- Tells what is wrong with a source text. -/
def check (file source : String) : Answer :=
  let c := DiagramTour.compile source
  let remarks := remarksOn file c
  if c.hasErrors then failure (hasErrors file) remarks
  else { output := file ++ ": ok\n", remarks }

/-- The document of a compilation without errors. -/
def sound? (c : Compilation) : Option Document :=
  if c.hasErrors then none else c.document

/-- Writes the document of a source text. -/
def compile (file source : String) : Answer :=
  let c := DiagramTour.compile source
  let remarks := remarksOn file c
  match sound? c with
  | some d => { output := d.pretty ++ "\n", remarks }
  | none => failure (hasErrors file) remarks

/-- Writes a source text in its one form, and says nothing unless it has errors. -/
def format (file source : String) : Answer :=
  let c := DiagramTour.compile source
  match if c.hasErrors then none else c.program with
  | some p => { output := p.print }
  | none => failure (hasErrors file) (remarksOn file c)

/-! ## Playing -/

/-- The last part of a path that is a name. -/
def baseName (path : String) : String :=
  ((path.splitOn "/").filter fun part => part != "" && part != ".").getLast?.getD ""

/-- Whether a file is a document rather than a source text: its name ends in `.json`, with
something before the point. -/
def isDocument (path : String) : Bool :=
  let name := (baseName path).toList
  let ending := ".json".toList
  ending.length < name.length && ending.isSuffixOf name

/-- The lines that tell the states of a player. -/
def stateLines (states : List PlayerState) : String :=
  String.join (states.map fun s => s.toJson.compact ++ "\n")

/-- Walks a tour. -/
def walk (d : Document) (config : PlaybackConfig) (remarks : List String) : Answer :=
  let (states, error) := (Stage.rehearsing d config).rehearse
  match error with
  | none => { output := stateLines states, remarks }
  | some e => { failure e.message remarks with output := stateLines states }

/-- Walks the tour that a file describes. -/
def play (file source : String) (config : PlaybackConfig) : Answer :=
  if isDocument file then
    match Document.ofText source with
    | .ok d => walk d config []
    | .error e => failure e.message []
  else
    let c := DiagramTour.compile source
    let remarks := remarksOn file c
    match sound? c with
    | some d => walk d config remarks
    | none => failure (hasErrors file) remarks

/-- The settings to play with. -/
def settings (read : String → Option String) : Option String → Except PlayError PlaybackConfig
  | none => .ok {}
  | some file =>
    match read file with
    | none => .error .file
    | some source => (PlaybackConfig.ofText source).mapError fun _ => .config

/-! ## Commands -/

/-- Answers with what a file says. -/
def withFile (read : String → Option String) (file : String) (answer : String → Answer) : Answer :=
  match read file with
  | some source => answer source
  | none => failure (unreadable file) []

/-- The answer to a request, `read` being what the files say. -/
def ofRequest (read : String → Option String) : Request → Answer
  | .check file => withFile read file (check file)
  | .compile file => withFile read file (compile file)
  | .format file => withFile read file (format file)
  | .play file s =>
    match settings read s with
    | .error e => failure e.message []
    | .ok config => withFile read file fun source => play file source config

/-- The answer to a command line that asks for nothing. -/
def ofUsage : Usage → Answer
  | .help => {}
  | .misuse => { code := 2 }

/-- The answer to a command line. -/
def ofArguments (read : String → Option String) (arguments : List String) : Answer :=
  match Request.ofArguments arguments with
  | .ok request => ofRequest read request
  | .error usage => ofUsage usage

end Answer

end DiagramTour
