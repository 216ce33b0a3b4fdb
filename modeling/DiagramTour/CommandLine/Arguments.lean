/-!
# Arguments

A command line names one command and one file; playing also takes settings.  Flags may stand before
or after the file, and after `--` everything is a file.
-/

namespace DiagramTour

/-- What a command line asks for. -/
inductive Request where
  /-- Tell what is wrong with a source text. -/
  | check (file : String)
  /-- Write the document of a source text. -/
  | compile (file : String)
  /-- Write a source text in its one form. -/
  | format (file : String)
  /-- Walk a tour. -/
  | play (file : String) (settings : Option String)
deriving DecidableEq, Repr

/-- Why a command line asks for nothing. -/
inductive Usage where
  /-- It asks how to ask. -/
  | help
  /-- It cannot be understood. -/
  | misuse
deriving DecidableEq, Repr

namespace Request

/-- The files that a request looks at. -/
def files : Request → List String
  | check file | compile file | format file => [file]
  | play file settings => settings.toList ++ [file]

/-- What was read of the arguments after a command. -/
structure Reading where
  file : Option String := none
  settings : Option String := none

namespace Reading

/-- Takes a file, of which there is one, with a name. -/
def takeFile (r : Reading) (file : String) : Except Usage Reading :=
  if file = "" || r.file.isSome then .error .misuse else .ok { r with file }

/-- Takes settings, of which there is one file, with a name. -/
def takeSettings (r : Reading) (file : String) : Except Usage Reading :=
  if file = "" || r.settings.isSome then .error .misuse else .ok { r with settings := file }

/-- Takes everything as files. -/
def takeFiles (r : Reading) : List String → Except Usage Reading
  | [] => .ok r
  | file :: rest => do takeFiles (← r.takeFile file) rest

end Reading

/-- Whether an argument is a flag; a dash alone is not. -/
def isFlag (argument : String) : Bool :=
  argument.startsWith "-" && argument != "-"

/-- Whether an argument asks for help. -/
def isHelp (argument : String) : Bool :=
  argument == "--help" || argument.startsWith "-h"

/-- The flag that names settings. -/
def settingsFlag : String := "--config"

/-- The value that is given with a flag after an equals sign. -/
def attached? (flag argument : String) : Option String :=
  let start := flag.toList ++ ['=']
  if start.isPrefixOf argument.toList then
    some (String.ofList (argument.toList.drop start.length))
  else none

/-- Reads the arguments after a command, which may or may not take settings. -/
def readArguments (takesSettings : Bool) (r : Reading) : List String → Except Usage Reading
  | [] => .ok r
  | argument :: rest =>
    -- Flags end here
    if argument = "--" then r.takeFiles rest
    else if isHelp argument then .error .help
    else if !isFlag argument then do
      readArguments takesSettings (← r.takeFile argument) rest
    else if !takesSettings then .error .misuse
    else if argument = settingsFlag then
      match rest with
      | [] => .error .misuse
      | value :: rest =>
        -- A value that looks like a flag has to be attached
        if isFlag value then .error .misuse
        else do readArguments takesSettings (← r.takeSettings value) rest
    else
      match attached? settingsFlag argument with
      | none => .error .misuse
      | some value => do readArguments takesSettings (← r.takeSettings value) rest

/-- The request of a command. -/
def ofCommand (command : String) (arguments : List String) : Except Usage Request := do
  let make : Reading → String → Request ← match command with
    | "check" => .ok fun _ => check
    | "compile" => .ok fun _ => compile
    | "fmt" => .ok fun _ => format
    | "play" => .ok fun r file => play file r.settings
    | _ => .error .misuse
  let r ← readArguments (command = "play") {} arguments
  match r.file with
  | some file => .ok (make r file)
  | none => .error .misuse

/-- The commands, and the one that asks for help. -/
def commands : List String :=
  ["check", "compile", "fmt", "play", "help"]

/-- The request of a command line. -/
def ofArguments : List String → Except Usage Request
  | [] => .error .misuse
  | "help" :: [] => .error .help
  | "help" :: command :: rest =>
    if rest.isEmpty && commands.contains command then .error .help else .error .misuse
  | command :: arguments =>
    if command != "--" && isHelp command then .error .help else ofCommand command arguments

end Request

end DiagramTour
