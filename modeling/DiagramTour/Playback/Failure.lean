import DiagramTour.Document.Load
import DiagramTour.Json.Field

/-!
# Failing actions

An action fails in one of three ways, each known by the kind of the action.  A handler that breaks
off does so with a text or with something else, of which nothing can be said.
-/

namespace DiagramTour

/-- What a handler breaks off with. -/
inductive Crash where
  | text (message : String)
  | other
deriving DecidableEq, Repr, Inhabited

/-- What is said of a handler that broke off. -/
def Crash.message : Crash → String
  | text message => message
  | other => "non-string panic payload"

/-- The failure of one action. -/
inductive ActionError where
  /-- No handler knows the kind. -/
  | unknown (kind : String)
  /-- The handler failed. -/
  | failed (kind message : String)
  /-- The handler broke off. -/
  | crashed (kind message : String)
deriving DecidableEq, Repr, Inhabited

namespace ActionError

/-- The kind of the action that failed. -/
def kind : ActionError → String
  | unknown kind | failed kind _ | crashed kind _ => kind

/-- The sentence that tells the failure. -/
def message : ActionError → String
  | unknown kind => "Unknown action '" ++ kind ++ "'"
  | failed kind message => "Action '" ++ kind ++ "' failed: " ++ message
  | crashed kind message => "Action '" ++ kind ++ "' panicked: " ++ message

/-- The form of a failure. -/
def toJson : ActionError → Json
  | unknown kind => .obj [("error", .str "unknownAction"), ("kind", .str kind)]
  | failed kind message =>
    .obj [("error", .str "handler"), ("kind", .str kind), ("message", .str message)]
  | crashed kind message =>
    .obj [("error", .str "panicked"), ("kind", .str kind), ("message", .str message)]

/-- The kind and the message that a failure tells. -/
def accountOf? (content : Json) : Option (String × String) := do
  match ← content.values? ["kind", "message"] with
  | [kind, message] =>
    return (← Json.required Json.text? kind, ← Json.required Json.text? message)
  | _ => none

/-- A failure from JSON; the way to fail is given by its name. -/
def ofJson? (j : Json) : Option ActionError := do
  let (tag, content) ← j.tagged? "error" Json.text?
  match tag with
  | "unknownAction" =>
    match ← content.values? ["kind"] with
    | [kind] => return unknown (← Json.required Json.text? kind)
    | _ => none
  | "handler" =>
    let (kind, message) ← accountOf? content
    return failed kind message
  | "panicked" =>
    let (kind, message) ← accountOf? content
    return crashed kind message
  | _ => none

end ActionError

/-- What keeps a tour from being played. -/
inductive PlayError where
  /-- An action failed, and nothing was to follow it. -/
  | action (error : ActionError)
  | document (error : LoadError)
  /-- The settings are not JSON, or JSON of another shape. -/
  | config
  /-- A file cannot be read. -/
  | file
deriving DecidableEq, Repr

/-- The sentence that tells the error; what JSON or the file system has to say is left out. -/
def PlayError.message : PlayError → String
  | action e => "Action error: " ++ e.message
  | document e => "Document error: " ++ e.message
  | config => "Configuration error"
  | file => "IO error"

end DiagramTour
