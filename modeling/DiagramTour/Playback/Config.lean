import DiagramTour.Document.Basic
import DiagramTour.Json.Draft

/-!
# Settings of the player

Every setting has a default, which holds where a configuration leaves it out.
-/

namespace DiagramTour

/-- How a tour is played. -/
structure PlaybackConfig where
  /-- The policy for stops that have none of their own. -/
  defaultErrorPolicy : ErrorPolicy := .continueOnError
  /-- The frames between the end of one stop and the start of the next. -/
  settleFrames : Nat := 2
  /-- How the kinds of actions begin that place the camera themselves. -/
  cameraActionPrefix : String := "camera."
  /-- The length of a frame in milliseconds, where frames come in intervals. -/
  frameIntervalMs : Nat := 16
deriving DecidableEq, Repr, Inhabited

namespace PlaybackConfig

/-- The settings as JSON. -/
def toJson (c : PlaybackConfig) : Json :=
  .obj [("defaultErrorPolicy", .str c.defaultErrorPolicy.name), ("settleFrames", .nat c.settleFrames),
    ("cameraActionPrefix", .str c.cameraActionPrefix), ("frameIntervalMs", .nat c.frameIntervalMs)]

open Json.Draft in
/-- The shape of settings. -/
def shape : Json.Draft.Shape PlaybackConfig :=
  record ["defaultErrorPolicy", "settleFrames", "cameraActionPrefix", "frameIntervalMs"] []
    (fun key d (c : PlaybackConfig) => match key with
      | "defaultErrorPolicy" => return { c with defaultErrorPolicy := ← oneOf ErrorPolicy.ofName? d }
      | "settleFrames" => return { c with settleFrames := ← natUpTo (Number.twoTo 32 - 1) d }
      | "cameraActionPrefix" => return { c with cameraActionPrefix := ← text d }
      | _ => return { c with frameIntervalMs := ← natUpTo (Number.twoTo 64 - 1) d })
    {}

/-- Settings from a JSON text. -/
def ofText (source : String) : Except Json.Fault PlaybackConfig :=
  Json.decodeText shape source

/-- Settings from a JSON value. -/
def ofJson (j : Json) : Except Json.Fault PlaybackConfig :=
  Json.decode shape j

end PlaybackConfig

end DiagramTour
