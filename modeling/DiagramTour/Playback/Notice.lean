import DiagramTour.Json.Draft
import DiagramTour.Playback.Failure

/-!
# Notices

What a player announces to whoever subscribes, by topic.
-/

namespace DiagramTour

/-- What a notice is about. -/
inductive Topic where
  /-- A stop was reached. -/
  | stepChange
  /-- An action failed. -/
  | actionError
  /-- Anything failed; every failed action is announced here once more. -/
  | error
  /-- The diagram is to be drawn. -/
  | render
deriving DecidableEq, Repr, Inhabited

namespace Topic

/-- The word for a topic. -/
def name : Topic → String
  | stepChange => "stepchange"
  | actionError => "actionerror"
  | error => "error"
  | render => "render"

/-- The topic that a word stands for. -/
def ofName? : String → Option Topic
  | "stepchange" => some stepChange
  | "actionerror" => some actionError
  | "error" => some error
  | "render" => some render
  | _ => none

end Topic

/-- Where a player stands. -/
structure PlayerState where
  /-- The place of the current stop, or -1 before the first. -/
  stopIndex : Int
  /-- The id of the current stop. -/
  stopId : Option String
  stopCount : Nat
  /-- The last failure on the way to the current stop. -/
  error : Option ActionError
deriving DecidableEq, Repr, Inhabited

namespace PlayerState

/-- The form of a state. -/
def toJson (s : PlayerState) : Json :=
  .obj (("stepIndex", .int s.stopIndex) :: (Json.fieldIfSome "stepId" .str s.stopId ++
    ("stepCount", .nat s.stopCount) :: Json.fieldIfSome "errorState" ActionError.toJson s.error))

end PlayerState

/-- What a player announces. -/
inductive Notice where
  | stepChange (state : PlayerState)
  | actionError (error : ActionError)
  | error (error : ActionError)
  | render (payload : Json)
deriving Repr, Inhabited

namespace Notice

/-- The topic of a notice. -/
def topic : Notice → Topic
  | stepChange _ => .stepChange
  | actionError _ => .actionError
  | error _ => .error
  | render _ => .render

/-- What a notice says. -/
def data : Notice → Json
  | stepChange state => state.toJson
  | actionError e | error e => e.toJson
  | render payload => payload

/-- The two notices of a failed action. -/
def ofFailure (e : ActionError) : List Notice :=
  [actionError e, error e]

end Notice

/-! ## Reading -/

namespace Json.Draft

/-- A whole number of 64 bits. -/
def int64 : Shape Int
  | int n => if Number.fits64 n then .ok n else .error .unexpectedShape
  | d => .error (mismatch d)

/-- A failure. -/
def actionError : Shape ActionError := fun d => do
  match ActionError.ofJson? (← d.value) with
  | some e => .ok e
  | none => .error .unexpectedShape

/-- A state of a player. -/
def playerState : Shape PlayerState :=
  record ["stepIndex", "stepId", "stepCount", "errorState"] ["stepIndex", "stepCount"]
    (fun key d (s : PlayerState) => match key with
      | "stepIndex" => return { s with stopIndex := ← int64 d }
      | "stepId" => return { s with stopId := ← orNull text d }
      | "stepCount" => return { s with stopCount := ← natUpTo (Number.twoTo 64 - 1) d }
      | _ => return { s with error := ← orNull actionError d })
    ⟨0, none, 0, none⟩

end Json.Draft

/-- A notice from its topic and what it says; of a topic that is not known it is a drawing. -/
def Notice.ofJson (topic : Option Topic) (data : Json) : Except Json.Fault Notice := do
  match topic with
  | some .stepChange => return stepChange (← Json.decode Json.Draft.playerState data)
  | some .actionError => return actionError (← Json.decode Json.Draft.actionError data)
  | some .error => return error (← Json.decode Json.Draft.actionError data)
  | some .render | none => return render data

end DiagramTour
