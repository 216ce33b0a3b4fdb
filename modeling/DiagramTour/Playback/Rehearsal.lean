import DiagramTour.Playback.Run

/-!
# Rehearsals

A tour is walked from its first stop to its last without anything that is drawn.  Every action
succeeds, so that what is seen is where the player stands after each move.
-/

namespace DiagramTour

/-- Handlers that succeed for every action of a document. -/
def Handlers.succeeding (d : Document) : Handlers :=
  ⟨(World.clearAction :: d.actions).map fun a => (a.kind, fun _ => .succeed)⟩

/-- A stage on which every action of a document succeeds. -/
def Stage.rehearsing (document : Document) (config : PlaybackConfig) : Stage where
  document
  config
  handlers := .succeeding document
  hasCamera := true
  hasOverlay := true
  paced := true

namespace World

/-- The states after each move to the next stop, until a move leads nowhere; a failure ends them.
There are at most as many as `fuel`. -/
def walk (s : Stage) : Nat → World → List PlayerState × Option ActionError
  | 0, _ => ([], none)
  | fuel + 1, w =>
    match w.perform s (.travel (.offset 1)) with
    | (_, some (.failed e)) => ([], some e)
    | (w', _) =>
      -- The last stop is left by no move
      if w'.position = w.position then ([], none)
      else
        let (states, error) := walk s fuel w'
        (w'.state s :: states, error)

end World

/-- The states of a player on a tour, from the first stop to the last, and the failure that ends
it early. -/
def Stage.rehearse (s : Stage) : List PlayerState × Option ActionError :=
  match ({} : World).perform s (.begin s.document.renderPayload?) with
  | (_, some (.failed e)) => ([], some e)
  | (w, _) =>
    let (states, error) := World.walk s (s.document.stops.length + 1) w
    (w.state s :: states, error)

end DiagramTour
