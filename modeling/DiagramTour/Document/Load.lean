import DiagramTour.Document.Json
import DiagramTour.Json.Draft
import DiagramTour.Json.Field

/-!
# Loading documents

A document is read from a JSON text or a JSON value, and its ids are checked.  Fields that are not
known are skipped.
-/

namespace DiagramTour

/-! ## Targets

A target is tagged by its kind, under `type` beside its fields or as the first item of a list of
its fields.  It is looked at only when all of it was read. -/

namespace TargetSpec

/-- The kinds of target in order; a kind may also be given by its place here. -/
def heads : List TargetHead :=
  [.element .node, .edge, .element .subgraph, .matching .css, .matching .id, .matching .text,
   .several .group, .several .union, .several .intersect, .except]

/-- The kind that a tag names. -/
def headOf? : Json → Option TargetHead
  | .str word => TargetHead.ofWord? word
  | .int n => if 0 ≤ n then heads[n.toNat]? else none
  | _ => none

/-- The fields of a target beside its tag: by key, or in order. -/
inductive Content where
  | keyed (fields : List (String × Json))
  | ordered (items : List Json)

/-- The value of a key that is given at most once. -/
def only? (key : String) (fields : List (String × Json)) : Option (Option Json) :=
  match fields.filter fun f => f.1 == key with
  | [] => some none
  | [(_, j)] => some (some j)
  | _ => none

/-- The tag of a target and what stands beside it. -/
def tagged? : Json → Option (TargetHead × Content)
  | .obj fields => do
    let tag ← only? "type" fields
    let head ← tag.bind headOf?
    return (head, .keyed fields)
  | .arr (tag :: items) => do
    let head ← headOf? tag
    return (head, .ordered items)
  | _ => none

/-- The values of some keys; nothing if one is given twice, or more items are given than keys. -/
def Content.values? (keys : List String) : Content → Option (List (Option Json))
  | keyed fields => keys.mapM fun k => only? k fields
  | ordered items =>
    if items.length ≤ keys.length then
      some (items.map some ++ List.replicate (keys.length - items.length) none)
    else none

/-- A text that may be missing or null. -/
def optionalText? : Option Json → Option (Option String)
  | none | some .null => some none
  | some (.str s) => some (some s)
  | some _ => none

/-- A target from JSON; `fuel` bounds its depth. -/
def ofJsonWithin : Nat → Json → Option TargetSpec
  | 0, _ => none
  | fuel + 1, j => do
    let (head, content) ← tagged? j
    match head with
    | .element kind =>
      match ← content.values? ["id"] with
      | [some (.str id)] => some (.element kind id)
      | _ => none
    | .edge =>
      match ← content.values? ["id", "from", "to"] with
      | [id, source, destination] =>
        some (.edge (← optionalText? id) (← optionalText? source) (← optionalText? destination))
      | _ => none
    | .matching key =>
      match ← content.values? [key.field] with
      | [some (.str text)] => some (.matching key text)
      | _ => none
    | .several how =>
      match ← content.values? ["targets"] with
      | [some (.arr items)] => some (.several how (← items.mapM (ofJsonWithin fuel)))
      | _ => none
    | .except =>
      match ← content.values? ["base", "remove"] with
      | [some base, some removed] =>
        some (.except (← ofJsonWithin fuel base) (← ofJsonWithin fuel removed))
      | _ => none

end TargetSpec

/-- A target from JSON. -/
def TargetSpec.ofJson? (j : Json) : Option TargetSpec :=
  ofJsonWithin j.depth j

/-- What a rule listens on, from JSON. -/
def Anchor.ofJson? : Json → Option Anchor
  | .str text => some (.selector text)
  | j => (TargetSpec.ofJson? j).map .spec

/-! ## Shapes -/

namespace Json.Draft

/-- What a rule listens on. -/
def anchor : Shape Anchor := fun d => do
  match Anchor.ofJson? (← d.value) with
  | some a => .ok a
  | none => .error .unexpectedShape

/-- A natural number of 64 bits. -/
def nat64 : Shape Nat :=
  natUpTo (Number.twoTo 64 - 1)

/-- An action. -/
def action : Shape Action :=
  record ["type", "payload"] ["type"]
    (fun key d (a : Action) => match key with
      | "type" => return { a with kind := ← text d }
      | _ => return { a with payload := ← orNull any d })
    ⟨"", none⟩

/-- A rule. -/
def reaction : Shape Reaction :=
  record ["event", "target", "key", "delayMs", "eventName", "actions"] ["event"]
    (fun key d (r : Reaction) => match key with
      | "event" => return { r with event := ← oneOf EventKind.ofName? d }
      | "target" => return { r with anchor := ← orNull anchor d }
      | "key" => return { r with key := ← orNull text d }
      | "delayMs" => return { r with delayMs := ← orNull nat64 d }
      | "eventName" => return { r with eventName := ← orNull text d }
      | _ => return { r with actions := ← list action d })
    ⟨.click, none, none, none, none, []⟩

/-- A stop. -/
def stop : Shape Stop :=
  record ["id", "name", "actions", "bindings", "errorPolicy", "meta"] ["id"]
    (fun key d (s : Stop) => match key with
      | "id" => return { s with id := ← text d }
      | "name" => return { s with name := ← orNull text d }
      | "actions" => return { s with actions := ← list action d }
      | "bindings" => return { s with reactions := ← list reaction d }
      | "errorPolicy" => return { s with errorPolicy := ← orNull (oneOf ErrorPolicy.ofName?) d }
      | _ => return { s with metadata := ← map d })
    ⟨"", none, [], [], none, []⟩

/-- A diagram. -/
def diagram : Shape DiagramSpec :=
  record ["kind", "source", "name", "config"] ["kind", "source"]
    (fun key d (s : DiagramSpec) => match key with
      | "kind" => return { s with kind := ← text d }
      | "source" => return { s with source := ← text d }
      | "name" => return { s with name := ← orNull text d }
      | _ => return { s with config := ← orNull any d })
    ⟨"", "", none, none⟩

/-- A document. -/
def document : Shape Document :=
  record ["steps", "bindings", "diagram", "meta"] ["steps"]
    (fun key d (doc : Document) => match key with
      | "steps" => return { doc with stops := ← list stop d }
      | "bindings" => return { doc with reactions := ← list reaction d }
      | "diagram" => return { doc with diagram := ← orNull diagram d }
      | _ => return { doc with metadata := ← map d })
    .empty

end Json.Draft

/-! ## Documents -/

/-- Why a document cannot be loaded. -/
inductive LoadError where
  /-- It is not JSON, or JSON of another shape. -/
  | json (fault : Json.Fault)
  /-- Its ids are not usable. -/
  | ids (error : IdError)
deriving DecidableEq, Repr

/-- The sentence that tells the error; what JSON has to say is left out. -/
def LoadError.message : LoadError → String
  | json _ => "Invalid document JSON"
  | ids e => e.message

/-- Checks the ids of a document that was read. -/
def Document.checked (read : Except Json.Fault Document) : Except LoadError Document :=
  match read with
  | .error f => .error (.json f)
  | .ok d => match d.idError? with
    | some e => .error (.ids e)
    | none => .ok d

/-- Loads a document from a JSON text. -/
def Document.ofText (source : String) : Except LoadError Document :=
  checked (Json.decodeText Json.Draft.document source)

/-- Loads a document from a JSON value. -/
def Document.ofJson (j : Json) : Except LoadError Document :=
  checked (Json.decode Json.Draft.document j)

end DiagramTour
