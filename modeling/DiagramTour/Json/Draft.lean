import DiagramTour.Json.Basic
import DiagramTour.Number.Reading
import DiagramTour.Text.Position

/-!
# Reading JSON

Whoever reads a JSON text wants it in a certain shape, and is told of the first offence from left
to right, be it against the grammar or against the shape.  A `Draft` is what a text says with its
offences left in place: it is a tree whose flaws sit where they were found, so that a reader who
walks the tree from left to right meets them in the order of the text.

Some flaws matter only to who looks at the part in question.  Half of a surrogate pair, a number
beyond the doubles and too deep a nesting are no offence in a part that is skipped.  Who wants one
of some names goes by the first character and refuses a number or a word without reading it, so the
beginning of one at the end of the text is kept apart from other flaws.
-/

namespace DiagramTour.Json

/-- Why a text is not the JSON that was asked for. -/
inductive Fault where
  /-- It breaks the grammar of JSON. -/
  | malformed
  /-- It ends too early. -/
  | truncated
  /-- It is JSON of another shape. -/
  | unexpectedShape
deriving DecidableEq, Repr, Inhabited

/-- The name of the category of a fault. -/
def Fault.category : Fault → String
  | malformed => "syntax"
  | truncated => "eof"
  | unexpectedShape => "data"

/-- A JSON text as far as it can be read. -/
inductive Draft where
  | null
  | bool (value : Bool)
  | int (value : Int)
  | float (value : Float)
  | str (value : String)
  /-- Items, and what is wrong after the last one. -/
  | arr (items : List Draft) (close : Option Fault)
  /-- Keys and values, and what is wrong after the last one. -/
  | obj (fields : List (Draft × Draft)) (close : Option Fault)
  /-- A list or an object nested too deeply to be looked at. -/
  | deep (inner : Draft)
  /-- The beginning of a number or a word at the end of the text, which is cut short for who looks
  at it: whether it may become null, and what is wrong for who skips it. -/
  | torn (mayBeNull : Bool) (skipped : Fault)
  /-- A flaw: what is wrong for who looks at it, and for who skips it. -/
  | flawed (seen : Fault) (skipped : Option Fault)
deriving Repr, Inhabited

namespace Draft

/-- A flaw for everyone. -/
def broken (f : Fault) : Draft :=
  flawed f (some f)

/-- A flaw only for who looks at it. -/
def spoiled : Draft :=
  flawed .malformed none

/-! ## Numbers

A number keeps the leading digits that fit 64 bits; the digits after them only move the point.
The double is then one multiplication or division by a power of ten away. -/

/-- Appends digits to a number while it fits 64 bits, and counts them. -/
def absorb (n : Nat) : List Char → Nat × Nat
  | [] => (n, 0)
  | d :: ds =>
    let m := 10 * n + Number.digitValue d
    if m < Number.twoTo 64 then
      let (r, k) := absorb m ds
      (r, k + 1)
    -- This digit and all after it only move the point
    else (n, 0)

/-- The double nearest to a power of ten. -/
def powerOfTen (k : Nat) : Float :=
  Float.ofScientific 1 false k

/-- The greatest exponent of ten that a double can hold. -/
def topExponent : Nat := 308

/-- A double divided by a power of ten, in steps if the power is beyond the doubles. -/
def scaleDown (x : Float) (k : Nat) : Float :=
  if k ≤ topExponent then x / powerOfTen k
  else if x == 0 then x
  else scaleDown (x / powerOfTen topExponent) (k - topExponent)
termination_by k
decreasing_by simp only [topExponent] at *; omega

/-- The double `n * 10 ^ e`, unless it is out of range. -/
def scaled? (n : Nat) (e : Int) : Option Float :=
  let x := Float.ofNat n
  if e < 0 then some (scaleDown x (-e).toNat)
  else if e.toNat ≤ topExponent then
    let y := x * powerOfTen e.toNat
    if y.isFinite then some y else none
  else if x == 0 then some x else none

/-- A double with its sign, as a part of a text. -/
def ofScaled (negative : Bool) (n : Nat) (e : Int) : Draft :=
  match scaled? n e with
  | some x => float (if negative then -x else x)
  | none => spoiled

/-- What is wrong where a digit is missing: at the end of the text it was cut short, unless it is
skipped. -/
def missingDigit : List Char → Draft
  | [] => torn false .malformed
  | _ => broken .malformed

/-- The exponent of a number, after its mark. -/
def readExponent (negative : Bool) (n : Nat) (e : Int) (cs : List Char) : Draft × List Char :=
  let (down, cs) := match cs with
    | '+' :: rest => (false, rest)
    | '-' :: rest => (true, rest)
    | _ => (false, cs)
  let ds := cs.takeWhile Char.isDigit
  let rest := cs.dropWhile Char.isDigit
  if ds.isEmpty then (missingDigit cs, [])
  else
    let k := Number.natOfDigits ds
    if k < Number.twoTo 31 then (ofScaled negative n (if down then e - k else e + k), rest)
    -- So large an exponent leaves nothing but zero, or goes beyond the doubles
    else if n = 0 || down then (float (if negative then -0.0 else 0.0), rest)
    else (spoiled, rest)

/-- What follows the digits `n` of a number, of which the point stands `e` places to the right. -/
def readExponent? (negative : Bool) (n : Nat) (e : Int) : List Char → Option (Draft × List Char)
  | 'e' :: cs => some (readExponent negative n e cs)
  | 'E' :: cs => some (readExponent negative n e cs)
  | _ => none

/-- A whole number; below the least integer, and for zero with a sign, it is a double. -/
def wholeNumber (negative : Bool) (n : Nat) : Draft :=
  if negative then
    if n = 0 || Number.twoTo 63 < n then float (-(Float.ofNat n)) else int (-(n : Int))
  else int n

/-- A number after its sign. -/
def readNumber (negative : Bool) (cs : List Char) : Draft × List Char :=
  let ds := cs.takeWhile Char.isDigit
  let rest := cs.dropWhile Char.isDigit
  if ds.isEmpty then (missingDigit cs, [])
  -- A leading zero stands alone
  else if ds.head? = some '0' && ds.length ≠ 1 then (broken .malformed, [])
  else
    let (n, kept) := absorb 0 ds
    let excess := ds.length - kept
    match rest with
    | '.' :: after =>
      let fs := after.takeWhile Char.isDigit
      let rest := after.dropWhile Char.isDigit
      if fs.isEmpty then (missingDigit after, [])
      else
        let (m, k) := absorb n fs
        let e : Int := (excess : Int) - k
        (readExponent? negative m e rest).getD (ofScaled negative m e, rest)
    | _ =>
      (readExponent? negative n excess rest).getD
        (if excess = 0 then wholeNumber negative n else ofScaled negative n excess, rest)

/-! ## Texts -/

/-- One sign of a quoted text: a character, or half of a pair. -/
inductive TextUnit where
  | char (c : Char)
  | high (n : Nat)
  | low (n : Nat)

/-- The value of a hexadecimal digit. -/
def hexValue? (c : Char) : Option Nat :=
  if c.isDigit then some (c.toNat - 0x30)
  else if 'a' ≤ c && c ≤ 'f' then some (c.toNat - 0x61 + 10)
  else if 'A' ≤ c && c ≤ 'F' then some (c.toNat - 0x41 + 10)
  else none

/-- The number of four hexadecimal digits. -/
def hexNumber? (cs : List Char) : Option Nat :=
  cs.foldl (fun n c => n.bind fun n => (hexValue? c).map (16 * n + ·)) (some 0)

/-- The sign that an escape by number stands for. -/
def unitOfCode (n : Nat) : TextUnit :=
  if 0xD800 ≤ n && n < 0xDC00 then .high n
  else if 0xDC00 ≤ n && n < 0xE000 then .low n
  else .char (Char.ofNat n)

/-- What a backslash and a character stand for, unless it is an escape by number. -/
def simpleEscape? (c : Char) : Option Char :=
  if c = '\x22' then some '\x22' else if c = '\\' then some '\\' else if c = '/' then some '/'
  else if c = 'b' then some '\x08' else if c = 'f' then some '\x0c'
  else if c = 'n' then some '\n' else if c = 'r' then some '\r' else if c = 't' then some '\t'
  else none

/-- The bytes that an escape by number needs at least. -/
def fewerThanFourBytes (cs : List Char) : Bool :=
  utf8Length cs < 4

/-- The signs of a text after its opening quote; what is wrong with it; what follows it. -/
def readUnits : List Char → List TextUnit × Option Fault × List Char
  | [] => ([], some .truncated, [])
  | '\x22' :: cs => ([], none, cs)
  | '\\' :: 'u' :: cs =>
    match cs with
    | a :: b :: c :: d :: rest =>
      match hexNumber? [a, b, c, d] with
      | some n =>
        let (us, fault, after) := readUnits rest
        (unitOfCode n :: us, fault, after)
      | none => ([], some .malformed, [])
    | _ => ([], some (if fewerThanFourBytes cs then .truncated else .malformed), [])
  | '\\' :: [] => ([], some .truncated, [])
  | '\\' :: c :: cs =>
    match simpleEscape? c with
    | some e =>
      let (us, fault, after) := readUnits cs
      (.char e :: us, fault, after)
    | none => ([], some .malformed, [])
  | c :: cs =>
    if c.toNat < 0x20 then ([], some .malformed, [])
    else
      let (us, fault, after) := readUnits cs
      (.char c :: us, fault, after)

/-- The characters of some signs; nothing if a half stands alone.  `whole` says whether the text
ends after them. -/
def charsOf? (whole : Bool) : List TextUnit → Option (List Char)
  | [] => some []
  | .char c :: us => (charsOf? whole us).map (c :: ·)
  | .low _ :: _ => none
  -- Where the text is cut short, the other half might have followed
  | .high _ :: [] => if whole then none else some []
  | .high h :: .low l :: us =>
    (charsOf? whole us).map (Char.ofNat (0x10000 + (h - 0xD800) * 0x400 + (l - 0xDC00)) :: ·)
  | .high _ :: _ :: _ => none

/-- A text after its opening quote. -/
def readText (cs : List Char) : Draft × List Char :=
  let (us, fault, after) := readUnits cs
  match charsOf? fault.isNone us, fault with
  | some text, none => (str (String.ofList text), after)
  | some _, some f => (broken f, after)
  | none, f => (flawed .malformed f, after)

/-! ## Values -/

/-- The blanks of JSON. -/
def isBlank (c : Char) : Bool :=
  c == ' ' || c == '\n' || c == '\t' || c == '\r'

/-- The text after its leading blanks. -/
def skipBlanks (cs : List Char) : List Char :=
  cs.dropWhile isBlank

/-- Whether a part is null. -/
def isNull : Draft → Bool
  | null => true
  | _ => false

/-- The rest of a word that stands for a value. -/
def readWord (value : Draft) : List Char → List Char → Draft × List Char
  | [], cs => (value, cs)
  | _ :: _, [] => (torn value.isNull .truncated, [])
  | e :: es, c :: cs => if e = c then readWord value es cs else (broken .malformed, [])

/-- The deepest nesting that is looked at. -/
def depthLimit : Nat := 127

/-- A field that is missing after a comma; nothing is read after it. -/
def missingField (f : Fault) : List (Draft × Draft) × Option Fault × List Char :=
  ([(broken f, broken f)], some f, [])

/-- A list or an object inside `level` others. -/
def atLevel (level : Nat) (d : Draft) : Draft :=
  if level < depthLimit then d else deep d

mutual

/-- A value inside `level` others; `fuel` bounds the steps. -/
def readValue (fuel level : Nat) (cs : List Char) : Draft × List Char :=
  match fuel with
  | 0 => (broken .truncated, [])
  | fuel + 1 =>
    match skipBlanks cs with
    | [] => (broken .truncated, [])
    | 'n' :: rest => readWord null ['u', 'l', 'l'] rest
    | 't' :: rest => readWord (bool true) ['r', 'u', 'e'] rest
    | 'f' :: rest => readWord (bool false) ['a', 'l', 's', 'e'] rest
    | '-' :: rest => readNumber true rest
    | '\x22' :: rest => readText rest
    | '[' :: rest =>
      let (items, close, after) := readItems fuel (level + 1) true rest
      (atLevel level (arr items close), after)
    | '\x7b' :: rest =>
      let (fields, close, after) := readFields fuel (level + 1) true rest
      (atLevel level (obj fields close), after)
    | c :: rest => if c.isDigit then readNumber false (c :: rest) else (broken .malformed, [])

/-- The items of a list up to its end; `first` says whether none was read yet. -/
def readItems (fuel level : Nat) (first : Bool) (cs : List Char) :
    List Draft × Option Fault × List Char :=
  match fuel with
  | 0 => ([], some .truncated, [])
  | fuel + 1 =>
    match skipBlanks cs with
    | [] => ([], some .truncated, [])
    | ']' :: rest => ([], none, rest)
    | c :: rest =>
      if first then
        let (item, after) := readValue fuel level (c :: rest)
        let (items, close, after) := readItems fuel level false after
        (item :: items, close, after)
      else if c = ',' then
        let (item, after) := readValue fuel level rest
        let (items, close, after) := readItems fuel level false after
        (item :: items, close, after)
      else ([], some .malformed, [])

/-- The fields of an object up to its end. -/
def readFields (fuel level : Nat) (first : Bool) (cs : List Char) :
    List (Draft × Draft) × Option Fault × List Char :=
  match fuel with
  | 0 => ([], some .truncated, [])
  | fuel + 1 =>
    match skipBlanks cs with
    | [] => ([], some .truncated, [])
    | '\x7d' :: rest => ([], none, rest)
    | c :: rest =>
      if first || c = ',' then
        match skipBlanks (if first then c :: rest else rest) with
        | [] => missingField .truncated
        | '\x22' :: rest =>
          let (key, after) := readText rest
          let (value, after) := match skipBlanks after with
            | [] => (broken .truncated, [])
            | ':' :: rest => readValue fuel level rest
            | _ => (broken .malformed, [])
          let (fields, close, after) := readFields fuel level false after
          ((key, value) :: fields, close, after)
        | _ => missingField .malformed
      else ([], some .malformed, [])

end

/-- What a text says, and whether more than blanks follows it. -/
def ofText (text : String) : Draft × Bool :=
  let cs := text.toList
  let (d, after) := readValue (2 * cs.length + 2) 0 cs
  (d, !(skipBlanks after).isEmpty)

/-! ## Looking at a part, and skipping it -/

mutual

/-- The first offence in a part that is skipped. -/
def skipFault : Draft → Option Fault
  | arr items close => (skipFaultItems items).or close
  | obj fields close => (skipFaultFields fields).or close
  | deep inner => skipFault inner
  | torn _ skipped => some skipped
  | flawed _ skipped => skipped
  | _ => none

/-- The first offence in skipped items. -/
def skipFaultItems : List Draft → Option Fault
  | [] => none
  | d :: ds => (skipFault d).or (skipFaultItems ds)

/-- The first offence in skipped fields. -/
def skipFaultFields : List (Draft × Draft) → Option Fault
  | [] => none
  | (k, d) :: fs => ((skipFault k).or (skipFault d)).or (skipFaultFields fs)

end

/-- A part that is skipped. -/
def skip (d : Draft) : Except Fault Unit :=
  match d.skipFault with
  | some f => .error f
  | none => .ok ()

/-- The fault of a part that is not of the shape that was asked for. -/
def mismatch : Draft → Fault
  | torn _ _ => .truncated
  | flawed seen _ => seen
  | _ => .unexpectedShape

/-- Ends a list or an object. -/
def closing (close : Option Fault) (a : α) : Except Fault α :=
  match close with
  | some f => .error f
  | none => .ok a

mutual

/-- The value of a part as it stands: fields in their order, repeated ones included. -/
def value : Draft → Except Fault Json
  | null => .ok .null
  | bool b => .ok (.bool b)
  | int n => .ok (.int n)
  | float x => .ok (.float x)
  | str s => .ok (.str s)
  | arr items close => do closing close (.arr (← values items))
  | obj fields close => do closing close (.obj (← fieldValues fields))
  | deep _ => .error .malformed
  | torn _ _ => .error .truncated
  | flawed seen _ => .error seen

/-- The values of items. -/
def values : List Draft → Except Fault (List Json)
  | [] => .ok []
  | d :: ds => do
    let j ← value d
    let js ← values ds
    .ok (j :: js)

/-- The values of fields. -/
def fieldValues : List (Draft × Draft) → Except Fault (List (String × Json))
  | [] => .ok []
  | (str k, d) :: fs => do
    let j ← value d
    let js ← fieldValues fs
    .ok ((k, j) :: js)
  | (k, _) :: _ => .error (mismatch k)

end

/-- Any JSON value: objects are maps, and of two values for one key the last wins. -/
def any (d : Draft) : Except Fault Json :=
  d.value.map Json.settle

mutual

/-- A value as a draft without flaws. -/
def ofJson : Json → Draft
  | .null => null
  | .bool b => bool b
  | .int n => int n
  | .float x => float x
  | .str s => str s
  | .arr items => arr (ofItems items) none
  | .obj fields => obj (ofFields fields) none

/-- Items as drafts. -/
def ofItems : List Json → List Draft
  | [] => []
  | j :: js => ofJson j :: ofItems js

/-- Fields as drafts. -/
def ofFields : List (String × Json) → List (Draft × Draft)
  | [] => []
  | (k, j) :: fs => (str k, ofJson j) :: ofFields fs

end

/-! ## Shapes -/

/-- A way to look at a part. -/
abbrev Shape (α : Type) := Draft → Except Fault α

/-- A text. -/
def text : Shape String
  | str s => .ok s
  | d => .error d.mismatch

/-- A natural number up to a limit. -/
def natUpTo (limit : Nat) : Shape Nat
  | int n => if 0 ≤ n && n ≤ limit then .ok n.toNat else .error .unexpectedShape
  | d => .error d.mismatch

/-- Null for nothing. -/
def orNull (shape : Shape α) : Shape (Option α)
  | null => .ok none
  | torn true _ => .error .truncated
  | d => (shape d).map some

/-- A list of parts of one shape. -/
def list (shape : Shape α) : Shape (List α)
  | arr items close => do
    let as ← items.mapM shape
    closing close as
  | deep _ => .error .malformed
  | d => .error d.mismatch

/-- A map from keys to values. -/
def map : Shape (List (String × Json))
  | obj fields close => do
    let fs ← fieldValues fields
    closing close (Json.mapOf (Json.settleFields fs))
  | deep _ => .error .malformed
  | d => .error d.mismatch

/-- One of some names; it may also be the only key of an object, with null for its value.  A part
that begins neither as a text nor as an object is refused as it stands. -/
def oneOf (ofName : String → Option α) : Shape α
  | str s => match ofName s with
    | some a => .ok a
    | none => .error .unexpectedShape
  | obj ((str s, d) :: rest) close =>
    match ofName s with
    | none => .error .unexpectedShape
    | some a =>
      match d with
      -- After the value, a comma is as wrong as anything else that does not end the object
      | null => if rest.isEmpty then closing close a else .error .malformed
      | d => .error d.mismatch
  | obj ((k, _) :: _) _ => .error k.mismatch
  | obj [] (some f) => .error f
  | flawed seen _ => .error seen
  | _ => .error .malformed

/-! ## Records

A record is an object with known keys; others are skipped, and a key that is given twice is an
offence.  It may also be a list of the values in the order of the keys, of which the last ones may
be missing where they are not needed. -/

/-- The fields of an object, set one after the other; `seen` are the keys that were set. -/
def setFields (names : List String) (set : String → Draft → σ → Except Fault σ) (seen : List String)
    (s : σ) : List (Draft × Draft) → Except Fault (σ × List String)
  | [] => .ok (s, seen)
  | (str k, d) :: fs =>
    if names.contains k then
      if seen.contains k then .error .unexpectedShape
      else do
        let s ← set k d s
        setFields names set (k :: seen) s fs
    else do
      skip d
      setFields names set seen s fs
  | (k, _) :: _ => .error (mismatch k)

/-- The items of a list, set as the fields of the names in order. -/
def setItems (set : String → Draft → σ → Except Fault σ) (seen : List String) (s : σ) :
    List String → List Draft → Except Fault (σ × List String × Bool)
  | _, [] => .ok (s, seen, false)
  | [], _ :: _ => .ok (s, seen, true)
  | k :: ks, d :: ds => do
    let s ← set k d s
    setItems set (k :: seen) s ks ds

/-- A record with some names, of which some are needed. -/
def record (names needed : List String) (set : String → Draft → σ → Except Fault σ) (start : σ) :
    Shape σ
  | obj fields close => do
    let (s, seen) ← setFields names set [] start fields
    let s ← closing close s
    if needed.all seen.contains then .ok s else .error .unexpectedShape
  | arr items close => do
    let (s, seen, more) ← setItems set [] start names items
    -- Asking for an item that is missing meets what is wrong after the last one
    let complete := seen.length == names.length
    let s ← if complete then .ok s else closing close s
    if !needed.all seen.contains then .error .unexpectedShape
    else if more then .error .malformed
    else closing close s
  | deep _ => .error .malformed
  | d => .error d.mismatch

end Draft

/-- What a text says in a shape; nothing but blanks may follow. -/
def decodeText (shape : Draft.Shape α) (source : String) : Except Fault α :=
  let (d, more) := Draft.ofText source
  match shape d with
  | .ok a => if more then .error .malformed else .ok a
  | .error f => .error f

/-- What a value says in a shape; a value has no other fault than a shape that was not asked for. -/
def decode (shape : Draft.Shape α) (j : Json) : Except Fault α :=
  (shape (Draft.ofJson j)).mapError fun _ => .unexpectedShape

/-- Any value that a text says. -/
def ofText (source : String) : Except Fault Json :=
  decodeText Draft.any source

end DiagramTour.Json
