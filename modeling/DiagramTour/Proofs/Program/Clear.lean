import DiagramTour.Program.Parse.Item
import DiagramTour.Program.Printer
import DiagramTour.Proofs.Lower.Naming
import Mathlib.Data.List.Infix

/-!
# Programs with a clear text

What is printed keeps the words of a program, but not the parentheses, the semicolons, the blanks
and the comments that stood between them.  At five places one of these can be all that keeps two
words apart:

- the point between two numbers on the way into a value, which makes a fraction of them;
- the semicolon between a definition and a block named as an operator is;
- the semicolon between a plugin without a name and a block named `as`;
- the parentheses around the bounds of a camera that begin with a name;
- the comment behind a raw block that opens in a block that is not understood and is not closed
  there.

A program is *clear* if it has none of these.
-/

namespace DiagramTour

/-! ## Expressions -/

/-- Whether a digit comes first. -/
def beginsWithDigit (w : String) : Bool :=
  w.toList.head?.any Char.isDigit

/-- Whether a segment is a number, of which a sign may be the first character. -/
def isNumberSegment (w : String) : Bool :=
  w.toList.head?.any fun c => c.isDigit || c == '-' || c == '+'

/-- Whether no two numbers on a way could be taken for one with a fraction. -/
def isClearPath : List String → Bool
  | v :: w :: rest => !(isNumberSegment v && beginsWithDigit w) && isClearPath (w :: rest)
  | _ => true

namespace Expr

/-- Whether every way in the expression is clear. -/
def isClear (e : Expr) : Bool :=
  e.paths.all isClearPath

/-- Whether a word or a quoted text comes first when the expression is printed. -/
def beginsWithName : Expr → Bool
  | literal ⟨.string _, _⟩ _ | call _ _ | target _ _ => true
  | binary _ left _ _ => !left.isOperation && left.beginsWithName
  | _ => false

/-- Whether the expression can stand for the bounds of a camera without parentheses. -/
def isClearBounds (e : Expr) : Bool :=
  match e with
  | literal ⟨.string text, _⟩ _ => Parse.cameraBounds.contains text
  | _ => !e.beginsWithName

end Expr

/-- Whether the values of settings are clear. -/
def areClear (entries : List (Entry Expr)) : Bool :=
  entries.all fun e => e.value.isClear

/-! ## Statements and bindings -/

/-- Whether the expressions of a statement are clear. -/
def Statement.isClear (s : Statement) : Bool :=
  match s.kind with
  | .focus f => f.pad.all Expr.isClear && f.lock.all Expr.isClear
  | .call c => c.args.all fun a => a.value.isClear
  | .define d => d.value.isClear
  | .assert condition message => condition.isClear && message.all Expr.isClear
  | .metadata m => areClear m.entries

/-- Whether the expressions of a rule are clear. -/
def Rule.isClear (r : Rule) : Bool :=
  r.guard.all Expr.isClear && r.actions.all Statement.isClear

/-- Whether the rules of a binding are clear. -/
def Binding.isClear (b : Binding) : Bool :=
  b.rules.all Rule.isClear

/-- Whether the statements and the bindings of a step are clear. -/
def Step.isClear (s : Step) : Bool :=
  s.statements.all Statement.isClear && s.bindings.all Binding.isClear

/-! ## Declarations -/

/-- Whether the settings of a part of the player are clear. -/
def RuntimeSection.isClear (s : RuntimeSection) : Bool :=
  areClear s.entries &&
    (s.kind != .camera || s.entries.all fun e => e.key != "bounds" || e.value.isClearBounds)

/-- Whether a raw block opens here, as far as its first line tells. -/
def opensRaw : List Char → Bool
  | '<' :: '<' :: '<' :: c :: cs =>
    startsTag c && ((cs.dropWhile continuesTag).takeWhile (· != '\n')).all Text.isBlank
  | _ => false

/-- Whether every raw block that opens in a text is closed there. -/
def isClearRaw (raw : List Char) : Bool :=
  raw.tails.all fun cs => !opensRaw cs || (heredoc? cs).isSome

/-- Whether the next declaration would be taken for a part of this one if a line feed stood between
them. -/
def Item.absorbs (i next : Item) : Bool :=
  match i, next with
  | .define _, .unknown u => u.name == "or" || u.name == "and"
  | .plugin p, .unknown u => p.localName.isNone && p.options.isNone && u.name == "as"
  | _, _ => false

mutual

/-- Whether a declaration by itself is clear. -/
def Item.isClear : Item → Bool
  | .deck items _ => Item.areClear items
  | .diagram d => d.config.all Expr.isClear && d.assets.all Expr.isClear
  | .runtime r => r.sections.all RuntimeSection.isClear
  | .selectors _ => true
  | .styles s => DiagramTour.areClear s.entries
  | .define d => d.value.isClear
  | .scene s => s.steps.all Step.isClear
  | .binding b => b.isClear
  | .plugin p => p.options.all Expr.isClear
  | .metadata m => DiagramTour.areClear m.entries
  | .unknown u => isClearRaw u.raw.toList

/-- Whether declarations one after the other are clear. -/
def Item.areClear : List Item → Bool
  | [] => true
  | i :: is => i.isClear && !is.head?.any i.absorbs && Item.areClear is

end

/-- Whether the program is clear. -/
def Program.isClear (p : Program) : Bool :=
  Item.areClear p.items

end DiagramTour
