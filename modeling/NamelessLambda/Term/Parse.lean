import NamelessLambda.Term.Render
import NamelessLambda.Term.Spine

/-!
Contract: the term that a text is the rendering of.

The text between two brackets is a group: binders first, then parts that are
applied to one another. A reader keeps the group that it is in and the groups
around it, and goes over the text once, character by character. It is more
lenient than the notation; rendering what was read decides whether the text was
a rendering at all.

Owns:
- `Reader`, its moves and the term it ends with;
- `Term.parse?`, which is total on texts.

Does not own:
- the codes of sentinels, which no text shows: each sentinel is read as `-1`.
-/

namespace NamelessLambda

/-- What has been read since the latest bracket that is still open. -/
structure Reader.Group where
  binders : Nat
  /-- The parts read so far, applied to one another. -/
  applied : Option Term
deriving DecidableEq, Repr

namespace Reader.Group

def empty : Group := ⟨0, none⟩

def append (group : Group) (part : Term) : Group :=
  ⟨group.binders, some ((group.applied.map (Term.app · part)).getD part)⟩

def term? (group : Group) : Option Term := group.applied.map (Term.lambda group.binders)

end Reader.Group

/-- Place in a text up to which it has been read. -/
structure Reader where
  group : Reader.Group
  /-- Groups around `group`, the innermost first. -/
  enclosing : List Reader.Group
  /-- Value of the digits since the latest other character. -/
  number : Option Nat
deriving DecidableEq, Repr

namespace Reader

def start : Reader := ⟨.empty, [], none⟩

/-- A number is a part of its own as soon as no further digit follows. -/
def endNumber (reader : Reader) : Reader :=
  match reader.number with
  | none => reader
  | some number => ⟨reader.group.append (.var (Int64.ofInt number)), reader.enclosing, none⟩

/-- Reads a character that is no digit. -/
def readSymbol (reader : Reader) : Char → Option Reader
  | '♥' => some ⟨⟨reader.group.binders + 1, reader.group.applied⟩, reader.enclosing, none⟩
  | '∞' => some ⟨reader.group.append (.var (-1)), reader.enclosing, none⟩
  | '.' => some reader
  | '(' | '[' => some ⟨.empty, reader.group :: reader.enclosing, none⟩
  | ')' | ']' =>
      match reader.group.term?, reader.enclosing with
      | some part, outer :: enclosing => some ⟨outer.append part, enclosing, none⟩
      | _, _ => none
  | _ => none

def read (reader : Reader) (character : Char) : Option Reader :=
  if character.isDigit then
    some { reader with number := some (Nat.ofDigitChars 10 [character] (reader.number.getD 0)) }
  else reader.endNumber.readSymbol character

/-- Term that has been read, if every bracket has been closed. -/
def term? (reader : Reader) : Option Term :=
  match reader.endNumber.enclosing with
  | [] => reader.endNumber.group.term?
  | _ => none

/-- Term that has been read once the rest of the text has been read as well. -/
def run (reader : Reader) (text : List Char) : Option Term :=
  text.foldlM read reader >>= term?

end Reader

/-- Term that `text` is the rendering of, if it is the rendering of any. -/
def Term.parse? (text : String) : Option Term :=
  (Reader.start.run text.toList).filter fun term => term.render == text

end NamelessLambda
