import NamelessLambda.Term.Samples

/-!
Contract: terms as space-separated words in reverse Polish order.

A decimal word is a variable, `L` binds the term before it, `A` applies the
second term before it to the first. When reading, `@name` stands for a sample
and `$name` for a register.

Owns:
- the words, their spelling and their reading;
- `read?`, which keeps a stack of the terms read so far, and `write`.
-/

namespace NamelessLambda.ReversePolish

/-- Word of the notation. -/
inductive Word where
  | var (level : Level)
  | bind
  | apply
  | sample (name : String)
  | register (name : String)
deriving DecidableEq, Repr

namespace Word

/-- Value of a nonempty run of decimal digits. -/
def natural? (digits : List Char) : Option Nat :=
  if digits.isEmpty || !digits.all Char.isDigit then none
  else some (Nat.ofDigitChars 10 digits 0)

/-- Level written as a decimal with an optional minus sign. -/
def level? : List Char → Option Level
  | '-' :: digits => do Level.ofInt? (-(← natural? digits))
  | digits => do Level.ofInt? (← natural? digits)

def ofString? (text : String) : Option Word :=
  match text.toList with
  | ['L'] => some .bind
  | ['A'] => some .apply
  | '@' :: name => some (.sample (String.ofList name))
  | '$' :: name => some (.register (String.ofList name))
  | characters => (level? characters).map .var

def text : Word → String
  | .var level => toString level.toInt
  | .bind => "L"
  | .apply => "A"
  | .sample name => "@" ++ name
  | .register name => "$" ++ name

/-- Effect of a word on the terms read so far, the latest first. -/
def push (registers : String → Option Term) : List Term → Word → Option (List Term)
  | read, .var level => some (.var level :: read)
  | body :: read, .bind => some (.lam body :: read)
  | argument :: function :: read, .apply => some (.app function argument :: read)
  | read, .sample name => (Term.Sample.find? name).map (· :: read)
  | read, .register name => (registers name).map (· :: read)
  | _, _ => none

end Word

/-- Term written in `text`, with `registers` as the meaning of register words. -/
def read? (registers : String → Option Term) (text : String) : Option Term := do
  let words ← (text.splitOn " ").mapM Word.ofString?
  match ← words.foldlM (Word.push registers) [] with
  | [term] => some term
  | _ => none

/-- Words of a term, before `rest`. -/
def wordsOnto : Term → (rest : List Word) → List Word
  | .var level, rest => .var level :: rest
  | .lam body, rest => wordsOnto body (.bind :: rest)
  | .app function argument, rest => wordsOnto function (wordsOnto argument (.apply :: rest))

/-- Text of a term. -/
def write (term : Term) : String :=
  " ".intercalate ((wordsOnto term []).map Word.text)

end NamelessLambda.ReversePolish
