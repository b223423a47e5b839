import JackStack.Source.Reading

/-!
# From readings to lexemes

`Unread.next` takes the next lexeme, or the next failure, from what is still unread, and
`Unread.outcomes` repeats it to the end. Blanks and comments are skipped first. A decision that
needs the byte after the current one leaves that byte unread. A failed reading ends the lexeme
under way: the bytes already taken are gone and the next lexeme starts behind them.
-/

namespace JackStack

/-- A lexeme, or why there is none. -/
inductive Outcome where
  | lexeme (found : Lexeme)
  | failure (cause : Error)
  deriving DecidableEq, Repr

/-- The outcome of taking a token that begins at a position. -/
def Outcome.ofToken (pos : Position) : Except Error Token → Outcome
  | .ok t => lexeme ⟨t, pos⟩
  | .error e => failure e

/-- The part of a source that is still unread. -/
structure Unread where
  /-- The position of its first byte. -/
  pos : Position
  /-- What the coming attempts to read give. -/
  readings : List Reading
  deriving DecidableEq, Repr

/-- Space, tab, line feed, form feed and carriage return. -/
def isBlank (b : UInt8) : Bool := b = 32 || b = 9 || b = 10 || b = 12 || b = 13

/-- A decimal digit. -/
def isDigit (b : UInt8) : Bool := 48 ≤ b && b ≤ 57

/-- A letter of either case. -/
def isLetter (b : UInt8) : Bool := (65 ≤ b && b ≤ 90) || (97 ≤ b && b ≤ 122)

/-- A byte that goes on with a word: a letter, a digit or the underscore. -/
def isWordByte (b : UInt8) : Bool := isLetter b || isDigit b || b = 95

/-- The character whose code point is the byte. -/
def byteChar (b : UInt8) : Char := Char.ofNat b.toNat

/-- A byte that is a symbol of its own. -/
def isSymbolByte (b : UInt8) : Bool := symbols.toList.contains (byteChar b)

/-- The largest value of an integer constant that is told apart from larger ones. -/
def integerCap : Nat := 4294967295

/-- A number as a word of 32 bits, or the largest word where it does not fit. -/
def capped (n : Nat) : UInt32 := UInt32.ofNat (min n integerCap)

/-- A number with one more decimal digit behind it. The product and the sum are capped each. -/
def appendDigit (n : UInt32) (d : UInt8) : UInt32 :=
  let shifted := capped (n.toNat * 10)
  capped (shifted.toNat + (d.toNat - 48))

/-- The value of decimal digits, as far as it fits. -/
def digitsValue (digits : List UInt8) : UInt32 := digits.foldl appendDigit 0

/-- The token of a word: a reserved word or else an identifier. -/
def wordToken (word : List UInt8) : Token :=
  let name := String.ofList (word.map byteChar)
  match Keyword.ofText? name with
  | some k => .keyword k
  | none => .identifier name

namespace Unread

/-- Takes bytes as long as they satisfy the test; `taken` holds those before, last one first. -/
def takeWhile (test : UInt8 → Bool) (taken : List UInt8) (pos : Position) :
    List Reading → Except Error (List UInt8) × Unread
  | [] => (.ok taken.reverse, ⟨pos, []⟩)
  | .fault e :: rest => (.error (.io e), ⟨pos, rest⟩)
  | .byte b :: rest =>
    if test b then takeWhile test (b :: taken) (pos.step b) rest
    else (.ok taken.reverse, ⟨pos, .byte b :: rest⟩)

/-- Takes the bytes up to the closing quote and the quote itself. -/
def takeQuoted (start : Position) (taken : List UInt8) (pos : Position) :
    List Reading → Except Error (List UInt8) × Unread
  | [] => (.error (.unterminatedString start), ⟨pos, []⟩)
  | .fault e :: rest => (.error (.io e), ⟨pos, rest⟩)
  | .byte b :: rest =>
    if b = 34 then (.ok taken.reverse, ⟨pos.step b, rest⟩)
    else takeQuoted start (b :: taken) (pos.step b) rest

/-- The string constant that holds the bytes, which have to be text. -/
def stringToken (start : Position) (content : List UInt8) : Except Error Token :=
  match String.fromUTF8? content.toByteArray with
  | some s => .ok (.string s)
  | none => .error (.invalidString start)

/-- Takes the token that begins with a byte at `start`, which has been read; a slash is left to
the caller. -/
def token (start : Position) (b : UInt8) (pos : Position) (rest : List Reading) :
    Except Error Token × Unread :=
  if isSymbolByte b then (.ok (.symbol (byteChar b)), ⟨pos, rest⟩)
  else if b = 34 then
    let (content, unread) := takeQuoted start [] pos rest
    (content.bind (stringToken start), unread)
  else if isDigit b then
    let (digits, unread) := takeWhile isDigit [b] pos rest
    (digits.map fun ds => .integer (digitsValue ds), unread)
  else if isLetter b then
    let (word, unread) := takeWhile isWordByte [b] pos rest
    (word.map wordToken, unread)
  else (.error (.unexpectedChar start (byteChar b)), ⟨pos, rest⟩)

/-- Where in the space between two lexemes the reading stands. -/
inductive Gap where
  /-- Between lexemes and comments. -/
  | blank
  /-- Behind a slash at `start`, which begins a comment or is a symbol. -/
  | slash (start : Position)
  /-- Inside a line comment. -/
  | line
  /-- Inside a block comment that began at `start`; `star` tells whether the byte before is a
  star that may close it. -/
  | block (start : Position) (star : Bool)
  deriving DecidableEq, Repr

/-- Skips the gap and takes the lexeme behind it; none at the end of the input. -/
def nextFrom : Gap → Position → List Reading → Option Outcome × Unread
  | .blank, pos, [] => (none, ⟨pos, []⟩)
  | .slash start, pos, [] => (some (.lexeme ⟨.symbol '/', start⟩), ⟨pos, []⟩)
  | .line, pos, [] => (none, ⟨pos, []⟩)
  | .block start _, pos, [] => (some (.failure (.unterminatedComment start)), ⟨pos, []⟩)
  | _, pos, .fault e :: rest => (some (.failure (.io e)), ⟨pos, rest⟩)
  | .blank, pos, .byte b :: rest =>
    if isBlank b then nextFrom .blank (pos.step b) rest
    else if b = 47 then nextFrom (.slash pos) (pos.step b) rest
    else
      let (result, unread) := token pos b (pos.step b) rest
      (some (.ofToken pos result), unread)
  | .slash start, pos, .byte b :: rest =>
    if b = 47 then nextFrom .line (pos.step b) rest
    else if b = 42 then nextFrom (.block start false) (pos.step b) rest
    else (some (.lexeme ⟨.symbol '/', start⟩), ⟨pos, .byte b :: rest⟩)
  | .line, pos, .byte b :: rest =>
    nextFrom (if b = 10 then .blank else .line) (pos.step b) rest
  | .block start star, pos, .byte b :: rest =>
    if b = 47 && star then nextFrom .blank (pos.step b) rest
    else nextFrom (.block start (b = 42)) (pos.step b) rest

/-- The next lexeme or failure and what is unread behind it; none at the end of the input. -/
def next (u : Unread) : Option Outcome × Unread := nextFrom .blank u.pos u.readings

/-- Repeats `next` a number of times at most; `found` holds the outcomes before, last one
first. -/
def drain : Nat → List Outcome → Unread → List Outcome × Unread
  | 0, found, u => (found.reverse, u)
  | n + 1, found, u =>
    match u.next with
    | (none, u') => (found.reverse, u')
    | (some o, u') => drain n (o :: found) u'

/-- All outcomes up to the end of the input. Each of them takes at least one reading, so their
number is bounded by that of the readings. -/
def outcomes (u : Unread) : List Outcome := (drain u.readings.length [] u).1

/-- The position at the end of the input. -/
def finish (u : Unread) : Position := u.pos.after (Reading.bytes u.readings)

end Unread

/-- A whole source, unread. -/
def Unread.ofReadings (readings : List Reading) : Unread := ⟨.start, readings⟩

end JackStack
