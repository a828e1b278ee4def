/-
# SafePlan.Text.Reader — readers of characters

A `Reader` takes the remaining text and ends with a value and what remains
behind it, or stops, and then tells where: at a text that remains. Both
outcomes hold suffixes of the text they began with, so a place in a text is
what remains from there, and `offset` turns it into a number of bytes.

Tokens come with the gaps before them. In a comma-separated list an item that
cannot be read does not fail the list: the list ends before the comma.
-/
import SafePlan.Name

set_option autoImplicit false

namespace SafePlan

/-- A text, or the part of one that is still to be read. -/
abbrev Chars := List Char

abbrev Reader (α : Type) := Chars → Except Chars (α × Chars)

namespace Text

/-- The length in UTF-8. -/
def bytes (text : Chars) : Nat := text.foldr (fun c size => c.utf8Size + size) 0

/-- The byte at which `place` begins in the text it is a suffix of. -/
def offset (text place : Chars) : Nat := bytes text - bytes place

/-! ## Characters -/

/-- Space, tab, carriage return and line feed may stand before any token. -/
def skipGaps (text : Chars) : Chars := text.dropWhile Char.isWhitespace

def isIdentStart (c : Char) : Bool := c.isAlpha || c == '_'

def isIdentChar (c : Char) : Bool := c.isAlphanum || c == '_'

def isTermChar (c : Char) : Bool := isIdentChar c || c == '-' || c == '.'

/-! ## Tokens -/

/-- A single character, behind gaps. -/
def mark (c : Char) : Reader Unit := fun text =>
  match skipGaps text with
  | [] => .error []
  | head :: rest => if head = c then .ok ((), rest) else .error (head :: rest)

/-- The longest run of a first character and later ones, behind gaps. -/
def word (first later : Char → Bool) : Reader Name := fun text =>
  match skipGaps text with
  | [] => .error []
  | head :: rest =>
    if first head then
      .ok (String.ofList (head :: rest.takeWhile later), rest.dropWhile later)
    else .error (head :: rest)

/-- Names of relations and variables. -/
def ident : Reader Name := word isIdentStart isIdentChar

/-- Names of terms. -/
def termName : Reader Name := word isTermChar isTermChar

section Combined

variable {α β : Type}

/-- A reader with its value put to use. -/
def mapped (f : α → β) (reader : Reader α) : Reader β := fun text => do
  let (value, rest) ← reader text
  return (f value, rest)

/-- Something between parentheses. -/
def enclosed (inner : Reader α) : Reader α := fun text => do
  let (_, rest) ← mark '(' text
  let (value, rest) ← inner rest
  let (_, rest) ← mark ')' rest
  return (value, rest)

/-! ## Lists -/

/-- Further items, each behind a comma, as many as can be read and at most the
given number. -/
def further (item : Reader α) : Nat → Chars → List α × Chars
  | 0, text => ([], text)
  | limit + 1, text =>
    match mark ',' text with
    | .error _ => ([], text)
    | .ok (_, afterComma) =>
      match item afterComma with
      | .error _ => ([], text)
      | .ok (first, rest) =>
        let (later, rest) := further item limit rest
        (first :: later, rest)

/-- All further items. Each reads a character, so the text's length is limit
enough. -/
def others (item : Reader α) : Reader (List α) := fun text =>
  .ok (further item text.length text)

/-- Items separated by commas, at least one. -/
def items (item : Reader α) : Reader (List α) := fun text => do
  let (first, rest) ← item text
  let (later, rest) ← others item rest
  return (first :: later, rest)

/-- Items separated by commas, or none. -/
def items? (item : Reader α) : Reader (List α) := fun text =>
  match items item text with
  | .ok read => .ok read
  | .error _ => .ok ([], text)

/-- What a reader makes of a text when nothing but gaps may remain. -/
def complete (reader : Reader α) (text : Chars) : Except Chars α := do
  let (value, rest) ← reader text
  match skipGaps rest with
  | [] => return value
  | stop => throw stop

end Combined

/-! ## Parentheses -/

/-- The place of the first parenthesis that closes nothing or else of the last
one never closed; `opened` holds the places of those still open. -/
def unbalanced? (opened : List Chars) : Chars → Option Chars
  | [] => opened.head?
  | c :: rest =>
    if c = '(' then unbalanced? ((c :: rest) :: opened) rest
    else if c = ')' then
      match opened with
      | [] => some (c :: rest)
      | _ :: outer => unbalanced? outer rest
    else unbalanced? opened rest

end Text

end SafePlan
