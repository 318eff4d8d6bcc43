import Retarget.Json
import Retarget.Text.Numeral

/-!
# Reading JSON

The whole text is one value between blanks, which are space, tab, line feed and
carriage return. Numbers have no leading zeros, strings no raw control characters,
and lists no trailing commas. Each part of the reader takes the characters from
where it stands and gives back what is left.
-/

namespace Retarget.Json.Reader

/-- A character that may stand between tokens. -/
def isBlank (c : Char) : Bool := c == ' ' || c == '\t' || c == '\n' || c == '\r'

/-- The text from the next token on. -/
def skip (cs : List Char) : List Char := cs.dropWhile isBlank

/-- A part of a string: a character, or the code unit that an escape names. -/
inductive Piece where
  | char (c : Char)
  | unit (n : Nat)
deriving DecidableEq, Repr

/-- The characters that an escape of one letter stands for. -/
def escaped? : Char → Option Char
  | '"' => some '"'
  | '\\' => some '\\'
  | '/' => some '/'
  | 'b' => some '\x08'
  | 'f' => some '\x0c'
  | 'n' => some '\n'
  | 'r' => some '\r'
  | 't' => some '\t'
  | _ => none

def hexUnit? (digits : List Char) : Option Nat :=
  digits.foldlM (fun n c => (Numeral.digitValue? 16 c).map (16 * n + ·)) 0

/-- The pieces up to the closing quote, given those before in reverse. -/
def pieces (before : List Piece) : List Char → Option (List Piece × List Char)
  | [] => none
  | '"' :: cs => some (before.reverse, cs)
  | '\\' :: 'u' :: a :: b :: c :: d :: cs =>
    match hexUnit? [a, b, c, d] with
    | none => none
    | some n => pieces (.unit n :: before) cs
  | '\\' :: e :: cs =>
    match escaped? e with
    | none => none
    | some c => pieces (.char c :: before) cs
  | c :: cs => if c.toNat < 0x20 ∨ c = '\\' then none else pieces (.char c :: before) cs

def isHighSurrogate (n : Nat) : Bool := 0xd800 ≤ n && n < 0xdc00

def isLowSurrogate (n : Nat) : Bool := 0xdc00 ≤ n && n < 0xe000

/-- Joins surrogate pairs; there is no text with half of one. -/
def assemble : List Piece → Option (List Char)
  | [] => some []
  | .char c :: ps => (assemble ps).map (c :: ·)
  | .unit n :: ps =>
    if isHighSurrogate n then
      match ps with
      | .unit m :: ps =>
        if isLowSurrogate m then
          (assemble ps).map (Char.ofNat (0x10000 + 0x400 * (n - 0xd800) + (m - 0xdc00)) :: ·)
        else none
      | _ => none
    else if isLowSurrogate n then none
    else (assemble ps).map (Char.ofNat n :: ·)

/-- The rest of a string after its opening quote. -/
def string (cs : List Char) : Option (Option String × List Char) :=
  (pieces [] cs).map fun (ps, rest) => ((assemble ps).map String.ofList, rest)

/-- The leading digits and what follows, if there is a digit. -/
def digits (cs : List Char) : Option (List Char × List Char) :=
  match cs.takeWhile Char.isDigit with
  | [] => none
  | ds => some (ds, cs.dropWhile Char.isDigit)

/-- The fraction of a number, if one follows; the flag says whether it does. -/
def fraction : List Char → Option (Bool × List Char)
  | '.' :: cs => (digits cs).map fun (_, rest) => (true, rest)
  | cs => some (false, cs)

/-- The exponent of a number, if one follows; the flag says whether it does. -/
def exponent : List Char → Option (Bool × List Char)
  | c :: cs =>
    if c = 'e' ∨ c = 'E' then
      let unsigned :=
        match cs with
        | '+' :: cs => cs
        | '-' :: cs => cs
        | cs => cs
      (digits unsigned).map fun (_, rest) => (true, rest)
    else some (false, c :: cs)
  | [] => some (false, [])

/-- A number without its sign. Only `0` itself may begin with a zero. -/
def magnitude (cs : List Char) : Option (Option Nat × List Char) :=
  match digits cs with
  | none => none
  | some (ds, rest) =>
    if ds.length > 1 ∧ ds.head? = some '0' then none
    else
      match fraction rest with
      | none => none
      | some (hasFraction, rest) =>
        match exponent rest with
        | none => none
        | some (hasExponent, rest) =>
          let value := ds.foldl (fun n d => 10 * n + (d.toNat - 48)) 0
          some (if hasFraction || hasExponent then none else some value, rest)

def word? (w : String) (cs : List Char) : Option (List Char) :=
  if w.toList.isPrefixOf cs then some (cs.drop w.length) else none

/-- A value that holds no others. -/
def scalar : List Char → Option (Json × List Char)
  | '"' :: cs => (string cs).map fun (text, rest) => (.string text, rest)
  | '-' :: cs => (magnitude cs).map fun (_, rest) => (.number none, rest)
  | 'n' :: cs => (word? "ull" cs).map fun rest => (.null, rest)
  | 't' :: cs => (word? "rue" cs).map fun rest => (.bool true, rest)
  | 'f' :: cs => (word? "alse" cs).map fun rest => (.bool false, rest)
  | cs => (magnitude cs).map fun (value, rest) => (.number value, rest)

/-- A list that is still open, with what it holds so far in reverse. -/
inductive Frame where
  | array (before : List Json)
  /-- The key belongs to the member that comes next. -/
  | object (before : List (Option String × Json)) (key : Option String)

def key? (cs : List Char) : Option (Option String × List Char) :=
  match skip cs with
  | '"' :: cs =>
    match string cs with
    | none => none
    | some (key, rest) =>
      match skip rest with
      | ':' :: rest => some (key, rest)
      | _ => none
  | _ => none

inductive Position where
  /-- Before a value. -/
  | before
  /-- After a value. -/
  | after (v : Json)

/-- Reads on inside the open lists, the innermost one first, until the outermost
value is complete. Every step but the last takes at least one character. -/
def run : (fuel : Nat) → List Frame → Position → List Char → Option (Json × List Char)
  | 0, _, _, _ => none
  | fuel + 1, frames, .before, cs =>
    match skip cs with
    | '[' :: cs =>
      match skip cs with
      | ']' :: rest => run fuel frames (.after (.array [])) rest
      | cs => run fuel (.array [] :: frames) .before cs
    | '\x7b' :: cs =>
      match skip cs with
      | '\x7d' :: rest => run fuel frames (.after (.object [])) rest
      | cs =>
        match key? cs with
        | none => none
        | some (key, rest) => run fuel (.object [] key :: frames) .before rest
    | cs =>
      match scalar cs with
      | none => none
      | some (v, rest) => run fuel frames (.after v) rest
  | _ + 1, [], .after v, cs => some (v, cs)
  | fuel + 1, .array before :: frames, .after v, cs =>
    match skip cs with
    | ',' :: rest => run fuel (.array (v :: before) :: frames) .before rest
    | ']' :: rest => run fuel frames (.after (.array (v :: before).reverse)) rest
    | _ => none
  | fuel + 1, .object before key :: frames, .after v, cs =>
    match skip cs with
    | ',' :: rest =>
      match key? rest with
      | none => none
      | some (next, rest) => run fuel (.object ((key, v) :: before) next :: frames) .before rest
    | '\x7d' :: rest => run fuel frames (.after (.object ((key, v) :: before).reverse)) rest
    | _ => none

end Reader

def parse? (text : String) : Option Json :=
  let cs := text.toList
  match Reader.run (cs.length + 1) [] .before cs with
  | none => none
  | some (v, rest) => if (Reader.skip rest).isEmpty then some v else none

end Retarget.Json
