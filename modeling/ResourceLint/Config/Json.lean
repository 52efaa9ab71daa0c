/-
Values written in JSON.

The reader takes exactly the standard's grammar: no comma at the end of a
list, no leading zeros, no control characters in strings, and escaped
surrogates only in pairs.
-/
import ResourceLint.Config.Data

namespace ResourceLint.Config.Json

def isSpace (c : Char) : Bool := c == ' ' || c == '\t' || c == '\n' || c == '\r'

def skip (s : List Char) : List Char := s.dropWhile isSpace

-- ============================================================= strings

def hexDigit? (c : Char) : Option Nat :=
  let n := c.toNat
  if 48 ≤ n ∧ n ≤ 57 then some (n - 48)
  else if 97 ≤ n ∧ n ≤ 102 then some (n - 87)
  else if 65 ≤ n ∧ n ≤ 70 then some (n - 55)
  else none

/-- Four hexadecimal digits. -/
def hexUnit : List Char → Option (Nat × List Char)
  | a :: b :: c :: d :: rest => do
    let value := (← hexDigit? a) * 4096 + (← hexDigit? b) * 256 + (← hexDigit? c) * 16
      + (← hexDigit? d)
    some (value, rest)
  | _ => none

/-- The character after a backslash that stands for one by itself. -/
def plainEscape? : Char → Option Char
  | '"' => some '"'
  | '\\' => some '\\'
  | '/' => some '/'
  | 'b' => some '\x08'
  | 'f' => some '\x0C'
  | 'n' => some '\n'
  | 'r' => some '\r'
  | 't' => some '\t'
  | _ => none

/-- The character that an escape stands for, given what follows the
backslash. -/
def escaped : List Char → Option (Char × List Char)
  | 'u' :: rest => do
    let (high, rest) ← hexUnit rest
    if 0xD800 ≤ high ∧ high < 0xDC00 then
      match rest with
      | '\\' :: 'u' :: rest =>
        let (low, rest) ← hexUnit rest
        if 0xDC00 ≤ low ∧ low < 0xE000 then
          some (Char.ofNat (0x10000 + (high - 0xD800) * 0x400 + (low - 0xDC00)), rest)
        else none
      | _ => none
    else if 0xDC00 ≤ high ∧ high < 0xE000 then none
    else some (Char.ofNat high, rest)
  | c :: rest => (plainEscape? c).map (·, rest)
  | [] => none

/-- The rest of a string, after its opening quote. -/
def stringRest : Nat → List Char → Option (List Char × List Char)
  | 0, _ => none
  | _ + 1, [] => none
  | _ + 1, '"' :: rest => some ([], rest)
  | fuel + 1, '\\' :: rest => do
    let (c, rest) ← escaped rest
    let (more, rest) ← stringRest fuel rest
    some (c :: more, rest)
  | fuel + 1, c :: rest => do
    if c.toNat < 0x20 then none
    else
      let (more, rest) ← stringRest fuel rest
      some (c :: more, rest)

-- ============================================================= numbers

def isDigit (c : Char) : Bool := '0' ≤ c && c ≤ '9'

/-- One or more digits. -/
def digits (s : List Char) : Option (List Char × List Char) :=
  if (s.takeWhile isDigit).isEmpty then none else some (s.takeWhile isDigit, s.dropWhile isDigit)

/-- The part of a number before the point. -/
def whole : List Char → Option (List Char × List Char)
  | '0' :: rest => some (['0'], rest)
  | s => digits s

/-- A point and digits, or nothing. -/
def fraction : List Char → Option (List Char × List Char)
  | '.' :: rest => (digits rest).map fun (ds, rest) => ('.' :: ds, rest)
  | s => some ([], s)

/-- An exponent, or nothing. -/
def exponent : List Char → Option (List Char × List Char)
  | e :: rest =>
    if e == 'e' || e == 'E' then
      match rest with
      | sign :: more =>
        if sign == '+' || sign == '-' then
          (digits more).map fun (ds, rest) => (e :: sign :: ds, rest)
        else (digits rest).map fun (ds, rest) => (e :: ds, rest)
      | [] => none
    else some ([], e :: rest)
  | [] => some ([], [])

def unsigned (s : List Char) : Option (List Char × List Char) := do
  let (a, s) ← whole s
  let (b, s) ← fraction s
  let (c, s) ← exponent s
  some (a ++ b ++ c, s)

def number : List Char → Option (List Char × List Char)
  | '-' :: rest => (unsigned rest).map fun (ds, rest) => ('-' :: ds, rest)
  | s => unsigned s

-- ============================================================== values

/-- One of the three words that are values. -/
def keyword? (s : List Char) : Option (Data × List Char) :=
  let letters := s.takeWhile Char.isAlpha
  let word := String.ofList letters
  if word == "null" || word == "true" || word == "false" then
    some (.word word false, s.dropWhile Char.isAlpha)
  else none

mutual

/-- A value, white space before it skipped. -/
def value : Nat → List Char → Option (Data × List Char)
  | 0, _ => none
  | fuel + 1, s =>
    match skip s with
    | '"' :: rest =>
      (stringRest (rest.length + 1) rest).map fun (cs, rest) =>
        (.word (String.ofList cs) true, rest)
    | '[' :: rest =>
      match skip rest with
      | ']' :: rest => some (.list [], rest)
      | rest => (items fuel rest).map fun (all, rest) => (.list all, rest)
    | '\x7b' :: rest =>
      match skip rest with
      | '\x7d' :: rest => some (.fields [], rest)
      | rest => (members fuel rest).map fun (all, rest) => (.fields all, rest)
    | c :: rest =>
      if c == '-' || isDigit c then
        (number (c :: rest)).map fun (cs, rest) => (.word (String.ofList cs) false, rest)
      else keyword? (c :: rest)
    | [] => none

/-- The items of a list that has one, up to its end. -/
def items : Nat → List Char → Option (List Data × List Char)
  | 0, _ => none
  | fuel + 1, s => do
    let (item, s) ← value fuel s
    match skip s with
    | ',' :: rest =>
      let (more, rest) ← items fuel rest
      some (item :: more, rest)
    | ']' :: rest => some ([item], rest)
    | _ => none

/-- The fields of an object that has one, up to its end. -/
def members : Nat → List Char → Option (List (Data × Data) × List Char)
  | 0, _ => none
  | fuel + 1, s => do
    match skip s with
    | '"' :: rest =>
      let (key, rest) ← stringRest (rest.length + 1) rest
      match skip rest with
      | ':' :: rest =>
        let (found, rest) ← value fuel rest
        let entry : Data × Data := (.word (String.ofList key) true, found)
        match skip rest with
        | ',' :: rest =>
          let (more, rest) ← members fuel rest
          some (entry :: more, rest)
        | '\x7d' :: rest => some ([entry], rest)
        | _ => none
      | _ => none
    | _ => none

end

/-- The value that a whole text is. -/
def parse? (text : String) : Option Data := do
  let s := text.toList
  let (found, rest) ← value (2 * s.length + 2) s
  if (skip rest).isEmpty then some found else none

end ResourceLint.Config.Json
