/-
Entities: the five names and the character numbers that markup text may
hold in place of a character.

`expand` replaces them; an ampersand that begins no entity is a fault.
-/
import ResourceLint.Text.Slice

namespace ResourceLint.Xml

/-- What is wrong with a number that stands for a character. -/
inductive CharRefFault
  | sign
  | empty
  | digit
  | tooLarge
  | notACharacter (code : Nat)
  | zero
deriving DecidableEq

/-- What is wrong with an ampersand. -/
inductive EntityFault
  /-- no semicolon ends it: bytes from the ampersand to the end -/
  | unterminated (start stop : Nat)
  /-- its name is none of the five: bytes of the name, and the name -/
  | unknown (start stop : Nat) (name : String)
  | charRef (fault : CharRefFault)
deriving DecidableEq

def CharRefFault.message : CharRefFault → String
  | .sign => "unexpected number sign"
  | .empty => "cannot parse integer from empty string"
  | .digit => "invalid digit found in string"
  | .tooLarge => "number too large to fit in target type"
  | .notACharacter code => "`" ++ toString code ++ "` is not a valid codepoint"
  | .zero => "0x0 character is not permitted in XML"

def EntityFault.message : EntityFault → String
  | .unterminated start stop =>
    "Error while escaping character at range " ++ toString start ++ ".." ++ toString stop
      ++ ": Cannot find ';' after '&'"
  | .unknown start stop name =>
    "at " ++ toString start ++ ".." ++ toString stop ++ ": unrecognized entity `" ++ name ++ "`"
  | .charRef fault => "invalid character reference: " ++ fault.message

/-- The value of a digit in the given base. -/
def digitValue? (base : Nat) (c : Char) : Option Nat :=
  let n := c.toNat
  let value :=
    if 48 ≤ n ∧ n ≤ 57 then n - 48
    else if 97 ≤ n ∧ n ≤ 102 then n - 87
    else if 65 ≤ n ∧ n ≤ 70 then n - 55
    else base
  if value < base then some value else none

/-- Reads digits from the left; the first one that is none, or that leaves
the range of four bytes, decides the fault. -/
def readDigits (base : Nat) : Nat → List Char → Except CharRefFault Nat
  | value, [] => .ok value
  | value, c :: rest =>
    match digitValue? base c with
    | none => .error .digit
    | some d =>
      if value * base + d < 2 ^ 32 then readDigits base (value * base + d) rest
      else .error .tooLarge

def readNumber (base : Nat) : List Char → Except CharRefFault Nat
  | [] => .error .empty
  | c :: rest => if c == '+' || c == '-' then .error .sign else readDigits base 0 (c :: rest)

/-- The character that `#` and a number stand for. -/
def readCharRef (number : List Char) : Except CharRefFault Char := do
  let code ← match number with
    | 'x' :: hex => readNumber 16 hex
    | decimal => readNumber 10 decimal
  if code = 0 then .error .zero
  else if code.isValidChar then .ok (Char.ofNat code)
  else .error (.notACharacter code)

/-- The character that a name stands for. -/
def namedEntity? : List Char → Option Char
  | ['l', 't'] => some '<'
  | ['g', 't'] => some '>'
  | ['a', 'm', 'p'] => some '&'
  | ['a', 'p', 'o', 's'] => some '\''
  | ['q', 'u', 'o', 't'] => some '"'
  | _ => none

/-- The character between an ampersand at byte `offset` and its semicolon. -/
def readEntity (offset : Nat) (name : List Char) : Except EntityFault Char :=
  match name with
  | '#' :: number => (readCharRef number).mapError .charRef
  | name =>
    match namedEntity? name with
    | some c => .ok c
    | none =>
      .error (.unknown (offset + 1) (offset + 1 + Text.byteSize name) (String.ofList name))

/-- The name up to the next semicolon, where no ampersand stands before it. -/
def entityName? : List Char → Option (List Char × List Char)
  | [] => none
  | c :: rest =>
    if c == ';' then some ([], rest)
    else if c == '&' then none
    else (entityName? rest).map fun (name, after) => (c :: name, after)

theorem length_of_entityName? {s name after : List Char}
    (h : entityName? s = some (name, after)) : after.length < s.length := by
  induction s generalizing name with
  | nil => cases h
  | cons c rest ih =>
    simp only [entityName?] at h
    split at h
    · simp only [Option.some.injEq, Prod.mk.injEq] at h
      simp [h.2]
    · split at h
      · cases h
      · obtain ⟨⟨n, a⟩, hn, he⟩ := Option.map_eq_some_iff.mp h
        simp only [Prod.mk.injEq] at he
        have := ih (he.2 ▸ hn)
        simp only [List.length_cons]
        omega

/-- Expands from byte `offset` of a text of `size` bytes on. -/
def expandFrom (size : Nat) (offset : Nat) (s : List Char) : Except EntityFault (List Char) :=
  match s with
  | [] => .ok []
  | c :: rest =>
    if c == '&' then
      match h : entityName? rest with
      | none => .error (.unterminated offset size)
      | some (name, after) => do
        let c ← readEntity offset name
        let more ← expandFrom size (offset + 2 + Text.byteSize name) after
        .ok (c :: more)
    else do
      let more ← expandFrom size (offset + c.utf8Size) rest
      .ok (c :: more)
termination_by s.length
decreasing_by
  · have := length_of_entityName? h
    simp only [List.length_cons]
    omega
  · simp

/-- The text with every entity replaced by its character. -/
def expand (raw : List Char) : Except EntityFault (List Char) :=
  expandFrom (Text.byteSize raw) 0 raw

/-- How a character is written so that it stands for itself anywhere. -/
def escapeChar (c : Char) : List Char :=
  match c with
  | '<' => "&lt;".toList
  | '>' => "&gt;".toList
  | '&' => "&amp;".toList
  | '\'' => "&apos;".toList
  | '"' => "&quot;".toList
  | c => [c]

/-- The text with the five special characters written as entities. -/
def escape (cs : List Char) : List Char :=
  cs.flatMap escapeChar

end ResourceLint.Xml
