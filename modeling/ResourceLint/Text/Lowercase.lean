/-
Lower case of a text.

Every character is replaced by its lower case.  Two need more than a
table: a capital I with a dot becomes an i and a dot above, and a capital
sigma takes its final form at the end of a word, that is after a cased
letter and not before one, ignorable characters aside.
-/
import ResourceLint.Text.LetterCase

namespace ResourceLint.Text

/-- Whether a stretch of the table holds the character. -/
def isIn (table : List (Nat × Nat)) (c : Char) : Bool :=
  table.any fun (first, last) => first ≤ c.toNat && c.toNat ≤ last

/-- The lower case of a character, where it is one character. -/
def lowercaseChar (c : Char) : Char :=
  let n := c.toNat
  if n < 128 then c.toLower
  else
    let run := lowercaseRuns.find? fun (first, last, step, _) =>
      first ≤ n && n ≤ last && (step == 0 || (n - first) % step == 0)
    match run with
    | some (_, _, _, shift) => Char.ofNat (Int.ofNat n + shift).toNat
    | none => c

/-- Whether the first character that counts is a cased letter. -/
def beginsCased (cs : List Char) : Bool :=
  match cs.dropWhile (isIn caseIgnorable) with
  | [] => false
  | c :: _ => isIn cased c

/-- Lower case of what follows the characters of `before`, last first. -/
def lowercaseFrom (before : List Char) : List Char → List Char
  | [] => []
  | c :: rest =>
    let lower :=
      if c == '\u03A3' then
        if beginsCased before && !beginsCased rest then ['\u03C2'] else ['\u03C3']
      else if c == '\u0130' then ['i', '\u0307']
      else [lowercaseChar c]
    lower ++ lowercaseFrom (c :: before) rest

/-- The text in lower case. -/
def lowercase (s : String) : String :=
  String.ofList (lowercaseFrom [] s.toList)

end ResourceLint.Text
