/-
Links to files that are kept elsewhere.

A map is a list of path beginnings, each with the address that replaces
it.  Beginnings and paths are compared as they are encoded in an address,
where only slashes are written as themselves in the end.
-/
import ResourceLint.Path
import ResourceLint.Text.Blank

namespace ResourceLint

/-- The digit of a number below sixteen, in capitals. -/
def hexDigit (n : Nat) : Char :=
  if n < 10 then Char.ofNat (48 + n) else Char.ofNat (55 + n)

/-- Whether a byte stands for itself in an address. -/
def isPlainByte (b : UInt8) : Bool :=
  let n := b.toNat
  (97 ≤ n && n ≤ 122) || (65 ≤ n && n ≤ 90) || (48 ≤ n && n ≤ 57)
    || n == 46 || n == 45 || n == 42 || n == 95

/-- How a byte is written in an address. -/
def encodeByte (b : UInt8) : List Char :=
  if isPlainByte b then [Char.ofNat b.toNat]
  else if b == 32 then ['+']
  else ['%', hexDigit (b.toNat / 16), hexDigit (b.toNat % 16)]

/-- The text as it is written in an address. -/
def encodeUrl (s : String) : String :=
  String.ofList (s.toUTF8.toList.flatMap encodeByte)

/-- The text with encoded slashes as themselves. -/
def plainSlashes : List Char → List Char
  | '%' :: '2' :: 'F' :: rest => '/' :: plainSlashes rest
  | c :: rest => c :: plainSlashes rest
  | [] => []

/-- Beginnings of paths, encoded, and what replaces them. -/
structure UrlMap where
  entries : List (String × String)
deriving DecidableEq, Inhabited

namespace UrlMap

def empty : UrlMap := ⟨[]⟩

/-- An entry without an equals sign. -/
structure Malformed where
  entry : String
deriving DecidableEq

def Malformed.message (m : Malformed) : String :=
  "Invalid URL map entry \"" ++ m.entry ++ "\": expected prefix=url"

/-- Reads one entry. -/
def parseEntry (entry : String) : Except Malformed (String × String) :=
  match Text.splitOnce? '=' entry with
  | some (lead, url) => .ok (encodeUrl lead, url)
  | none => .error ⟨entry⟩

/-- Reads entries between commas; the word `none` stands for no entry. -/
def parse (spec : String) : Except Malformed UrlMap :=
  let spec := Text.trimmed spec
  if spec == "none" then .ok empty
  else
    let parts := ((Text.split ',' spec).map Text.trimmed).filter (· != "")
    (parts.mapM parseEntry).map UrlMap.mk

def isEmpty (m : UrlMap) : Bool := m.entries.isEmpty

/-- The address that an entry gives a path that begins as it says. -/
def entryUrl? (path : String) (entry : String × String) : Option String :=
  (Text.after? entry.1 (encodeUrl path)).map fun rest =>
    entry.2 ++ String.ofList (plainSlashes rest.toList)

/-- The address of a path, by the first entry that fits. -/
def urlFor? (m : UrlMap) (path : Path) : Option String :=
  m.entries.findSome? (entryUrl? path.text)

end UrlMap

end ResourceLint
