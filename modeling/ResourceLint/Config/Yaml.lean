/-
Values written in YAML.

The reader takes block and flow mappings and lists, plain, quoted and
block scalars, comments, anchors and tags, and one document with its
marks.  A plain scalar of any kind is its text.  An alias stands for a
value that is not looked up, so it is read as a list, which no field takes.

What is left of a text is kept together with the column it begins at,
because indentation decides what belongs together.
-/
import ResourceLint.Config.Data
import ResourceLint.Config.Json

namespace ResourceLint.Config.Yaml

/-- The rest of a text, and its column. -/
structure Input where
  column : Nat
  rest : List Char

def isBreak (c : Char) : Bool := c == '\n' || c == '\r'

def isBlank (c : Char) : Bool := c == ' ' || c == '\t'

/-- Whether a text begins with a blank or a line end, or is empty. -/
def atGap (s : List Char) : Bool :=
  match s with
  | [] => true
  | c :: _ => isBlank c || isBreak c

def isFlowMark (c : Char) : Bool :=
  c == ',' || c == '[' || c == ']' || c == '\x7b' || c == '\x7d'

/-- The input after one more character. -/
def Input.step (i : Input) (c : Char) (rest : List Char) : Input :=
  ⟨if isBreak c then 0 else i.column + 1, rest⟩

/-- The input after some characters of one line. -/
def Input.skip (i : Input) (n : Nat) : Input := ⟨i.column + n, i.rest.drop n⟩

/-- Whether a mark of a document stands at the start of a line. -/
def Input.atMark (i : Input) (mark : String) : Bool :=
  i.column == 0 && mark.toList.isPrefixOf i.rest && atGap (i.rest.drop 3)

def Input.atDocumentMark (i : Input) : Bool := i.atMark "---" || i.atMark "..."

/-- Skips what separates tokens: blanks, comments and line ends.  A tab is
no indentation, so in block context none may come first on a line.  Also
says whether a line ended. -/
def skipFrom (flow : Bool) : Bool → Nat → List Char → Bool × Input
  | crossed, column, [] => (crossed, ⟨column, []⟩)
  | crossed, column, c :: rest =>
    if c == ' ' then skipFrom flow crossed (column + 1) rest
    else if c == '\t' && (flow || !crossed) then skipFrom flow crossed (column + 1) rest
    else if isBreak c then skipFrom flow true 0 rest
    else if c == '#' then skipComment flow crossed rest
    else (crossed, ⟨column, c :: rest⟩)
where
  /-- Skips to the end of a line. -/
  skipComment (flow : Bool) : Bool → List Char → Bool × Input
    | crossed, [] => (crossed, ⟨0, []⟩)
    | crossed, c :: rest =>
      if isBreak c then skipFrom flow true 0 rest else skipComment flow crossed rest

def Input.skipGap (i : Input) (flow : Bool) : Bool × Input := skipFrom flow false i.column i.rest

-- ============================================================= scalars

/-- What a gap inside a scalar stands for: blanks for themselves, a line
end for a space, and more of them for one line end less. -/
def fold (gap : List Char) : List Char :=
  match (gap.filter (· == '\n')).length with
  | 0 => gap
  | 1 => [' ']
  | n + 2 => List.replicate (n + 1) '\n'

/-- The gap that an input begins with, and the input after it. -/
def takeGap (column : Nat) : List Char → List Char × Input
  | [] => ([], ⟨column, []⟩)
  | '\r' :: '\n' :: rest =>
    let (gap, i) := takeGap 0 rest
    ('\n' :: gap, i)
  | c :: rest =>
    if isBlank c then
      let (gap, i) := takeGap (column + 1) rest
      (c :: gap, i)
    else if isBreak c then
      let (gap, i) := takeGap 0 rest
      ('\n' :: gap, i)
    else ([], ⟨column, c :: rest⟩)

/-- The text of a scalar in single quotes, after the first of them. -/
def single : Nat → Input → Option (List Char × Input)
  | 0, _ => none
  | fuel + 1, i =>
    if i.atDocumentMark then none
    else
      match i.rest with
      | [] => none
      | '\'' :: '\'' :: rest => do
        let (more, i) ← single fuel ⟨i.column + 2, rest⟩
        some ('\'' :: more, i)
      | '\'' :: rest => some ([], ⟨i.column + 1, rest⟩)
      | c :: rest =>
        if atGap [c] then do
          let (gap, i) := takeGap i.column (c :: rest)
          let (more, i) ← single fuel i
          some (fold gap ++ more, i)
        else do
          let (more, i) ← single fuel ⟨i.column + 1, rest⟩
          some (c :: more, i)

/-- The character after a backslash that stands for one by itself. -/
def plainEscape? : Char → Option Nat
  | '0' => some 0
  | 'a' => some 7
  | 'b' => some 8
  | 't' => some 9
  | '\t' => some 9
  | 'n' => some 10
  | 'v' => some 11
  | 'f' => some 12
  | 'r' => some 13
  | 'e' => some 27
  | ' ' => some 32
  | '"' => some 34
  | '/' => some 47
  | '\\' => some 92
  | 'N' => some 0x85
  | '_' => some 0xA0
  | 'L' => some 0x2028
  | 'P' => some 0x2029
  | _ => none

/-- A number of the given count of hexadecimal digits. -/
def hexNumber (count : Nat) (s : List Char) : Option (Nat × List Char) := do
  let digits ← (s.take count).mapM Json.hexDigit?
  if digits.length = count then some (digits.foldl (fun n d => n * 16 + d) 0, s.drop count)
  else none

/-- The character that an escape stands for, given what follows the
backslash. -/
def escaped : List Char → Option (Char × List Char)
  | [] => none
  | c :: rest => do
    let (code, rest) ←
      match c with
      | 'x' => hexNumber 2 rest
      | 'u' => hexNumber 4 rest
      | 'U' => hexNumber 8 rest
      | c => (plainEscape? c).map (·, rest)
    if code.isValidChar then some (Char.ofNat code, rest) else none

/-- The text of a scalar in double quotes, after the first of them. -/
def double : Nat → Input → Option (List Char × Input)
  | 0, _ => none
  | fuel + 1, i =>
    if i.atDocumentMark then none
    else
      match i.rest with
      | [] => none
      | '"' :: rest => some ([], ⟨i.column + 1, rest⟩)
      | '\\' :: c :: rest =>
        if isBreak c then do
          let (gap, i) := takeGap i.column (c :: rest)
          let (more, i) ← double fuel i
          some (List.replicate ((gap.filter (· == '\n')).length - 1) '\n' ++ more, i)
        else do
          let (found, after) ← escaped (c :: rest)
          let (more, i) ← double fuel ⟨i.column + (i.rest.length - after.length), after⟩
          some (found :: more, i)
      | c :: rest =>
        if atGap [c] then do
          let (gap, i) := takeGap i.column (c :: rest)
          let (more, i) ← double fuel i
          some (fold gap ++ more, i)
        else do
          let (more, i) ← double fuel ⟨i.column + 1, rest⟩
          some (c :: more, i)

/-- Whether a plain scalar ends before a colon that is followed by `rest`. -/
def endsAtColon (flow : Bool) (rest : List Char) : Bool :=
  atGap rest || (flow && rest.head?.any isFlowMark)

/-- The rest of a plain scalar.  A gap belongs to it where more of it
follows, on a line that is indented far enough. -/
def plainRest (flow : Bool) (indent : Nat) : Nat → Input → List Char × Input
  | 0, i => ([], i)
  | fuel + 1, i =>
    match i.rest with
    | [] => ([], i)
    | c :: rest =>
      if atGap [c] then
        let (gap, after) := takeGap i.column (c :: rest)
        let crossed := gap.contains '\n'
        let ends :=
          match after.rest with
          | [] => true
          | '#' :: _ => true
          | ':' :: more => endsAtColon flow more
          | d :: _ => flow && isFlowMark d
        if ends || after.atDocumentMark || (crossed && !flow && after.column < indent) then ([], i)
        else
          let (more, last) := plainRest flow indent fuel after
          (fold gap ++ more, last)
      else if (c == ':' && endsAtColon flow rest) || (flow && isFlowMark c) then ([], i)
      else
        let (more, last) := plainRest flow indent fuel ⟨i.column + 1, rest⟩
        (c :: more, last)

/-- Whether a plain scalar may begin with `c`, followed by `rest`. -/
def beginsPlain (flow : Bool) (c : Char) (rest : List Char) : Bool :=
  if c == '-' then !atGap rest && !(flow && rest.head?.any isFlowMark)
  else if c == '?' || c == ':' then !flow && !atGap rest
  else !(isFlowMark c || "#&*!|>'\"%@\x60".toList.contains c || atGap [c])

/-- A scalar of one of the three kinds that stand inside a line.  Also
says whether it is in quotes. -/
def scalar (flow : Bool) (indent : Nat) (i : Input) : Option (Data × Input) :=
  match i.rest with
  | '\'' :: rest =>
    (single (rest.length + 1) ⟨i.column + 1, rest⟩).map fun (cs, i) =>
      (.word (String.ofList cs) true, i)
  | '"' :: rest =>
    (double (rest.length + 1) ⟨i.column + 1, rest⟩).map fun (cs, i) =>
      (.word (String.ofList cs) true, i)
  | c :: rest =>
    if beginsPlain flow c rest then
      let (cs, i) := plainRest flow indent (rest.length + 1) ⟨i.column + 1, rest⟩
      some (.word (String.ofList (c :: cs)) false, i)
    else none
  | [] => none

-- ======================================================= block scalars

/-- How the line ends after a block scalar are kept. -/
inductive Chomp
  | strip
  | clip
  | keep

/-- The lines of a text, with what follows each cut. -/
def blockLines (s : List Char) : Nat → List (List Char)
  | 0 => []
  | fuel + 1 =>
    match s with
    | [] => []
    | s =>
      let line := s.takeWhile (!isBreak ·)
      let rest := match s.dropWhile (!isBreak ·) with
        | '\r' :: '\n' :: rest => rest
        | _ :: rest => rest
        | [] => []
      line :: blockLines rest fuel

/-- The header of a block scalar: the indentation it gives and its chomping,
in either order. -/
def blockHeader (s : List Char) : Option (Option Nat × Chomp × List Char) :=
  let chompOf : Char → Option Chomp := fun c =>
    if c == '-' then some .strip else if c == '+' then some .keep else none
  let digitOf : Char → Option Nat := fun c =>
    if '1' ≤ c && c ≤ '9' then some (c.toNat - 48) else none
  let (digit, chomp, rest) : Option Nat × Chomp × List Char :=
    match s with
    | a :: b :: rest =>
      match digitOf a, chompOf b, chompOf a, digitOf b with
      | some n, some chomp, _, _ => (some n, chomp, rest)
      | _, _, some chomp, some n => (some n, chomp, rest)
      | some n, none, _, _ => (some n, .clip, b :: rest)
      | _, _, some chomp, none => (none, chomp, b :: rest)
      | _, _, _, _ => (none, .clip, s)
    | [a] => (digitOf a, (chompOf a).getD .clip, if (digitOf a).isSome || (chompOf a).isSome then [] else [a])
    | [] => (none, .clip, [])
  let tail := (rest.takeWhile (!isBreak ·)).dropWhile isBlank
  let comment := tail.isEmpty || (tail.head? == some '#' && rest.head?.any isBlank)
  if comment then some (digit, chomp, rest.dropWhile (!isBreak ·)) else none

/-- Joins folded lines: a line end between two lines that are not indented
further is a space, and empty lines between them are line ends.  `last`
says of the line before whether it was such a line. -/
def joinFolded (last : Option Bool) (empties : Nat) : List (List Char) → List Char
  | [] => []
  | line :: more =>
    if line.isEmpty then joinFolded last (empties + 1) more
    else
      let isText := line.head?.any (!isBlank ·)
      let gap := match last with
        | none => List.replicate empties '\n'
        | some wasText =>
          if wasText && isText then
            if empties = 0 then [' '] else List.replicate empties '\n'
          else List.replicate (empties + 1) '\n'
      gap ++ line ++ joinFolded (some isText) 0 more

/-- The text of a block scalar whose mark stands right before `s`, and what
follows it; its lines are indented by at least `least`. -/
def block (folded : Bool) (least : Nat) (s : List Char) : Option (List Char × Input) := do
  let (digit, chomp, rest) ← blockHeader s
  let body := match rest with
    | '\r' :: '\n' :: body => body
    | _ :: body => body
    | [] => []
  let lines := blockLines body (body.length + 1)
  let depth := fun (line : List Char) => (line.takeWhile (· == ' ')).length
  let isVoid := fun (line : List Char) => line.all (· == ' ')
  let indent := match digit with
    | some n => (least - 1) + n
    | none => Nat.max least ((lines.find? (!isVoid ·)).map depth |>.getD least)
  let own := lines.takeWhile fun line => isVoid line || indent ≤ depth line
  let after := lines.drop own.length
  let content := own.map (·.drop indent)
  let kept := (content.reverse.dropWhile (·.isEmpty)).reverse
  let ends := content.length - kept.length
  let text := if folded then joinFolded none 0 kept else "\n".toList.intercalate kept
  let closing := match chomp with
    | .strip => []
    | .clip => if kept.isEmpty then [] else ['\n']
    | .keep => List.replicate (if kept.isEmpty then ends else ends + 1) '\n'
  some (text ++ closing, ⟨0, ("\n".toList.intercalate after)⟩)

-- ========================================================== properties

/-- Skips an anchor or a tag, and the blanks after it. -/
def skipProperties (i : Input) : Input :=
  match i.rest with
  | c :: rest =>
    if c == '&' || c == '!' then
      let word := rest.takeWhile fun c => !(atGap [c])
      let after := rest.drop word.length
      let blanks := (after.takeWhile isBlank).length
      let next : Input := ⟨i.column + 1 + word.length + blanks, after.drop blanks⟩
      match next.rest with
      | d :: more =>
        if (d == '&' || d == '!') && d != c then
          let word := more.takeWhile fun c => !(atGap [c])
          let after := more.drop word.length
          let blanks := (after.takeWhile isBlank).length
          ⟨next.column + 1 + word.length + blanks, after.drop blanks⟩
        else next
      | [] => next
    else i
  | [] => i

/-- What an alias is read as. -/
def alias? (i : Input) : Option (Data × Input) :=
  match i.rest with
  | '*' :: rest =>
    let word := rest.takeWhile fun c => !(atGap [c] || isFlowMark c)
    if word.isEmpty then none
    else some (.list [], ⟨i.column + 1 + word.length, rest.drop word.length⟩)
  | _ => none

/-- The word that stands where a value is left out. -/
def nothing : Data := .word "" false

-- ======================================================== flow context

mutual

/-- A value in flow context. -/
def flowValue : Nat → Input → Option (Data × Input)
  | 0, _ => none
  | fuel + 1, i =>
    let i := skipProperties (i.skipGap true).2
    match i.rest with
    | '[' :: rest =>
      (flowItems fuel ⟨i.column + 1, rest⟩).map fun (items, i) => (.list items, i)
    | '\x7b' :: rest =>
      (flowFields fuel ⟨i.column + 1, rest⟩).map fun (entries, i) => (.fields entries, i)
    | '*' :: _ => alias? i
    | _ => scalar true 0 i

/-- A key or an item, with the value after its colon if there is one. -/
def flowEntry : Nat → Input → Option ((Data × Option Data) × Input)
  | 0, _ => none
  | fuel + 1, i => do
    let (key, i) ←
      match (i.skipGap true).2.rest with
      | ':' :: _ => some (nothing, (i.skipGap true).2)
      | '?' :: rest =>
        if atGap rest then flowValue fuel ⟨i.column + 1, rest⟩ else flowValue fuel i
      | _ => flowValue fuel i
    let after := (i.skipGap true).2
    match after.rest with
    | ':' :: rest =>
      let next := (Input.skipGap ⟨after.column + 1, rest⟩ true).2
      match next.rest with
      | c :: _ =>
        if c == ',' || c == '\x7d' || c == ']' then some ((key, some nothing), next)
        else do
          let (found, i) ← flowValue fuel next
          some ((key, some found), i)
      | [] => none
    | _ => some ((key, none), after)

/-- The items of a list up to its end. -/
def flowItems : Nat → Input → Option (List Data × Input)
  | 0, _ => none
  | fuel + 1, i => do
    let i := (i.skipGap true).2
    match i.rest with
    | ']' :: rest => some ([], ⟨i.column + 1, rest⟩)
    | _ =>
      let ((key, found), i) ← flowEntry fuel i
      let item := match found with
        | some found => Data.fields [(key, found)]
        | none => key
      let i := (i.skipGap true).2
      match i.rest with
      | ',' :: rest =>
        let (more, i) ← flowItems fuel ⟨i.column + 1, rest⟩
        some (item :: more, i)
      | ']' :: rest => some ([item], ⟨i.column + 1, rest⟩)
      | _ => none

/-- The fields of a mapping up to its end. -/
def flowFields : Nat → Input → Option (List (Data × Data) × Input)
  | 0, _ => none
  | fuel + 1, i => do
    let i := (i.skipGap true).2
    match i.rest with
    | '\x7d' :: rest => some ([], ⟨i.column + 1, rest⟩)
    | _ =>
      let ((key, found), i) ← flowEntry fuel i
      let entry := (key, found.getD nothing)
      let i := (i.skipGap true).2
      match i.rest with
      | ',' :: rest =>
        let (more, i) ← flowFields fuel ⟨i.column + 1, rest⟩
        some (entry :: more, i)
      | '\x7d' :: rest => some ([entry], ⟨i.column + 1, rest⟩)
      | _ => none

end

-- ======================================================= block context

/-- Whether a block list has an item at this place. -/
def Input.atItem (i : Input) : Bool :=
  match i.rest with
  | '-' :: rest => atGap rest
  | _ => false

/-- The key of a field on one line, and what follows its colon. -/
def key? (i : Input) : Option (Data × Input) :=
  let i := skipProperties i
  let line := i.rest.takeWhile (!isBreak ·)
  let found := match i.rest with
    | '*' :: _ => alias? i
    | '[' :: _ => flowValue (line.length + 1) ⟨i.column, line⟩
    | '\x7b' :: _ => flowValue (line.length + 1) ⟨i.column, line⟩
    | _ => scalar false 0 ⟨i.column, line⟩
  match found with
  | some (key, after) =>
    match after.rest.dropWhile isBlank with
    | ':' :: rest =>
      if atGap rest then
        let n := line.length - rest.length
        some (key, i.skip n)
      else none
    | _ => none
  | none => none

mutual

/-- A value in block context that begins on a line of its own, indented by
at least `least`; without one it is left out. -/
def blockValue : Nat → Nat → Input → Option (Data × Input)
  | 0, _, _ => none
  | fuel + 1, least, i =>
    if i.rest.isEmpty || i.atDocumentMark || i.column < least then some (nothing, i)
    else if i.atItem then
      (blockItems fuel i.column i).map fun (items, i) => (.list items, i)
    else if (key? i).isSome then
      (blockFields fuel i.column i).map fun (entries, i) => (.fields entries, i)
    else inlineValue fuel least i

/-- A value that stands after its key or its mark on the same line, or on
lines after that. -/
def inlineValue : Nat → Nat → Input → Option (Data × Input)
  | 0, _, _ => none
  | fuel + 1, least, i =>
    let start := skipProperties i
    let (crossed, next) := start.skipGap false
    if crossed || next.rest.isEmpty then blockValue fuel least next
    else
      match next.rest with
      | '|' :: rest => (block false least rest).map fun (cs, i) => (.word (String.ofList cs) true, i)
      | '>' :: rest => (block true least rest).map fun (cs, i) => (.word (String.ofList cs) true, i)
      | '[' :: _ => flowValue fuel next
      | '\x7b' :: _ => flowValue fuel next
      | '*' :: _ => alias? next
      | _ => scalar false least next

/-- The fields of a mapping at a column. -/
def blockFields : Nat → Nat → Input → Option (List (Data × Data) × Input)
  | 0, _, _ => none
  | fuel + 1, column, i => do
    let (key, i) ← key? i
    let (crossed, next) := i.skipGap false
    let (found, i) ←
      if crossed && next.column == column && next.atItem then
        (blockItems fuel column next).map fun (items, i) => (Data.list items, i)
      else if crossed || next.rest.isEmpty then blockValue fuel (column + 1) next
      else inlineValue fuel (column + 1) i
    let (more, i) ← moreFields fuel column i
    some ((key, found) :: more, i)

/-- The further fields of a mapping, each on a line of its own. -/
def moreFields : Nat → Nat → Input → Option (List (Data × Data) × Input)
  | 0, _, _ => none
  | fuel + 1, column, i =>
    let (crossed, next) := i.skipGap false
    if next.rest.isEmpty || next.atDocumentMark then some ([], next)
    else if !crossed && i.column != 0 then none
    else if next.column < column then some ([], next)
    else if next.column == column then blockFields fuel column next
    else none

/-- The items of a list at a column. -/
def blockItems : Nat → Nat → Input → Option (List Data × Input)
  | 0, _, _ => none
  | fuel + 1, column, i => do
    let after := i.skip 1
    let (crossed, next) := after.skipGap false
    let (item, i) ←
      if crossed then blockValue fuel (column + 1) next
      else if next.atItem || (key? next).isSome then blockValue fuel (column + 1) next
      else inlineValue fuel (column + 1) after
    let (more, i) ← moreItems fuel column i
    some (item :: more, i)

/-- The further items of a list, each on a line of its own. -/
def moreItems : Nat → Nat → Input → Option (List Data × Input)
  | 0, _, _ => none
  | fuel + 1, column, i =>
    let (crossed, next) := i.skipGap false
    if next.rest.isEmpty || next.atDocumentMark then some ([], next)
    else if !crossed && i.column != 0 then none
    else if next.column == column && next.atItem then blockItems fuel column next
    else if next.column ≤ column then some ([], next)
    else none

end

-- =========================================================== documents

/-- Skips the directives before the mark that a document begins with. -/
def skipDirectives : Nat → Input → Input
  | 0, i => i
  | fuel + 1, i =>
    let next := (i.skipGap true).2
    match next.rest with
    | '%' :: _ =>
      if next.column == 0 then
        skipDirectives fuel ⟨0, next.rest.dropWhile (!isBreak ·)⟩
      else i
    | _ => i

/-- What may stand after a document. -/
def atEnd (i : Input) : Bool :=
  let next := (i.skipGap false).2
  if next.atMark "..." then ((next.skip 3).skipGap false).2.rest.isEmpty
  else next.rest.isEmpty

/-- The value of a text, which holds nothing, or one document. -/
def parse? (text : String) : Option (Option Data) :=
  let s := match text.toList with
    | '\uFEFF' :: rest => rest
    | s => s
  let fuel := 4 * s.length + 8
  let start := skipDirectives (s.length + 1) ⟨0, s⟩
  let (_, first) := skipFrom false true start.column start.rest
  if first.atMark "---" then do
    let after := first.skip 3
    let (crossed, next) := after.skipGap false
    let (found, rest) ←
      if crossed || next.rest.isEmpty then blockValue fuel 0 next
      else inlineValue fuel 0 after
    if atEnd rest then some (some found) else none
  else if first.rest.isEmpty then some none
  else do
    let (found, rest) ← blockValue fuel 0 first
    if atEnd rest then some (some found) else none

end ResourceLint.Config.Yaml
