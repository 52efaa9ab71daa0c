/-
The pieces of a markup text: runs of character data, tags, and what a
reader of the tree passes over.

`next` takes one piece off the front of a text, always a strictly shorter
rest; `scan` takes pieces until the text ends or a piece does not close.
No piece depends on an earlier one: whether tags match is decided where
the tree is built.
-/
import ResourceLint.Text.Blank
import ResourceLint.Text.Slice

namespace ResourceLint.Xml

/-- A piece of markup text. -/
inductive Lexeme
  /-- character data, with its entities as written -/
  | text (raw : List Char)
  /-- what stands between the brackets of a literal section -/
  | literal (content : List Char)
  /-- what stands between the angle brackets of a start or empty tag -/
  | tag (content : List Char)
  /-- the name in an end tag -/
  | endTag (name : List Char)
  /-- a comment, an instruction, a declaration or a document type -/
  | aside
deriving DecidableEq

/-- A piece that does not close, or closes without what it needs. -/
inductive MarkupFault
  | tag
  | literal
  | comment
  | doctype
  | instruction
  | unknown
  /-- no name in a document type whose `>` is so many bytes after its `<` -/
  | doctypeName (bytes : Nat)
deriving DecidableEq

def MarkupFault.message : MarkupFault → String
  | .tag => "syntax error: tag not closed: `>` not found before end of input"
  | .literal => "syntax error: CDATA not closed: `]]>` not found before end of input"
  | .comment => "syntax error: comment not closed: `-->` not found before end of input"
  | .doctype => "syntax error: DOCTYPE not closed: `>` not found before end of input"
  | .instruction =>
    "syntax error: processing instruction or xml declaration not closed: "
      ++ "`?>` not found before end of input"
  | .unknown => "syntax error: unknown or missed symbol in markup"
  | .doctypeName _ =>
    "ill-formed document: `<!DOCTYPE>` declaration does not contain a name of a document type"

/-- How many bytes after the start of its piece a fault is seen. -/
def MarkupFault.shift : MarkupFault → Nat
  | .doctypeName bytes => bytes
  | _ => 0

/-- The content up to the first `>` outside quotes, and what follows. -/
def cutTag : Option Char → List Char → Option (List Char × List Char)
  | _, [] => none
  | some quote, c :: rest =>
    (cutTag (if c == quote then none else some quote) rest).map fun (a, b) => (c :: a, b)
  | none, c :: rest =>
    if c == '>' then some ([], rest)
    else
      (cutTag (if c == '"' || c == '\'' then some c else none) rest).map
        fun (a, b) => (c :: a, b)

/-- The content up to the `>` that closes as many brackets as were opened. -/
def cutBalanced : Nat → List Char → Option (List Char × List Char)
  | _, [] => none
  | depth, c :: rest =>
    if c == '>' then
      match depth with
      | 0 => some ([], rest)
      | depth + 1 => (cutBalanced depth rest).map fun (a, b) => (c :: a, b)
    else
      (cutBalanced (if c == '<' then depth + 1 else depth) rest).map fun (a, b) => (c :: a, b)

/-- What follows the word, its letters in either case. -/
def stripWord? : List Char → List Char → Option (List Char)
  | [], s => some s
  | _ :: _, [] => none
  | a :: word, c :: s => if a = c.toUpper then stripWord? word s else none

/-- A piece and the text after it. -/
abbrev Step := Except MarkupFault (Lexeme × List Char)

/-- The piece that begins with `<!`, given what follows these. -/
def nextDeclaration (s : List Char) : Step :=
  match s with
  | '[' :: _ =>
    match (Text.strip? "[CDATA[".toList s).bind (Text.cut? "]]>".toList) with
    | some (content, rest) => .ok (.literal content, rest)
    | none => .error .literal
  | '-' :: _ =>
    match (Text.strip? "--".toList s).bind (Text.cut? "-->".toList) with
    | some (_, rest) => .ok (.aside, rest)
    | none => .error .comment
  | 'D' :: _ | 'd' :: _ =>
    match (stripWord? "DOCTYPE".toList s).bind (cutBalanced 0) with
    | some (content, rest) =>
      if content.all Text.isMarkupSpace then .error (.doctypeName (9 + Text.byteSize content))
      else .ok (.aside, rest)
    | none => .error .doctype
  | _ => .error .unknown

/-- The piece that begins with `<?`, given what follows these. -/
def nextInstruction (s : List Char) : Step :=
  match s with
  | '>' :: _ => .error .instruction
  | s =>
    match Text.cut? "?>".toList s with
    | some (_, rest) => .ok (.aside, rest)
    | none => .error .instruction

/-- The name in an end tag ends before the white space at its end; white
space alone is a name. -/
def endTagName (content : List Char) : List Char :=
  if content.all Text.isMarkupSpace then content
  else (content.reverse.dropWhile Text.isMarkupSpace).reverse

/-- The piece that begins with `<`, given what follows it. -/
def nextMarkup (s : List Char) : Step :=
  match s with
  | '!' :: rest => nextDeclaration rest
  | '?' :: rest => nextInstruction rest
  | '/' :: rest =>
    match cutTag none rest with
    | some (content, rest) => .ok (.endTag (endTagName content), rest)
    | none => .error .tag
  | s =>
    match cutTag none s with
    | some (content, rest) => .ok (.tag content, rest)
    | none => .error .tag

/-- The first piece of a text that is not empty. -/
def next (c : Char) (rest : List Char) : Step :=
  if c == '<' then nextMarkup rest
  else .ok (.text (c :: rest.takeWhile (· != '<')), rest.dropWhile (· != '<'))

-- ============================================== every piece is something

/-- Behind a tag less is left than there was, -/
theorem length_of_cutTag {quote : Option Char} {s a b : List Char}
    (h : cutTag quote s = some (a, b)) : b.length < s.length := by
  induction s generalizing quote a with
  | nil => cases quote <;> simp [cutTag] at h
  | cons c rest ih =>
    cases quote with
    | none =>
      simp only [cutTag] at h
      split at h
      · simp only [Option.some.injEq, Prod.mk.injEq] at h
        simp [h.2]
      · obtain ⟨⟨x, y⟩, hx, he⟩ := Option.map_eq_some_iff.mp h
        simp only [Prod.mk.injEq] at he
        have := ih (he.2 ▸ hx)
        simp only [List.length_cons]
        omega
    | some q =>
      simp only [cutTag] at h
      obtain ⟨⟨x, y⟩, hx, he⟩ := Option.map_eq_some_iff.mp h
      simp only [Prod.mk.injEq] at he
      have := ih (he.2 ▸ hx)
      simp only [List.length_cons]
      omega

theorem length_of_cutBalanced {depth : Nat} {s a b : List Char}
    (h : cutBalanced depth s = some (a, b)) : b.length < s.length := by
  induction s generalizing depth a with
  | nil => simp [cutBalanced] at h
  | cons c rest ih =>
    simp only [cutBalanced] at h
    split at h
    · cases depth with
      | zero =>
        simp only [Option.some.injEq, Prod.mk.injEq] at h
        simp [h.2]
      | succ depth =>
        obtain ⟨⟨x, y⟩, hx, he⟩ := Option.map_eq_some_iff.mp h
        simp only [Prod.mk.injEq] at he
        have := ih (he.2 ▸ hx)
        simp only [List.length_cons]
        omega
    · obtain ⟨⟨x, y⟩, hx, he⟩ := Option.map_eq_some_iff.mp h
      simp only [Prod.mk.injEq] at he
      have := ih (he.2 ▸ hx)
      simp only [List.length_cons]
      omega

theorem length_of_stripWord? {word s rest : List Char} (h : stripWord? word s = some rest) :
    rest.length ≤ s.length := by
  induction word generalizing s with
  | nil =>
    simp only [stripWord?, Option.some.injEq] at h
    simp [h]
  | cons a word ih =>
    cases s with
    | nil => cases h
    | cons c s =>
      simp only [stripWord?] at h
      split at h
      · have := ih h
        simp only [List.length_cons]
        omega
      · cases h

theorem length_of_strip?_cut? {lead mark s before after : List Char}
    (h : (Text.strip? lead s).bind (Text.cut? mark) = some (before, after)) :
    after.length ≤ s.length := by
  obtain ⟨mid, hmid, hcut⟩ := Option.bind_eq_some_iff.mp h
  rw [Text.strip?_eq_some_iff.mp hmid, Text.eq_append_of_cut? hcut]
  simp only [List.length_append]
  omega

theorem length_of_nextDeclaration {s rest : List Char} {piece : Lexeme}
    (h : nextDeclaration s = .ok (piece, rest)) : rest.length ≤ s.length := by
  unfold nextDeclaration at h
  split at h
  · split at h
    · rename_i hcut
      simp only [Except.ok.injEq, Prod.mk.injEq] at h
      exact h.2 ▸ length_of_strip?_cut? hcut
    · cases h
  · split at h
    · rename_i hcut
      simp only [Except.ok.injEq, Prod.mk.injEq] at h
      exact h.2 ▸ length_of_strip?_cut? hcut
    · cases h
  iterate 2
    · split at h
      · rename_i hcut
        split at h
        · cases h
        · simp only [Except.ok.injEq, Prod.mk.injEq] at h
          obtain ⟨mid, hmid, hbal⟩ := Option.bind_eq_some_iff.mp hcut
          have := length_of_stripWord? hmid
          have := length_of_cutBalanced hbal
          rw [← h.2]
          omega
      · cases h
  · cases h

theorem length_of_nextInstruction {s rest : List Char} {piece : Lexeme}
    (h : nextInstruction s = .ok (piece, rest)) : rest.length ≤ s.length := by
  unfold nextInstruction at h
  split at h
  · cases h
  · split at h
    · rename_i hcut
      simp only [Except.ok.injEq, Prod.mk.injEq] at h
      rw [← h.2, Text.eq_append_of_cut? hcut]
      simp only [List.length_append]
      omega
    · cases h

/-- Reading any markup leaves no more than there was. -/
theorem length_of_nextMarkup {s rest : List Char} {piece : Lexeme}
    (h : nextMarkup s = .ok (piece, rest)) : rest.length ≤ s.length := by
  unfold nextMarkup at h
  split at h
  · have := length_of_nextDeclaration h
    simp only [List.length_cons]
    omega
  · have := length_of_nextInstruction h
    simp only [List.length_cons]
    omega
  · split at h
    · rename_i hcut
      simp only [Except.ok.injEq, Prod.mk.injEq] at h
      have := length_of_cutTag hcut
      rw [← h.2]
      simp only [List.length_cons]
      omega
    · cases h
  · split at h
    · rename_i hcut
      simp only [Except.ok.injEq, Prod.mk.injEq] at h
      have := length_of_cutTag hcut
      rw [← h.2]
      omega
    · cases h

/-- Each piece takes a character at least, so reading ends. -/
theorem length_of_next {c : Char} {s rest : List Char} {piece : Lexeme}
    (h : next c s = .ok (piece, rest)) : rest.length < (c :: s).length := by
  unfold next at h
  split at h
  · have := length_of_nextMarkup h
    simp only [List.length_cons]
    omega
  · simp only [Except.ok.injEq, Prod.mk.injEq] at h
    rw [← h.2]
    have := (List.dropWhile_sublist (· != '<') (l := s)).length_le
    simp only [List.length_cons]
    omega

-- ================================================= all pieces of a text

/-- A piece with the bytes it begins and ends at. -/
structure Placed where
  lexeme : Lexeme
  start : Nat
  stop : Nat
deriving DecidableEq

/-- The pieces up to the end of the text, or up to a fault and its place. -/
structure Scan where
  pieces : List Placed
  fault : Option (MarkupFault × Nat)

/-- Reads pieces; the first of them begins at byte `start`. -/
def scan (start : Nat) (s : List Char) : Scan :=
  match s with
  | [] => { pieces := [], fault := none }
  | c :: rest =>
    match _h : next c rest with
    | .error fault => { pieces := [], fault := some (fault, start + fault.shift) }
    | .ok (piece, after) =>
      let stop := start + (Text.byteSize (c :: rest) - Text.byteSize after)
      let more := scan stop after
      { more with pieces := ⟨piece, start, stop⟩ :: more.pieces }
termination_by s.length
decreasing_by exact length_of_next ‹_›

end ResourceLint.Xml
