/-
What a start tag says: a name and attributes.

The content of a tag is read from the left.  `Tag.rawAttributes` gives the
attributes as written, up to the first fault; `Tag.read` expands their
values, and the faults of both kinds come in the order of the attributes.
-/
import ResourceLint.Text.Blank
import ResourceLint.Xml.Entity

namespace ResourceLint.Xml

/-- What is wrong with the attributes of a tag; places are bytes of its
content. -/
inductive AttributeFault
  | noEquals (offset : Nat)
  | noValue (offset : Nat)
  | unquoted (offset : Nat)
  | noQuote (offset : Nat) (quote : Char)
  | repeated (offset previous : Nat)
deriving DecidableEq

def AttributeFault.message : AttributeFault → String
  | .noEquals offset =>
    "position " ++ toString offset ++ ": attribute key must be directly followed by `=` or space"
  | .noValue offset =>
    "position " ++ toString offset ++ ": `=` must be followed by an attribute value"
  | .unquoted offset =>
    "position " ++ toString offset ++ ": attribute value must be enclosed in `\"` or `'`"
  | .noQuote offset quote =>
    "position " ++ toString offset ++ ": missing closing quote `" ++ quote.toString
      ++ "` in attribute value"
  | .repeated offset previous =>
    "position " ++ toString offset ++ ": duplicated attribute, previous declaration at position "
      ++ toString previous

/-- An attribute of an element. -/
structure Attribute where
  /-- the name as written -/
  name : String
  /-- the part of the name before the first colon -/
  qualifier : Option String
  /-- the part of the name after the first colon -/
  localName : String
  /-- the namespace the qualifier stands for -/
  uri : Option String
  /-- the value, entities expanded -/
  value : String
deriving DecidableEq, Inhabited

/-- A start tag with its namespaces resolved. -/
structure Tag where
  name : String
  uri : Option String
  attributes : List Attribute
deriving DecidableEq, Inhabited

namespace Tag

/-- An attribute as written. -/
structure Raw where
  key : List Char
  value : List Char

/-- Attributes up to the end of the tag, or up to a fault. -/
structure RawAttributes where
  attributes : List Raw
  fault : Option AttributeFault

/-- The key that begins with `c`, and what follows its equals sign. -/
def readKey (size : Nat) (c : Char) (rest : List Char) :
    Except AttributeFault (List Char × List Char) :=
  let isEnd := fun d => d == '=' || Text.isMarkupSpace d
  let key := c :: rest.takeWhile fun d => !isEnd d
  match (rest.dropWhile fun d => !isEnd d).dropWhile Text.isMarkupSpace with
  | [] => .error (.noEquals size)
  | d :: more =>
    if d == '=' then .ok (key, more)
    else .error (.noEquals (size - Text.byteSize (d :: more)))

/-- The quoted value, and what follows its closing quote. -/
def readQuoted (size : Nat) (s : List Char) : Except AttributeFault (List Char × List Char) :=
  match s.dropWhile Text.isMarkupSpace with
  | [] => .error (.noValue size)
  | quote :: more =>
    if quote == '"' || quote == '\'' then
      match more.dropWhile (· != quote) with
      | [] => .error (.noQuote size quote)
      | _ :: after => .ok (more.takeWhile (· != quote), after)
    else .error (.unquoted (size - Text.byteSize (quote :: more)))

theorem length_of_readKey {size : Nat} {c : Char} {s key rest : List Char}
    (h : readKey size c s = .ok (key, rest)) : rest.length < (c :: s).length := by
  simp only [readKey] at h
  split at h
  · cases h
  · rename_i d more hd
    split at h
    · simp only [Except.ok.injEq, Prod.mk.injEq] at h
      have h₁ := (List.dropWhile_sublist Text.isMarkupSpace
        (l := s.dropWhile fun d => !(d == '=' || Text.isMarkupSpace d))).length_le
      have h₂ := (List.dropWhile_sublist (fun d => !(d == '=' || Text.isMarkupSpace d))
        (l := s)).length_le
      rw [hd] at h₁
      rw [← h.2]
      simp only [List.length_cons] at *
      omega
    · cases h

theorem length_of_readQuoted {size : Nat} {s value rest : List Char}
    (h : readQuoted size s = .ok (value, rest)) : rest.length ≤ s.length := by
  simp only [readQuoted] at h
  split at h
  · cases h
  · rename_i quote more hq
    have h₁ := (List.dropWhile_sublist Text.isMarkupSpace (l := s)).length_le
    rw [hq] at h₁
    split at h
    · split at h
      · cases h
      · rename_i d after hd
        simp only [Except.ok.injEq, Prod.mk.injEq] at h
        have h₂ := (List.dropWhile_sublist (· != quote) (l := more)).length_le
        rw [hd] at h₂
        rw [← h.2]
        simp only [List.length_cons] at *
        omega
    · cases h

/-- Reads attributes from `s`, the end of a content of `size` bytes; `seen`
holds the keys before it and where they began. -/
def rawAttributesFrom (size : Nat) (seen : List (List Char × Nat)) (s : List Char) :
    RawAttributes :=
  match _hs : s.dropWhile Text.isMarkupSpace with
  | [] => { attributes := [], fault := none }
  | c :: rest =>
    let start := size - Text.byteSize (c :: rest)
    match _hk : readKey size c rest with
    | .error fault => { attributes := [], fault := some fault }
    | .ok (key, afterKey) =>
      match seen.lookup key with
      | some previous => { attributes := [], fault := some (.repeated start previous) }
      | none =>
        match _hv : readQuoted size afterKey with
        | .error fault => { attributes := [], fault := some fault }
        | .ok (value, after) =>
          let more := rawAttributesFrom size (seen ++ [(key, start)]) after
          { more with attributes := ⟨key, value⟩ :: more.attributes }
termination_by s.length
decreasing_by
  have h₁ := (List.dropWhile_sublist Text.isMarkupSpace (l := s)).length_le
  have h₂ := length_of_readKey _hk
  have h₃ := length_of_readQuoted _hv
  rw [_hs] at h₁
  omega

/-- The name of a tag reaches to the first white space of its content. -/
def nameOf (content : List Char) : List Char :=
  content.takeWhile fun c => !Text.isMarkupSpace c

/-- The attributes of a tag, as written. -/
def rawAttributes (content : List Char) : RawAttributes :=
  rawAttributesFrom (Text.byteSize content) []
    (content.dropWhile fun c => !Text.isMarkupSpace c)

/-- What can be wrong with a tag that closes. -/
inductive Fault
  | attribute (fault : AttributeFault)
  | entity (fault : EntityFault)
deriving DecidableEq

def Fault.message : Fault → String
  | .attribute fault => fault.message
  | .entity fault => fault.message

/-- Expands the values in order; a fault of the writing comes after them. -/
def expandValues : List Raw → Option AttributeFault → Except Fault (List (String × String))
  | [], none => .ok []
  | [], some fault => .error (.attribute fault)
  | raw :: more, fault => do
    let value ← (expand raw.value).mapError .entity
    let rest ← expandValues more fault
    .ok ((String.ofList raw.key, String.ofList value) :: rest)

/-- The keys and values of a tag. -/
def readAttributes (content : List Char) : Except Fault (List (String × String)) :=
  let raw := rawAttributes content
  expandValues raw.attributes raw.fault

-- ========================================================== namespaces

/-- The namespace of the qualifier `xml`. -/
def xmlUri : String := "http://www.w3.org/XML/1998/namespace"

/-- The qualifier that an attribute declares: the empty one for `xmlns`. -/
def declaredQualifier? (key : String) : Option String :=
  if key = "xmlns" then some "" else Text.after? "xmlns:" key

/-- The qualifiers that a tag declares, with their namespaces, in order. -/
def declarations (attributes : List (String × String)) : List (String × String) :=
  attributes.filterMap fun (key, value) => (declaredQualifier? key).map (·, value)

/-- The namespace of a qualifier, given the declarations of the open tags,
the innermost first. -/
def resolve (scopes : List (List (String × String))) (qualifier : String) : Option String :=
  if qualifier = "xml" then some xmlUri else scopes.flatten.lookup qualifier

/-- The parts of a name around its first colon. -/
def splitName (name : String) : Option String × String :=
  match Text.splitOnce? ':' name with
  | some (qualifier, localName) => (some qualifier, localName)
  | none => (none, name)

/-- A tag in the given scopes, the tag's own declarations among them. -/
def ofWritten (scopes : List (List (String × String))) (name : String)
    (attributes : List (String × String)) : Tag :=
  { name
    uri := resolve scopes ((splitName name).1.getD "")
    attributes := attributes.map fun (key, value) =>
      let (qualifier, localName) := splitName key
      { name := key, qualifier, localName, uri := qualifier.bind (resolve scopes), value } }

end Tag

end ResourceLint.Xml
