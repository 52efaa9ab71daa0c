/-
Pages of markup.

A page is built from elements, text and fixed text.  Rendering escapes
every text and closes every element, so that what a page says can neither
end an element nor begin one.  Fixed text is for what the program itself
puts between elements: line ends, a style sheet, a script.
-/
namespace ResourceLint

/-- An attribute: its name, its value, and fixed text around the value. -/
structure HtmlAttribute where
  name : String
  before : String
  value : String
  after : String
deriving DecidableEq

/-- A piece of a page. -/
inductive Html
  | text (s : String)
  | fixed (s : String)
  | element (tag : String) (attributes : List HtmlAttribute) (children : List Html)
  /-- an element without an end tag, and what its tag ends with -/
  | void (tag : String) (attributes : List HtmlAttribute) (closing : String)

namespace Html

/-- How a character is written in text and in values. -/
def escapeChar (c : Char) : List Char :=
  match c with
  | '&' => "&amp;".toList
  | '<' => "&lt;".toList
  | '>' => "&gt;".toList
  | '"' => "&quot;".toList
  | '\'' => "&#39;".toList
  | c => [c]

/-- The text as it is written on a page. -/
def escape (s : String) : String := String.ofList (s.toList.flatMap escapeChar)

/-- An attribute without fixed text. -/
def attr (name value : String) : HtmlAttribute := ⟨name, "", value, ""⟩

def attributeText (a : HtmlAttribute) : String :=
  " " ++ a.name ++ "=\"" ++ a.before ++ escape a.value ++ a.after ++ "\""

/-- A tag up to what closes it. -/
def openTag (tag : String) (attributes : List HtmlAttribute) : String :=
  "<" ++ tag ++ String.join (attributes.map attributeText)

mutual

/-- The text of a piece. -/
def render : Html → String
  | .text s => escape s
  | .fixed s => s
  | .element tag attributes children =>
    openTag tag attributes ++ ">" ++ renderAll children ++ "</" ++ tag ++ ">"
  | .void tag attributes closing => openTag tag attributes ++ closing

/-- The text of pieces side by side. -/
def renderAll : List Html → String
  | [] => ""
  | piece :: more => render piece ++ renderAll more

end

/-- A line end between pieces. -/
def lineEnd : Html := .fixed "\n"

/-- A line break on the page. -/
def lineBreak : Html := .void "br" [] "/>"

/-- An element without attributes whose content is a text. -/
def simple (tag s : String) : Html := .element tag [] [.text s]

/-- An element of a class whose content is a text. -/
def classed (tag kind s : String) : Html := .element tag [attr "class" kind] [.text s]

end Html

end ResourceLint
