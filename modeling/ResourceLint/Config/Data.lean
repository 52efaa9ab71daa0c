/-
What a configuration file holds before its fields are looked at.

Fields come as they are written, repeats included; whether a repeat is a
fault is for whoever reads the fields.
-/
namespace ResourceLint.Config

/-- A value in a configuration file. -/
inductive Data
  /-- a word, and whether it stood in quotes -/
  | word (text : String) (quoted : Bool)
  | list (items : List Data)
  | fields (entries : List (Data × Data))

/-- The text of a word. -/
def Data.text? : Data → Option String
  | .word text _ => some text
  | _ => none

/-- The text of a word in quotes. -/
def Data.quotedText? : Data → Option String
  | .word text true => some text
  | _ => none

end ResourceLint.Config
