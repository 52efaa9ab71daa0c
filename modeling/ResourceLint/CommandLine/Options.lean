/-
What a command line asks for, and how its words are read.

An option takes a value that follows it or that an equals sign joins to
it; a word that begins with a dash is no value.  Options whose values are
lists add up, their values parted by commas; any other option may be given
once.  Two dashes end the options.  Words that belong to no option name
files.  Reading ends at the first word that settles the matter: a wish for
help or for the version, or a fault.
-/
import ResourceLint.Path

namespace ResourceLint.CommandLine

/-- What a command line asks for. -/
structure Options where
  /-- files and directories to check, which may be patterns -/
  files : List String
  enable : List String
  disable : List String
  check : List String
  /-- list the issues of the categories that begin so -/
  list : Option String
  /-- explain these issues, or all where none is given -/
  explain : Option (List String)
  html : Option Path
  simpleHtml : Option Path
  xml : Option Path
  urls : Option String
  config : Option Path
  fullPath : Bool
  noLines : Bool
  quiet : Bool
  verbose : Bool
deriving DecidableEq, Inhabited

/-- An option that takes values. -/
inductive ValueOption
  | enable
  | disable
  | check
  | list
  | explain
  | html
  | simpleHtml
  | xml
  | urls
  | config
deriving DecidableEq

/-- An option that is there or not. -/
inductive Switch
  | fullPath
  | noLines
  | quiet
  | verbose
deriving DecidableEq

/-- Why a command line gives no options. -/
inductive Refusal
  | help
  | version
  | fault
deriving DecidableEq

/-- What the name of an option stands for. -/
inductive OptionName
  | value (option : ValueOption)
  | switch (switch : Switch)
  | refusal (refusal : Refusal)
deriving DecidableEq

namespace OptionName

/-- The option of a name after two dashes. -/
def ofLong? : String → Option OptionName
  | "enable" => some (.value .enable)
  | "disable" | "ignore" | "suppress" => some (.value .disable)
  | "check" => some (.value .check)
  | "list" => some (.value .list)
  | "show" => some (.value .explain)
  | "html" => some (.value .html)
  | "simplehtml" => some (.value .simpleHtml)
  | "xml" => some (.value .xml)
  | "url" => some (.value .urls)
  | "config" => some (.value .config)
  | "fullpath" | "fullpaths" => some (.switch .fullPath)
  | "nolines" => some (.switch .noLines)
  | "quiet" => some (.switch .quiet)
  | "verbose" => some (.switch .verbose)
  | "help" => some (.refusal .help)
  | "version" => some (.refusal .version)
  | _ => none

/-- The option of a letter after one dash; none of them takes a value. -/
def ofLetter? : Char → Option OptionName
  | 'v' => some (.switch .verbose)
  | 'h' => some (.refusal .help)
  | 'V' => some (.refusal .version)
  | _ => none

end OptionName

/-- The most values that one use of an option takes, where there is a limit. -/
def ValueOption.mostValues? : ValueOption → Option Nat
  | .explain => none
  | _ => some 1

/-- Whether an option may stand without a value. -/
def ValueOption.mayBeBare : ValueOption → Bool
  | .list | .explain => true
  | _ => false

namespace Options

/-- The options of a command line without words. -/
def empty : Options :=
  { files := [], enable := [], disable := [], check := [], list := none, explain := none
    html := none, simpleHtml := none, xml := none, urls := none, config := none
    fullPath := false, noLines := false, quiet := false, verbose := false }

/-- Whether nothing is asked for. -/
def isBare (o : Options) : Bool := o = empty

/-- The parts of values between commas; empty ones count. -/
def parts (values : List String) : List String := values.flatMap (Text.split ',')

/-- A value for an option that is given once. -/
def once {α : Type} (old : Option α) (value : α) : Except Refusal (Option α) :=
  if old.isSome then .error .fault else .ok (some value)

/-- A path for an option that is given once; the empty text is none. -/
def oncePath (old : Option Path) (value : String) : Except Refusal (Option Path) :=
  if value.isEmpty then .error .fault else once old ⟨value⟩

/-- The options with one more use of an option, with its values. -/
def withValues (o : Options) (option : ValueOption) (values : List String) :
    Except Refusal Options :=
  if values.isEmpty && !option.mayBeBare then .error .fault
  else
    let value := values.headD ""
    match option with
    | .enable => .ok { o with enable := o.enable ++ parts values }
    | .disable => .ok { o with disable := o.disable ++ parts values }
    | .check => .ok { o with check := o.check ++ parts values }
    | .explain => .ok { o with explain := some (o.explain.getD [] ++ parts values) }
    | .list => (once o.list value).map fun list => { o with list }
    | .html => (oncePath o.html value).map fun html => { o with html }
    | .simpleHtml => (oncePath o.simpleHtml value).map fun simpleHtml => { o with simpleHtml }
    | .xml => (oncePath o.xml value).map fun xml => { o with xml }
    | .urls => (once o.urls value).map fun urls => { o with urls }
    | .config => (oncePath o.config value).map fun config => { o with config }

/-- The options with a switch, which is given once. -/
def withSwitch (o : Options) : Switch → Except Refusal Options
  | .fullPath => if o.fullPath then .error .fault else .ok { o with fullPath := true }
  | .noLines => if o.noLines then .error .fault else .ok { o with noLines := true }
  | .quiet => if o.quiet then .error .fault else .ok { o with quiet := true }
  | .verbose => if o.verbose then .error .fault else .ok { o with verbose := true }

-- ============================================================= reading

/-- How far reading has come: the options, the option that may still take
values with those it has, and whether options are over. -/
structure Reading where
  options : Options
  pending : Option (ValueOption × List String)
  ended : Bool

namespace Reading

/-- Nothing read. -/
def start : Reading := ⟨empty, none, false⟩

/-- Gives the pending option the values it has. -/
def settle (r : Reading) : Except Refusal Reading :=
  match r.pending with
  | none => .ok r
  | some (option, values) =>
    (r.options.withValues option values).map fun options => { r with options, pending := none }

/-- Takes a word as the name of a file. -/
def file (r : Reading) (word : String) : Except Refusal Reading :=
  r.settle.map fun r => { r with options := { r.options with files := r.options.files ++ [word] } }

/-- Takes a word as a value of the pending option if that takes one more. -/
def plain (r : Reading) (word : String) : Except Refusal Reading :=
  match r.pending with
  | some (option, values) =>
    if option.mostValues?.all (values.length < ·) then
      .ok { r with pending := some (option, values ++ [word]) }
    else r.file word
  | none => r.file word

/-- Takes an option, with the value that is joined to it. -/
def option (r : Reading) (name : OptionName) (joined : Option String) : Except Refusal Reading := do
  let r ← r.settle
  match name, joined with
  | .value option, some value =>
    (r.options.withValues option [value]).map fun options => { r with options }
  | .value option, none => .ok { r with pending := some (option, []) }
  | .switch switch, none => (r.options.withSwitch switch).map fun options => { r with options }
  | .refusal refusal, none => .error refusal
  | .switch _, some _ => .error .fault
  | .refusal _, some _ => .error .fault

/-- Takes what stands after two dashes. -/
def long (r : Reading) (text : String) : Except Refusal Reading :=
  let (name, joined) := match Text.splitOnce? '=' text with
    | some (name, value) => (name, some value)
    | none => (text, none)
  match OptionName.ofLong? name with
  | some name => r.option name joined
  | none => .error .fault

/-- Takes the letters after one dash. -/
def letters (r : Reading) (letters : List Char) : Except Refusal Reading :=
  letters.foldlM
    (fun r letter =>
      match OptionName.ofLetter? letter with
      | some name => r.option name none
      | none => .error .fault) r

/-- Takes a word. -/
def word (r : Reading) (word : String) : Except Refusal Reading :=
  if r.ended then r.file word
  else
    match word.toList with
    | ['-', '-'] => .ok { r with ended := true }
    | '-' :: '-' :: text => r.long (String.ofList text)
    | '-' :: first :: more => r.letters (first :: more)
    | _ => r.plain word

end Reading

/-- Reads the words of a command line. -/
def ofWords (words : List String) : Except Refusal Options := do
  let r ← words.foldlM Reading.word .start
  let r ← r.settle
  .ok r.options

end Options

end ResourceLint.CommandLine
