import FlowRecovery.Options

/-!
# Requests

A request is what the arguments of the command line ask for: one listing file, and settings.

* Settings are written with two dashes and their name; the options file has the letter `c` as well.
* The value of a setting is attached to its name with an equals sign, or is the next argument, which
  must not look like a setting then. A value may be attached to the letter directly.
* No setting is given twice, and the settings that take no value are given none.
* After two dashes alone, every argument is the name of a file. A single dash is one everywhere.
* The names of files are not empty, and numbers are in range.
-/

namespace FlowRecovery

/-- The settings of a command line. -/
inductive Setting where
  /-- The file with the options. -/
  | config
  /-- Jumps are printed as they are. -/
  | raw
  /-- Instructions are printed with their offsets. -/
  | offsets
  /-- The number of blanks per level. -/
  | indent
  /-- The limit on passes. -/
  | maxPasses
  /-- Results are printed as JSON. -/
  | json
  deriving DecidableEq

namespace Setting

/-- The name of a setting. -/
def name : Setting → String
  | config => "config"
  | raw => "raw"
  | offsets => "offsets"
  | indent => "indent"
  | maxPasses => "max-passes"
  | json => "json"

/-- All settings. -/
def all : List Setting := [config, raw, offsets, indent, maxPasses, json]

/-- The setting of a name. -/
def ofName? (name : String) : Option Setting := all.find? fun s => s.name == name

/-- The setting takes a value. -/
def takesValue : Setting → Bool
  | config | indent | maxPasses => true
  | raw | offsets | json => false

end Setting

/-- What a command line asks for. -/
structure Request where
  /-- The file with the listings. -/
  listing? : Option String := none
  /-- The file with the options. -/
  config? : Option String := none
  /-- Jumps are printed as they are. -/
  raw : Bool := false
  /-- Instructions are printed with their offsets. -/
  offsets : Bool := false
  /-- The number of blanks per level. -/
  indent? : Option Count := none
  /-- The limit on passes. -/
  maxPasses? : Option Count := none
  /-- Results are printed as JSON. -/
  json : Bool := false
  deriving DecidableEq

/-- How an argument reads on its own. -/
inductive Argument where
  /-- Two dashes and nothing else. -/
  | separator
  /-- A setting by its name, with an attached value if there is an equals sign. -/
  | named (name : String) (value? : Option String)
  /-- A setting by its letter, with what is attached to it. -/
  | lettered (letter : Char) (attached : List Char)
  /-- Anything else. -/
  | free (text : String)

/-- Reads an argument on its own. -/
def Argument.ofText (s : String) : Argument :=
  match s.toList with
  | ['-', '-'] => separator
  | '-' :: '-' :: rest =>
      named (String.ofList (rest.takeWhile (· != '=')))
        (match rest.dropWhile (· != '=') with
         | [] => none
         | _ :: value => some (String.ofList value))
  | '-' :: letter :: attached => lettered letter attached
  | _ => free s

/-- The count that a text writes in decimal, possibly with a plus sign. -/
def countOfText? (s : String) : Option Count :=
  let digits :=
    match s.toList with
    | '+' :: rest => rest
    | cs => cs
  if digits.isEmpty || !digits.all Char.isDigit then none
  else if h : Nat.ofDigitChars 10 digits 0 < 18446744073709551616 then
    some ⟨Nat.ofDigitChars 10 digits 0, h⟩
  else none

namespace Request

/-- Sets a name of a file that was not set before. -/
def fileOnce? (before : Option String) (path : String) : Option (Option String) :=
  if before.isSome || path.isEmpty then none else some (some path)

/-- Sets a count that was not set before. -/
def countOnce? (before : Option Count) (value : String) : Option (Option Count) :=
  if before.isSome then none else (countOfText? value).map some

/-- Sets a flag that was not set before. -/
def flagOnce? (before : Bool) : Option Bool := if before then none else some true

/-- Adds a setting with a value. -/
def set? (r : Request) (s : Setting) (value : String) : Option Request :=
  match s with
  | .config => (fileOnce? r.config? value).map fun v => { r with config? := v }
  | .indent => (countOnce? r.indent? value).map fun v => { r with indent? := v }
  | .maxPasses => (countOnce? r.maxPasses? value).map fun v => { r with maxPasses? := v }
  | .raw | .offsets | .json => none

/-- Adds a setting without a value. -/
def raise? (r : Request) (s : Setting) : Option Request :=
  match s with
  | .raw => (flagOnce? r.raw).map fun v => { r with raw := v }
  | .offsets => (flagOnce? r.offsets).map fun v => { r with offsets := v }
  | .json => (flagOnce? r.json).map fun v => { r with json := v }
  | .config | .indent | .maxPasses => none

/-- Adds the name of a file. -/
def addFile? (r : Request) (path : String) : Option Request :=
  (fileOnce? r.listing? path).map fun v => { r with listing? := v }

/-- Adds arguments behind the separator. -/
def addFiles? (r : Request) (paths : List String) : Option Request :=
  paths.foldlM addFile? r

/-- The value that a setting takes from the argument after it. -/
def separateValue? (s : String) : Option String :=
  match Argument.ofText s with
  | .free value => some value
  | _ => none

/-- Adds arguments. -/
def addAll? (r : Request) : List String → Option Request
  | [] => some r
  | argument :: rest =>
      match Argument.ofText argument with
      | .separator => r.addFiles? rest
      | .free path => (r.addFile? path).bind fun r => r.addAll? rest
      | .lettered letter attached =>
          if letter = 'c' then
            match attached, rest with
            | '=' :: value, rest =>
                (r.set? .config (String.ofList value)).bind fun r => r.addAll? rest
            | c :: value, rest =>
                (r.set? .config (String.ofList (c :: value))).bind fun r => r.addAll? rest
            | [], [] => none
            | [], next :: rest =>
                ((separateValue? next).bind (r.set? .config)).bind fun r => r.addAll? rest
          else none
      | .named name value? =>
          match Setting.ofName? name with
          | none => none
          | some s =>
              if s.takesValue then
                match value?, rest with
                | some value, rest => (r.set? s value).bind fun r => r.addAll? rest
                | none, [] => none
                | none, next :: rest =>
                    ((separateValue? next).bind (r.set? s)).bind fun r => r.addAll? rest
              else if value?.isSome then none
              else (r.raise? s).bind fun r => r.addAll? rest

/-- The request that arguments make. A listing has to be among them. -/
def ofArguments? (arguments : List String) : Option Request :=
  (addAll? {} arguments).filter fun r => r.listing?.isSome

/-- The settings of a request in place of those of the options. -/
def override (r : Request) (o : Options) : Options :=
  { o with
    structured := o.structured && !r.raw
    showOffsets := o.showOffsets || r.offsets
    indentWidth := r.indent?.getD o.indentWidth
    maxPasses? := r.maxPasses?.or o.maxPasses? }

end Request

end FlowRecovery
