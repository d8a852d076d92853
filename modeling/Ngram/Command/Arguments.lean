import Ngram.Number.Decimal

/-!
# Command lines

A subcommand takes positional values and options. An option has a long name, perhaps a letter, and
either takes a value or does not. `--name value` and `--name=value` are the same, as are `-n value`,
`-nvalue` and `-n=value`; letters without a value can be joined to one word. A word that starts with
a dash is never the value of the option before it, except a single dash, which is an ordinary word;
all words behind `--` are positional. No option is given twice, no positional value is missing, and
there is none too many. Values are checked as they come, so that help is given only if nothing in
front of it was wrong.
-/

namespace Ngram

/-- A path; it is not empty. -/
def parsePath? (text : String) : Option String := if text.isEmpty then none else some text

/-- A whole number up to a maximum. -/
def parseCount? (max : Nat) (text : String) : Option Nat :=
  (Decimal.parseNat? text).filter (· ≤ max)

/-- A small whole number. Minus zero is zero. -/
def parseSmall? (max : Nat) (text : String) : Option Nat :=
  match text.toList with
  | '-' :: ds => if ds.isEmpty || !ds.all (· == '0') then none else some 0
  | _ => parseCount? max text

/-- What an option takes for a value. -/
inductive ValueKind where
  | path
  /-- Any text. -/
  | text
  | count (max : Nat)
  | small (max : Nat)
  /-- A binary32 number. -/
  | number
deriving DecidableEq

/-- A text is a value of its kind. -/
def ValueKind.accepts : ValueKind → String → Bool
  | path, value => (parsePath? value).isSome
  | text, _ => true
  | count max, value => (parseCount? max value).isSome
  | small max, value => (parseSmall? max value).isSome
  | number, value => (Decimal.parseSingle? value).isSome

/-- Options of a subcommand. -/
structure OptionSpec where
  name : String
  letter : Option Char := none
  /-- What the option takes for a value, if it takes one. -/
  value : Option ValueKind := none
deriving DecidableEq

/-- An option fits a value, or none. -/
def OptionSpec.fits (o : OptionSpec) : Option String → Bool
  | none => o.value.isNone
  | some value => o.value.any (·.accepts value)

/-- The form of a subcommand. Its positional values are paths. -/
structure CommandSpec where
  name : String
  positional : List String := []
  options : List OptionSpec := []

/-- Why a command line is not carried out as a command. -/
inductive Refusal where
  | unknownArgument (word : String)
  | unknownCommand (word : String)
  | noCommand
  | missingValue (option : String)
  | unwantedValue (option : String)
  | repeated (option : String)
  | missing (positional : List String)
  | invalidValue (name value : String)
  /-- Help was asked for, which is no fault. -/
  | help (command : Option String)
  /-- The version was asked for, which is no fault. -/
  | version
deriving DecidableEq

/-- The words of a command line by what they stand for. -/
structure Matched where
  /-- Options in the order given, with the value of those that take one. -/
  options : List (String × Option String) := []
  positional : List String := []

namespace CommandSpec

/-- What a word leaves open: nothing, or the value of an option. -/
abbrev Pending := Option OptionSpec

/-- An option by its long name. -/
def byName? (c : CommandSpec) (name : String) : Option OptionSpec :=
  c.options.find? (·.name == name)

/-- An option by its letter. -/
def byLetter? (c : CommandSpec) (letter : Char) : Option OptionSpec :=
  c.options.find? (·.letter == some letter)

/-- Takes an option in. -/
def give (m : Matched) (o : OptionSpec) (value : Option String) : Except Refusal Matched :=
  if m.options.any (·.1 == o.name) then .error (.repeated o.name)
  else if o.fits value then .ok { m with options := m.options ++ [(o.name, value)] }
  else .error (.invalidValue o.name (value.getD ""))

/-- Takes a positional value in. -/
def place (c : CommandSpec) (m : Matched) (word : String) : Except Refusal Matched :=
  match c.positional[m.positional.length]? with
  | none => .error (.unknownArgument word)
  | some name => match parsePath? word with
    | some path => .ok { m with positional := m.positional ++ [path] }
    | none => .error (.invalidValue name word)

/-- Splits a word at its first equals sign. -/
def splitEquals (cs : List Char) : List Char × Option (List Char) :=
  match cs.dropWhile (· != '=') with
  | [] => (cs, none)
  | _ :: value => (cs.takeWhile (· != '='), some value)

/-- Reads a word that starts with two dashes. -/
def long (c : CommandSpec) (m : Matched) (cs : List Char) : Except Refusal (Matched × Pending) :=
  let (name, value) := splitEquals cs
  let name := String.ofList name
  match c.byName? name with
  | none =>
    if name == "help" then
      if value.isSome then .error (.unwantedValue name) else .error (.help (some c.name))
    else .error (.unknownArgument ("--" ++ name))
  | some o =>
    match o.value, value with
    | some _, some value => do .ok (← give m o (some (String.ofList value)), none)
    | some _, none => .ok (m, some o)
    | none, some _ => .error (.unwantedValue name)
    | none, none => do .ok (← give m o none, none)

/-- Reads the letters behind one dash. -/
def letters (c : CommandSpec) (m : Matched) : List Char → Except Refusal (Matched × Pending)
  | [] => .ok (m, none)
  | letter :: cs =>
    match c.byLetter? letter with
    | none =>
      if letter == 'h' then .error (.help (some c.name))
      else .error (.unknownArgument (String.ofList ['-', letter]))
    | some o =>
      if o.value.isSome then
        match cs with
        | [] => .ok (m, some o)
        | '=' :: value => do .ok (← give m o (some (String.ofList value)), none)
        | value => do .ok (← give m o (some (String.ofList value)), none)
      else
        match give m o none with
        | .ok m => letters c m cs
        | .error e => .error e

/-- Ends a command line: no positional value is missing. -/
def close (c : CommandSpec) (m : Matched) : Except Refusal Matched :=
  if m.positional.length < c.positional.length then
    .error (.missing (c.positional.drop m.positional.length))
  else .ok m

/-- Reads the words of a command line. -/
def read (c : CommandSpec) (m : Matched) (pending : Pending) : List String → Except Refusal Matched
  | [] => match pending with
    | some o => .error (.missingValue o.name)
    | none => c.close m
  | word :: words =>
    match word.toList, pending with
    | '-' :: _ :: _, some o => .error (.missingValue o.name)
    | ['-', '-'], none => do c.close (← words.foldlM c.place m)
    | '-' :: '-' :: cs, none => do
      let (m, pending) ← c.long m cs
      read c m pending words
    | '-' :: l :: cs, none => do
      let (m, pending) ← c.letters m (l :: cs)
      read c m pending words
    | _, some o => do read c (← give m o (some word)) none words
    | _, none => do read c (← c.place m word) none words

end CommandSpec

namespace Matched

/-- The value of an option, or nothing if it was not given. -/
def value? (m : Matched) (name : String) : Option String := (m.options.lookup name).join

/-- An option without a value was given. -/
def has (m : Matched) (name : String) : Bool := m.options.any (·.1 == name)

/-- Reads the value of an option that was given. -/
def readValue? {α : Type} (m : Matched) (name : String) (parse : String → Option α) :
    Except Refusal (Option α) :=
  match m.value? name with
  | none => .ok none
  | some text => match parse text with
    | some a => .ok (some a)
    | none => .error (.invalidValue name text)

/-- Reads the value of an option with a default. -/
def readValue {α : Type} (m : Matched) (name : String) (parse : String → Option α) (default : α) :
    Except Refusal α := do
  .ok ((← m.readValue? name parse).getD default)

/-- A positional value by its place. -/
def path (m : Matched) (i : Nat) (name : String) : Except Refusal String :=
  match m.positional[i]? with
  | some path => .ok path
  | none => .error (.missing [name])

end Matched

end Ngram
