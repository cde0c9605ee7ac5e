namespace TreeImage.Command

/-- An option.  One that takes a value says which values it accepts. -/
structure OptionSpec where
  long : String
  short : Option Char
  accepts : Option (String → Bool)

structure PositionalSpec where
  isRequired : Bool
  accepts : String → Bool

structure Grammar where
  options : List OptionSpec
  positionals : List PositionalSpec

/-- Why a command line is not carried out: it asks for help, or it does not fit the grammar. -/
inductive Refusal
  | help
  | misuse
  deriving DecidableEq, Repr

/-- The options given, by their long names and with their values, and the positional arguments. -/
structure Arguments where
  options : List (String × String)
  positionals : List String
  deriving DecidableEq, Repr

namespace Arguments

def empty : Arguments := ⟨[], []⟩

def has (arguments : Arguments) (long : String) : Bool :=
  (arguments.options.lookup long).isSome

def value? (arguments : Arguments) (long : String) : Option String :=
  arguments.options.lookup long

def addOption (option : OptionSpec) (value : String) (arguments : Arguments) :
    Except Refusal Arguments :=
  if arguments.has option.long then .error .misuse
  else .ok { arguments with options := arguments.options ++ [(option.long, value)] }

def addValue (option : OptionSpec) (value : String) (arguments : Arguments) :
    Except Refusal Arguments :=
  if option.accepts.any (· value) then arguments.addOption option value else .error .misuse

def addPositional (grammar : Grammar) (value : String) (arguments : Arguments) :
    Except Refusal Arguments :=
  match grammar.positionals[arguments.positionals.length]? with
  | none => .error .misuse
  | some spec =>
      if spec.accepts value then
        .ok { arguments with positionals := arguments.positionals ++ [value] }
      else .error .misuse

end Arguments

namespace Grammar

def helpName : String := "help"

def long? (grammar : Grammar) (name : String) : Option OptionSpec :=
  grammar.options.find? (·.long == name)

def short? (grammar : Grammar) (name : Char) : Option OptionSpec :=
  grammar.options.find? (·.short == some name)

/-- Arguments so far, and the option whose value is the next argument. -/
abbrev Progress := Arguments × Option OptionSpec

/-- Reads joined short options.  The first that takes a value takes the rest, without an equals
sign in front, or else the next argument. -/
def readShort (grammar : Grammar) : List Char → Arguments → Except Refusal Progress
  | [], arguments => .ok (arguments, none)
  | c :: rest, arguments =>
      if c = 'h' then .error .help
      else
        match grammar.short? c with
        | none => .error .misuse
        | some option =>
            if option.accepts.isNone then do
              grammar.readShort rest (← arguments.addOption option "")
            else
              match rest with
              | [] => .ok (arguments, some option)
              | '=' :: value =>
                  (arguments.addValue option (String.ofList value)).map (·, none)
              | value => (arguments.addValue option (String.ofList value)).map (·, none)

def splitValue : List Char → List Char × Option (List Char)
  | [] => ([], none)
  | c :: rest =>
      if c = '=' then ([], some rest)
      else
        match splitValue rest with
        | (name, value) => (c :: name, value)

/-- Reads a long option, whose value may follow an equals sign. -/
def readLong (grammar : Grammar) (text : List Char) (arguments : Arguments) :
    Except Refusal Progress :=
  match splitValue text with
  | (name, value) =>
      if String.ofList name = helpName ∧ value.isNone then .error .help
      else
        match grammar.long? (String.ofList name), value with
        | none, _ => .error .misuse
        | some option, none =>
            if option.accepts.isNone then (arguments.addOption option "").map (·, none)
            else .ok (arguments, some option)
        | some option, some value =>
            (arguments.addValue option (String.ofList value)).map (·, none)

def isPlain (argument : String) : Bool :=
  match argument.toList with
  | '-' :: _ :: _ => false
  | _ => true

def readAll (grammar : Grammar) :
    List String → (literal : Bool) → Progress → Except Refusal Arguments
  | [], _, (arguments, none) =>
      if (grammar.positionals.drop arguments.positionals.length).any (·.isRequired) then
        .error .misuse
      else .ok arguments
  | [], _, (_, some _) => .error .misuse
  | argument :: rest, literal, (arguments, some option) =>
      if isPlain argument then do
        grammar.readAll rest literal (← arguments.addValue option argument, none)
      else .error .misuse
  | argument :: rest, true, (arguments, none) => do
      grammar.readAll rest true (← arguments.addPositional grammar argument, none)
  | argument :: rest, false, (arguments, none) =>
      match argument.toList with
      | ['-', '-'] => grammar.readAll rest true (arguments, none)
      | '-' :: '-' :: text => do
          grammar.readAll rest false (← grammar.readLong text arguments)
      | '-' :: c :: text => do
          grammar.readAll rest false (← grammar.readShort (c :: text) arguments)
      | _ => do
          grammar.readAll rest false (← arguments.addPositional grammar argument, none)

def parse (grammar : Grammar) (line : List String) : Except Refusal Arguments :=
  grammar.readAll line false (Arguments.empty, none)

end Grammar

end TreeImage.Command
