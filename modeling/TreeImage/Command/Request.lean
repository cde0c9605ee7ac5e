import TreeImage.Build.Options
import TreeImage.Command.Grammar

namespace TreeImage.Command

inductive Request
  | pack (directory image : String) (blockSize : UInt32) (options : Build.Options)
  | list (image path : String) (recursive : Bool)
  | print (image path : String)
  | info (image : String)
  deriving DecidableEq, Repr

def decimal? (digits : List Char) : Option Nat :=
  if digits = [] ∨ !digits.all Char.isDigit then none
  else some (digits.foldl (fun n c => 10 * n + (c.toNat - '0'.toNat)) 0)

/-- The 32-bit word that a text spells: decimal digits after an optional sign. -/
def word? (text : String) : Option UInt32 :=
  let number :=
    match text.toList with
    | '+' :: digits => decimal? digits
    | '-' :: digits => (decimal? digits).filter (· == 0)
    | digits => decimal? digits
  (number.filter (· < UInt32.size)).map UInt32.ofNat

namespace Request

def verbose : OptionSpec := ⟨"verbose", some 'v', none⟩

def flag (long : String) : OptionSpec := ⟨long, none, none⟩

def hostPath : PositionalSpec := ⟨true, (· != "")⟩

def imagePath (isRequired : Bool) : PositionalSpec := ⟨isRequired, fun _ => true⟩

def leadGrammar : Grammar := ⟨[verbose], []⟩

def packGrammar : Grammar where
  options :=
    [verbose, ⟨"block-size", some 'b', some fun text => (word? text).isSome⟩,
      ⟨"compression", some 'c', some fun text => (Algorithm.ofName? text).isSome⟩,
      flag "no-export", flag "no-fragments",
      ⟨"force-uid", none, some fun text => (word? text).isSome⟩,
      ⟨"force-gid", none, some fun text => (word? text).isSome⟩]
  positionals := [hostPath, hostPath]

def listGrammar : Grammar :=
  ⟨[verbose, ⟨"recursive", some 'r', none⟩], [hostPath, imagePath false]⟩

def printGrammar : Grammar := ⟨[verbose], [hostPath, imagePath true]⟩

def infoGrammar : Grammar := ⟨[verbose], [hostPath]⟩

def buildOptions (arguments : Arguments) : Build.Options where
  algorithm := ((arguments.value? "compression").bind Algorithm.ofName?).getD .gzip
  exportTable := !arguments.has "no-export"
  forceUid := (arguments.value? "force-uid").bind word?
  forceGid := (arguments.value? "force-gid").bind word?
  noFragments := arguments.has "no-fragments"

def ofCommand (name : String) (line : List String) : Except Refusal Request :=
  match name with
  | "pack" => do
      let arguments ← packGrammar.parse line
      let blockSize := ((arguments.value? "block-size").bind word?).getD Format.defaultBlockSize
      match arguments.positionals with
      | [directory, image] =>
          return .pack directory image blockSize (buildOptions arguments)
      | _ => throw .misuse
  | "ls" => do
      let arguments ← listGrammar.parse line
      match arguments.positionals with
      | image :: path => return .list image (path.headD "/") (arguments.has "recursive")
      | [] => throw .misuse
  | "cat" => do
      match (← printGrammar.parse line).positionals with
      | [image, path] => return .print image path
      | _ => throw .misuse
  | "info" => do
      match (← infoGrammar.parse line).positionals with
      | [image] => return .info image
      | _ => throw .misuse
  | "help" =>
      match line with
      | [] => throw .help
      | [topic] =>
          if topic ∈ ["pack", "ls", "cat", "info", "help"] then throw .help else throw .misuse
      | _ => throw .misuse
  | _ => throw .misuse

/-- Splits a command line at the name of the command, its first argument that is no option. -/
def splitCommand : List String → List String × List String
  | [] => ([], [])
  | argument :: rest =>
      if argument ≠ "--" ∧ Grammar.isPlain argument then ([], argument :: rest)
      else
        match splitCommand rest with
        | (lead, command) => (argument :: lead, command)

def parse (line : List String) : Except Refusal Request :=
  match splitCommand line with
  | (lead, command) => do
      let _ ← leadGrammar.parse lead
      if "--" ∈ lead then throw .misuse
      match command with
      | [] => throw .misuse
      | name :: rest => ofCommand name rest

end Request

end TreeImage.Command
