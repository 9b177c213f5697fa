/-
  Reading the words of a command line against a list of options. Options have a long name and
  perhaps a letter; letters can be written together, and a value stands after an equals sign, right
  after the letter, or in the next word. Two hyphens end the options.
-/

namespace ModCheck.Command

/-- Why a command line is not carried out. -/
inductive Stop where
  /-- It cannot be understood. -/
  | usage
  /-- It asks for help. -/
  | help
  /-- It asks for the version. -/
  | version
deriving DecidableEq, Repr

inductive OptionKind where
  /-- Given at most once. -/
  | flag
  /-- Given any number of times. -/
  | counter
  /-- Given at most once, with a value for which the test holds. -/
  | value (accepts : String → Bool)
  /-- Nothing after it counts. -/
  | stop (reason : Stop)

structure OptionSpec where
  long : String
  short : Option Char
  kind : OptionKind

/-- What a command takes: options, and words that are no options. -/
structure Grammar where
  options : List OptionSpec
  /-- The most words it takes, if there is a limit. -/
  maxWords : Option Nat
  acceptsWord : String → Bool

/-- The options, with their values, and the words that were given. -/
structure Given where
  options : List (String × String) := []
  words : List String := []
deriving DecidableEq, Repr

namespace Given

def has (g : Given) (long : String) : Bool :=
  g.options.any (·.1 == long)

def value? (g : Given) (long : String) : Option String :=
  g.options.lookup long

/-- Adds an option with a value, which is empty for options without one. -/
def addOption (g : Given) (spec : OptionSpec) (value : String) : Except Stop Given :=
  let added : Given := { g with options := g.options ++ [(spec.long, value)] }
  match spec.kind with
  | .flag => if g.has spec.long then .error .usage else .ok added
  | .counter => .ok added
  | .value accepts =>
    if g.has spec.long || !accepts value then .error .usage else .ok added
  | .stop reason => .error reason

/-- Adds a word that is no option. -/
def addWord (g : Given) (grammar : Grammar) (word : String) : Except Stop Given :=
  if grammar.maxWords.any (· ≤ g.words.length) || !grammar.acceptsWord word then .error .usage
  else .ok { g with words := g.words ++ [word] }

end Given

def OptionSpec.takesValue (spec : OptionSpec) : Bool :=
  match spec.kind with
  | .value _ => true
  | _ => false

/-- Whether a word is an option or ends the options; a single hyphen is neither. -/
def looksLikeOption (word : String) : Bool :=
  word.toList.head? == some '-' && word != "-"

/-- Reads letters written together. An option that takes a value and has none yet is given back. -/
def readLetters (options : List OptionSpec) :
    List Char → Given → Except Stop (Given × Option OptionSpec)
  | [], g => .ok (g, none)
  | c :: cs, g =>
    match options.find? (·.short == some c) with
    | none => .error .usage
    | some spec =>
      if spec.takesValue then
        match cs with
        | [] => .ok (g, some spec)
        | '=' :: value => (g.addOption spec (String.ofList value)).map (·, none)
        | value => (g.addOption spec (String.ofList value)).map (·, none)
      else match g.addOption spec "" with
        | .error stop => .error stop
        | .ok g => readLetters options cs g

/-- Reads a long option without its hyphens. -/
def readLong (options : List OptionSpec) (text : List Char) (g : Given) :
    Except Stop (Given × Option OptionSpec) :=
  let name := String.ofList (text.takeWhile (· != '='))
  let attached := (text.dropWhile (· != '=')).tail
  let hasValue := text.contains '='
  match options.find? (·.long == name) with
  | none => .error .usage
  | some spec =>
    if spec.takesValue then
      if hasValue then (g.addOption spec (String.ofList attached)).map (·, none)
      else .ok (g, some spec)
    else if hasValue then .error .usage
    else (g.addOption spec "").map (·, none)

/-- Reads a word that looks like an option. -/
def readOption (options : List OptionSpec) (word : String) (g : Given) :
    Except Stop (Given × Option OptionSpec) :=
  match word.toList with
  | '-' :: '-' :: text => readLong options text g
  | _ :: letters => readLetters options letters g
  | [] => .error .usage

/-- Reads the words of a command. -/
def readAll (grammar : Grammar) : List String → Given → Except Stop Given
  | [], g => .ok g
  | "--" :: words, g => words.foldlM (fun g word => g.addWord grammar word) g
  | word :: words, g =>
    if looksLikeOption word then
      match readOption grammar.options word g with
      | .error stop => .error stop
      | .ok (g, none) => readAll grammar words g
      | .ok (g, some spec) =>
        match words with
        | [] => .error .usage
        | value :: words =>
          if looksLikeOption value then .error .usage
          else match g.addOption spec value with
            | .error stop => .error stop
            | .ok g => readAll grammar words g
    else match g.addWord grammar word with
      | .error stop => .error stop
      | .ok g => readAll grammar words g

/-- Reads options up to the first other word; gives back that word and all after it. After two
hyphens there must be nothing. -/
def readHead (options : List OptionSpec) : List String → Given → Except Stop (Given × List String)
  | [], g => .ok (g, [])
  | "--" :: words, g => if words.isEmpty then .ok (g, []) else .error .usage
  | word :: words, g =>
    if looksLikeOption word then
      match readOption options word g with
      | .error stop => .error stop
      | .ok (g, none) => readHead options words g
      | .ok (g, some spec) =>
        match words with
        | [] => .error .usage
        | value :: words =>
          if looksLikeOption value then .error .usage
          else match g.addOption spec value with
            | .error stop => .error stop
            | .ok g => readHead options words g
    else .ok (g, word :: words)

end ModCheck.Command
