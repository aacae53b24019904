import SchemaDocs.Site

/-!
# Commands

What can be asked of the program on its command line, and what it then does. Options may stand
before and after operands; a value follows its option, is joined to it, or comes after an equals
sign.
-/

namespace SchemaDocs

inductive Command where
  /-- One phase, from a file or the standard input to a file or the standard output. -/
  | phase (phase : Phase) (input output : Option String)
  | generate (input config dir : String)
deriving DecidableEq

namespace Command

/-! ## Reading the command line -/

/-- An option that takes a value. -/
structure Valued where
  letter : Option Char
  name : String

/-- What the words after a command say. -/
structure Options where
  /-- Values of options, by the options' names. -/
  values : List (String × String)
  operands : List String
  verbose : Bool
  quiet : Bool

namespace Options

def empty : Options := ⟨[], [], false, false⟩

/-- Notes flags that have no value. -/
def addFlags (o : Options) (flags : List Char) : Options :=
  { o with verbose := o.verbose || flags.contains 'v', quiet := o.quiet || flags.contains 'q' }

/-- Notes the value of an option, which may be given once and not be empty. -/
def addValue (o : Options) (name value : String) : Option Options :=
  if value = "" ∨ (o.values.lookup name).isSome then none
  else some { o with values := o.values ++ [(name, value)] }

end Options

/-- A word of the command line. -/
inductive Word where
  | operand (s : String)
  | flags (letters : List Char)
  | option (flags : List Char) (name value : String)
  /-- An option whose value is the next word. -/
  | optionBefore (flags : List Char) (name : String)
  | unknown

/-- Whether a word is an option or a row of flags. -/
def isOption (word : String) : Bool :=
  match word.toList with
  | '-' :: _ :: _ => true
  | _ => false

/-- Tells what a word is, given the options that take a value. -/
def Word.ofString (valued : List Valued) (word : String) : Word :=
  match word.toList with
  | '-' :: '-' :: long =>
    let name := String.ofList (long.takeWhile (· != '='))
    match valued.any (·.name = name), long.dropWhile (· != '=') with
    | true, [] => .optionBefore [] name
    | true, _ :: value => .option [] name (String.ofList value)
    | false, [] =>
      if name = "verbose" then .flags ['v'] else if name = "quiet" then .flags ['q'] else .unknown
    | false, _ :: _ => .unknown
  | '-' :: c :: cs =>
    let isFlag (c : Char) := c == 'v' || c == 'q'
    let flags := (c :: cs).takeWhile isFlag
    match (c :: cs).dropWhile isFlag with
    | [] => .flags flags
    | letter :: value =>
      match valued.find? (·.letter = some letter), value with
      | none, _ => .unknown
      | some o, [] => .optionBefore flags o.name
      | some o, '=' :: value => .option flags o.name (String.ofList value)
      | some o, value => .option flags o.name (String.ofList value)
  | _ => .operand word

/-- Reads the words after a command; after two dashes all words are operands. -/
def scan (valued : List Valued) (o : Options) : List String → Option Options
  | [] => some o
  | word :: words =>
    if word = "--" then some { o with operands := o.operands ++ words }
    else
      match Word.ofString valued word, words with
      | .operand s, words => scan valued { o with operands := o.operands ++ [s] } words
      | .flags flags, words => scan valued (o.addFlags flags) words
      | .option flags name value, words => do
        scan valued (← (o.addFlags flags).addValue name value) words
      | .optionBefore flags name, value :: words =>
        if isOption value then none
        else do scan valued (← (o.addFlags flags).addValue name value) words
      | .optionBefore .., [] => none
      | .unknown, _ => none

/-- The options of a command; more words and fewer exclude each other, and no operand is empty. -/
def options? (valued : List Valued) (words : List String) : Option Options := do
  let o ← scan valued Options.empty words
  if (o.verbose ∧ o.quiet) ∨ o.operands.contains "" then none else some o

def phase? (p : Phase) (words : List String) : Option Command := do
  let o ← options? [⟨some 'o', "output"⟩] words
  let output := o.values.lookup "output"
  match o.operands with
  | [] => some (.phase p none output)
  | [input] => some (.phase p (some input) output)
  | _ => none

def generate? (words : List String) : Option Command := do
  let o ← options? [⟨some 'c', "config"⟩, ⟨none, "out-dir"⟩] words
  let [input] := o.operands | none
  let config ← o.values.lookup "config"
  return .generate input config ((o.values.lookup "out-dir").getD ".")

/-- The command that the words of a command line state, after flags for all commands. -/
def ofWords? (before : Options) : List String → Option Command
  | [] => none
  | word :: words =>
    match Word.ofString [] word with
    | .flags flags => ofWords? (before.addFlags flags) words
    | .operand name =>
      if before.verbose ∧ before.quiet then none
      else if name = "convert" then phase? .convert words
      else if name = "prune" then phase? .prune words
      else if name = "generate" then generate? words
      else none
    | _ => none

def parse? (words : List String) : Option Command := ofWords? Options.empty words

/-! ## Running -/

variable {m : Type → Type} [Monad m] [Disk m]

/-- The input that a command names, open; `none` is the standard input. -/
def inputHandle : Option String → m (Except String (Option (Disk.Handle m)))
  | none => return .ok none
  | some path => do
    match ← Disk.openFile path with
    | .error _ => return .error ("failed to open " ++ path)
    | .ok handle => return .ok (some handle)

/-- The output that a command names, empty; `none` is the standard output. -/
def outputHandle : Option String → m (Except String (Option (Disk.Handle m)))
  | none => return .ok none
  | some path => do
    match ← Disk.create path with
    | .error _ => return .error ("failed to create " ++ path)
    | .ok handle => return .ok (some handle)

/-- Runs a phase, and gives what goes to the standard output or tells what failed. The output is
made after the input is open and before it is read. -/
def runPhase (p : Phase) (stdin : m (Except FileError ByteArray)) (input output : Option String) :
    m (Except String ByteArray) :=
  Disk.andThen (inputHandle input) fun source =>
  Disk.andThen (outputHandle output) fun target => do
    let bytes ←
      match source with
      | none => stdin
      | some handle => Disk.read handle
    match p.run bytes Sink.unlimited, target with
    | (.error e, _), _ => return .error e.message
    | (.ok (), out), none => return .ok out.written
    | (.ok (), out), some handle =>
      match ← Disk.write handle out.written with
      | .error e => return .error e.message
      | .ok () => return .ok ByteArray.empty

/-- Generates a site. The configuration is loaded before the input is opened. -/
def runGenerate (input config dir : String) : m (Except String ByteArray) := do
  match ← Configuration.fromFile config with
  | .error _ => return .error ("failed to load " ++ config)
  | .ok config =>
    match ← Disk.openFile input with
    | .error _ => return .error ("failed to open " ++ input)
    | .ok handle =>
      match ← Site.generate (← Disk.read handle) config dir with
      | .error e => return .error e.headline
      | .ok _ => return .ok ByteArray.empty

/-- Runs a command, and gives what goes to the standard output or tells what failed. -/
def run (stdin : m (Except FileError ByteArray)) : Command → m (Except String ByteArray)
  | phase p input output => runPhase p stdin input output
  | generate input config dir => runGenerate input config dir

end Command
end SchemaDocs
