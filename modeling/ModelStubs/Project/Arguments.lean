/-
# Command lines

A command line is a list of words. An option is `--name value`, `--name=value`,
`-n value`, `-nvalue` or `-n=value`; flags have no value, and several of one letter
may share a dash. An option or flag that is not a list may be given once. A value
that starts with a dash has to be attached, and after the word `--` all words are
operands.

A command line that is understood asks for a command, and says whether the log is to tell
more than warnings (`-v`), before the name of the command or behind it.

Key definitions: `Project.Switch`, `Project.Grammar`, `Project.scan`, `Project.Command`,
`Project.Request`, `Project.Request.ofWords`.
-/
import ModelStubs.Project.Generate
import ModelStubs.Project.Init

namespace ModelStubs
namespace Project

/-- What may follow a switch. -/
inductive Arity
  /-- Nothing; the switch may be given once. -/
  | flag
  /-- One value; the switch may be given once. -/
  | single
  /-- One value each time the switch is given. -/
  | list
  /-- Nothing; the help is shown at once. -/
  | help
  /-- Nothing; the version is shown at once. -/
  | version
deriving DecidableEq, Repr

/-- A switch by its long name and its letter. -/
structure Switch where
  long : String
  letter : Option Char
  arity : Arity
deriving DecidableEq, Repr

/-- What a command understands: its switches, how many operands it takes, and the words that
start another command. -/
structure Grammar where
  switches : List Switch
  operands : Nat
  commands : List String
deriving Repr

/-- What was given: switches with their values, and operands, both in order. -/
structure Given where
  switches : List (String × String)
  operands : List String
deriving DecidableEq, Repr

namespace Given

/-- Nothing yet. -/
def none : Given := ⟨[], []⟩

/-- The switch was given. -/
def has (g : Given) (long : String) : Bool := g.switches.any fun s => s.1 == long

/-- The values of a switch, in order. -/
def values (g : Given) (long : String) : List String :=
  (g.switches.filter fun s => s.1 == long).map Prod.snd

/-- The value of a switch. -/
def value? (g : Given) (long : String) : Option String := (g.values long).head?

end Given

/-- How a command line ends without a command. -/
inductive Verdict
  | help
  | version
  | misuse
deriving DecidableEq, Repr

/-- Takes down a switch with its value. -/
def Given.note (g : Given) (w : Switch) (value : String) : Except Verdict Given :=
  if w.arity ≠ .list ∧ g.has w.long then .error .misuse
  else .ok { g with switches := g.switches ++ [(w.long, value)] }

/-- Takes down a switch without a value. -/
def Given.raise (g : Given) (w : Switch) : Except Verdict Given :=
  match w.arity with
  | .help => .error .help
  | .version => .error .version
  | _ => g.note w ""

/-- The switch has a value. -/
def Switch.takesValue (w : Switch) : Bool := w.arity == .single || w.arity == .list

/-- The switch of a long name. -/
def Grammar.long? (s : Grammar) (name : String) : Option Switch :=
  s.switches.find? fun w => w.long == name

/-- The switch of a letter. -/
def Grammar.letter? (s : Grammar) (c : Char) : Option Switch :=
  s.switches.find? fun w => w.letter == some c

/-- Reads letters behind one dash. The answer has the switch whose value is due in the
next word, if there is one. -/
def scanLetters (s : Grammar) (g : Given) : List Char → Except Verdict (Given × Option Switch)
  | [] => .ok (g, none)
  | c :: cs =>
    match s.letter? c with
    | none => .error .misuse
    | some w =>
      if w.takesValue then
        match cs with
        | [] => .ok (g, some w)
        | d :: ds =>
          match g.note w (String.ofList (if d = '=' then ds else d :: ds)) with
          | .error v => .error v
          | .ok g => .ok (g, none)
      else
        match g.raise w with
        | .error v => .error v
        | .ok g => scanLetters s g cs

/-- Reads a word behind two dashes. -/
def scanLong (s : Grammar) (g : Given) (word : List Char) :
    Except Verdict (Given × Option Switch) :=
  let name := word.takeWhile (· != '=')
  match s.long? (String.ofList name), word.drop name.length with
  | none, _ => .error .misuse
  | some w, [] =>
    if w.takesValue then .ok (g, some w)
    else
      match g.raise w with
      | .error v => .error v
      | .ok g => .ok (g, none)
  | some w, _ :: value =>
    if w.takesValue then
      match g.note w (String.ofList value) with
      | .error v => .error v
      | .ok g => .ok (g, none)
    else .error .misuse

/-- The kinds of words. -/
inductive Word
  /-- The word `--`. -/
  | divider
  /-- What stands behind two dashes. -/
  | long (rest : List Char)
  /-- What stands behind one dash. -/
  | letters (rest : List Char)
  | plain
deriving DecidableEq, Repr

/-- The kind of a word. A dash alone is a plain word. -/
def Word.of (word : String) : Word :=
  match word.toList with
  | ['-', '-'] => .divider
  | '-' :: '-' :: rest => .long rest
  | ['-'] => .plain
  | '-' :: rest => .letters rest
  | _ => .plain

/-- Takes down an operand. -/
def Given.operand (g : Given) (s : Grammar) (word : String) : Except Verdict Given :=
  if g.operands.length < s.operands then .ok { g with operands := g.operands ++ [word] }
  else .error .misuse

/-- Takes down words that can only be operands. -/
def scanOperands (s : Grammar) (g : Given) : List String → Except Verdict Given
  | [] => .ok g
  | word :: words =>
    match g.operand s word with
    | .error v => .error v
    | .ok g => scanOperands s g words

/-- Reads words up to one that starts another command, which comes with the words
behind it. The value of the switch `due` is the next word. -/
def scan (s : Grammar) (g : Given) (due : Option Switch) : List String →
    Except Verdict (Given × List String)
  | [] => if due.isSome then .error .misuse else .ok (g, [])
  | word :: words =>
    match due, Word.of word with
    | some w, .plain =>
      match g.note w word with
      | .error v => .error v
      | .ok g => scan s g none words
    | some _, _ => .error .misuse
    | none, .divider =>
      match scanOperands s g words with
      | .error v => .error v
      | .ok g => .ok (g, [])
    | none, .long rest =>
      match scanLong s g rest with
      | .error v => .error v
      | .ok (g, due) => scan s g due words
    | none, .letters rest =>
      match scanLetters s g rest with
      | .error v => .error v
      | .ok (g, due) => scan s g due words
    | none, .plain =>
      if s.commands.contains word then .ok (g, word :: words)
      else
        match g.operand s word with
        | .error v => .error v
        | .ok g => scan s g none words

/-- The switches that every command understands. -/
def commonSwitches : List Switch :=
  [⟨"verbose", some 'v', .flag⟩, ⟨"help", some 'h', .help⟩]

/-- The commands of the program. -/
def commandNames : List String := ["init", "generate", "list", "help"]

/-- What stands before the name of a command. -/
def topGrammar : Grammar :=
  ⟨⟨"version", some 'V', .version⟩ :: commonSwitches, 0, commandNames⟩

/-- What `init` understands. -/
def initGrammar : Grammar :=
  ⟨[⟨"generator", some 'g', .list⟩, ⟨"model-dir", some 'm', .single⟩,
    ⟨"force", some 'f', .flag⟩] ++ commonSwitches, 0, []⟩

/-- What `generate` understands. -/
def generateGrammar : Grammar :=
  ⟨[⟨"generator", some 'g', .list⟩, ⟨"out-dir", some 'o', .single⟩,
    ⟨"model-version", none, .single⟩, ⟨"stdout", none, .flag⟩] ++ commonSwitches, 1, []⟩

/-- What `list` understands. -/
def listGrammar : Grammar := ⟨commonSwitches, 0, []⟩

/-- What the program is told to do. -/
inductive Command
  | init (a : InitArguments)
  | generate (a : GenerateArguments)
  | list
deriving DecidableEq, Repr

/-- The command `init`. -/
def Command.ofInit (g : Given) : Command :=
  let generators := g.values "generator"
  .init
    { generators := if generators.isEmpty then Settings.default.generators else generators
      modelDir := (g.value? "model-dir").getD Settings.default.modelDir
      force := g.has "force" }

/-- The command `generate`. -/
def Command.ofGenerate (g : Given) : Command :=
  .generate
    { path := g.operands.head?.getD "."
      generators := g.values "generator"
      outDir := g.value? "out-dir"
      modelVersion := g.value? "model-version"
      stdout := g.has "stdout" }

/-- What a command line asks for: a command, and a log that tells more than warnings. -/
structure Request where
  verbose : Bool
  command : Command
deriving DecidableEq, Repr

/-- The words behind the name of a command, read to their end. -/
def scanCommand (s : Grammar) (words : List String) : Except Verdict Given :=
  match scan s .none none words with
  | .error v => .error v
  | .ok (g, _) => .ok g

/-- The request for a command with the given words, behind what was given before its name. -/
def Request.ofCommand (before : Given) (s : Grammar) (command : Given → Command)
    (words : List String) : Except Verdict Request :=
  (scanCommand s words).map fun g => ⟨before.has "verbose" || g.has "verbose", command g⟩

/-- What a command line asks for. -/
def Request.ofWords (words : List String) : Except Verdict Request :=
  match scan topGrammar .none none words with
  | .error v => .error v
  | .ok (_, []) => .error .misuse
  | .ok (before, name :: rest) =>
    if name = "init" then ofCommand before initGrammar Command.ofInit rest
    else if name = "generate" then ofCommand before generateGrammar Command.ofGenerate rest
    else if name = "list" then ofCommand before listGrammar (fun _ => .list) rest
    else
      match rest with
      | [] => .error .help
      | command :: more =>
        if commandNames.contains command && more.isEmpty then .error .help else .error .misuse

end Project
end ModelStubs
