/-
# The command

`run` reads a command line and does what it asks for. A command that gives up says why
on the error output and ends with code 1; a command line that is not understood
ends with code 2.

Beside its report a run keeps a log on the error output, whose lines tell the time. They are
not described here: a run is answered by its outcome and the level of its log. The program
logs nothing as grave as a warning, so a run that was not asked for more writes its report
and nothing else, and only in the other runs lines of the log stand among those of the report.

Key definitions: `Project.Outcome`, `Project.Logged`, `Project.run`.
-/
import ModelStubs.Project.Arguments

namespace ModelStubs
namespace Project

open Disk (Path Access)

/-- What a run of the program reported, and its code. -/
structure Outcome where
  report : Report
  code : UInt32
deriving DecidableEq, Repr

/-- How grave a line has to be to stand in the log. -/
inductive LogLevel
  | debug
  | warn
deriving DecidableEq, Repr

/-- The level of the log, which may be asked to tell more than warnings. -/
def LogLevel.of (verbose : Bool) : LogLevel := if verbose then .debug else .warn

/-- The outcome of a run beside its log. -/
structure Logged extends Outcome where
  /-- The level of the log, if one was kept. -/
  log : Option LogLevel
deriving DecidableEq, Repr

/-- The lines on a command that gave up. -/
def refusalLines (r : Refusal) : Report :=
  [.err [], .err [.styled ⟨true, .red⟩ "Error:", .plain (" " ++ r.message)], .err []]

/-- The outcome of a command. -/
def Outcome.of (e : Ending) : Outcome :=
  match e.refusal with
  | none => ⟨e.report, 0⟩
  | some r => ⟨e.report ++ refusalLines r, 1⟩

/-- How the program is used. -/
def usage : List String :=
  ["Generate stub files from model definitions",
   "",
   "Usage: modelgen [-v] init [-g NAME]... [-m DIR] [-f]",
   "       modelgen [-v] generate [-g NAME]... [-o DIR] [--model-version LABEL] [--stdout] [PATH]",
   "       modelgen [-v] list",
   "       modelgen --help | --version"]

/-- The outcome of a command line that asks for no command. -/
def Verdict.outcome : Verdict → Outcome
  | help => ⟨usage.map Line.plain, 0⟩
  | version => ⟨[.plain "modelgen 0.1.0"], 0⟩
  | misuse => ⟨usage.map fun l => .err [.plain l], 2⟩

variable {m : Type → Type} [Monad m] [Access m]

/-- Does what the program is told to do, in the given directory. -/
def Command.run (cwd : Path) : Command → m Ending
  | init a => Project.init a cwd
  | generate a => Project.generate a cwd
  | list => return listGenerators

/-- Runs the program with the given words in the given directory. -/
def run (words : List String) (cwd : Path) : m Logged := do
  match Request.ofWords words with
  | .error v => return ⟨v.outcome, none⟩
  | .ok request => return ⟨.of (← request.command.run cwd), LogLevel.of request.verbose⟩

end Project
end ModelStubs
