import PhraseStructure.Enumeration
import PhraseStructure.Expansion
import PhraseStructure.Persistence
import PhraseStructure.Recognition

/-!
# The command line

The arguments name a file with a grammar and a command to carry out on it.  Options for the search budget and
for the notes may stand before or after the file, but not behind the command.

Arguments are taken one after another, and the first that does not fit ends it all, as does a request for help
or for the version.

## Main definitions

* `CommandLine.Command`, `CommandLine.Invocation`: what is asked.
* `CommandLine.parse`: the invocation that some arguments spell.
* `CommandLine.run`: carrying out an invocation.
* `CommandLine.respond`: both together.
-/

namespace PhraseStructure.CommandLine

/-! ### Arguments -/

/-- What can be done with a grammar. -/
inductive Command where
  /-- Summarise it. -/
  | info
  /-- Draw its production graph. -/
  | tree
  /-- Decide whether a text belongs to its language. -/
  | parse (input : String)
  /-- List words of its language. -/
  | generate (amount : Nat)
  /-- Save it as JSON. -/
  | save (output : String)
  /-- Report everything that is wrong with it. -/
  | check
deriving DecidableEq, Repr

/-- A command on a file. -/
structure Invocation where
  /-- The file with the grammar. -/
  file : String
  /-- The file with the search budget. -/
  budget : Option String
  /-- Are notes shown at the end? -/
  verbose : Bool
  /-- What to do. -/
  command : Command
deriving DecidableEq, Repr

/-- Why arguments spell no invocation. -/
inductive Detour where
  /-- They do not fit. -/
  | misuse
  /-- They ask for help. -/
  | help
  /-- They ask for the version. -/
  | version
deriving DecidableEq, Repr

/-- The names of the commands. -/
def commandNames : List String :=
  ["info", "tree", "parse", "generate", "save", "check"]

/-- The options and the file that stand before a command. -/
structure Options where
  /-- The file with the grammar. -/
  file : Option String := none
  /-- The file with the search budget. -/
  budget : Option String := none
  /-- Are notes shown at the end? -/
  verbose : Bool := false

namespace Options

/-- Sets the file; there is only one, and its name is not empty. -/
def setFile (options : Options) (file : String) : Except Detour Options :=
  if options.file.isSome || file = "" then .error .misuse
  else .ok { options with file := some file }

/-- Sets the file with the search budget; there is only one, and its name is not empty. -/
def setBudget (options : Options) (file : String) : Except Detour Options :=
  if options.budget.isSome || file = "" then .error .misuse
  else .ok { options with budget := some file }

/-- Asks for notes; once is enough. -/
def setVerbose (options : Options) : Except Detour Options :=
  if options.verbose then .error .misuse else .ok { options with verbose := true }

end Options

/-- Does an argument look like an option rather than a value? -/
def isOption (arg : String) : Bool :=
  arg.startsWith "-" && arg ≠ "-"

/-- The value of an option, if it is an argument of its own, and the arguments behind it. -/
def valueOf : List String → Except Detour (String × List String)
  | [] => .error .misuse
  | arg :: args => if isOption arg then .error .misuse else .ok (arg, args)

/-- What follows a name and an equals sign. -/
def assigned? (name arg : String) : Option String :=
  (stripFront (name ++ "=").toList arg.toList).map String.ofList

/-- The value of a short option: the rest of its argument, behind an equals sign or not, or else the next
argument. -/
def shortValue (rest : List Char) (args : List String) : Except Detour (String × List String) :=
  match rest with
  | [] => valueOf args
  | '=' :: rest => .ok (String.ofList rest, args)
  | rest => .ok (String.ofList rest, args)

/-- Takes short options that stand together in one argument. -/
def shortOptions (options : Options) (args : List String) :
    List Char → Except Detour (Options × List String)
  | [] => .ok (options, args)
  | 'v' :: cs => do shortOptions (← options.setVerbose) args cs
  | 'b' :: cs => do
    let (file, args) ← shortValue cs args
    return (← options.setBudget file, args)
  | 'V' :: _ => .error .version
  | 'h' :: _ => .error .help
  | _ :: _ => .error .misuse

/-- Takes an option. -/
def option (options : Options) (arg : String) (args : List String) :
    Except Detour (Options × List String) :=
  if arg = "--verbose" then do return (← options.setVerbose, args)
  else if arg = "--budget" then do
    let (file, args) ← valueOf args
    return (← options.setBudget file, args)
  else if arg = "--version" then .error .version
  else if arg = "--help" then .error .help
  else
    match assigned? "--budget" arg with
    | some file => do return (← options.setBudget file, args)
    | none =>
      if arg.startsWith "--" then .error .misuse
      else shortOptions options args (arg.toList.drop 1)

/-- Takes arguments up to a command: the options, the name of the command and the arguments behind it.  Every
turn takes at least one argument, so the count bounds the turns. -/
def upToCommand : Nat → Options → List String → Except Detour (Options × String × List String)
  | 0, _, _ => .error .misuse
  | _ + 1, _, [] => .error .misuse
  | count + 1, options, arg :: args => do
    if commandNames.contains arg then
      return (options, arg, args)
    else if arg = "help" then
      throw (if args.all fun name => name = "help" || commandNames.contains name then .help else .misuse)
    else if isOption arg then
      let (options, args) ← option options arg args
      upToCommand count options args
    else
      upToCommand count (← options.setFile arg) args

/-- Takes the values behind a command that has no options: at most `bound` of them.  Behind `--` everything is
a value. -/
def values : Nat → List String → Except Detour (List String)
  | _, [] => .ok []
  | bound, "--" :: args => if args.length ≤ bound then .ok args else .error .misuse
  | bound, arg :: args =>
    if arg = "--help" then .error .help
    else if isOption arg then
      .error (if arg.toList.take 2 = ['-', 'h'] then .help else .misuse)
    else
      match bound with
      | 0 => .error .misuse
      | bound + 1 => (values bound args).map (arg :: ·)

/-- A natural number of 64 bits in decimal digits, perhaps behind a plus. -/
def amountOf? (s : String) : Option Nat :=
  let digits := if s.startsWith "+" then s.toList.drop 1 else s.toList
  if digits = [] || !digits.all Json.isDigit then none
  else
    let n := digits.foldl (fun n c => 10 * n + (c.toNat - '0'.toNat)) 0
    if n < wordLimit then some n else none

/-- Takes the options of a listing; the count bounds the turns. -/
def amount : Nat → Option Nat → List String → Except Detour Nat
  | 0, _, _ => .error .misuse
  | _ + 1, given, [] => .ok (given.getD 10)
  | _ + 1, given, ["--"] => .ok (given.getD 10)
  | count + 1, given, arg :: args => do
    let set (value : String) (args : List String) : Except Detour Nat :=
      match given, amountOf? value with
      | none, some n => amount count (some n) args
      | _, _ => .error .misuse
    if arg = "--help" then throw .help
    else if arg = "--amount" then
      let (value, args) ← valueOf args
      set value args
    else
      match assigned? "--amount" arg, arg.toList with
      | some value, _ => set value args
      | none, '-' :: 'n' :: rest =>
        let (value, args) ← shortValue rest args
        set value args
      | none, '-' :: 'h' :: _ => throw .help
      | none, _ => throw .misuse

/-- The command with a given name and the arguments behind it. -/
def command (name : String) (args : List String) : Except Detour Command := do
  match name with
  | "info" => (values 0 args).map fun _ => .info
  | "tree" => (values 0 args).map fun _ => .tree
  | "check" => (values 0 args).map fun _ => .check
  | "parse" =>
    match ← values 1 args with
    | [input] => return .parse input
    | _ => throw .misuse
  | "save" =>
    match ← values 1 args with
    | [output] => if output = "" then throw .misuse else return .save output
    | _ => throw .misuse
  | "generate" => return .generate (← amount (args.length + 1) none args)
  | _ => throw .misuse

/-- The invocation that some arguments spell. -/
def parse (args : List String) : Except Detour Invocation := do
  let (options, name, args) ← upToCommand (args.length + 1) {} args
  let command ← command name args
  let some file := options.file | throw .misuse
  return { file, budget := options.budget, verbose := options.verbose, command }

/-! ### Carrying out commands -/

/-- What a run leaves behind: its exit code, what it writes for the reader and on problems, and its events. -/
structure Report where
  /-- The exit code. -/
  code : Nat := 0
  /-- The text for the reader. -/
  output : String := ""
  /-- The text on problems. -/
  errors : String := ""
  /-- What happened; nothing if the run ended before its command was carried out. -/
  events : Option (List Event) := some []

/-- The exit code for arguments that do not fit. -/
def misuseCode : Nat := 2

/-- The exit code for data that are not as they should be. -/
def dataCode : Nat := 65

/-- The exit code for files that cannot be read or written. -/
def accessCode : Nat := 74

/-- The exit code for a budget that is not as it should be. -/
def configurationCode : Nat := 78

/-- A report that ends the run at once. -/
def Report.abort (code : Nat) (errors : String) : Report :=
  { code, errors, events := none }

/-- The text with a line end. -/
def asLine (s : String) : String :=
  s ++ "\n"

/-- A text with blanks in front to make up a width. -/
def padLeft (width : Nat) (s : String) : String :=
  String.ofList (List.replicate (width - s.length) ' ') ++ s

/-- The listing of some words, one on a line. -/
def listing (words : List Word) : String :=
  if words = [] then asLine "no words found within the search budget"
  else String.join (words.mapIdx fun i w => asLine (padLeft 3 (toString (i + 1)) ++ ". " ++ w.shown))

variable {m : Type → Type} [Monad m] (store : Store m)

/-- The grammar in a file, with what there is to note, or the report on why there is none. -/
def readGrammar (path : String) : m (Except Report (Grammar × List Event)) := do
  if isJsonPath path then
    match ← store.load path with
    | .ok result => return .ok result
    | .error (.access fault) =>
      return .error (.abort accessCode (asLine ("error reading grammar file: " ++ fault.text)))
    | .error fault => return .error (.abort dataCode (asLine fault.message))
  else
    match ← store.readDescription path with
    | .error fault =>
      return .error (.abort dataCode (asLine "errors while parsing grammar" ++ asLine fault.message))
    | .ok d =>
      match d.build with
      | .ok g => return .ok (g, [g.constructed])
      | .error fault =>
        return .error (.abort dataCode
          (asLine ("invalid grammar: " ++ fault.message) ++ asLine "run `check` to list every problem"))

/-- The report of a command on the grammar in a file. -/
def onGrammar (path : String) (f : Grammar → List Event → m Report) : m Report := do
  match ← readGrammar store path with
  | .error report => return report
  | .ok (g, events) => f g events

/-- The report on everything that is wrong with the grammar in a file. -/
def check (path : String) : m Report := do
  match ← store.readDescription path with
  | .error fault => return { code := dataCode, errors := asLine fault.message }
  | .ok d =>
    match d.problems with
    | none => return { output := asLine "no problems found" }
    | some text => return { code := dataCode, errors := asLine text }

/-- The report of a command under a budget. -/
def execute (file : String) (b : Budget) : Command → m Report
  | .check => check store file
  | .info => onGrammar store file fun g events =>
    return { output := asLine g.describe, events := some events }
  | .tree => onGrammar store file fun g events =>
    return { output := asLine g.productionTree, events := some events }
  | .parse input => onGrammar store file fun g events =>
    match g.answer b input with
    | .error overflow => return .abort 101 (asLine overflow.message)
    | .ok answer =>
      return { output := asLine answer.outcome.render, events := some (events ++ answer.events) }
  | .generate amount => onGrammar store file fun g events =>
    let (words, more) := g.enumerate b amount
    return { output := listing words, events := some (events ++ more) }
  | .save output => onGrammar store file fun g events => do
    match ← store.save g output with
    | .error fault =>
      return { code := accessCode, errors := asLine fault.message, events := some events }
    | .ok more => return { output := asLine ("saved to " ++ output), events := some (events ++ more) }

/-- The notes as they are shown at the end of a run. -/
def notesText (stamp : Stamp) (events : List Event) : String :=
  let messages := (Journal.recordAll {} stamp events).recent Journal.capacity
  asLine "" ++ asLine "log:" ++ String.join (messages.map fun message => asLine ("    " ++ message))

/-- The report with its notes, if they are asked for and the command was carried out. -/
def Report.withNotes (stamp : Stamp) (verbose : Bool) (report : Report) : Report :=
  match verbose, report.events with
  | true, some events => { report with output := report.output ++ notesText stamp events }
  | _, _ => report

/-- The budget in a file, or the report on why there is none.  Without a file it is the default budget. -/
def readBudget : Option String → m (Except Report Budget)
  | none => return .ok {}
  | some path => do
    match ← store.readBudget path with
    | .ok b => return .ok b
    | .error (.access fault) =>
      return .error (.abort accessCode (asLine ("failed to read " ++ path ++ ": " ++ fault.text)))
    | .error .malformed =>
      return .error (.abort configurationCode (asLine ("malformed budget in " ++ path)))

/-- Carries out an invocation.  The budget is read before the grammar. -/
def run (stamp : Stamp) (invocation : Invocation) : m Report := do
  match ← readBudget store invocation.budget with
  | .error report => return report
  | .ok b =>
    return (← execute store invocation.file b invocation.command).withNotes stamp invocation.verbose

/-- How the program is used. -/
def usage : String :=
  String.join ([
    "Usage: chomsky [OPTIONS] <FILE> <COMMAND>",
    "",
    "Commands:",
    "  info      Show type, style and productions",
    "  tree      Show the productions reachable from the start symbol",
    "  parse     Decide whether a string belongs to the language (`ε` is the empty string)",
    "  generate  List the shortest words of the language",
    "  save      Write the grammar as JSON",
    "  check     Report every problem in the grammar file at once"].map asLine)

/-- Carries out what some arguments ask for. -/
def respond (stamp : Stamp) (args : List String) : m Report :=
  match parse args with
  | .ok invocation => run store stamp invocation
  | .error .version => return { output := asLine "chomsky 0.1.0", events := none }
  | .error .help => return { output := usage, events := none }
  | .error .misuse => return .abort misuseCode usage

end PhraseStructure.CommandLine
