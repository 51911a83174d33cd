/-
  HostPatterns.CommandLine.Arguments — arguments read into a plan: the files to look
  at first, and what to do then.

  Options stand in front of the command or behind it; those of both places (verbosity
  and format) may be given once in each, and behind the command they count. Short
  options may be put together, the last with its value. A value follows its option or
  is attached to it, and a separate one does not start with a dash, except for `-`
  itself. After `--` everything is positional.

  The files that `validate` and `lookup` read are looked at while the arguments are
  read, and so is an option's separate value: each one when the next argument turns
  out to be known, or at the end. So an unknown argument right behind such a file is
  reported first, and anything wrong further on only after the file. The command's
  name makes nothing known: a value right in front of it is looked at last of all.
-/

import HostPatterns.Conversion

namespace HostPatterns.CommandLine

inductive Format where
  | text
  | json
  deriving DecidableEq, Repr

inductive Request where
  | convert (c : Conversion)
  | validate (hosts patterns : Path)
  | lookup (patterns : Path) (domains : List Domain)
  deriving DecidableEq, Repr

inductive Command where
  | convert
  | validate
  | lookup
  deriving DecidableEq, Repr

namespace Command

def ofName? (t : Text) : Option Command :=
  match t.string with
  | "convert" => some .convert
  | "validate" => some .validate
  | "lookup" => some .lookup
  | _ => none

end Command

/-! ## Options -/

inductive Flag where
  | verbose
  | substringMatch
  | noValidate
  deriving DecidableEq, Repr

inductive Parameter where
  | format
  | output
  deriving DecidableEq, Repr

inductive Opt where
  | flag (f : Flag)
  | parameter (p : Parameter)
  | help
  | version
  deriving DecidableEq, Repr

namespace Opt

/-- The options known in front of a command, or behind the given one. -/
def ofLong? (c : Option Command) (name : Text) : Option Opt :=
  match name.string, c with
  | "verbose", _ => some (.flag .verbose)
  | "format", _ => some (.parameter .format)
  | "help", _ => some .help
  | "version", none => some .version
  | "output", some .convert => some (.parameter .output)
  | "substring-match", some .convert => some (.flag .substringMatch)
  | "no-validate", some .convert => some (.flag .noValidate)
  | _, _ => none

def ofShort? (c : Option Command) (letter : Char) : Option Opt :=
  match letter, c with
  | 'v', _ => some (.flag .verbose)
  | 'f', _ => some (.parameter .format)
  | 'h', _ => some .help
  | 'V', none => some .version
  | 'o', some .convert => some (.parameter .output)
  | _, _ => none

end Opt

/-! ## Plans -/

/-- A file given as an argument, with the name of the argument. -/
structure FileArgument where
  slot : String
  path : Path
  deriving DecidableEq, Repr

/-- How reading the arguments ends. -/
inductive Outcome where
  | run (format : Format) (r : Request)
  | help
  | version
  /-- The arguments are not a call of the tool. -/
  | refused
  deriving DecidableEq, Repr

structure Plan where
  /-- Files that must be there, in the order in which they are looked at. -/
  files : List FileArgument
  outcome : Outcome
  deriving DecidableEq, Repr

/-- Paths used by `convert` where its arguments name none. -/
structure Defaults where
  input : Option Path := none
  output : Option Path := none
  deriving DecidableEq, Repr

/-! ## Reading -/

/-- A value that is looked at once the next argument is known. -/
inductive Waiting where
  | file (f : FileArgument)
  | parameter (p : Parameter) (value : Text)
  deriving DecidableEq, Repr

/-- What has been read so far, in front of the command or behind it. -/
structure Reading where
  command : Option Command := none
  /-- The format given in front of the command, if any; `none` where that is no call. -/
  front : Option (Option Format) := some none
  format : Option Format := none
  output : Option Path := none
  substringMatch : Bool := false
  noValidate : Bool := false
  /-- Positional arguments behind the command. -/
  values : List Text := []
  /-- Files to look at, the last one in front. -/
  files : List FileArgument := []
  waiting : Option Waiting := none

namespace Reading

def stop (r : Reading) (o : Outcome) : Plan := ⟨r.files.reverse, o⟩

/-- Reading ends here. -/
def ends {α : Type} (r : Reading) (o : Outcome) : Except Plan α := .error (r.stop o)

/-- An option without a value; only verbosity may be repeated. -/
def setFlag (r : Reading) : Flag → Except Plan Reading
  | .verbose => .ok r
  | .substringMatch => if r.substringMatch then r.ends .refused else .ok { r with substringMatch := true }
  | .noValidate => if r.noValidate then r.ends .refused else .ok { r with noValidate := true }

/-- An option with its value. -/
def setParameter (r : Reading) (p : Parameter) (value : Text) : Except Plan Reading :=
  match p with
  | .format => if r.format.isSome then r.ends .refused else match value.string with
    | "text" => .ok { r with format := some .text }
    | "json" => .ok { r with format := some .json }
    | _ => r.ends .refused
  | .output => if r.output.isSome ∨ value = [] then r.ends .refused else .ok { r with output := some value }

/-- Look at the value that waits. -/
def settle (r : Reading) : Except Plan Reading :=
  let rest := { r with waiting := none }
  match r.waiting with
  | none => .ok rest
  | some (.file f) => .ok { rest with files := f :: r.files }
  | some (.parameter p value) => rest.setParameter p value

/-- Go on behind the command. What is wrong with a value that waits in front of it is said last. -/
def enter (r : Reading) (c : Command) : Reading :=
  { command := some c, front := r.settle.toOption.map (·.format) }

/-- A positional argument behind the command. -/
def positional (r : Reading) (c : Command) (value : Text) : Except Plan Reading :=
  let take : Except Plan Reading := return { ← r.settle with values := r.values ++ [value] }
  let file : String → Except Plan Reading := fun slot => return { ← take with waiting := some (.file ⟨slot, value⟩) }
  match c, r.values with
  | .convert, [] => do if value = [] then (← r.settle).ends .refused else take
  | .validate, [] => file "HOSTS"
  | .validate, [_] => file "PATTERNS"
  | .lookup, [] => file "PATTERNS"
  | .lookup, _ => take
  | _, _ => r.ends .refused

/-- What is run if all arguments are known. -/
def request? (d : Defaults) (r : Reading) : Option Request :=
  match r.command, r.values with
  | some .convert, values =>
    let input := values.head?.or d.input
    let output := r.output.or d.output
    if input = some [] ∨ output = some [] then none
    else
      let c : Conversion := {
        output
        comparison := if r.substringMatch then .substring else .labelBoundary
        validates := !r.noValidate }
      some (.convert (match input with
        | some i => { c with input := i }
        | none => c))
  | some .validate, [hosts, patterns] => some (.validate hosts patterns)
  | some .lookup, patterns :: d :: ds => some (.lookup patterns (d :: ds))
  | _, _ => none

/-- The arguments are all read. -/
def finish (d : Defaults) (r : Reading) : Plan :=
  match r.settle with
  | .error plan => plan
  | .ok r =>
    match r.front, r.request? d with
    | some outer, some q => r.stop (.run ((r.format.or outer).getD .text) q)
    | _, _ => r.stop .refused

/-- Where one argument leads. -/
inductive Step where
  | next (r : Reading)
  /-- The option's value is the next argument. -/
  | wants (p : Parameter) (r : Reading)

/-- The letters behind a single dash. -/
def letters (r : Reading) : List Char → Except Plan Step
  | [] => .ok (.next r)
  | c :: cs =>
    match Opt.ofShort? r.command c with
    | none => r.ends .refused
    | some .help => do (← r.settle).ends .help
    | some .version => do (← r.settle).ends .version
    | some (.flag f) => do letters (← (← r.settle).setFlag f) cs
    | some (.parameter p) =>
      match cs with
      | [] => return .wants p (← r.settle)
      | '=' :: value => return .next (← (← r.settle).setParameter p value)
      | value => return .next (← (← r.settle).setParameter p value)

/-- What stands behind two dashes. -/
def word (r : Reading) (t : Text) : Except Plan Step :=
  let (name, value?) := match t.cut? '=' with
    | some (name, value) => (name, some value)
    | none => (t, none)
  match Opt.ofLong? r.command name, value? with
  | some (.parameter p), some value => return .next (← (← r.settle).setParameter p value)
  | some (.parameter p), none => return .wants p (← r.settle)
  | some (.flag f), none => return .next (← (← r.settle).setFlag f)
  | some .help, none => do (← r.settle).ends .help
  | some .version, none => do (← r.settle).ends .version
  | _, _ => r.ends .refused

/-- A word that is no option: the command, if there is none yet, else a positional argument. -/
def plain (r : Reading) (a : Text) (rest : List Text) : Except Plan Step :=
  match r.command with
  | some c => return .next (← r.positional c a)
  | none =>
    match Command.ofName? a with
    | some c => .ok (.next (r.enter c))
    | none =>
      let known := rest.length ≤ 1 && rest.all fun t => t.string == "help" || (Command.ofName? t).isSome
      r.ends (if a.string == "help" && known then .help else .refused)

/-- Arguments behind `--`. -/
def positionals (d : Defaults) (c : Command) : Reading → List Text → Plan
  | r, [] => r.finish d
  | r, a :: rest =>
    match r.positional c a with
    | .ok r' => positionals d c r' rest
    | .error plan => plan

def looksLikeOption (a : Text) : Bool := a.head? == some '-' && a != ['-']

def args (d : Defaults) : Reading → List Text → Plan
  | r, [] => r.finish d
  | r, a :: rest =>
    if a = ['-', '-'] then
      match r.command with
      | some c => positionals d c r rest
      | none => r.stop .refused
    else
      let step := match a with
        | '-' :: '-' :: t => r.word t
        | '-' :: c :: cs => r.letters (c :: cs)
        | _ => r.plain a rest
      match step, rest with
      | .ok (.next r'), rest => args d r' rest
      | .ok (.wants p r'), value :: rest =>
        if looksLikeOption value then r'.stop .refused
        else args d { r' with waiting := some (.parameter p value) } rest
      | .ok (.wants _ r'), [] => r'.stop .refused
      | .error plan, _ => plan

end Reading

/-- The plan for a call with the given arguments. -/
def plan (d : Defaults) (args : List Text) : Plan := Reading.args d {} args

end HostPatterns.CommandLine
