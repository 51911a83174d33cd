/-
  HostPatterns.CommandLine — a whole call of the tool: from its arguments to an exit
  code, what it prints, and the message of a call that failed.

  The exit code is 0 for a call that did its work, whatever it found, 1 for one that
  an error stopped, and 2 for arguments that are no call.
-/

import HostPatterns.CommandLine.Arguments
import HostPatterns.Json
import HostPatterns.Text.Control

namespace HostPatterns

/-! ## What is printed -/

def Ipv4.toJson (ip : Ipv4) : Json := .string ip.render

def Finding.toJson : Finding → Json
  | .notFound d => .object [("kind", .string "not_found".toList), ("domain", .string d)]
  | .mismatch d expected actual =>
    .object [("kind", .string "mismatch".toList), ("domain", .string d), ("expected", expected.toJson),
      ("actual", actual.toJson)]

def Report.toJson (rep : Report) : Json :=
  .object [("matched", .number rep.matched), ("total", .number rep.total),
    ("findings", .array (rep.findings.toList.map Finding.toJson))]

def Summary.toJson (s : Summary) : Json :=
  .object [("output", .string s.output), ("records", .number s.records), ("skipped", .number s.skipped),
    ("duplicates", .number s.duplicates), ("groups", .number s.groups), ("patterns", .number s.patterns),
    ("validation", (s.validation.map Report.toJson).getD .null)]

def Summary.text (s : Summary) : String :=
  let counts := s!"{s.records} records ({s.skipped} skipped, {s.duplicates} duplicates)"
  let made := s!"{s.groups} groups -> {s.patterns} patterns in {s.output.string}\n"
  let report := (s.validation.map fun rep => rep.text ++ "\n").getD ""
  s!"{counts} in {made}{report}"

def Binding.toJson (b : Binding) : Json :=
  .object [("domain", .string b.pattern.domain), ("ip", b.ip.toJson), ("kind", .string b.pattern.kindName.toList)]

namespace CommandLine

/-- A domain that was looked up, and what it matched. -/
structure Answer where
  domain : Domain
  binding : Option Binding
  deriving DecidableEq, Repr

namespace Answer

def toJson (a : Answer) : Json :=
  .object [("domain", .string a.domain), ("match", (a.binding.map Binding.toJson).getD .null)]

def line (a : Answer) : String :=
  match a.binding with
  | some b => s!"{a.domain.string}\t{b.ip}\t{b.pattern.render.string}\n"
  | none => s!"{a.domain.string} not found\n"

end Answer

/-! ## Running a request -/

section

variable {m : Type → Type} [Monad m] [Files m]

/-- The answers for normalized domains. -/
def answersFor (patterns : Path) (domains : List Domain) : ExceptT Error m (List Answer) := do
  let s ← PatternSet.load patterns
  return domains.map fun d => ⟨d.normalize, s.lookup? d.normalize⟩

/-- What a request prints. -/
def Request.output (format : Format) : Request → ExceptT Error m String
  | .convert c => do
    let summary ← c.run
    return match format with
      | .text => summary.text
      | .json => summary.toJson.text ++ "\n"
  | .validate hosts patterns => do
    let report ← validateFiles hosts patterns
    return match format with
      | .text => report.text ++ "\n"
      | .json => report.toJson.text ++ "\n"
  | .lookup patterns domains => do
    let answers ← answersFor patterns domains
    return match format with
      | .text => "".intercalate (answers.map Answer.line)
      | .json => (Json.array (answers.map Answer.toJson)).text ++ "\n"

/-- What is said of a file argument that will not do. Its value, its name and the hint are set off from
    the words around them, and nothing in a piece steers a terminal: a control sequence that the value
    leaves open takes the characters behind it up to the end of its piece. -/
def FileArgument.refusal (f : FileArgument) (reason : String) : String :=
  let value := f.path.string
  let pieces := ["error: invalid value '", value, "' for '", s!"<{f.slot}>",
    s!"': '{value}' {reason}\n\nFor more information, try '", "--help", "'."]
  "".intercalate (pieces.map fun s => (Text.shown s.toList).string)

/-- Why a file given as an argument will not do, if it will not. -/
def FileArgument.problem? (f : FileArgument) : m (Option String) := do
  return match ← Files.kind? f.path with
    | some .file => none
    | some .directory => some (f.refusal "is not a file")
    | none => some (f.refusal "does not exist")

/-- The first problem among some files. -/
def firstProblem? : List FileArgument → m (Option String)
  | [] => return none
  | f :: fs => do
    match ← f.problem? with
    | some problem => return some problem
    | none => firstProblem? fs

end

/-! ## A call -/

structure Result where
  exitCode : Nat
  output : String
  /-- What to say on the error channel. -/
  message : Option String
  deriving DecidableEq, Repr

def versionLine : String := "hosts-wildcard 0.1.0\n"

def usage : String :=
  "Usage: hosts-wildcard [-v] [-f text|json] convert [-o OUTPUT] [--substring-match] [--no-validate] [INPUT]\n" ++
  "       hosts-wildcard [-v] [-f text|json] validate HOSTS PATTERNS\n" ++
  "       hosts-wildcard [-v] [-f text|json] lookup PATTERNS DOMAINS...\n"

def call {m : Type → Type} [Monad m] [Files m] (d : Defaults) (args : List Text) : m Result := do
  let plan := plan d args
  match ← firstProblem? plan.files with
  | some problem => return ⟨2, "", some problem⟩
  | none =>
    match plan.outcome with
    | .help => return ⟨0, usage, none⟩
    | .version => return ⟨0, versionLine, none⟩
    | .refused => return ⟨2, "", none⟩
    | .run format request =>
      match ← (request.output format).run with
      | .ok output => return ⟨0, output, none⟩
      | .error e => return ⟨1, "", some s!"error: {e.message}"⟩

end CommandLine

end HostPatterns
