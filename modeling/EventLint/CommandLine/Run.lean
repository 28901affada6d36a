import EventLint.CommandLine.Arguments
import EventLint.CommandLine.Help
import EventLint.Config
import EventLint.Discovery
import EventLint.Report.Json
import EventLint.Report.Text

/-!
# Running

A run maps the files, the working folder and the arguments to an exit code, a text for the standard
output, and the files afterwards.
-/

namespace EventLint

inductive ExitCode where
  | success
  /-- Findings remain, and that counts as a failure. -/
  | findings
  /-- The arguments cannot be used. -/
  | usage
deriving DecidableEq, Repr

def ExitCode.toNat : ExitCode → Nat
  | success => 0
  | findings => 1
  | usage => 2

structure Response where
  code : ExitCode
  output : String
  files : FileTree

namespace Run

/-- What a run works with: the configuration file and the arguments taken together. -/
structure Plan where
  settings : Settings
  exclude : List String
  included : List String
  failOnFindings : Bool

def Plan.ofArguments (files : FileTree) (working : List String) (a : Arguments) : Plan :=
  let settings := (Config.load files (a.paths.head?.getD ".") working).settings
  { settings
    exclude := settings.excludeFolders.getD [] ++ a.excludeFolders
    included := settings.includeFolders.getD [] ++ a.includeFolders
    failOnFindings := a.failOnFindings || settings.failOnFindings.getD false }

/-- The exit code of a run after which this many findings remain. -/
def Plan.verdict (p : Plan) (remaining : Nat) : ExitCode :=
  if p.failOnFindings && remaining > 0 then .findings else .success

def pretty (v : JsonValue) : String :=
  Report.line v.pretty

def listRules (p : Plan) (a : Arguments) : String :=
  if a.json then pretty (.array (Rule.all.map Rule.toJsonValue))
  else Report.rules p.settings.messages.title

/-- A run that fixes. After a dry run the fixes it would apply remain too. -/
def fix (colors : Bool) (p : Plan) (a : Arguments) (files : FileTree) (working : List String)
    (kind : FixKind) : Response :=
  let collected := files.collect p.exclude p.included a.paths working
  let (report, written) := fixFiles p.settings kind a.dryRun files working collected
  let remaining := report.skipped.length + if a.dryRun then report.applied.length else 0
  { code := p.verdict remaining
    output := if a.json then pretty report.toJsonValue else Report.fixes colors report
    files := written }

def analyze (colors : Bool) (p : Plan) (a : Arguments) (files : FileTree)
    (working : List String) : Response :=
  let collected := files.collect p.exclude p.included a.paths working
  let result := Analysis.ofFiles p.settings files working collected
  { code := p.verdict result.diagnostics.length
    output :=
      if a.json then pretty result.toJsonValue
      else if a.quiet then Report.brief result
      else
        Report.exclusions colors p.exclude ++ Report.analysis colors result ++ Report.line "" ++
          Report.summary colors result
    files }

end Run

/-- Runs with arguments that were read. Every path must exist. -/
def Arguments.run (colors : Bool) (files : FileTree) (working : List String) (a : Arguments) :
    Response :=
  if a.paths.any fun path => !files.holds path working then ⟨.usage, "", files⟩
  else
    let plan := Run.Plan.ofArguments files working a
    if a.listRules then ⟨.success, Run.listRules plan a, files⟩
    else
      match a.fix with
      | some kind => Run.fix colors plan a files working kind
      | none => Run.analyze colors plan a files working

def run (colors : Bool) (files : FileTree) (arguments : List String)
    (working : List String := []) : Response :=
  match Arguments.read arguments with
  | .ok a => a.run colors files working
  | .error (.help long) => ⟨.success, Help.text long, files⟩
  | .error .version => ⟨.success, Help.version, files⟩
  | .error (.refused _) => ⟨.usage, "", files⟩

end EventLint
