import EventLint.Fix.Files
import EventLint.Folder
import EventLint.Report.Style
import EventLint.Report.Table

/-!
# Reports for people

Texts with tables. Colors are for a terminal, and tables have none.
-/

namespace EventLint.Report

def line (text : String) : String :=
  text ++ "\n"

def green : Style := { color := some .green }
def greenBold : Style := { bold := true, color := some .green }
def yellowBold : Style := { bold := true, color := some .yellow }
def redBold : Style := { bold := true, color := some .red }
def cyan : Style := { color := some .cyan }
def cyanBold : Style := { bold := true, color := some .cyan }
def bold : Style := { bold := true }
def dim : Style := { dim := true }
def heading : Style := { bold := true, underlined := true }
def alarm : Style := { bold := true, underlined := true, color := some .red }

def exclusions (colors : Bool) (folders : List String) : String :=
  if folders.isEmpty then
    line (green.paint colors "[OK] Using default exclusions only:" ++ " " ++
      dim.paint colors (String.intercalate ", " Folder.defaults))
  else
    line (yellowBold.paint colors "Excluding:" ++ " " ++ String.intercalate ", " folders)

def header (colors : Bool) : String :=
  let edge := String.ofList (List.replicate 40 '═')
  line "" ++ line (cyan.paint colors ("╔" ++ edge ++ "╗")) ++
    line (cyanBold.paint colors "║  Virtual Event Analysis Results        ║") ++
    line (cyan.paint colors ("╚" ++ edge ++ "╝")) ++ line ""

/-- A count that should be zero. -/
def pill (colors : Bool) (label : String) (count : Nat) : String :=
  let style := if count = 0 then green else redBold
  label ++ ": " ++ style.paint colors (toString count)

def summary (colors : Bool) (a : Analysis) : String :=
  line (pill colors "Virtual field events" (a.count .fieldEvent) ++ "  " ++
      pill colors "Virtual accessor events" (a.count .propertyEvent) ++ "  " ++
      pill colors "Unreadable files" a.fileErrors.length) ++
    line (dim.paint colors
      ("Analyzed " ++ toString a.files ++ " files (" ++ toString a.lines ++ " lines)"))

def location (d : Diagnostic) : String :=
  Path.display d.file ++ ":" ++ toString d.line ++ ":" ++ toString d.column

def diagnostics (colors : Bool) (title : String) (found : List Diagnostic) : String :=
  if found.isEmpty then ""
  else
    let table : Table := {
      header := ["Rule ID", "Message", "Location", "Severity"]
      rows := found.map fun d => [d.rule.id, d.message, location d, Rule.severity] }
    line ("\n" ++ heading.paint colors title) ++ line table.render

def fileErrors (colors : Bool) (errors : List FileError) : String :=
  if errors.isEmpty then ""
  else
    let table : Table := {
      header := ["File", "Error"]
      rows := errors.map fun e => [Path.display e.file, e.error] }
    line ("\n" ++ alarm.paint colors "File Errors") ++ line table.render

def analysis (colors : Bool) (a : Analysis) : String :=
  header colors ++
    if a.diagnostics.isEmpty && a.fileErrors.isEmpty then
      line (green.paint colors "✓ All clean! No virtual events found.")
    else diagnostics colors "Virtual Events" a.diagnostics ++ fileErrors colors a.fileErrors

def brief (a : Analysis) : String :=
  line ("[SUMMARY] " ++ toString a.diagnostics.length ++ " virtual events in " ++
    toString a.files ++ " files, " ++ toString a.fileErrors.length ++ " unreadable files")

def appliedFix (colors dryRun : Bool) (f : AppliedFix) : String :=
  line (greenBold.paint colors (if dryRun then "Would fix" else "Fixed") ++ " " ++
    Path.display f.file ++ ":" ++ toString f.line ++ " " ++
    bold.paint colors (String.ofList f.eventName) ++ " (" ++ dim.paint colors f.title ++ ")")

def skippedFix (colors : Bool) (f : SkippedFix) : String :=
  line (yellowBold.paint colors "Skipped" ++ " " ++ Path.display f.file ++ ":" ++
    toString f.line ++ " " ++ bold.paint colors (String.ofList f.eventName) ++ ": " ++ f.reason)

def fixes (colors : Bool) (r : FixReport) : String :=
  String.join (r.applied.map (appliedFix colors r.dryRun)) ++
    String.join (r.skipped.map (skippedFix colors)) ++
    fileErrors colors r.fileErrors ++
    line ("\n[SUMMARY] " ++ toString r.applied.length ++ " fixes in " ++
      toString r.filesChanged.length ++ " files, " ++ toString r.skipped.length ++ " skipped" ++
      if r.dryRun then " (dry run)" else "")

def rules (title : String) : String :=
  let table : Table := {
    header := ["Rule ID", "Category", "Rule", "Title"]
    rows := Rule.all.map fun r => [r.id, Rule.category, "VirtualEventRule", title] }
  line table.render

end EventLint.Report
