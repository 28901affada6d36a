import EventLint.Fix.Files
import EventLint.Report.JsonValue

/-!
# Reports for programs

The same reports as JSON.
-/

namespace EventLint

open JsonValue

def Diagnostic.toJsonValue (d : Diagnostic) : JsonValue :=
  object [("rule_id", string d.rule.id), ("kind", string d.rule.name),
    ("category", string Rule.category), ("severity", string Rule.severity),
    ("message", string d.message), ("event_name", string (String.ofList d.eventName)),
    ("file", string d.file), ("line", number d.line), ("col", number d.column)]

def FileError.toJsonValue (e : FileError) : JsonValue :=
  object [("file", string e.file), ("error", string e.error)]

def Analysis.toJsonValue (a : Analysis) : JsonValue :=
  object [("diagnostics", array (a.diagnostics.map Diagnostic.toJsonValue)),
    ("file_errors", array (a.fileErrors.map FileError.toJsonValue)),
    ("analysis_summary", object [("total_files", number a.files),
      ("total_lines_analyzed", number a.lines), ("findings_count", number a.diagnostics.length),
      ("field_events_count", number (a.count .fieldEvent)),
      ("property_events_count", number (a.count .propertyEvent)),
      ("file_errors_count", number a.fileErrors.length)])]

def AppliedFix.toJsonValue (f : AppliedFix) : JsonValue :=
  object [("file", string f.file), ("line", number f.line),
    ("event_name", string (String.ofList f.eventName)), ("title", string f.title)]

def SkippedFix.toJsonValue (f : SkippedFix) : JsonValue :=
  object [("file", string f.file), ("line", number f.line),
    ("event_name", string (String.ofList f.eventName)), ("reason", string f.reason)]

def FixReport.toJsonValue (r : FixReport) : JsonValue :=
  object [("applied", array (r.applied.map AppliedFix.toJsonValue)),
    ("skipped", array (r.skipped.map SkippedFix.toJsonValue)),
    ("files_changed", array (r.filesChanged.map string)),
    ("file_errors", array (r.fileErrors.map FileError.toJsonValue)),
    ("dry_run", boolean r.dryRun)]

def Rule.toJsonValue (r : Rule) : JsonValue :=
  object [("id", string r.id), ("category", string Rule.category), ("kind", string r.name)]

end EventLint
