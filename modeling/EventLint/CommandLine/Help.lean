/-!
# Help

What is shown when help or the version is asked for.
-/

namespace EventLint.Help

/-- An entry of the list of options. -/
structure Entry where
  label : String
  text : String
  /-- The text of the long help, where it is another one. -/
  long : Option String := none

def margin : String :=
  "          "

def pathsText : String :=
  "Paths to analyze (files or directories). " ++
    "When no paths are provided, defaults to the current directory"

def fixText : String :=
  "Rewrite every finding with the given fix"

def options : List Entry :=
  [{ label := "      --json", text := "Output raw JSON" },
    { label := "  -v, --verbose",
      text := "Enable verbose output for debugging (shows files being analyzed)" },
    { label := "  -q, --quiet",
      text := "Quiet mode: show only the summary (no detailed tables)" },
    { label := "      --fail-on-findings", text := "Exit with code 1 if any finding remains" },
    { label := "      --fix <FIX>",
      text := fixText ++ " [possible values: remove-modifier, extract-raise-method]",
      long := some (fixText ++ "\n\n" ++ margin ++ "Possible values:\n" ++
        margin ++ "- remove-modifier:      Remove the `virtual` keyword\n" ++
        margin ++ "- extract-raise-method: Remove `virtual` and add a " ++
        "`protected virtual Raise<Name>` method") },
    { label := "      --dry-run",
      text := "Show what --fix would change without writing files" },
    { label := "      --exclude-folders <EXCLUDE_FOLDERS>",
      text := "Folders to exclude from analysis" },
    { label := "      --include-folders <INCLUDE_FOLDERS>",
      text := "Folders to force-include in analysis (overrides default exclusions)" },
    { label := "      --list-rules",
      text := "Print the rules and their diagnostic ids, then exit" },
    { label := "  -h, --help",
      text := "Print help (see more with '--help')",
      long := some "Print help (see a summary with '-h')" },
    { label := "  -V, --version", text := "Print version" }]

def Entry.render (long : Bool) (e : Entry) : String :=
  e.label ++ "\n" ++ margin ++ (if long then e.long.getD e.text else e.text)

/-- How to configure the tool and to suppress findings. -/
def configuration : List String :=
  ["CONFIGURATION FILE (.eventscan.toml):",
    "  Create this file in your project root to set defaults.",
    "",
    "  [eventscan]",
    "  exclude_folders = [\"generated\", \"third_party\"]",
    "  include_folders = [\"obj\"]      # Force-include these",
    "  ignore = [\"EVS-V002\"]          # Rule ids to drop",
    "  fail_on_findings = true        # Exit 1 if any finding remains",
    "",
    "  [eventscan.messages]",
    "  message_format = \"Event '\x7b0\x7d' should not be virtual\"",
    "",
    "SUPPRESSION:",
    "  // eventscan-ignore            on the flagged line drops every finding",
    "  // noqa: EVS-V001              drops the listed rule ids only"]

/-- The help text. The long one has a blank line between options. -/
def text (long : Bool) : String :=
  "eventscan - Finds virtual events in C# code and rewrites them\n\n" ++
    "Usage: eventscan [OPTIONS] [PATHS]...\n\n" ++
    "Arguments:\n  [PATHS]..." ++ (if long then "\n" ++ margin else "  ") ++ pathsText ++ "\n\n" ++
    "Options:\n" ++
    String.intercalate (if long then "\n\n" else "\n") (options.map (Entry.render long)) ++
    "\n\n" ++ String.intercalate "\n" configuration ++ "\n"

def version : String :=
  "eventscan 0.3.0\n"

end EventLint.Help
