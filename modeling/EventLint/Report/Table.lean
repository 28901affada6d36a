import EventLint.Text.Width

/-!
# Tables

Tables in frames. Every column is as wide as its widest line, and a cell takes a line for each line
of its text.
-/

namespace EventLint

structure Table where
  header : List String
  rows : List (List String)
deriving DecidableEq, Repr

namespace Table

def cellLines (cell : String) : List Text :=
  cell.toList.splitOn '\n'

def cellWidth (cell : String) : Nat :=
  ((cellLines cell).map Text.width).foldl max 0

def widths (t : Table) : List Nat :=
  t.rows.foldl (fun ws row => List.zipWith max ws (row.map cellWidth)) (t.header.map cellWidth)

def pad (width : Nat) (line : Text) : String :=
  " " ++ String.ofList line ++ String.ofList (List.replicate (width - Text.width line) ' ') ++ " "

def rowLines (widths : List Nat) (row : List String) : List String :=
  let height := (row.map fun cell => (cellLines cell).length).foldl max 0
  (List.range height).map fun i =>
    let cells := List.zipWith (fun w cell => pad w ((cellLines cell)[i]?.getD [])) widths row
    "│" ++ String.intercalate "┆" cells ++ "│"

/-- A line of the frame. -/
def rule (left line cross right : Char) (widths : List Nat) : String :=
  String.ofList ([left] ++
    [cross].intercalate (widths.map fun w => List.replicate (w + 2) line) ++ [right])

def render (t : Table) : String :=
  let ws := t.widths
  let body := [rule '├' '╌' '┼' '┤' ws].intercalate (t.rows.map (rowLines ws))
  String.intercalate "\n"
    ([rule '┌' '─' '┬' '┐' ws] ++ rowLines ws t.header ++ [rule '╞' '═' '╪' '╡' ws] ++ body ++
      [rule '└' '─' '┴' '┘' ws])

end Table

end EventLint
