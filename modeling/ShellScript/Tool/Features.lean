import ShellScript.Text.Rune
import ShellScript.Tool.Pipeline

-- A table of the features that dialects have.
namespace ShellScript
namespace Tool
namespace Features

-- Each column is as wide as its widest cell.
def widths : List (List String) → List Nat
  | [] => []
  | row :: rows => rows.foldl (fun ws r => List.zipWith (fun w c => max w c.length) ws r) (row.map (·.length))

def rule (left middle right : String) (ws : List Nat) : String :=
  Text.ofUnicode (left ++ Text.joinWith middle (ws.map fun w => Text.replicate (w + 2) "─") ++ right) ++ "\n"

def rowText (ws : List Nat) (row : List String) : String :=
  let bar := Text.ofUnicode "│"
  bar ++ Text.joinWith bar (List.zipWith (fun w c => " " ++ Text.padRight w c ++ " ") ws row) ++ bar ++ "\n"

-- A table in a frame, its first row set apart.
def table (head : List String) (rows : List (List String)) : String :=
  let ws := widths (head :: rows)
  rule "┌" "┬" "┐" ws ++ rowText ws head ++ rule "├" "┼" "┤" ws ++ String.join (rows.map (rowText ws))
    ++ rule "└" "┴" "┘" ws

def tableOf (ds : List Dialect) : String :=
  table ("feature" :: ds.map (·.name))
    (Feature.all.map fun f => f.name :: ds.map fun d => if d.supports f then "yes" else "no")

-- Without names all dialects are shown.
def show_ (names : List String) : Command Unit :=
  match (if names.isEmpty then .ok Dialect.all else names.mapM Dialect.ofName) with
  | .ok ds => Command.print (tableOf ds)
  | .error e => throw (.dialect e)

end Features
end Tool
end ShellScript
