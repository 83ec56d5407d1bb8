import SyntaxRecovery.Named
import SyntaxRecovery.Session

/-! Results as lines of text. -/
namespace SyntaxRecovery.CommandLine

/-- The text of several lines, each with its line feed. -/
def lines (rows : List String) : String := String.join (rows.map (· ++ "\n"))

/-- Offset, kind and text of a token, and where it came from if not from the source. -/
def tokenLine (token : Token) : String :=
  s!"{token.span.start} {Named.title token.kind}" ++
    (if token.text = "" then "" else " " ++ token.text) ++
    match token.origin with
    | .source => ""
    | .inserted => " [inserted]"
    | .replaced => " [replaced]"

/-- A node below as many others as `level` says. -/
def nodeLine (id : NodeId) (level : Nat) (node : Node) : String :=
  String.ofList (List.replicate (2 * level) ' ') ++
    s!"#{id} {Named.title node.shape} {node.span.start}..{node.span.stop}" ++
    (match node.kind.identifier? with
      | some identifier => " " ++ identifier
      | none => "") ++
    (if node.isRecovered then " [recovered]" else "") ++
    if node.flags.contains .malformed then " [malformed]" else ""

/-- One line for each node below the root, each before its children. -/
def treeLines (tree : Tree) : List String :=
  tree.outline.filterMap fun (id, level) => (tree.node? id).map (nodeLine id level)

def diagnosticLine (diagnostic : Diagnostic) : String :=
  s!"diagnostic {Named.title diagnostic.category} {diagnostic.start}..={diagnostic.last}" ++
    if diagnostic.used then " [used]" else ""

end SyntaxRecovery.CommandLine
