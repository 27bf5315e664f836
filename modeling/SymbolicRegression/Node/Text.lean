import SymbolicRegression.Node.Preorder

/-!
# The text of a preorder sequence

A tree is written in call notation: `add(mul(c1, x1), c2)`. Terminals are written without quotation
marks, which other notations put around them; an operator keeps its parentheses even when it has no
arguments.
-/

namespace SymbolicRegression

namespace Preorder

/-- A name applied to arguments that are already written. -/
def callText (name : String) (arguments : List String) : String :=
  name ++ "(" ++ ", ".intercalate arguments ++ ")"

/-- Takes the texts of a node's arguments from a stack, the leftmost argument topmost, and pushes the
text of the node. An operator takes as many as it has arguments, be it none. There is no result
when the stack holds too few. -/
def pushText : Node → List String → Option (List String)
  | .terminal t, texts => some (Name.stripQuotes t.name :: texts)
  | .operator op, texts =>
    if texts.length < op.arity then none
    else some (callText op.name (texts.take op.arity) :: texts.drop op.arity)

/-- The tree in call notation; none if the sequence lists no single tree. -/
def text? (nodes : List Node) : Option String :=
  match nodes.foldr (fun n texts => texts.bind (pushText n)) (some []) with
  | some [text] => some text
  | _ => none

/-- The tree in call notation, or a placeholder that is no expression. -/
def text (nodes : List Node) : String :=
  (text? nodes).getD s!"<invalid preorder of {nodes.length} nodes>"

end Preorder

end SymbolicRegression
