import ExactLinear.Command.Phrase

/-!
# Parse trees

A parser that knows nothing but the grammar answers with trees: a node has the rule that it matches,
the text that it covers and a child for each part with a rule of its own. `statementOf` makes a
statement of such a tree and trusts it in nothing. It asks for the next child and fails if there is
none, looks at the rule of a node and fails at one that it does not expect, and reads the text of a
number as any other text.
-/

namespace ExactLinear.Command

/-- The rules of the grammar that have nodes of their own. -/
inductive Rule where
  | program
  | list
  | assignment
  | call
  | function
  | binary
  | operator
  | scaled
  | name
  | number
  | matrixLiteral
  | matrixRow
  | bar
  | vectorLiteral
  | endOfInput
deriving DecidableEq, Repr

/-- A node of a parse tree. -/
structure Tree where
  rule : Rule
  text : String
  children : List Tree

def Tree.leaf (rule : Rule) (text : String) : Tree := ⟨rule, text, []⟩

/-! ## Statements -/

/-- Why a tree is no statement. -/
inductive TreeError where
  | program (e : ProgramError)
  /-- There is no next child. -/
  | emptyInput
  /-- There is no operation with this rule. -/
  | unexpected (rule : Rule)
deriving DecidableEq, Repr

def TreeError.linear (e : LinearError) : TreeError := .program (.linear e)

/-- The next child, and those behind it. -/
def next : List Tree → Except TreeError (Tree × List Tree)
  | [] => .error .emptyInput
  | tree :: trees => .ok (tree, trees)

/-- The values of all numbers among the children. -/
def numbersOf (tree : Tree) : Except TreeError (List Rat) :=
  (tree.children.filter (·.rule = .number)).mapM fun number =>
    (Literal.read number.text).mapError TreeError.linear

def matrixOf (tree : Tree) : Except TreeError RatMatrix := do
  let bars := tree.children.map fun row => row.children.any (·.rule = .bar)
  let values ← tree.children.mapM numbersOf
  let augmented := bars.head?.getD false
  if bars.any (· != augmented) then
    throw (.program .mixedBars)
  (RatMatrix.ofRows values augmented).mapError TreeError.linear

def vectorOf (tree : Tree) : Except TreeError RatVector := do
  let entries ← numbersOf tree
  (RatVector.ofList entries).mapError TreeError.linear

/-- The operator of a text. What is no other operator is taken for a dot. -/
def operatorOf (symbol : String) : BinaryOp :=
  if symbol = "+" then .plus else if symbol = "-" then .minus else if symbol = "*" then .times
  else .dot

def functionOf (name : String) : Except TreeError Builtin :=
  match Builtin.ofName? name with
  | some function => .ok function
  | none => .error (.program (.unknownFunction name))

def operationOf (tree : Tree) : Except TreeError Operation :=
  match tree.rule with
  | .name => .ok (.show tree.text)
  | .binary => do
    let (left, trees) ← next tree.children
    let (symbol, trees) ← next trees
    let (right, _) ← next trees
    return .binary (operatorOf symbol.text) left.text right.text
  | .scaled => do
    let (factor, trees) ← next tree.children
    let k ← (Literal.read factor.text).mapError TreeError.linear
    let (name, _) ← next trees
    return .scaled k name.text
  | .call => do
    let (function, trees) ← next tree.children
    return .call (← functionOf function.text) (trees.map (·.text))
  | rule => .error (.unexpected rule)

def statementOf (tree : Tree) : Except TreeError Statement :=
  match tree.rule with
  | .list => .ok .list
  | .assignment => do
    let (name, trees) ← next tree.children
    let (value, _) ← next trees
    match value.rule with
    | .matrixLiteral => return .define name.text (.matrix (← matrixOf value))
    | .vectorLiteral => return .define name.text (.vector (← vectorOf value))
    | _ => return .bind name.text (← operationOf value)
  | _ => return .run (← operationOf tree)

/-- The statements of the first of the given trees. -/
def programOf (trees : List Tree) : Except TreeError (List Statement) := do
  let (program, _) ← next trees
  (program.children.filter (·.rule ≠ .endOfInput)).mapM statementOf

end ExactLinear.Command
