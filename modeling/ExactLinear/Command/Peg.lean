import ExactLinear.Command.Tree

/-!
# Parsing expressions

A parsing expression matches a part of a text from its front on. It never looks for another match
than its first: a choice takes the first alternative that matches, and a repetition goes on as long
as it can. `Peg.parse` gives the trees of the nodes in the part that matches, and what follows it.
-/

namespace ExactLinear.Command

/-- A parsing expression. -/
inductive Peg where
  /-- One character of a class. -/
  | char (p : Char → Bool)
  /-- The given characters. -/
  | text (s : List Char)
  /-- The end of the input. -/
  | finish
  /-- The one and, directly behind it, the other. -/
  | seq (e f : Peg)
  /-- The first of the two that matches. -/
  | choice (e f : Peg)
  /-- As often as the expression matches, also never. -/
  | star (e : Peg)
  /-- Nothing, where the expression does not match. -/
  | absent (e : Peg)
  /-- The node of a rule. Its children are the nodes in the expression. -/
  | node (rule : Rule) (e : Peg)

/-- The trees in the part that matches, and what follows it. -/
abbrev Match := List Tree × List Char

/-- Repeats a step as long as it matches. A step that takes nothing is the last one. -/
def repeated (step : List Char → Option Match) (s : List Char) : Match :=
  match step s with
  | none => ([], s)
  | some (trees, rest) =>
    if rest.length < s.length then
      let (more, last) := repeated step rest
      (trees ++ more, last)
    else
      (trees, rest)
termination_by s.length

namespace Peg

/-- Matches the front of a text. -/
def parse : Peg → List Char → Option Match
  | .char _, [] => none
  | .char p, c :: s => if p c then some ([], s) else none
  | .text t, s => if t.isPrefixOf s then some ([], s.drop t.length) else none
  | .finish, s => if s.isEmpty then some ([], s) else none
  | .seq e f, s => do
    let (trees, s) ← e.parse s
    let (more, rest) ← f.parse s
    return (trees ++ more, rest)
  | .choice e f, s => (e.parse s).or (f.parse s)
  | .star e, s => some (repeated e.parse s)
  | .absent e, s => if (e.parse s).isSome then none else some ([], s)
  | .node rule e, s => do
    let (children, rest) ← e.parse s
    return ([⟨rule, String.ofList (s.take (s.length - rest.length)), children⟩], rest)

/-- Nothing. -/
def empty : Peg := .text []

/-- Once or not at all. -/
def opt (e : Peg) : Peg := .choice e empty

end Peg

end ExactLinear.Command
