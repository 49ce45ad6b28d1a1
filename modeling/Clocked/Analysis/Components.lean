/-
Clocked.Analysis.Components — strongly connected components of a graph.

One depth-first search finds them. The nodes met and not yet put in a component
form a stack; a node's height is the number of nodes below it there. A visit
returns the least height that it reached by an edge from the node or from what
was visited under it. If that is the node's own height, nothing below it on the
stack can be reached, and the node with all above it is a component.

Components come in the order their search ends, so a component is found after
every component that can be reached from it.
-/
namespace Clocked.Components

variable {α : Type} [DecidableEq α]

/-- The state of a search. -/
structure Search (α : Type) where
  /-- Nodes met so far. -/
  met : List α
  /-- Nodes met that are in no component yet, the last one first. -/
  stack : List α
  /-- Components found, the first one first. -/
  found : List (List α)

namespace Search

/-- A search that has met nothing. -/
def initial : Search α := ⟨[], [], []⟩

/-- Meets a node. -/
def enter (s : Search α) (v : α) : Search α :=
  { s with met := v :: s.met, stack := v :: s.stack }

/-- The number of nodes below a node on a stack, if it is there. -/
def heightIn (v : α) : List α → Option Nat
  | [] => none
  | w :: below => if w = v then some below.length else heightIn v below

/-- The number of nodes below a node on the stack. -/
def height? (s : Search α) (v : α) : Option Nat := heightIn v s.stack

/-- Makes a component of all nodes that are at least so high. -/
def close (s : Search α) (height : Nat) : Search α :=
  let above := s.stack.length - height
  { s with stack := s.stack.drop above, found := s.found ++ [s.stack.take above] }

end Search

/-- Visits a node not met before: the least height reached, and the search
after it. `fuel` bounds how deep visits nest. -/
def visit (next : α → List α) : Nat → α → Search α → Nat × Search α
  | 0, _, s => (s.stack.length, s)
  | fuel + 1, v, s =>
    let height := s.stack.length
    let (low, s) := (next v).foldl
      (fun (low, s) w =>
        if w ∈ s.met then
          match s.height? w with
          | some h => (min low h, s)
          | none => (low, s)
        else
          let (h, s) := visit next fuel w s
          (min low h, s))
      (height, s.enter v)
    if low = height then (height, s.close height) else (low, s)

/-- Visits the nodes of a list that have not been met. -/
def visitAll (next : α → List α) (fuel : Nat) (nodes : List α) (s : Search α) : Search α :=
  nodes.foldl (fun s v => if v ∈ s.met then s else (visit next fuel v s).2) s

/-- The strongly connected components of the nodes and of all that can be
reached from them, for a graph in which every edge stays among the nodes. -/
def components (next : α → List α) (nodes : List α) : List (List α) :=
  (visitAll next nodes.length nodes Search.initial).found

end Clocked.Components
