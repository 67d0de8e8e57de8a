/-!
# Digraph — strongly connected components of a finite directed graph

Vertices are the numbers below `n`, and every vertex lists its successors in the order its edges were
added.  `Digraph.components` searches depth first.  It numbers the vertices as it meets them and
keeps those whose component is not complete yet on a stack; a vertex from which no lower number can
be reached closes a component, which is what lies on the stack above it.  **A component is emitted
after all components that can be reached from it.**
-/

namespace StackEffect

/-- A directed graph on `n` vertices, as lists of successors. -/
structure Digraph (n : Nat) where
  succs : Vector (List (Fin n)) n

namespace Digraph

variable {n : Nat}

/-- The graph without edges. -/
def empty (n : Nat) : Digraph n := ⟨Vector.replicate n []⟩

/-- The successors of a vertex. -/
def succ (g : Digraph n) (v : Fin n) : List (Fin n) := g.succs[v]

/-- Whether there is an edge. -/
def hasEdge (g : Digraph n) (v w : Fin n) : Bool := (g.succ v).contains w

/-- Adds an edge, once. -/
def addEdge (g : Digraph n) (v w : Fin n) : Digraph n :=
  if g.hasEdge v w then g else ⟨g.succs.set v (g.succ v ++ [w])⟩

/-- The graph of a list of edges, added in turn. -/
def ofEdges (n : Nat) (edges : List (Fin n × Fin n)) : Digraph n :=
  edges.foldl (fun g e => g.addEdge e.1 e.2) (empty n)

/-! ## The search -/

/-- How far the search has come with a vertex: not met, met as number `i` and waiting on the
stack, or in a component already emitted. -/
inductive Mark where
  | fresh
  | waiting (number : Nat)
  | done
  deriving DecidableEq, Repr, Inhabited

/-- The state of a depth-first search. -/
structure Search (n : Nat) where
  /-- The progress of each vertex. -/
  marks : Vector Mark n
  /-- The number the next vertex gets. -/
  count : Nat
  /-- The vertices whose component is not complete, last met first. -/
  stack : List (Fin n)
  /-- The components emitted so far, last first. -/
  found : List (List (Fin n))

namespace Search

/-- Nothing met yet. -/
def start (n : Nat) : Search n := ⟨Vector.replicate n .fresh, 0, [], []⟩

/-- How far the search has come with a vertex. -/
def mark (s : Search n) (v : Fin n) : Mark := s.marks[v]

/-- Notes how far the search has come with a vertex. -/
def setMark (s : Search n) (v : Fin n) (m : Mark) : Search n := { s with marks := s.marks.set v m }

/-- Meets a vertex: numbers it and puts it on the stack. -/
def meet (s : Search n) (v : Fin n) : Search n :=
  { s.setMark v (.waiting s.count) with count := s.count + 1, stack := v :: s.stack }

/-- Emits the component that `v` closes: all that lies on the stack down to `v`. -/
def emit (s : Search n) (v : Fin n) : Search n :=
  let component := s.stack.takeWhile (· != v) ++ [v]
  { s with
    marks := (component.foldl (fun s w => s.setMark w .done) s).marks
    stack := (s.stack.dropWhile (· != v)).tail
    found := component :: s.found }

end Search

/-- Follows the edges to `ws` in turn, visiting the vertices not met before, and lowers `low` to the
least number of a waiting vertex that is reached. -/
def follow (visit : Fin n → Search n → Nat × Search n) :
    List (Fin n) → Nat → Search n → Nat × Search n
  | [], low, s => (low, s)
  | w :: ws, low, s =>
    match s.mark w with
    | .fresh =>
      let (l, s) := visit w s
      follow visit ws (min low l) s
    | .waiting i => follow visit ws (min low i) s
    | .done => follow visit ws low s

/-- Visits a vertex not met before, and answers the least number of a waiting vertex that can be
reached from it.  The first argument bounds the length of the path that led here: a path has no more
vertices than the graph. -/
def visit (g : Digraph n) : Nat → Fin n → Search n → Nat × Search n
  | 0, _, s => (s.count, s)
  | depth + 1, v, s =>
    let number := s.count
    let (low, s) := follow (visit g depth) (g.succ v) number (s.meet v)
    (low, if low = number then s.emit v else s)

/-- **The strongly connected components**, each after all that can be reached from it. -/
def components (g : Digraph n) : List (List (Fin n)) :=
  let searched := (List.finRange n).foldl
    (fun s v => if s.mark v = .fresh then (g.visit n v s).2 else s) (Search.start n)
  searched.found.reverse

/-- The vertices in an order in which successors come first, except within cycles. -/
def dependencyOrder (g : Digraph n) : List (Fin n) := g.components.flatten

/-- Whether a cycle passes through a component: it has two vertices or more, or an edge to
itself. -/
def isCyclic (g : Digraph n) : List (Fin n) → Bool
  | [] => false
  | [v] => g.hasEdge v v
  | _ => true

end Digraph

end StackEffect
