import CppTricks.Foundation.Loops
import CppTricks.Graph.GraphUtil
import Mathlib.Logic.Function.Basic

/-! Edge contraction on a work graph whose lists share edge objects. -/
namespace CppTricks.Graph.MinCut
open Foundation

variable {V : Type} [DecidableEq V] {m : ℕ}

structure Edge (V : Type) where
  source : V × V
  work : V × V

namespace Edge

def begin (e : Edge V) : V := e.work.1

def «end» (e : Edge V) : V := e.work.2

def setBegin (e : Edge V) (value : V) : Edge V := { e with work := (value, e.work.2) }

def setEnd (e : Edge V) (value : V) : Edge V := { e with work := (e.work.1, value) }

end Edge

/-- The edge objects, and the lists of references to them that `work_graph` maps vertices to. -/
structure WorkGraph (V : Type) (m : ℕ) where
  edges : Fin m → Edge V
  graph : AList fun _ : V => List (Fin m)

namespace WorkGraph

/-- An assignment to a field of one edge object. -/
def modify (st : WorkGraph V m) (i : Fin m) (f : Edge V → Edge V) : WorkGraph V m :=
  { st with edges := Function.update st.edges i (f (st.edges i)) }

def setList (st : WorkGraph V m) (key : V) (list : List (Fin m)) : WorkGraph V m :=
  { st with graph := st.graph.insert key list }

end WorkGraph

/-- The edges of the source graph in the order their objects are made in. -/
def pairs (sourceGraph : AdjList V) : List (V × V) :=
  sourceGraph.entries.flatMap fun e => e.2.map fun value => (e.1, value)

def appendEdge (edges : Fin m → Edge V) (graph : AList fun _ : V => List (Fin m)) (i : Fin m) :
    AList fun _ : V => List (Fin m) :=
  let k := (edges i).begin
  graph.insert k ((graph.lookup k).getD [] ++ [i])

def build (sourceGraph : AdjList V) : WorkGraph V (pairs sourceGraph).length :=
  let edges := fun i => ⟨(pairs sourceGraph).get i, (pairs sourceGraph).get i⟩
  ⟨edges, (List.finRange _).foldl (appendEdge edges) ∅⟩

/-- `random.randint(0, n - 1)`, for a number `r` drawn from any source; an empty range raises. -/
def randint (r n : ℕ) : Option ℕ := if n = 0 then none else some (r % n)

def getRandomEdge (r : ℕ × ℕ) (st : WorkGraph V m) : Option (Fin m) := do
  let keys := st.graph.keys
  let key ← randint r.1 keys.length
  let k ← keys[key]?
  let connections ← st.graph.lookup k
  let idx ← randint r.2 connections.length
  connections[idx]?

def smallStep (idxNew : V) (st : WorkGraph V m) (band : Fin m) : Option (WorkGraph V m) := do
  let st := st.modify band (·.setBegin idxNew)
  let connections ← st.graph.lookup idxNew
  return st.setList idxNew (connections ++ [band])

/-- `terminal_edges.remove(edge)`, by identity; an edge that is not in the list raises. -/
def remove (terminalEdges : List (Fin m)) (edge : Fin m) : Option (List (Fin m)) :=
  if edge ∈ terminalEdges then some (terminalEdges.erase edge) else none

/-- The inner loop of `long_term`: an end at the old vertex moves, and loops are noted. -/
def redirect (idxNew idxOld : V) (x : WorkGraph V m × List (Fin m)) (edge : Fin m) :
    WorkGraph V m × List (Fin m) :=
  let st := if (x.1.edges edge).end = idxOld then x.1.modify edge (·.setEnd idxNew) else x.1
  (st, if (st.edges edge).begin = (st.edges edge).end then x.2 ++ [edge] else x.2)

def longTermStep (idxNew idxOld : V) (st : WorkGraph V m) (bandLocal : Fin m) :
    Option (WorkGraph V m) := do
  let key := (st.edges bandLocal).end
  let terminalEdges ← st.graph.lookup key
  let (st, toRemove) := terminalEdges.foldl (redirect idxNew idxOld) (st, [])
  let terminalEdges ← toRemove.foldlM remove terminalEdges
  return st.setList key terminalEdges

/-- `none` is a failed lookup, or an edge from a vertex to itself, whose list would grow while it is
walked. -/
def fuse (st : WorkGraph V m) (cutEdge : Fin m) : Option (WorkGraph V m) := do
  let idxNew := (st.edges cutEdge).begin
  let idxOld := (st.edges cutEdge).end
  if idxNew = idxOld then none else do
    let bands ← st.graph.lookup idxOld
    let st ← bands.foldlM (smallStep idxNew) st
    let st ← bands.foldlM (longTermStep idxNew idxOld) st
    return { st with graph := st.graph.erase idxOld }

/-- The iterations of `while len(editable) > 2` for the numbers drawn in them. -/
def contract : List (ℕ × ℕ) → WorkGraph V m → Option (WorkGraph V m)
  | [], editable => some editable
  | r :: rs, editable =>
    if editable.graph.keys.length > 2 then do
      let edge ← getRandomEdge r editable
      let editable ← fuse editable edge
      contract rs editable
    else some editable

end CppTricks.Graph.MinCut
