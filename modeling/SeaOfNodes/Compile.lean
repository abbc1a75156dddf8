import SeaOfNodes.Graph.Print
import SeaOfNodes.Parse.Program
import SeaOfNodes.Pass.Optimize

/-!
Compilation of a program: its graph is built and optimized. An error of structure ends it, and
errors of types are diagnostics of a graph that is built to its end.
-/
namespace SeaOfNodes

structure CompileOptions where
  optimize : OptimizeOptions := {}
  /-- Whether locals are held as values where that is possible. -/
  promote : Bool := false
  deriving DecidableEq, Repr

structure CompileStats where
  functions : Nat
  constructed : Nat
  optimization : OptimizeStats
  deriving DecidableEq, Repr

structure Compilation where
  graph : Graph
  exit : NodeId
  diagnostics : List Diagnostic
  stats : CompileStats

namespace Compilation

def hasErrors (c : Compilation) : Bool := !c.diagnostics.isEmpty

end Compilation

def Graph.diagnostics (g : Graph) : List Diagnostic :=
  g.errors.map fun (_, span, message) => ⟨span, message⟩

/-- Optimizes a graph that was built. Its diagnostics are taken first, so that errors in dead code
are reported too. -/
def Construction.optimize (c : Construction) (options : OptimizeOptions) :
    Except Fault Compilation := do
  let (stats, graph) ← c.graph.optimize options
  return {
    graph
    exit := c.exit
    diagnostics := c.graph.diagnostics
    stats := { functions := c.functions, constructed := c.graph.size, optimization := stats } }

def compile (text : String) (options : CompileOptions) : Except Stop Compilation := do
  let built ← construct text options.promote
  match built.optimize options.optimize with
  | .ok compilation => return compilation
  | .error fault => throw (.fault fault)

end SeaOfNodes
