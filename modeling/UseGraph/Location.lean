import UseGraph.Path

/-!
# Which document a page loads
-/

set_option autoImplicit false

namespace UseGraph

inductive DataSource where
  | demo
  | output
  deriving DecidableEq, Repr

namespace DataSource

def ofLocation (href : String) : DataSource :=
  if Text.occurs "demo".toList href.toList then .demo else .output

def path : DataSource → String
  | .demo => "demo.json"
  | .output => "output.json"

end DataSource

end UseGraph
