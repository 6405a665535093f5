import Excerpt.Query.Match
import Excerpt.Query.Read
import Excerpt.Report

/-!
# Searching by query text

A search reads a query and lists its matches in a whole tree, or within one node.
-/

namespace Excerpt.Query

def search (text : String) (src : Bytes) (root : Node) : Except QueryError (List Match) := do
  (← ofString text).matchesFrom src root

def searchIn (text : String) (src : Bytes) (n : Node) : Except QueryError (List Match) := do
  (← ofString text).matchesIn src n

namespace Match

def nodes (m : Match) (name : String) : List Node :=
  (m.captures.get? name).getD []

end Match

end Excerpt.Query
