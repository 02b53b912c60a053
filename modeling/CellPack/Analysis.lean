import CellPack.DependencyOrder
import CellPack.Layout.Cache
import CellPack.Signature
import CellPack.TypeStore.Evaluation
/-!
# Analysis

Everything that is computed from a store before code is written: values, order, signatures and
layouts.
-/

namespace CellPack

/-- An analysed store. -/
structure Analysis where
  /-- The store with values, schemas and headers. -/
  store : TypeStore
  /-- The free-standing constants. -/
  constants : ConstEnv
  /-- The names of all record types, each behind those that it depends on. -/
  order : List String
  layouts : LayoutCache

/-- Analyses a store; the first pass that fails decides the error. -/
def TypeStore.analyze (s : TypeStore) (ev : Evaluator) : Except CompileError Analysis := do
  let (s, values) := s.evaluate ev
  let constants ← values.mapError .evaluation
  let order ← s.dependencyOrder
  let store ← s.withSignatures
  let layouts ← LayoutCache.ofOrder store order
  .ok { store, constants, order, layouts }

end CellPack
