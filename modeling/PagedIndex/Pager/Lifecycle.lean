import PagedIndex.Error

/-!
# The life of a pager

A pager is started once, serves, and is disposed of.
-/

namespace PagedIndex

/-- Where a pager is in its life. -/
inductive Lifecycle where
  | fresh
  | ready
  | disposed
deriving DecidableEq, Repr

namespace Lifecycle

/-- Starts a fresh pager. -/
def start : Lifecycle → Except IndexError Lifecycle
  | fresh => .ok ready
  | ready => .error .alreadyStarted
  | disposed => .error .disposed

/-- Fails unless the pager serves. -/
def requireReady : Lifecycle → Except IndexError Unit
  | ready => .ok ()
  | fresh => .error (.unsupported .notStarted)
  | disposed => .error .disposed

end Lifecycle

end PagedIndex
