/-
# TraceLang.Settings — how a machine is set up
-/

namespace TraceLang

set_option autoImplicit false

/-- The settings of a machine. -/
structure Settings where
  /-- The number of calls of user functions that may be in progress at once. -/
  maxCallDepth : Nat := 10000
  /-- Whether every new record of a watched variable is also printed. -/
  echoTraces : Bool := false
deriving DecidableEq, Repr, Inhabited

end TraceLang
