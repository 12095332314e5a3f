import CodeGuard.Load
import CodeGuard.Writer

/-!
# CodeGuard.Failure

Any cause of failure that the library answers with, under one roof: its text, and the shared cause
that it stands for.
-/

namespace CodeGuard

inductive Failure where
  | general (cause : Error)
  | bus (cause : BusError)
  | shortfall (cause : Shortfall)
  | load (cause : LoadError)
  | write (cause : WriteError)
  deriving DecidableEq

namespace Failure

def message : Failure → String
  | .general cause => cause.message
  | .bus cause => cause.message
  | .shortfall cause => cause.message
  | .load cause => cause.message
  | .write cause => cause.message

def toError : Failure → Error
  | .general cause => cause
  | .bus cause => cause.toError
  | .shortfall cause => cause.toError
  | .load cause => cause.toError
  | .write cause => cause.toError

end Failure
end CodeGuard
