/-!
# What the firmware uses of the shell library

The shell library itself is a submodule outside the tree. This module holds the
types of its interface that the command handlers read and return.
-/

namespace BlackPill

/-- `WSH_SHELL_RET_STATE_t`. -/
inductive RetState
  | success
  | warning
  | error
  | errEmpty
  | errParam
  | errBusy
  | errOverflow
  | errMemory
  | errTimeout
  | errCrc
  | undef
deriving DecidableEq, Repr

/-- What one call of `WshShellCmd_ParseOpt` leaves behind: the ID of
`optCtx.Option` (`none` for NULL), `optCtx.ParseError`, and the number of tokens
it moved `tokenPos` on by. -/
structure ParseResult (ι : Type) where
  option : Option ι
  parseError : Bool
  advance : Nat
deriving DecidableEq, Repr

/-- How one case of a handler's `switch` ends.

* `next`: `break`, the loop goes on;
* `fail`: `retState = WSH_SHELL_RET_STATE_ERROR; break;`
* `ret`: `return`;
* `halt`: the core resets or faults, nothing follows. -/
inductive CaseEnd
  | next
  | fail
  | ret (code : RetState)
  | halt
deriving DecidableEq, Repr

end BlackPill
