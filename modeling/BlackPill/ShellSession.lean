/-!
# The session of the shell and its auto-logout timer

What `shell.c` shares between the shell task and the timer task: the user who is
logged in, the keep-session flag, and the one-shot timer `ShellExit_Timer` with
the command queue of the timer task.

The shell library is outside the tree. Of it the model has that `WshShell_IsAuth`
tells whether a user is logged in, and that `WshShell_DeAuth` clears `CurrUser`
and calls the `DeAuth` callback.

Results: `settled`, whether the timer runs once its queue is worked off, and what
each operation does to it.
-/

namespace BlackPill

/-! ## Definitions -/

/-- The commands the callbacks send to the timer task. -/
inductive TimerCommand
  | start
  | stop
  | changePeriod
deriving DecidableEq, Repr

/-- Whether the timer runs after the command: `xTimerChangePeriod` also starts a
stopped timer. -/
def TimerCommand.starts : TimerCommand → Bool
  | .start => true
  | .stop => false
  | .changePeriod => true

/-- `currUser` is the rights of the user in `CurrUser`, `none` for NULL. -/
structure Session where
  currUser : Option Nat
  keepActive : Bool
  timerRunning : Bool
  timerQueue : List TimerCommand
deriving DecidableEq, Repr

/-- `configTIMER_QUEUE_LENGTH`. -/
def configTimerQueueLength : Nat := 10

/-- `xTimerGenericCommand` with no time to wait: a full queue loses the command. -/
def Session.post (s : Session) (c : TimerCommand) : Session :=
  if s.timerQueue.length < configTimerQueueLength then
    { s with timerQueue := s.timerQueue ++ [c] }
  else s

/-- `WshShell_IsAuth`. -/
def wshShellIsAuth (s : Session) : Bool := s.currUser.isSome

/-- `Shell_AuthClbk`. -/
def shellAuthClbk (s : Session) : Session := s.post .start

/-- `Shell_DeAuthClbk`. -/
def shellDeAuthClbk (s : Session) : Session := s.post .stop

/-- `WshShell_DeAuth`. -/
def wshShellDeAuth (s : Session) : Session := shellDeAuthClbk { s with currUser := none }

/-- `ShellRoot_ResetTimerClbk`. -/
def shellRootResetTimerClbk (s : Session) : Session :=
  if s.keepActive then s else wshShellDeAuth s

/-- The timer task handles the oldest command. -/
def timerCommand (s : Session) : Option Session :=
  match s.timerQueue with
  | [] => none
  | c :: rest => some { s with timerRunning := c.starts, timerQueue := rest }

/-- The timer expires: a one-shot timer stops, then its callback runs. -/
def timerExpire (s : Session) : Option Session :=
  if s.timerRunning then some (shellRootResetTimerClbk { s with timerRunning := false }) else none

/-- Whether the timer runs once the commands in the queue are handled. -/
def Session.settled (s : Session) : Bool :=
  (s.timerQueue.getLast?.map TimerCommand.starts).getD s.timerRunning

/-! ## What each operation does -/

section Operations

variable {s s' : Session} {c : TimerCommand}

@[simp] theorem post_currUser : (s.post c).currUser = s.currUser := by
  unfold Session.post
  split <;> rfl

@[simp] theorem post_keepActive : (s.post c).keepActive = s.keepActive := by
  unfold Session.post
  split <;> rfl

@[simp] theorem wshShellDeAuth_currUser : (wshShellDeAuth s).currUser = none := post_currUser

@[simp] theorem wshShellDeAuth_keepActive : (wshShellDeAuth s).keepActive = s.keepActive :=
  post_keepActive

theorem settled_of_drained (h : s.timerQueue = []) : s.settled = s.timerRunning := by
  unfold Session.settled
  rw [h]
  rfl

/-- A command sent to the empty queue decides whether the timer will run. -/
theorem settled_post (h : s.timerQueue = []) : (s.post c).settled = c.starts := by
  unfold Session.post Session.settled
  rw [h]
  rfl

/-- Handling a command changes nothing about how the queue will leave the timer. -/
theorem timerCommand_cases (h : timerCommand s = some s') :
    s.timerQueue ≠ [] ∧ s'.settled = s.settled ∧ s'.currUser = s.currUser ∧
      s'.keepActive = s.keepActive := by
  unfold timerCommand at h
  split at h
  · cases h
  · next c rest hq =>
    obtain rfl := Option.some.inj h
    refine ⟨fun h0 => List.cons_ne_nil c rest (hq.symm.trans h0), ?_, rfl, rfl⟩
    unfold Session.settled
    rw [hq]
    cases rest with
    | nil => rfl
    | cons d rest => rfl

theorem shellRootResetTimerClbk_of_kept (h : s.keepActive = true) :
    shellRootResetTimerClbk s = s := if_pos h

theorem shellRootResetTimerClbk_of_not_kept (h : s.keepActive = false) :
    shellRootResetTimerClbk s = wshShellDeAuth s := by
  unfold shellRootResetTimerClbk
  rw [h]
  rfl

/-- An expiry either leaves a kept session as it is, with the timer stopped, or
logs the user out. -/
theorem timerExpire_cases (h : timerExpire s = some s') :
    (s.keepActive = true ∧ s' = { s with timerRunning := false }) ∨
    (s.keepActive = false ∧ s'.currUser = none ∧ s'.keepActive = false) := by
  unfold timerExpire at h
  split at h
  · obtain rfl := Option.some.inj h
    rcases Bool.eq_false_or_eq_true s.keepActive with hk | hk
    · exact .inl ⟨hk, shellRootResetTimerClbk_of_kept hk⟩
    · have hc := shellRootResetTimerClbk_of_not_kept (s := { s with timerRunning := false }) hk
      rw [hc]
      exact .inr ⟨hk, wshShellDeAuth_currUser, wshShellDeAuth_keepActive.trans hk⟩
  · cases h

end Operations

end BlackPill
