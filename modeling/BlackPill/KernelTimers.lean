import BlackPill.KernelLists
import BlackPill.Epochs
import BlackPill.Schedules

/-!
# The kernel's software timers

`timers.c` keeps the active timers in two lists, those that expire before the tick
count overflows and those that expire after it. Only the timer service task works on
the lists. It learns of commands through a queue, with the tick count at which each
was sent, and samples the tick count each time it processes something.

A callback is taken for what it does to the timers: it may send commands and no more. A
failed `configASSERT`, a missing pointer and a loop that runs on are `none`.
-/

namespace BlackPill.KernelTimers

open KernelLists

/-! ## Data -/

/-- The two lists of active timers. -/
inductive TimerList
  | xActiveTimerList1
  | xActiveTimerList2
deriving DecidableEq, Repr

/-- The fields of a `Timer_t` that the service task works with: the period, and the three
bits of `ucStatus`. -/
structure Timer where
  xTimerPeriodInTicks : Nat
  active : Bool
  staticallyAllocated : Bool
  autoReload : Bool
deriving DecidableEq, Repr

/-- The lists and the variables of the service task. `freed` tells the timers whose memory has
been given back, `calls` lists the callbacks that have been called. -/
structure Timers (τ : Type) where
  lists : Lists τ TimerList τ
  timer : τ → Timer
  freed : τ → Bool
  pxCurrentTimerList : TimerList
  pxOverflowTimerList : TimerList
  xLastTime : Nat
  calls : List τ

/-- The commands of a `DaemonTaskMessage_t`. -/
inductive CommandId
  | start
  | startFromIsr
  | reset
  | resetFromIsr
  | stop
  | stopFromIsr
  | changePeriod
  | changePeriodFromIsr
  | delete
deriving DecidableEq, Repr

/-- `DaemonTaskMessage_t`. -/
structure DaemonTaskMessage (τ : Type) where
  xMessageID : CommandId
  xMessageValue : Nat
  pxTimer : τ
deriving DecidableEq, Repr

/-- `tmrMAX_TIME_BEFORE_OVERFLOW`. -/
def tmrMaxTimeBeforeOverflow : Nat := 2 ^ 32 - 1

variable {τ : Type} [DecidableEq τ]

def Timers.period (s : Timers τ) (t : τ) : Nat := (s.timer t).xTimerPeriodInTicks

def Timers.setActive (s : Timers τ) (t : τ) (b : Bool) : Timers τ :=
  { s with timer := Function.update s.timer t { s.timer t with active := b } }

def Timers.setPeriod (s : Timers τ) (t : τ) (p : Nat) : Timers τ :=
  { s with timer := Function.update s.timer t { s.timer t with xTimerPeriodInTicks := p } }

/-- `pxTimer->pxCallbackFunction( pxTimer )`. -/
def Timers.call (s : Timers τ) (t : τ) : Timers τ := { s with calls := s.calls ++ [t] }

/-! ## Insertion -/

/-- `prvInsertTimerInActiveList`, with `xProcessTimerNow`. -/
def prvInsertTimerInActiveList (s : Timers τ) (pxTimer : τ)
    (xNextExpiryTime xTimeNow xCommandTime : Nat) : Option (Timers τ × Bool) :=
  let lists := (s.lists.setValue (.item pxTimer) xNextExpiryTime).setOwner pxTimer pxTimer
  let s := { s with lists := lists }
  if xNextExpiryTime ≤ xTimeNow then
    if (xTimeNow + 2 ^ 32 - xCommandTime) % 2 ^ 32 ≥ s.period pxTimer then some (s, true)
    else (vListInsert lists s.pxOverflowTimerList pxTimer).map fun lists =>
      ({ s with lists := lists }, false)
  else
    if xTimeNow < xCommandTime ∧ xNextExpiryTime ≥ xCommandTime then some (s, true)
    else (vListInsert lists s.pxCurrentTimerList pxTimer).map fun lists =>
      ({ s with lists := lists }, false)

/-- The loop of `prvReloadTimer`. -/
def reloadTimer (pxTimer : τ) (xTimeNow : Nat) : Nat → Timers τ → Nat → Option (Timers τ)
  | 0, _, _ => none
  | fuel + 1, s, xExpiredTime =>
    let xNextExpiryTime := (xExpiredTime + s.period pxTimer) % 2 ^ 32
    (prvInsertTimerInActiveList s pxTimer xNextExpiryTime xTimeNow xExpiredTime).bind fun r =>
      if r.2 then reloadTimer pxTimer xTimeNow fuel (r.1.call pxTimer) xNextExpiryTime
      else some r.1

/-- `prvReloadTimer`. -/
def prvReloadTimer (s : Timers τ) (pxTimer : τ) (xExpiredTime xTimeNow : Nat) :
    Option (Timers τ) :=
  reloadTimer pxTimer xTimeNow (2 ^ 32) s xExpiredTime

/-! ## Expiry -/

/-- `prvProcessExpiredTimer`. -/
def prvProcessExpiredTimer (s : Timers τ) (xNextExpireTime xTimeNow : Nat) : Option (Timers τ) :=
  (listGetOwnerOfHeadEntry s.lists s.pxCurrentTimerList).bind fun pxTimer =>
    (uxListRemove s.lists pxTimer).bind fun r =>
      let s := { s with lists := r.1 }
      (if (s.timer pxTimer).autoReload then prvReloadTimer s pxTimer xNextExpireTime xTimeNow
        else some (s.setActive pxTimer false)).map fun s => s.call pxTimer

/-- The loop of `prvSwitchTimerLists`. -/
def expireCurrent : Nat → Timers τ → Option (Timers τ)
  | 0, _ => none
  | fuel + 1, s =>
    if listIsEmpty s.lists s.pxCurrentTimerList then some s
    else
      let xNextExpireTime := listGetItemValueOfHeadEntry s.lists s.pxCurrentTimerList
      (prvProcessExpiredTimer s xNextExpireTime tmrMaxTimeBeforeOverflow).bind (expireCurrent fuel)

/-- `prvSwitchTimerLists`. -/
def prvSwitchTimerLists (s : Timers τ) : Option (Timers τ) :=
  (expireCurrent (s.lists.uxNumberOfItems s.pxCurrentTimerList + 1) s).map fun s => { s with
    pxCurrentTimerList := s.pxOverflowTimerList
    pxOverflowTimerList := s.pxCurrentTimerList }

/-- `prvSampleTimeNow` at the given tick count, with `xTimerListsWereSwitched`. -/
def prvSampleTimeNow (s : Timers τ) (xTimeNow : Nat) : Option (Timers τ × Bool) :=
  (if xTimeNow < s.xLastTime then (prvSwitchTimerLists s).map fun s => (s, true)
    else some (s, false)).map fun r => ({ r.1 with xLastTime := xTimeNow }, r.2)

/-- `prvGetNextExpireTime`, with `xListWasEmpty`. -/
def prvGetNextExpireTime (s : Timers τ) : Nat × Bool :=
  if listIsEmpty s.lists s.pxCurrentTimerList then (0, true)
  else (listGetItemValueOfHeadEntry s.lists s.pxCurrentTimerList, false)

/-- `prvProcessTimerOrBlockTask`. The second part is what it passes to
`vQueueWaitForMessageRestricted`, if it does: the ticks to wait, and whether to wait
indefinitely. -/
def prvProcessTimerOrBlockTask (s : Timers τ) (xTimeNow xNextExpireTime : Nat)
    (xListWasEmpty : Bool) : Option (Timers τ × Option (Nat × Bool)) :=
  (prvSampleTimeNow s xTimeNow).bind fun r =>
    if r.2 = false then
      if xListWasEmpty = false ∧ xNextExpireTime ≤ xTimeNow then
        (prvProcessExpiredTimer r.1 xNextExpireTime xTimeNow).map fun s => (s, none)
      else
        some (r.1, some ((xNextExpireTime + 2 ^ 32 - xTimeNow) % 2 ^ 32,
          xListWasEmpty && listIsEmpty r.1.lists r.1.pxOverflowTimerList))
    else some (r.1, none)

/-! ## Commands -/

/-- `tmrCOMMAND_START` and `tmrCOMMAND_RESET`, from the time at which they were sent. -/
def startTimer (s : Timers τ) (pxTimer : τ) (xMessageValue xTimeNow : Nat) : Option (Timers τ) :=
  let s := s.setActive pxTimer true
  let xNextExpiryTime := (xMessageValue + s.period pxTimer) % 2 ^ 32
  (prvInsertTimerInActiveList s pxTimer xNextExpiryTime xTimeNow xMessageValue).bind fun r =>
    if r.2 then
      (if (r.1.timer pxTimer).autoReload then prvReloadTimer r.1 pxTimer xNextExpiryTime xTimeNow
        else some (r.1.setActive pxTimer false)).map fun s => s.call pxTimer
    else some r.1

/-- `tmrCOMMAND_CHANGE_PERIOD`. -/
def changePeriod (s : Timers τ) (pxTimer : τ) (xMessageValue xTimeNow : Nat) : Option (Timers τ) :=
  let s := (s.setActive pxTimer true).setPeriod pxTimer xMessageValue
  if s.period pxTimer > 0 then
    (prvInsertTimerInActiveList s pxTimer ((xTimeNow + s.period pxTimer) % 2 ^ 32) xTimeNow
      xTimeNow).map Prod.fst
  else none

/-- `tmrCOMMAND_DELETE`. -/
def deleteTimer (s : Timers τ) (pxTimer : τ) : Timers τ :=
  if (s.timer pxTimer).staticallyAllocated then s.setActive pxTimer false
  else { s with freed := Function.update s.freed pxTimer true }

/-- What `prvProcessReceivedCommands` does with one message, at the given tick count. -/
def prvProcessReceivedCommand (s : Timers τ) (m : DaemonTaskMessage τ) (xTickCount : Nat) :
    Option (Timers τ) :=
  if s.freed m.pxTimer then none
  else
    (if s.lists.pxContainer m.pxTimer ≠ none then
        (uxListRemove s.lists m.pxTimer).map fun r => { s with lists := r.1 }
      else some s).bind fun s =>
    (prvSampleTimeNow s xTickCount).bind fun r =>
      match m.xMessageID with
      | .start | .startFromIsr | .reset | .resetFromIsr =>
        startTimer r.1 m.pxTimer m.xMessageValue xTickCount
      | .stop | .stopFromIsr => some (r.1.setActive m.pxTimer false)
      | .changePeriod | .changePeriodFromIsr =>
        changePeriod r.1 m.pxTimer m.xMessageValue xTickCount
      | .delete => some (deleteTimer r.1 m.pxTimer)

/-! ## Calls of the tasks -/

/-- `vTimerSetReloadMode`. -/
def vTimerSetReloadMode (s : Timers τ) (xTimer : τ) (xAutoReload : Bool) : Timers τ :=
  { s with timer := Function.update s.timer xTimer { s.timer xTimer with autoReload := xAutoReload } }

/-- `xTimerIsTimerActive`. -/
def xTimerIsTimerActive (s : Timers τ) (xTimer : τ) : Bool := (s.timer xTimer).active

/-- `xTimerGetExpiryTime`. -/
def xTimerGetExpiryTime (s : Timers τ) (xTimer : τ) : Nat := s.lists.xItemValue (.item xTimer)

end BlackPill.KernelTimers
