import BlackPill.Runs
import BlackPill.ShellSession

/-!
# The auto-logout timer over whole sessions

The shell task handles one symbol after the other: first `Shell_SymInClbk`, in
which the test and the restart of the timer are two steps, then whatever the
shell library makes of the symbol (a login, a logout, a change of the keep-session
flag, several of these or none). The timer task outranks it: the timer may expire
between any two steps, and the commands in its queue are handled before the shell
task goes on.

Results:
1. `guarded_step`: a step keeps the timer running for a session that is not kept,
   unless the flag is switched off over a stopped timer.
2. `timer_guards_session`: in runs without such a step no session waits for a
   symbol without its timer. `expired_keep_loses_timer`: a timer that expires
   while the session is kept is not started again when the flag is switched off.
3. `keep_off_breaks`: such a step is always a way to lose the timer.
-/

namespace BlackPill

open Runs

/-! ## Definitions -/

/-- Where the shell task is.

* `waiting`: in `getchar`;
* `symIn`, `symInRestart`: in `Shell_SymInClbk`, before its test and behind it;
* `handling`: in the shell library;
* `authClbk`, `deAuthClbk`: a user has been logged in or out, the callback is next. -/
inductive ShellPc
  | waiting
  | symIn
  | symInRestart
  | handling
  | authClbk
  | deAuthClbk
deriving DecidableEq, Repr

/-- `authSeen`: the `Auth` callback has been called. -/
structure ShellState where
  session : Session
  pc : ShellPc
  authSeen : Bool
deriving DecidableEq, Repr

/-- Steps of the shell task, in the order of `ShellPc`, and of the timer task. -/
inductive ShellEvent
  | symbol
  | symInTest
  | symInRestart
  | login (rights : Nat)
  | authClbk
  | logout
  | deAuthClbk
  | setKeep (keep : Bool)
  | done
  | timerCommand
  | timerExpire
deriving DecidableEq, Repr

/-- A step of the shell task from `pc` to `pc'`: the timer task has no command
left. -/
def shellTask (s : ShellState) (pc pc' : ShellPc) (session : Session) : Option ShellState :=
  if s.pc = pc ∧ s.session.timerQueue = [] then some { s with session := session, pc := pc' }
  else none

def shellStep (s : ShellState) : ShellEvent → Option ShellState
  | .symbol => shellTask s .waiting .symIn s.session
  | .symInTest =>
    shellTask s .symIn (if wshShellIsAuth s.session then .symInRestart else .handling) s.session
  | .symInRestart => shellTask s .symInRestart .handling (s.session.post .changePeriod)
  | .login rights =>
    shellTask s .handling .authClbk { s.session with currUser := some rights }
  | .authClbk => shellTask { s with authSeen := true } .authClbk .handling (shellAuthClbk s.session)
  | .logout => shellTask s .handling .deAuthClbk { s.session with currUser := none }
  | .deAuthClbk => shellTask s .deAuthClbk .handling (shellDeAuthClbk s.session)
  | .setKeep keep => shellTask s .handling .handling { s.session with keepActive := keep }
  | .done => shellTask s .handling .waiting s.session
  | .timerCommand => (timerCommand s.session).map fun session => { s with session := session }
  | .timerExpire => (timerExpire s.session).map fun session => { s with session := session }

/-- `Shell_Init` has restored what the stored session held; the automatic login of
a debug build may follow. The timer has been created and not started. -/
def ShellState.init (currUser : Option Nat) (keepActive : Bool) : ShellState :=
  { session := ⟨currUser, keepActive, false, []⟩, pc := .handling, authSeen := false }

/-- A user is logged in and the session is not kept. -/
def Unkept (s : Session) : Prop := s.currUser.isSome ∧ s.keepActive = false

/-- Whenever the shell waits for a symbol after a login through the callback, the
timer runs for a session that is not kept. -/
def TimerGuards (s : ShellState) : Prop :=
  s.pc = .waiting → s.authSeen → Unkept s.session → s.session.timerRunning

/-- The keep-session flag is switched off only while the timer runs, or with
nobody logged in. -/
def KeepOffInTime (s : ShellState) : ShellEvent → Prop
  | .setKeep false => s.authSeen → s.session.currUser.isSome → s.session.keepActive →
      s.session.timerRunning
  | _ => True

instance {s : ShellState} : (ev : ShellEvent) → Decidable (KeepOffInTime s ev)
  | .setKeep false => by unfold KeepOffInTime; infer_instance
  | .setKeep true | .symbol | .symInTest | .symInRestart | .login _ | .authClbk | .logout
  | .deAuthClbk | .done | .timerCommand | .timerExpire => .isTrue trivial

/-- The invariant. Only between a login and its callback may the timer be still. -/
structure Guarded (s : ShellState) : Prop where
  timer : s.authSeen → s.pc ≠ .authClbk → Unkept s.session → s.session.settled
  loggedOut : s.pc = .deAuthClbk → s.session.currUser = none
  drained : s.pc = .waiting → Unkept s.session → s.session.timerQueue = []

namespace ShellTimerLemmas

variable {s s' : ShellState} {pc pc' : ShellPc} {session : Session} {ev : ShellEvent}

theorem shellTask_some (h : shellTask s pc pc' session = some s') :
    s.pc = pc ∧ s.session.timerQueue = [] ∧ s' = { s with session := session, pc := pc' } := by
  unfold shellTask at h
  split at h
  · next hg => exact ⟨hg.1, hg.2, (Option.some.inj h).symm⟩
  · cases h

/-- A step of the shell task that leaves the session alone, away from the two
callbacks. -/
theorem guarded_move (h : Guarded s) (hq : s.session.timerQueue = []) (hpc : s.pc ≠ .authClbk)
    (hpc' : pc' ≠ .deAuthClbk) : Guarded { s with pc := pc' } where
  timer ha _ hu := h.timer ha hpc hu
  loggedOut hp := absurd hp hpc'
  drained _ _ := hq

/-- A step that starts the timer. -/
theorem guarded_start {c : TimerCommand} (hq : s.session.timerQueue = []) (hc : c.starts = true)
    {authSeen : Bool} : Guarded ⟨s.session.post c, .handling, authSeen⟩ where
  timer _ _ _ := (settled_post hq).trans hc
  loggedOut hp := by cases hp
  drained hp := by cases hp

/-- A step behind which nobody is logged in. -/
theorem guarded_of_none (h : session.currUser = none) {authSeen : Bool} :
    Guarded ⟨session, pc, authSeen⟩ where
  timer _ _ hu := absurd hu.1 (by simp [h])
  loggedOut _ := h
  drained _ hu := absurd hu.1 (by simp [h])

theorem guarded_setKeep (h : Guarded s) (hpc : s.pc = .handling) (hq : s.session.timerQueue = [])
    {keep : Bool} (hc : KeepOffInTime s (.setKeep keep)) :
    Guarded { s with session := { s.session with keepActive := keep }, pc := .handling } where
  timer ha _ hu := by
    obtain rfl : keep = false := hu.2
    have hrun : s.session.settled := by
      -- switched off just now, or off already
      rcases Bool.eq_false_or_eq_true s.session.keepActive with hk | hk
      · rw [settled_of_drained hq]
        exact hc ha hu.1 hk
      · exact h.timer ha (by rw [hpc]; decide) ⟨hu.1, hk⟩
    exact hrun
  loggedOut hp := by cases hp
  drained hp := by cases hp

theorem guarded_timerCommand (h : Guarded s) (hs : timerCommand s.session = some session) :
    Guarded { s with session := session } := by
  obtain ⟨hq, hset, hu, hk⟩ := timerCommand_cases hs
  have hunkept : Unkept session → Unkept s.session := fun h0 => ⟨hu ▸ h0.1, hk ▸ h0.2⟩
  refine ⟨fun ha hp h0 => ?_, fun hp => hu.trans (h.loggedOut hp), fun hp h0 => ?_⟩
  · exact hset.trans (h.timer ha hp (hunkept h0))
  · exact absurd (h.drained hp (hunkept h0)) hq

theorem guarded_timerExpire (h : Guarded s) (hs : timerExpire s.session = some session) :
    Guarded { s with session := session } := by
  rcases timerExpire_cases hs with ⟨hk, rfl⟩ | ⟨_, hn, _⟩
  · have hkept : ¬ Unkept { s.session with timerRunning := false } := fun h0 =>
      absurd (hk.symm.trans h0.2) (by decide)
    exact ⟨fun _ _ h0 => absurd h0 hkept, h.loggedOut, fun _ h0 => absurd h0 hkept⟩
  · exact guarded_of_none hn

theorem guarded_init (currUser : Option Nat) (keepActive : Bool) :
    Guarded (ShellState.init currUser keepActive) where
  timer ha := by cases ha
  loggedOut hp := by cases hp
  drained hp := by cases hp

theorem timerGuards_of_guarded (h : Guarded s) : TimerGuards s := by
  intro hp ha hu
  have hset := h.timer ha (by rw [hp]; decide) hu
  rwa [settled_of_drained (h.drained hp hu)] at hset

end ShellTimerLemmas

open ShellTimerLemmas

variable {s s' : ShellState} {ev : ShellEvent}

/-- Every step but a late switch of the keep-session flag keeps the invariant. -/
theorem guarded_step (h : Guarded s) (hc : KeepOffInTime s ev) (hs : shellStep s ev = some s') :
    Guarded s' := by
  cases ev with
  | symbol =>
    obtain ⟨hp, hq, rfl⟩ := shellTask_some hs
    exact guarded_move h hq (by rw [hp]; decide) (by decide)
  | symInTest =>
    obtain ⟨hp, hq, rfl⟩ := shellTask_some hs
    exact guarded_move h hq (by rw [hp]; decide) (by split <;> decide)
  | symInRestart =>
    obtain ⟨_, hq, rfl⟩ := shellTask_some hs
    exact guarded_start hq rfl
  | login rights =>
    -- the invariant leaves out the place before the `Auth` callback
    obtain ⟨_, _, rfl⟩ := shellTask_some hs
    refine ⟨fun _ hp => absurd rfl hp, fun hp => ?_, fun hp => ?_⟩ <;> cases hp
  | authClbk =>
    obtain ⟨_, hq, rfl⟩ := shellTask_some hs
    exact guarded_start hq rfl
  | logout =>
    obtain ⟨_, _, rfl⟩ := shellTask_some hs
    exact guarded_of_none rfl
  | deAuthClbk =>
    obtain ⟨hp, _, rfl⟩ := shellTask_some hs
    exact guarded_of_none (post_currUser.trans (h.loggedOut hp))
  | setKeep keep =>
    obtain ⟨hp, hq, rfl⟩ := shellTask_some hs
    exact guarded_setKeep h hp hq hc
  | done =>
    obtain ⟨hp, hq, rfl⟩ := shellTask_some hs
    exact guarded_move h hq (by rw [hp]; decide) (by decide)
  | timerCommand =>
    obtain ⟨session, ht, rfl⟩ := Option.map_eq_some_iff.mp hs
    exact guarded_timerCommand h ht
  | timerExpire =>
    obtain ⟨session, ht, rfl⟩ := Option.map_eq_some_iff.mp hs
    exact guarded_timerExpire h ht

/-- In every run in which the keep-session flag is switched off only in time, a
session that is not kept has its timer running whenever the shell waits for a
symbol after a login through the callback. -/
theorem timer_guards_session {currUser : Option Nat} {keepActive : Bool} {events : List ShellEvent}
    (h : Meets (Steps shellStep) KeepOffInTime (ShellState.init currUser keepActive) events) :
    Always (Steps shellStep) TimerGuards (ShellState.init currUser keepActive) events :=
  always_of_meets (I := Guarded) (fun _ _ _ hg hc hs => guarded_step hg hc hs)
    (fun _ hg => timerGuards_of_guarded hg) (guarded_init currUser keepActive) h

/-- A login, and a session that is kept and then no longer, all in time. -/
theorem timer_guards_session_in_time : Always (Steps shellStep) TimerGuards
    (ShellState.init none false)
    [.login 7, .authClbk, .timerCommand, .setKeep true, .done, .symbol, .symInTest,
      .symInRestart, .timerCommand, .setKeep false, .done] :=
  timer_guards_session (by decide)

/-- A symbol restarts the timer, the timer expires while the session is still
kept, and then the flag is switched off. -/
theorem expired_keep_loses_timer : ¬ Always (Steps shellStep) TimerGuards
    (ShellState.init none false)
    [.login 7, .authClbk, .timerCommand, .setKeep true, .done, .symbol, .symInTest,
      .symInRestart, .timerCommand, .timerExpire, .setKeep false, .done] := by
  refine not_always_of_exec rfl fun h => ?_
  exact absurd (h rfl rfl ⟨rfl, rfl⟩) (by decide)

/-- Switching the flag off too late loses the timer, if nothing else follows for
this symbol. -/
theorem keep_off_breaks (hs : shellStep s (.setKeep false) = some s')
    (hc : ¬ KeepOffInTime s (.setKeep false)) :
    ∃ t, shellStep s' .done = some t ∧ ¬ TimerGuards t := by
  obtain ⟨hp, hq, rfl⟩ := shellTask_some hs
  refine ⟨_, if_pos ⟨rfl, hq⟩, fun hg => hc fun ha hu _ => ?_⟩
  exact hg rfl ha ⟨hu, rfl⟩

end BlackPill
