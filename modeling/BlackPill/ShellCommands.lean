import BlackPill.BerryLang
import BlackPill.Runs
import BlackPill.ShellApi
import BlackPill.ShellSession

/-!
# The option loops of the command handlers

`shell_cmd_led`, `shell_cmd_reset` and `ShellCmdBerry` share one loop: parse the
next option with the rights of `CurrUser`, run the case of that option, until no
token is left or a case returns. They differ in the `switch`. The timer task may
run `ShellRoot_ResetTimerClbk` between any two steps of the loop.

`WshShellCmd_ParseOpt` and `WshShellCmd_GetOptValue` are outside the tree: their
results are part of the event. Of the first the model has that it moves `tokenPos`
on by a positive amount.

Results:
1. `reads_rights_of_user`: every evaluation of `CurrUser->Rights` finds a user in
   exactly those runs in which no option is parsed behind an expiry of a session
   that is not kept; `commands_read_rights_of_user` has the three handlers.
   `logout_during_command`: an expiry between two options is enough.
2. `expiry_before_parse_reads_null`: after such a logout the next parse reads the
   rights of NULL.
-/

namespace BlackPill

open Runs

/-! ## The cases of the handlers -/

/-- The operations on the LED pin. -/
inductive PinOp
  | init
  | deinit
  | on
  | off
  | toggle
deriving DecidableEq, Repr

/-- `CMD_LED_OPT_t`. -/
inductive LedOpt
  | help
  | init
  | state
  | rev
  | get
  | endOpt
deriving DecidableEq, Repr

/-- What a case of `shell_cmd_led` gets from outside: the result of
`WshShellCmd_GetOptValue`, what it stores when it succeeds, and what the stack
holds where `state[16]` lies. -/
structure LedInput where
  getOptValue : RetState
  optString : List UInt8
  optInt : Nat
  stack : List UInt8
deriving DecidableEq, Repr

/-- `WSH_SHELL_STRCMP(s, word) == 0`. -/
def isString (s word : List UInt8) : Bool := (word ++ [0]).isPrefixOf s

/-- `"init"`. -/
def wordInit : List UInt8 := [0x69, 0x6e, 0x69, 0x74]

/-- `"deinit"`. -/
def wordDeinit : List UInt8 := [0x64, 0x65, 0x69, 0x6e, 0x69, 0x74]

/-- The `switch` of `shell_cmd_led`, over the pin operations made so far. The
result of `WshShellCmd_GetOptValue` is looked at for `--state` only. -/
def ledCase (pin : List PinOp) (e : LedInput) : LedOpt → List PinOp × CaseEnd
  | .help => (pin, .next)
  | .init =>
    -- `state` is not initialised, and a failed call leaves it so
    let state := if e.getOptValue = .success then e.optString ++ e.stack.drop e.optString.length
      else e.stack
    if isString state wordInit then (pin ++ [.init], .next)
    else if isString state wordDeinit then (pin ++ [.deinit], .next)
    else (pin, .next)
  | .state =>
    if e.getOptValue ≠ .success then (pin, .ret e.getOptValue)
    else
      let state := if e.optInt > 1 then 1 else e.optInt
      (pin ++ [if state = 0 then .off else .on], .next)
  | .rev => (pin ++ [.toggle], .next)
  | .get => (pin, .next)
  | .endOpt => (pin, .ret .error)

/-- `CMD_RESET_OPT_t`. -/
inductive ResetOpt
  | defOpt
  | help
  | hf
  | endOpt
deriving DecidableEq, Repr

/-- The `switch` of `shell_cmd_reset`: a soft reset, or a watchdog and a jump to
nowhere. -/
def resetCase : ResetOpt → CaseEnd
  | .defOpt => .halt
  | .help => .next
  | .hf => .halt
  | .endOpt => .ret .error

/-- A handler is its `switch`: from the variables it works on, the outside results
and the option's ID to the variables and the end of the case. -/
structure OptionHandler (ι σ α : Type) where
  case : σ → α → ι → σ × CaseEnd

/-- `shell_cmd_led`. -/
def shellCmdLed : OptionHandler LedOpt (List PinOp) LedInput where
  case := ledCase

/-- `shell_cmd_reset`. -/
def shellCmdReset : OptionHandler ResetOpt Unit Unit where
  case := fun vars _ opt => (vars, resetCase opt)

/-- `ShellCmdBerry`. -/
def shellCmdBerry : OptionHandler BerryOpt BerryState CreateResults where
  case := berryCase

/-! ## The loop -/

/-- Where a handler is: before the test of the loop, before the evaluation of
`CurrUser->Rights` for the next `WshShellCmd_ParseOpt`, or before a case. -/
inductive LoopPc (ι : Type)
  | test
  | parse
  | switch (opt : ι)
  | returned (code : RetState)
  | halted
deriving DecidableEq, Repr

/-- `rightsRead` lists what the evaluations of `pParentShell->CurrUser->Rights`
have found, `none` for a NULL user. -/
structure HandlerState (ι σ : Type) where
  session : Session
  pc : LoopPc ι
  tokenPos : Nat
  retState : RetState
  vars : σ
  rightsRead : List (Option Nat)
deriving DecidableEq, Repr

inductive HandlerEvent (ι α : Type)
  | test
  | parse (r : ParseResult ι)
  | body (e : α)
  | timerClbk
deriving DecidableEq, Repr

variable {ι σ α : Type}

/-- How the loop goes on behind a case. -/
def HandlerState.endCase (s : HandlerState ι σ) : CaseEnd → HandlerState ι σ
  | .next => { s with pc := .test }
  | .fail => { s with pc := .test, retState := .error }
  | .ret code => { s with pc := .returned code }
  | .halt => { s with pc := .halted }

def handlerStep (h : OptionHandler ι σ α) (argc : Nat) (s : HandlerState ι σ) :
    HandlerEvent ι α → Option (HandlerState ι σ)
  | .test =>
    match s.pc with
    | .test => some { s with pc := if s.tokenPos < argc then .parse else .returned s.retState }
    | _ => none
  | .parse r =>
    match s.pc with
    | .parse =>
      if 0 < r.advance then some { s with
        -- the argument is evaluated before the call moves `tokenPos`
        rightsRead := s.rightsRead ++ [s.session.currUser]
        tokenPos := s.tokenPos + r.advance
        pc := match r.option with
          | some opt => .switch opt
          | none => .returned (if r.parseError then .errParam else .errEmpty) }
      else none
    | _ => none
  | .body e =>
    match s.pc with
    | .switch opt =>
      let res := h.case s.vars e opt
      some ({ s with vars := res.1 }.endCase res.2)
    | _ => none
  | .timerClbk => some { s with session := shellRootResetTimerClbk s.session }

/-- The entry of a handler. `pcCmd` and `pArgv` tell whether the pointers are there. -/
def HandlerState.enter (pcCmd pArgv : Bool) (argc : Nat) (session : Session) (vars : σ) :
    HandlerState ι σ :=
  { session := session
    pc := if (argc > 0 ∧ pArgv = false) ∨ pcCmd = false then .returned .error else .test
    tokenPos := 0, retState := .success, vars := vars, rightsRead := [] }

/-- Every evaluation of `CurrUser->Rights` has found a user. -/
def RightsKnown (s : HandlerState ι σ) : Prop := ∀ r ∈ s.rightsRead, r.isSome

/-- If the event parses an option, it finds a user. -/
def FindsUser (s : HandlerState ι σ) : HandlerEvent ι α → Prop
  | .parse _ => s.session.currUser.isSome
  | _ => True

/-- From the state `s` every option that is parsed is parsed before any expiry of the
timer, or the session is kept. -/
def ParsesBeforeExpiry (h : OptionHandler ι σ α) (argc : Nat) (s : HandlerState ι σ)
    (events : List (HandlerEvent ι α)) : Prop :=
  ∀ done r rest t u, events = done ++ .parse r :: rest → Run (Steps (handlerStep h argc)) s done t →
    handlerStep h argc t (.parse r) = some u →
    s.session.keepActive = true ∨ HandlerEvent.timerClbk ∉ done

namespace ShellCommandsLemmas

variable {h : OptionHandler ι σ α} {argc : Nat} {s s' : HandlerState ι σ}

theorem endCase_session {c : CaseEnd} : (s.endCase c).session = s.session := by
  cases c <;> rfl

theorem endCase_rightsRead {c : CaseEnd} : (s.endCase c).rightsRead = s.rightsRead := by
  cases c <;> rfl

/-- What one step does to the session and to the rights read. -/
theorem handlerStep_cases {ev : HandlerEvent ι α} (hs : handlerStep h argc s ev = some s') :
    (∃ r, ev = .parse r ∧ s'.session = s.session ∧
      s'.rightsRead = s.rightsRead ++ [s.session.currUser]) ∨
    (ev = .timerClbk ∧ s'.session = shellRootResetTimerClbk s.session ∧
      s'.rightsRead = s.rightsRead) ∨
    ((ev = .test ∨ ∃ e, ev = .body e) ∧ s'.session = s.session ∧
      s'.rightsRead = s.rightsRead) := by
  cases ev with
  | test =>
    simp only [handlerStep] at hs
    split at hs
    · obtain rfl := Option.some.inj hs
      exact .inr (.inr ⟨.inl rfl, rfl, rfl⟩)
    · cases hs
  | parse r =>
    simp only [handlerStep] at hs
    split at hs
    · split at hs
      · obtain rfl := Option.some.inj hs
        exact .inl ⟨r, rfl, rfl, rfl⟩
      · cases hs
    · cases hs
  | body e =>
    simp only [handlerStep] at hs
    split at hs
    · obtain rfl := Option.some.inj hs
      exact .inr (.inr ⟨.inr ⟨e, rfl⟩, endCase_session, endCase_rightsRead⟩)
    · cases hs
  | timerClbk =>
    obtain rfl := Option.some.inj hs
    exact .inr (.inl ⟨rfl, rfl, rfl⟩)

/-! ### The rights read -/

theorem rightsKnown_append {r : Option Nat} (hr : s'.rightsRead = s.rightsRead ++ [r]) :
    RightsKnown s' ↔ RightsKnown s ∧ r.isSome := by
  unfold RightsKnown
  rw [hr]
  constructor
  · intro hk
    exact ⟨fun x hx => hk x (List.mem_append_left _ hx),
      hk r (List.mem_append_right _ (List.mem_singleton_self r))⟩
  · rintro ⟨hk, hu⟩ x hx
    rcases List.mem_append.mp hx with hx | hx
    · exact hk x hx
    · exact List.mem_singleton.mp hx ▸ hu

/-- A step leaves the rights known exactly when they were and it finds a user. -/
theorem rightsKnown_step {ev : HandlerEvent ι α} (hs : handlerStep h argc s ev = some s') :
    RightsKnown s' ↔ RightsKnown s ∧ FindsUser s ev := by
  rcases handlerStep_cases hs with ⟨r, rfl, _, hr⟩ | ⟨rfl, _, hr⟩ | ⟨rfl | ⟨e, rfl⟩, _, hr⟩
  · exact rightsKnown_append hr
  all_goals
    unfold RightsKnown
    rw [hr]
    exact ⟨fun hk => ⟨hk, trivial⟩, And.left⟩

theorem always_rightsKnown_iff (hk : RightsKnown s) (events : List (HandlerEvent ι α)) :
    Always (Steps (handlerStep h argc)) RightsKnown s events ↔
      Meets (Steps (handlerStep h argc)) FindsUser s events := by
  refine always_iff_meets (I := RightsKnown) ?_ (fun _ hi => hi) ?_ hk events
  · intro s ev s' hi hc hs
    exact (rightsKnown_step hs).mpr ⟨hi, hc⟩
  · intro s ev s' _ hs hk'
    exact ((rightsKnown_step hs).mp hk').2

/-! ### The user who is logged in -/

/-- An expiry logs out the user of a session that is not kept, and nothing else does. -/
theorem handlerStep_session {ev : HandlerEvent ι α} (hs : handlerStep h argc s ev = some s') :
    s'.session.keepActive = s.session.keepActive ∧
      (s'.session.currUser.isSome ↔ s.session.currUser.isSome ∧
        (s.session.keepActive = true ∨ ev ≠ .timerClbk)) := by
  rcases handlerStep_cases hs with ⟨r, rfl, hse, _⟩ | ⟨rfl, hse, _⟩ | ⟨rfl | ⟨e, rfl⟩, hse, _⟩
  · rw [hse]
    simp
  · rw [hse]
    rcases Bool.eq_false_or_eq_true s.session.keepActive with hk | hk
    · rw [shellRootResetTimerClbk_of_kept hk]
      exact ⟨rfl, fun hu => ⟨hu, .inl hk⟩, And.left⟩
    · rw [shellRootResetTimerClbk_of_not_kept hk]
      simp [hk]
  · rw [hse]
    simp
  · rw [hse]
    simp

/-- Over a run the user stays exactly when no expiry has logged it out. -/
theorem run_currUser {done : List (HandlerEvent ι α)}
    (hr : Run (Steps (handlerStep h argc)) s done s') :
    s'.session.currUser.isSome ↔ s.session.currUser.isSome ∧
      (s.session.keepActive = true ∨ HandlerEvent.timerClbk ∉ done) := by
  induction hr with
  | nil => simp
  | cons hs _ ih =>
    obtain ⟨hk, hu⟩ := handlerStep_session hs
    rw [ih, hu, hk, List.mem_cons, not_or, ← ne_eq, ne_comm, and_assoc, or_and_left]

theorem meets_findsUser_iff (hu : s.session.currUser.isSome) (events : List (HandlerEvent ι α)) :
    Meets (Steps (handlerStep h argc)) FindsUser s events ↔
      ParsesBeforeExpiry h argc s events := by
  constructor
  · intro hm done r rest t u he hr hs
    exact ((run_currUser hr).mp (hm done (.parse r) rest t u he hr hs)).2
  · intro hp done ev rest t u he hr hs
    cases ev with
    | parse r => exact (run_currUser hr).mpr ⟨hu, hp done r rest t u he hr hs⟩
    | test => trivial
    | body e => trivial
    | timerClbk => trivial

end ShellCommandsLemmas

open ShellCommandsLemmas

/-- From the state `s` the handler reads the rights of a user only, in exactly those
runs in which no option is parsed behind an expiry of a session that is not kept. -/
def ReadsRightsOfUser (h : OptionHandler ι σ α) (argc : Nat) (s : HandlerState ι σ) : Prop :=
  ∀ events, Always (Steps (handlerStep h argc)) RightsKnown s events ↔
    ParsesBeforeExpiry h argc s events

/-- Any handler with this loop does, from its entry with a user logged in. -/
theorem reads_rights_of_user (h : OptionHandler ι σ α) (pcCmd pArgv : Bool) (argc : Nat)
    {session : Session} (hu : session.currUser.isSome) (vars : σ) :
    ReadsRightsOfUser h argc (.enter pcCmd pArgv argc session vars) := by
  intro events
  have hknown : RightsKnown (.enter pcCmd pArgv argc session vars : HandlerState ι σ) :=
    fun _ hr => absurd hr List.not_mem_nil
  exact (always_rightsKnown_iff hknown events).trans (meets_findsUser_iff hu events)

/-- The three handlers do, for every list of arguments and every session with a user
logged in. -/
theorem commands_read_rights_of_user (pcCmd pArgv : Bool) (argc rights : Nat) (session : Session)
    (pin : List PinOp) (berry : BerryState) :
    ReadsRightsOfUser shellCmdLed argc
        (.enter pcCmd pArgv argc { session with currUser := some rights } pin) ∧
      ReadsRightsOfUser shellCmdReset argc
        (.enter pcCmd pArgv argc { session with currUser := some rights } ()) ∧
      ReadsRightsOfUser shellCmdBerry argc
        (.enter pcCmd pArgv argc { session with currUser := some rights } berry) :=
  ⟨reads_rights_of_user shellCmdLed pcCmd pArgv argc rfl pin,
    reads_rights_of_user shellCmdReset pcCmd pArgv argc rfl (),
    reads_rights_of_user shellCmdBerry pcCmd pArgv argc rfl berry⟩

/-- The session of a user with rights 1 that is not kept. -/
def plainSession : Session := ⟨some 1, false, true, []⟩

/-- `led -r -r`, and the timer expires between the two options. -/
theorem logout_during_command :
    ¬ Always (Steps (handlerStep shellCmdLed 2)) RightsKnown
      (.enter true true 2 { plainSession with currUser := some 1 } [])
      [.test, .parse ⟨some .rev, false, 1⟩, .body ⟨.success, [], 0, []⟩, .timerClbk, .test,
        .parse ⟨some .rev, false, 1⟩] := by
  refine not_always_of_exec rfl fun h => ?_
  exact absurd (h none (by decide)) (by decide)

/-- Whatever the next option is, it is parsed with the rights of NULL when the
session is not kept and the timer expires before its parse. -/
theorem expiry_before_parse_reads_null {h : OptionHandler ι σ α} {argc : Nat}
    {s : HandlerState ι σ} (hp : s.pc = .parse) (hk : s.session.keepActive = false)
    {r : ParseResult ι} (hr : 0 < r.advance) :
    ∃ t, exec (handlerStep h argc) s [.timerClbk, .parse r] = some t ∧ ¬ RightsKnown t := by
  simp only [exec, handlerStep, Option.bind_some, hp, if_pos hr]
  refine ⟨_, rfl, fun hn => ?_⟩
  have hnull := hn _ (List.mem_append_right _ (List.mem_singleton_self _))
  rw [shellRootResetTimerClbk_of_not_kept hk, wshShellDeAuth_currUser] at hnull
  cases hnull

end BlackPill
