import BlackPill.ShellCommands
import BlackPill.TwoRuns

/-!
# The `led` command and its uninitialised buffer

The case of `--init` compares `state[16]` with its two words whether or not
`WshShellCmd_GetOptValue` has stored a value there. Two runs of the command get the
same arguments if their events are the same but for what the stack holds where
`state` lies.

`WshShellCmd_GetOptValue` is outside the tree. Of it the model has that a success
stores a terminated string and a failure stores nothing.

Results:
1. `led_follows_arguments_iff`: a run makes the same pin operations and returns the same
   as every other run with its arguments, and a value that could not be read does
   nothing to the pin, exactly when the value of every `--init` that it reaches could
   be read. `stale_word_inits_pin`: the word left by an earlier command is obeyed.
2. `isString_append`: the bytes behind a terminated string do not count.
-/

namespace BlackPill

open Runs

/-! ## Definitions -/

/-- The events of a run of `shell_cmd_led`. -/
abbrev LedEvent : Type := HandlerEvent LedOpt LedInput

/-- The states of a run of `shell_cmd_led`. -/
abbrev LedState : Type := HandlerState LedOpt (List PinOp)

def ledStep (argc : Nat) : LedState → LedEvent → Option LedState := handlerStep shellCmdLed argc

/-- What `WshShellCmd_GetOptValue` and the stack can give to a case. -/
structure LedInput.Possible (e : LedInput) : Prop where
  size : e.stack.length = 16
  terminated : e.getOptValue = .success → 0 ∈ e.optString

/-- The second event is the first with another content of the stack. -/
def SameArguments : LedEvent → LedEvent → Prop
  | .body e, ev => e.Possible ∧ ∃ stack, stack.length = 16 ∧ ev = .body { e with stack := stack }
  | ev, ev' => ev' = ev

/-- The pin operations so far, and whether and with which code the command has
returned. -/
def LedState.shown (s : LedState) : List PinOp × LoopPc LedOpt := (s.vars, s.pc)

/-- The run with the given events depends on the arguments only.

* `agree`: after any number of events it shows what any other run with the same
  arguments shows;
* `unread`: in none of these does the case of `--init` touch the pin if the value
  could not be read. -/
structure FollowsArguments (argc : Nat) (s : LedState) (events : List LedEvent) : Prop where
  agree : ∀ others, List.Forall₂ SameArguments events others → ∀ n,
    (exec (ledStep argc) s (events.take n)).map LedState.shown =
      (exec (ledStep argc) s (others.take n)).map LedState.shown
  unread : ∀ others, List.Forall₂ SameArguments events others → ∀ done e rest t,
    others = done ++ .body e :: rest → Run (Steps (ledStep argc)) s done t →
    t.pc = .switch .init → e.getOptValue ≠ .success → (ledCase t.vars e .init).1 = t.vars

/-- If the event runs the case of `--init`, its value could be read. -/
def ReadsValue (s : LedState) : LedEvent → Prop
  | .body e => s.pc = .switch .init → e.getOptValue = .success
  | _ => True

instance {s : LedState} : (ev : LedEvent) → Decidable (ReadsValue s ev)
  | .body _ => by unfold ReadsValue; infer_instance
  | .test | .parse _ | .timerClbk => .isTrue trivial

/-- Another content of the stack, for which the case of `--init` does something else. -/
def otherStack (stack : List UInt8) : List UInt8 :=
  if isString stack wordInit then List.replicate 16 0 else wordInit ++ List.replicate 12 0

namespace ShellLedLemmas

variable {argc : Nat} {s : LedState} {e : LedInput} {ev ev' : LedEvent} {pin : List PinOp}
  {stack : List UInt8}

/-! ## Strings -/

/-- The bytes behind a terminated string do not count. -/
theorem isString_append {l : List UInt8} (hl : 0 ∈ l) (rest : List UInt8) {word : List UInt8}
    (hw : 0 ∉ word) : isString (l ++ rest) word = isString l word := by
  unfold isString
  induction word generalizing l with
  | nil =>
    cases l with
    | nil => cases hl
    | cons b l => rfl
  | cons a word ih =>
    cases l with
    | nil => cases hl
    | cons b l =>
      obtain ⟨ha, hw'⟩ := not_or.mp fun h => hw (List.mem_cons.mpr h)
      simp only [List.cons_append, List.isPrefixOf_cons_cons]
      cases hab : a == b with
      | false => rfl
      | true =>
        have hb : 0 ≠ b := fun h0 => ha (h0.trans (beq_iff_eq.mp hab).symm)
        have hl' : 0 ∈ l := (List.mem_cons.mp hl).resolve_left hb
        rw [Bool.true_and, Bool.true_and]
        exact ih hl' hw'

/-! ## One case -/

/-- With its value read, no case depends on the stack. -/
theorem ledCase_stack (he : e.Possible) {opt : LedOpt}
    (hr : opt = .init → e.getOptValue = .success) :
    ledCase pin { e with stack := stack } opt = ledCase pin e opt := by
  cases opt with
  | init =>
    have hs := hr rfl
    have hz := he.terminated hs
    have hi : (0 : UInt8) ∉ wordInit := by decide
    have hd : (0 : UInt8) ∉ wordDeinit := by decide
    simp only [ledCase, if_pos hs, isString_append hz _ hi, isString_append hz _ hd]
  | _ => rfl

theorem otherStack_length : (otherStack stack).length = 16 := by
  unfold otherStack
  split <;> rfl

/-- Without, the case of `--init` does. -/
theorem ledCase_otherStack (hr : e.getOptValue ≠ .success) :
    (ledCase pin e .init).1 ≠
      (ledCase pin { e with stack := otherStack e.stack } .init).1 := by
  have hzero : isString (List.replicate 16 0) wordInit = false ∧
      isString (List.replicate 16 0) wordDeinit = false := by decide
  have hword : isString (wordInit ++ List.replicate 12 0) wordInit = true := by decide
  simp only [ledCase, if_neg hr, otherStack]
  cases hi : isString e.stack wordInit with
  | true =>
    simp only [if_true, hzero.1, hzero.2, Bool.false_eq_true, if_false]
    simp
  | false =>
    simp only [Bool.false_eq_true, if_false, hword, if_true]
    split <;> simp

/-! ## One event -/

theorem ledStep_body {opt : LedOpt} (hpc : s.pc = .switch opt) : ledStep argc s (.body e) =
    some ({ s with vars := (ledCase s.vars e opt).1 }.endCase (ledCase s.vars e opt).2) := by
  simp only [ledStep, handlerStep, hpc]
  rfl

theorem endCase_vars {c : CaseEnd} : (s.endCase c).vars = s.vars := by
  cases c <;> rfl

theorem ledStep_same (h : SameArguments ev ev') (hr : ∀ t, ledStep argc s ev = some t →
    ReadsValue s ev) : ledStep argc s ev = ledStep argc s ev' := by
  cases ev with
  | body e =>
    obtain ⟨he, stack, _, rfl⟩ := h
    cases hpc : s.pc with
    | «switch» opt =>
      have hread : opt = .init → e.getOptValue = .success := fun ho =>
        hr _ (ledStep_body hpc) (ho ▸ hpc)
      have hcase : ledCase s.vars { e with stack := stack } opt = ledCase s.vars e opt :=
        ledCase_stack he hread
      rw [ledStep_body hpc, ledStep_body hpc, hcase]
    | _ => simp only [ledStep, handlerStep, hpc]
  | _ =>
    obtain rfl := h
    rfl

theorem readsValue_same (h : SameArguments ev ev') (hr : ReadsValue s ev) : ReadsValue s ev' := by
  cases ev with
  | body e =>
    obtain ⟨_, stack, _, rfl⟩ := h
    exact hr
  | _ =>
    obtain rfl := h
    exact hr

/-- A value that could not be read shows in one of two runs. -/
theorem unread_shows (h : SameArguments ev ev) (hr : ¬ ReadsValue s ev) :
    ∃ ev', SameArguments ev ev' ∧
      (ledStep argc s ev).map LedState.shown ≠ (ledStep argc s ev').map LedState.shown := by
  cases ev with
  | body e =>
    obtain ⟨hpc, hread⟩ := Classical.not_imp.mp hr
    refine ⟨.body { e with stack := otherStack e.stack }, ⟨h.1, _, otherStack_length, rfl⟩, ?_⟩
    rw [ledStep_body hpc, ledStep_body hpc]
    intro heq
    have hvars := congrArg Prod.fst (Option.some.inj heq)
    simp only [LedState.shown, endCase_vars] at hvars
    exact ledCase_otherStack hread hvars
  | _ => exact absurd trivial hr

end ShellLedLemmas

open ShellLedLemmas

/-- For every list of arguments and results, every user, and every state of the pin:
the run depends on its arguments only exactly when the value of each `--init` whose
case it reaches could be read. -/
theorem led_follows_arguments_iff (pcCmd pArgv : Bool) (argc : Nat) (session : Session)
    (pin : List PinOp) (events : List LedEvent) (h : ∀ e, .body e ∈ events → e.Possible) :
    FollowsArguments argc (.enter pcCmd pArgv argc session pin) events ↔
      Meets (Steps (ledStep argc)) ReadsValue (.enter pcCmd pArgv argc session pin) events := by
  have hrefl : ∀ ev ∈ events, SameArguments ev ev := by
    intro ev hev
    cases ev with
    | body e => exact ⟨h e hev, e.stack, (h e hev).size, rfl⟩
    | _ => rfl
  have hagree := agree_iff_meets (f := ledStep argc) (C := ReadsValue)
    (s := .enter pcCmd pArgv argc session pin) (Option.map LedState.shown)
    (fun _ _ _ hsame hr => ledStep_same hsame hr)
    (fun _ _ _ hsame _ hr => unread_shows hsame hr) hrefl
  refine ⟨fun hf => hagree.mp hf.agree, fun hm => ⟨hagree.mpr hm, ?_⟩⟩
  rintro others hsame done e rest t rfl hrun hpc hread
  -- the other runs read their values too, so there is none that could not be read
  have hm' := meets_congr (f := ledStep argc) (C := ReadsValue)
    (fun _ _ _ hsame hr => ledStep_same hsame hr) (fun _ _ _ hsame hr => readsValue_same hsame hr)
    hsame hm
  exact absurd (hm' done (.body e) rest t _ rfl hrun (ledStep_body hpc) hpc) hread

/-- `led -o init`, with the value read. -/
def ledInit : List LedEvent :=
  [.test, .parse ⟨some .init, false, 2⟩,
    .body ⟨.success, wordInit ++ [0], 0, List.replicate 16 0xA5⟩, .test]

theorem led_init_follows_arguments :
    FollowsArguments 2 (.enter true true 2 plainSession []) ledInit :=
  (led_follows_arguments_iff true true 2 plainSession [] ledInit
    fun e he => by
      obtain rfl : e = _ := by simpa [ledInit] using he
      exact ⟨rfl, fun _ => by decide⟩).mpr (by decide)

/-- `led -o` without a value: with the word of an earlier `led -o init` still on the
stack the pin is initialised, with other bytes there it is not. -/
theorem stale_word_inits_pin :
    ¬ FollowsArguments 1 (.enter true true 1 plainSession [])
      [.test, .parse ⟨some .init, false, 1⟩,
        .body ⟨.errEmpty, [], 0, wordInit ++ List.replicate 12 0⟩, .test] := by
  intro h
  have hinit := h.unread _ (.cons rfl (.cons rfl (.cons
    ⟨⟨rfl, nofun⟩, wordInit ++ List.replicate 12 0, rfl, rfl⟩ (.cons rfl .nil))))
    [.test, .parse ⟨some .init, false, 1⟩] _ [.test] _ rfl (run_iff_exec.mpr rfl) rfl nofun
  exact absurd hinit (by decide)

end BlackPill
