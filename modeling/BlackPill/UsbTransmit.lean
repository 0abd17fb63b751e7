import BlackPill.Interleaving
import BlackPill.Runs

/-!
# Two tasks printing over the USB serial line

`_write` sends its bytes one at a time: it copies a byte to the local `c` and
calls `CDC_Transmit_FS` with the address of `c` until the call no longer returns
`USBD_BUSY`. `CDC_Transmit_FS` tests `TxState`, registers the buffer with
`USBD_CDC_SetTxBuffer` and starts the transfer with `USBD_CDC_TransmitPacket`;
each of the three is one step, and a step of the other task or the completion of
a transfer may come between any two.

The USB library is outside the tree. Of it the model has that `SetTxBuffer` stores
the pointer, that `TransmitPacket` returns `USBD_BUSY` if `TxState` is not zero and
otherwise sets it and sends the byte the stored pointer leads to, and that a
completion sets `TxState` to zero.

Results:
1. `printed_step`: the bytes sent stay an interleaving of what the two tasks have
   sent, as long as each transfer is started with the task's own buffer.
2. `two_writers_interleave`: so they are at the end of both calls.
   `foreign_buffer_loses_byte`: the timer task printing between `SetTxBuffer` and
   `TransmitPacket` of the shell task makes the shell task lose a byte.
3. `transmit_sends_registered`: what a transfer with the other buffer sends.
-/

namespace BlackPill

open Interleaving Runs

/-! ## Definitions -/

/-- The two tasks that print. -/
inductive PrintTask
  | shell
  | timer
deriving DecidableEq, Repr

/-- Where a call of `_write` is: at the test of its `for` loop, at the three steps
of `CDC_Transmit_FS`, or behind its end. -/
inductive WritePc
  | loop
  | testTxState
  | setTxBuffer
  | transmitPacket
  | returned
deriving DecidableEq, Repr

/-- A call of `_write`: the bytes from `ptr` to the end of the buffer and the cell
of the local `c`, `none` before its first use and after the return. -/
structure Writer where
  rest : List UInt8
  c : Option UInt8
  pc : WritePc
deriving DecidableEq, Repr

/-- The two calls, the fields of `USBD_CDC_HandleTypeDef` (`txBuffer` is the task to
whose `c` the pointer leads, the stored length is always 1), and the cells sent to
the host. -/
structure PrintState where
  writers : PrintTask → Writer
  txBuffer : Option PrintTask
  txState : Bool
  sent : List (Option UInt8)

def PrintState.setWriter (s : PrintState) (t : PrintTask) (w : Writer) : PrintState :=
  { s with writers := fun u => if u = t then w else s.writers u }

/-- The cell that the registered pointer leads to. -/
def PrintState.registered (s : PrintState) : Option UInt8 :=
  s.txBuffer.bind fun t => (s.writers t).c

/-- One step of a call of `_write`. -/
def writeStep (s : PrintState) (t : PrintTask) : Option PrintState :=
  let w := s.writers t
  match w.pc with
  | .loop =>
    match w.rest with
    -- the frame of the call is gone, and `c` with it
    | [] => some (s.setWriter t { w with c := none, pc := .returned })
    | b :: rest => some (s.setWriter t ⟨rest, some b, .testTxState⟩)
  | .testTxState =>
    some (s.setWriter t { w with pc := if s.txState then .testTxState else .setTxBuffer })
  | .setTxBuffer => some { s.setWriter t { w with pc := .transmitPacket } with txBuffer := some t }
  | .transmitPacket =>
    if s.txState then some (s.setWriter t { w with pc := .testTxState })
    else some { s.setWriter t { w with pc := .loop } with
      txState := true
      sent := s.sent ++ [s.registered] }
  | .returned => none

inductive PrintEvent
  | write (t : PrintTask)
  | complete
deriving DecidableEq, Repr

def printStep (s : PrintState) : PrintEvent → Option PrintState
  | .write t => writeStep s t
  | .complete => if s.txState then some { s with txState := false } else none

/-- Both calls at their start, and no transfer under way. -/
def PrintState.init (input : PrintTask → List UInt8) : PrintState :=
  { writers := fun t => ⟨input t, none, .loop⟩, txBuffer := none, txState := false, sent := [] }

/-- Once both calls have returned and the last transfer is complete, the host has
got an interleaving of the two strings. -/
def SentInterleaved (input : PrintTask → List UInt8) (s : PrintState) : Prop :=
  (∀ t, (s.writers t).pc = .returned) → s.txState = false →
    ∃ zs, Interleaves (input .shell) (input .timer) zs ∧ s.sent = zs.map some

/-- A transfer that is started finds the buffer registered by the same task. -/
def OwnBuffer (s : PrintState) : PrintEvent → Prop
  | .write t => (s.writers t).pc = .transmitPacket → s.txState = false → s.txBuffer = some t
  | .complete => True

instance {s : PrintState} : (ev : PrintEvent) → Decidable (OwnBuffer s ev)
  | .write _ => by unfold OwnBuffer; infer_instance
  | .complete => .isTrue trivial

/-- The bytes of a call that are still to be sent: inside `CDC_Transmit_FS` the byte
in `c` comes first. -/
def Writer.pending (w : Writer) : List UInt8 :=
  match w.pc with
  | .loop => w.rest
  | .testTxState | .setTxBuffer | .transmitPacket => w.c.toList ++ w.rest
  | .returned => []

/-- Inside `CDC_Transmit_FS` there is a byte in `c`. -/
def Writer.InCall (w : Writer) : Prop := w.pc ≠ .loop → w.pc ≠ .returned → w.c.isSome

/-- The invariant: `sentBy` splits what has been sent between the two tasks. -/
structure Printed (input : PrintTask → List UInt8) (s : PrintState)
    (sentBy : PrintTask → List UInt8) : Prop where
  split : ∀ t, input t = sentBy t ++ (s.writers t).pending
  inCall : ∀ t, (s.writers t).InCall
  sent : ∃ zs, Interleaves (sentBy .shell) (sentBy .timer) zs ∧ s.sent = zs.map some

namespace UsbTransmitLemmas

variable {input sentBy : PrintTask → List UInt8} {s s' : PrintState} {t : PrintTask} {w : Writer}

@[simp] theorem setWriter_self : (s.setWriter t w).writers t = w := if_pos rfl

theorem setWriter_other {u : PrintTask} (h : u ≠ t) : (s.setWriter t w).writers u = s.writers u :=
  if_neg h

theorem isSome_of_inCall (h : w.InCall)
    (hpc : w.pc = .testTxState ∨ w.pc = .setTxBuffer ∨ w.pc = .transmitPacket) : w.c.isSome := by
  rcases hpc with hpc | hpc | hpc
  all_goals exact h (by rw [hpc]; decide) (by rw [hpc]; decide)

/-- A step inside `CDC_Transmit_FS` leaves the byte in `c`. -/
theorem inCall_of_pc (h : w.InCall)
    (hpc : w.pc = .testTxState ∨ w.pc = .setTxBuffer ∨ w.pc = .transmitPacket) {pc : WritePc} :
    ({ w with pc := pc } : Writer).InCall := by
  have hc := isSome_of_inCall h hpc
  exact fun _ _ => hc

/-- A step of a task that sends nothing. -/
theorem printed_setWriter (h : Printed input s sentBy)
    (hp : w.pending = (s.writers t).pending) (hc : w.InCall) {txBuffer : Option PrintTask} :
    Printed input { s.setWriter t w with txBuffer := txBuffer } sentBy where
  split u := by
    by_cases hu : u = t
    · subst hu
      rw [h.split u]
      simp [hp]
    · rw [h.split u]
      simp [setWriter_other hu]
  inCall u := by
    by_cases hu : u = t
    · subst hu
      simpa using hc
    · simpa [setWriter_other hu] using h.inCall u
  sent := h.sent

/-- A byte of either task goes to the end of what has been sent. -/
theorem interleaves_snoc {b : UInt8} {zs : List UInt8}
    (h : Interleaves (sentBy .shell) (sentBy .timer) zs) :
    Interleaves (if .shell = t then sentBy .shell ++ [b] else sentBy .shell)
      (if .timer = t then sentBy .timer ++ [b] else sentBy .timer) (zs ++ [b]) := by
  cases t with
  | shell => exact h.snoc_left
  | timer => exact h.snoc_right

/-- A transfer of the byte of a task's own `c`. -/
theorem printed_transmit (h : Printed input s sentBy) (hpc : (s.writers t).pc = .transmitPacket)
    (ho : s.txBuffer = some t) : ∃ sentBy', Printed input { s.setWriter t
      { s.writers t with pc := .loop } with
        txState := true
        sent := s.sent ++ [s.registered] } sentBy' := by
  obtain ⟨b, hb⟩ :=
    Option.isSome_iff_exists.mp (isSome_of_inCall (h.inCall t) (.inr (.inr hpc)))
  have hreg : s.registered = some b := by
    unfold PrintState.registered
    rw [ho]
    exact hb
  have hpend : (s.writers t).pending = b :: (s.writers t).rest := by
    unfold Writer.pending
    rw [hpc, hb]
    rfl
  obtain ⟨zs, hz, hs⟩ := h.sent
  refine ⟨fun u => if u = t then sentBy u ++ [b] else sentBy u, ?_, ?_, zs ++ [b],
    interleaves_snoc hz, ?_⟩
  · intro u
    by_cases hu : u = t
    · subst hu
      rw [h.split u, hpend]
      simp [Writer.pending]
    · rw [h.split u]
      simp [hu, setWriter_other hu]
  · intro u
    by_cases hu : u = t
    · subst hu
      simp [Writer.InCall]
    · simpa [setWriter_other hu] using h.inCall u
  · rw [hreg, hs, List.map_append]
    rfl

theorem printed_init : Printed input (PrintState.init input) fun _ => [] where
  split _ := rfl
  inCall _ hl := absurd rfl hl
  sent := ⟨[], .nil, rfl⟩

theorem sentInterleaved_of_printed (h : Printed input s sentBy) : SentInterleaved input s := by
  intro hret _
  have hall : ∀ t, sentBy t = input t := by
    intro t
    have hp : (s.writers t).pending = [] := by
      unfold Writer.pending
      rw [hret t]
    rw [h.split t, hp, List.append_nil]
  obtain ⟨zs, hz, hs⟩ := h.sent
  rw [hall, hall] at hz
  exact ⟨zs, hz, hs⟩

end UsbTransmitLemmas

open UsbTransmitLemmas

variable {input sentBy : PrintTask → List UInt8} {s s' : PrintState}

/-- One step, if a transfer that it starts has the task's own buffer. -/
theorem printed_step {ev : PrintEvent} (h : Printed input s sentBy) (hc : OwnBuffer s ev)
    (hs : printStep s ev = some s') : ∃ sentBy', Printed input s' sentBy' := by
  cases ev with
  | complete =>
    simp only [printStep] at hs
    split at hs
    · obtain rfl := Option.some.inj hs
      exact ⟨sentBy, h.split, h.inCall, h.sent⟩
    · cases hs
  | write t =>
    have hin := h.inCall t
    cases hpc : (s.writers t).pc with
    | loop =>
      cases hr : (s.writers t).rest with
      | nil =>
        simp only [printStep, writeStep, hpc, hr, Option.some.injEq] at hs
        subst hs
        refine ⟨sentBy, printed_setWriter h ?_ ?_⟩
        · simp [Writer.pending, hpc, hr]
        · exact fun _ h0 => absurd rfl h0
      | cons b rest =>
        simp only [printStep, writeStep, hpc, hr, Option.some.injEq] at hs
        subst hs
        refine ⟨sentBy, printed_setWriter h ?_ ?_⟩
        · simp [Writer.pending, hpc, hr]
        · exact fun _ _ => rfl
    | testTxState =>
      simp only [printStep, writeStep, hpc, Option.some.injEq] at hs
      subst hs
      refine ⟨sentBy, printed_setWriter h ?_ ?_⟩
      · cases htx : s.txState <;> simp [Writer.pending, hpc]
      · exact inCall_of_pc hin (.inl hpc)
    | setTxBuffer =>
      simp only [printStep, writeStep, hpc, Option.some.injEq] at hs
      subst hs
      refine ⟨sentBy, printed_setWriter h ?_ ?_⟩
      · simp [Writer.pending, hpc]
      · exact inCall_of_pc hin (.inr (.inl hpc))
    | transmitPacket =>
      cases htx : s.txState with
      | true =>
        simp only [printStep, writeStep, hpc, htx, if_true, Option.some.injEq] at hs
        subst hs
        refine ⟨sentBy, printed_setWriter h ?_ ?_⟩
        · simp [Writer.pending, hpc]
        · exact inCall_of_pc hin (.inr (.inr hpc))
      | false =>
        simp only [printStep, writeStep, hpc, htx, Bool.false_eq_true, if_false,
          Option.some.injEq] at hs
        subst hs
        -- the only step that sends, and the only one for which the condition is needed
        exact printed_transmit h hpc (hc hpc htx)
    | returned =>
      simp only [printStep, writeStep, hpc] at hs
      cases hs

/-- If every transfer is started with the buffer of the task that starts it, the
host gets an interleaving of the two strings, whatever the schedule. -/
theorem two_writers_interleave {input : PrintTask → List UInt8} {events : List PrintEvent}
    (h : Meets (Steps printStep) OwnBuffer (PrintState.init input) events) :
    Always (Steps printStep) (SentInterleaved input) (PrintState.init input) events := by
  refine always_of_meets (I := fun s => ∃ sentBy, Printed input s sentBy) ?_ ?_
    ⟨_, printed_init⟩ h
  · rintro s ev s' ⟨sentBy, hp⟩ hc hs
    exact printed_step hp hc hs
  · rintro s ⟨sentBy, hp⟩
    exact sentInterleaved_of_printed hp

/-- The bytes 1 and 2. -/
def twoBytes : PrintTask → List UInt8
  | .shell => [1]
  | .timer => [2]

/-- The timer task prints between the test of the shell task and its `SetTxBuffer`. -/
theorem two_writers_in_turn : Always (Steps printStep) (SentInterleaved twoBytes)
    (PrintState.init twoBytes)
    [.write .shell, .write .shell, .write .timer, .write .timer, .write .timer, .write .timer,
      .write .timer, .complete, .write .shell, .write .shell, .complete, .write .shell] :=
  two_writers_interleave (by decide)

/-- The timer task prints between `SetTxBuffer` and `TransmitPacket` of the shell
task, whose byte is lost: the transfer reads the `c` of a call that has returned. -/
theorem foreign_buffer_loses_byte : ¬ Always (Steps printStep) (SentInterleaved twoBytes)
    (PrintState.init twoBytes)
    [.write .shell, .write .shell, .write .shell, .write .timer, .write .timer, .write .timer,
      .write .timer, .write .timer, .complete, .write .shell, .complete, .write .shell] := by
  refine not_always_of_exec rfl fun h => ?_
  obtain ⟨zs, _, hs⟩ := h (fun t => by cases t <;> rfl) rfl
  have hmem : none ∈ zs.map some := hs ▸ List.mem_append_right _ (List.mem_singleton_self _)
  simp at hmem

/-- A task that starts a transfer goes on to its next byte, whichever buffer is
registered, and the cell of that buffer is what is sent. -/
theorem transmit_sends_registered {t u : PrintTask} (hpc : (s.writers t).pc = .transmitPacket)
    (htx : s.txState = false) (hb : s.txBuffer = some u) :
    ∃ s', printStep s (.write t) = some s' ∧ s'.sent = s.sent ++ [(s.writers u).c] ∧
      (s'.writers t).pending = (s.writers t).rest := by
  refine ⟨_, by simp only [printStep, writeStep, hpc, htx]; rfl, ?_, ?_⟩
  · simp [PrintState.registered, hb]
  · simp [Writer.pending]

end BlackPill
