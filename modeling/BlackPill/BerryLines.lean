import BlackPill.MessageBuffer
import BlackPill.Runs

/-!
# Interactive lines on their way to the Berry REPL

The shell task hands each interactive line to the message buffer in
`ShellCmdBerryInteractive`; the task of the virtual machine takes them out in
`BerryLangInteractive_GetLine`. A call that has to wait blocks in
`xTaskNotifyWaitIndexed` and goes on after the other task has notified it, at any
later point. Otherwise a call is one step: the task of the virtual machine
outranks the shell task, and the shell task runs only while the other one is
blocked in `GetLine`.

Results:
1. `linesOk_step`: what is kept by every step that sends no line of more than 123
   characters.
2. `lines_reach_repl_iff`: the lines reach the REPL intact exactly in the runs
   without a longer line. `long_line_is_dropped`: a line of 124 characters, which
   the interactive buffer has room for, is lost.
-/

namespace BlackPill

namespace BerryLines

open ByteMemory Runs

/-! ## Definitions -/

/-- `WSH_SHELL_INTR_BUFF_LEN`. -/
def wshShellIntrBuffLen : Nat := 128

/-- `BERRY_MSG_BUFF_SIZE`. -/
def berryMsgBuffSize : Nat := wshShellIntrBuffLen

/-- The interactive buffer of the shell, `WshShellIO_CommandLine_t`, with a
terminated line in it. -/
structure CommandLine where
  buff : List UInt8
  length_eq : buff.length = wshShellIntrBuffLen
  terminated : 0 ∈ buff

/-- The number of bytes before the first NUL. -/
def strlen : List UInt8 → Nat
  | [] => 0
  | c :: cs => if c = 0 then 0 else strlen cs + 1

/-- What `ShellCmdBerryInteractive` sends: the line with its terminator. -/
def CommandLine.message (pInter : CommandLine) : List UInt8 :=
  pInter.buff.take (strlen pInter.buff + 1)

/-- The message buffer, the two tasks as far as they wait on it, and the static
`buf` of `GetLine`. `completed` lists the messages whose send has returned,
`returned` what `GetLine` has returned, `none` for NULL. -/
structure LinesState where
  berryMessageBuff : StreamBuffer
  sending : Option (List UInt8)
  sendNotified : Bool
  receiving : Bool
  receiveNotified : Bool
  buf : Nat → UInt8
  completed : List (List UInt8)
  returned : List (Option (List UInt8))

/-- `prvSEND_COMPLETED`. -/
def prvSendCompleted (s : LinesState) : LinesState :=
  if s.berryMessageBuff.xTaskWaitingToReceive then
    { s with
      receiveNotified := true
      berryMessageBuff := { s.berryMessageBuff with xTaskWaitingToReceive := false } }
  else s

/-- `prvRECEIVE_COMPLETED`. -/
def prvReceiveCompleted (s : LinesState) : LinesState :=
  if s.berryMessageBuff.xTaskWaitingToSend then
    { s with
      sendNotified := true
      berryMessageBuff := { s.berryMessageBuff with xTaskWaitingToSend := false } }
  else s

/-- The part of `xStreamBufferSend` behind its loop. -/
def sendWrite (s : LinesState) (pvTxData : List UInt8) (xSpace : Nat) : LinesState :=
  let xSpace := if xSpace = 0 then xStreamBufferSpacesAvailable s.berryMessageBuff else xSpace
  let written := prvWriteMessageToBuffer s.berryMessageBuff pvTxData xSpace
    (pvTxData.length + sbBytesToStoreMessageLength)
  let s' := { s with
    berryMessageBuff := written.1, sending := none, completed := s.completed ++ [pvTxData] }
  if written.2 > 0 ∧ prvBytesInBuffer written.1 ≥ written.1.xTriggerLevelBytes then
    prvSendCompleted s'
  else s'

/-- One round of the loop of `xStreamBufferSend`: it blocks, or leaves the loop. -/
def sendWait (s : LinesState) (pvTxData : List UInt8) : LinesState :=
  let xSpace := xStreamBufferSpacesAvailable s.berryMessageBuff
  if xSpace < pvTxData.length + sbBytesToStoreMessageLength then
    { s with
      sending := some pvTxData
      sendNotified := false
      berryMessageBuff := { s.berryMessageBuff with xTaskWaitingToSend := true } }
  else sendWrite s pvTxData xSpace

/-- `xMessageBufferSend` with `portMAX_DELAY`: a message that can never fit is not
waited for. -/
def xMessageBufferSend (s : LinesState) (pvTxData : List UInt8) : LinesState :=
  let xMaxReportedSpace := s.berryMessageBuff.xLength - 1
  -- in a message buffer the wait is dropped and the write fails for want of space
  if pvTxData.length + sbBytesToStoreMessageLength > xMaxReportedSpace then sendWrite s pvTxData 0
  else sendWait s pvTxData

/-- `ShellCmdBerryInteractive` while the virtual machine exists. -/
def shellCmdBerryInteractive (s : LinesState) (pInter : CommandLine) : LinesState :=
  xMessageBufferSend s pInter.message

/-- `BerryLangInteractive_GetLine` once `xMessageBufferReceive` has returned. -/
def getLineReturn (s : LinesState) (pvRxData : List UInt8) : LinesState :=
  let buf := write s.buf 0 pvRxData
  { s with
    receiving := false
    buf := buf
    returned := s.returned ++
      [if pvRxData.length > 0 then some (cString buf 0 berryMsgBuffSize) else none] }

/-- The part of `xStreamBufferReceive` behind its wait, and the return of
`GetLine`. -/
def receiveRead (s : LinesState) : LinesState :=
  let xBytesAvailable := prvBytesInBuffer s.berryMessageBuff
  if xBytesAvailable > sbBytesToStoreMessageLength then
    let received := prvReadMessageFromBuffer s.berryMessageBuff berryMsgBuffSize xBytesAvailable
    let s' := { s with berryMessageBuff := received.1 }
    getLineReturn (if received.2.length ≠ 0 then prvReceiveCompleted s' else s') received.2
  else getLineReturn s []

/-- `BerryLangInteractive_GetLine`: `xMessageBufferReceive` with `portMAX_DELAY`
blocks if there is no message, else reads. -/
def berryLangInteractiveGetLine (s : LinesState) : LinesState :=
  if prvBytesInBuffer s.berryMessageBuff ≤ sbBytesToStoreMessageLength then
    { s with
      receiving := true
      receiveNotified := false
      berryMessageBuff := { s.berryMessageBuff with xTaskWaitingToReceive := true } }
  else receiveRead s

/-- Calls of the two functions, and the two returns of `xTaskNotifyWaitIndexed`. -/
inductive LineEvent
  | interactive (pInter : CommandLine)
  | sendWake
  | getLine
  | receiveWake

/-- A task calls nothing while it is blocked and goes on only when notified. -/
def lineStep (s : LinesState) : LineEvent → Option LinesState
  | .interactive pInter =>
    if s.sending = none then some (shellCmdBerryInteractive s pInter) else none
  | .sendWake =>
    match s.sending, s.sendNotified with
    | some pvTxData, true => some (sendWait { s with
        sendNotified := false
        berryMessageBuff := { s.berryMessageBuff with xTaskWaitingToSend := false } } pvTxData)
    | _, _ => none
  | .getLine => if s.receiving then none else some (berryLangInteractiveGetLine s)
  | .receiveWake =>
    if s.receiving ∧ s.receiveNotified then some (receiveRead { s with
        receiveNotified := false
        berryMessageBuff := { s.berryMessageBuff with xTaskWaitingToReceive := false } })
    else none

/-- The state in which `berry -c` leaves the message buffer. -/
def LinesState.init : LinesState :=
  { berryMessageBuff := xMessageBufferCreate berryMsgBuffSize
    sending := none, sendNotified := false, receiving := false, receiveNotified := false
    buf := fun _ => 0, completed := [], returned := [] }

/-- The lines returned and those still in the buffer are the lines sent. -/
def LinesIntact (s : LinesState) : Prop :=
  s.returned ++ (messages s.berryMessageBuff).map some = s.completed.map some

/-- A line sent is short enough for its length and terminator to fit with it. -/
def SendsShort (_ : LinesState) : LineEvent → Prop
  | .interactive pInter => strlen pInter.buff ≤ 123
  | _ => True

/-- A string of less than 128 characters with its terminator. -/
def IsMessage (msg : List UInt8) : Prop :=
  ∃ cs, 0 ∉ cs ∧ cs.length < berryMsgBuffSize ∧ msg = cs ++ [0]

/-- The invariant, for a buffer with the messages `q`: a woken reader will find
one, and a blocked message will fit in time. -/
structure LinesOk (s : LinesState) (q : List (List UInt8)) : Prop where
  holds : Holds s.berryMessageBuff q
  length : s.berryMessageBuff.xLength = berryMsgBuffSize + 1
  lines : ∀ msg ∈ q, IsMessage msg
  sending : ∀ msg, s.sending = some msg →
    IsMessage msg ∧ msg.length + sbBytesToStoreMessageLength ≤ berryMsgBuffSize
  conserved : s.returned ++ q.map some = s.completed.map some
  woken : s.receiving = true → s.receiveNotified = true → q ≠ []

namespace Lemmas

variable {s s' : LinesState} {q : List (List UInt8)} {msg cs : List UInt8}

/-! ## Lines -/

theorem take_strlen (h : 0 ∈ cs) : 0 ∉ cs.take (strlen cs) ∧
    cs.take (strlen cs + 1) = cs.take (strlen cs) ++ [0] ∧ strlen cs < cs.length := by
  induction cs with
  | nil => simp at h
  | cons c cs ih =>
    unfold strlen
    split
    · next hc => simp [hc]
    · next hc =>
      have hcs : 0 ∈ cs := (List.mem_cons.mp h).resolve_left fun h0 => hc h0.symm
      obtain ⟨hn, ht, hl⟩ := ih hcs
      refine ⟨?_, ?_, Nat.succ_lt_succ hl⟩
      · rw [List.take_succ_cons]
        exact fun h0 => (List.mem_cons.mp h0).elim (fun h0 => hc h0.symm) hn
      · rw [List.take_succ_cons, List.take_succ_cons, ht, List.cons_append]

theorem strlen_append {ds : List UInt8} (h : 0 ∉ cs) : strlen (cs ++ 0 :: ds) = cs.length := by
  induction cs with
  | nil => rfl
  | cons c cs ih =>
    have hc : c ≠ 0 := fun h0 => h (h0 ▸ List.mem_cons_self)
    rw [List.cons_append, strlen, if_neg hc, ih fun hm => h (List.mem_cons_of_mem _ hm)]
    rfl

theorem strlen_lt (pInter : CommandLine) : strlen pInter.buff < berryMsgBuffSize := by
  have hl := (take_strlen pInter.terminated).2.2
  rw [pInter.length_eq] at hl
  exact hl

theorem message_length (pInter : CommandLine) :
    pInter.message.length = strlen pInter.buff + 1 := by
  unfold CommandLine.message
  rw [List.length_take]
  exact Nat.min_eq_left (take_strlen pInter.terminated).2.2

theorem isMessage_message (pInter : CommandLine) : IsMessage pInter.message := by
  obtain ⟨hn, ht, _⟩ := take_strlen pInter.terminated
  refine ⟨_, hn, ?_, ht⟩
  exact Nat.lt_of_le_of_lt (List.length_take_le _ _) (strlen_lt pInter)

theorem isMessage_ne_nil (h : IsMessage msg) : msg ≠ [] := by
  obtain ⟨cs, _, _, rfl⟩ := h
  exact List.append_ne_nil_of_right_ne_nil _ (List.cons_ne_nil _ _)

theorem isMessage_length (h : IsMessage msg) : msg.length ≤ berryMsgBuffSize := by
  obtain ⟨cs, _, hl, rfl⟩ := h
  rw [List.length_append]
  exact hl

/-- `GetLine` returns the message it has read, as a string. -/
theorem cString_message (h : IsMessage msg) {buf : Nat → UInt8} :
    cString (write buf 0 msg) 0 berryMsgBuffSize = msg := by
  obtain ⟨cs, h0, hl, rfl⟩ := h
  exact cString_write hl h0

/-! ## The two notifications -/

theorem holds_flags {b : StreamBuffer} {q : List (List UInt8)} (h : Holds b q) (r t : Bool) :
    Holds { b with xTaskWaitingToReceive := r, xTaskWaitingToSend := t } q :=
  ⟨h.tail_lt, h.head_lt, h.length_lt, h.nonempty, h.bytes⟩

theorem linesOk_sendCompleted (h : LinesOk s q) (hq : q ≠ []) : LinesOk (prvSendCompleted s) q := by
  unfold prvSendCompleted
  split
  · exact ⟨holds_flags h.holds _ _, h.length, h.lines, h.sending, h.conserved, fun _ _ => hq⟩
  · exact h

theorem linesOk_receiveCompleted (h : LinesOk s q) : LinesOk (prvReceiveCompleted s) q := by
  unfold prvReceiveCompleted
  split
  · exact ⟨holds_flags h.holds _ _, h.length, h.lines, h.sending, h.conserved, h.woken⟩
  · exact h

/-! ## Sending -/

/-- A message that fits is put behind the others. -/
theorem linesOk_sendWrite (h : LinesOk s q) (hm : IsMessage msg) (hs : msg.length +
    sbBytesToStoreMessageLength ≤ xStreamBufferSpacesAvailable s.berryMessageBuff) :
    LinesOk (sendWrite s msg (xStreamBufferSpacesAvailable s.berryMessageBuff)) (q ++ [msg]) := by
  obtain ⟨buf, head, hw, hh⟩ := h.holds.writeMessage (isMessage_ne_nil hm) hs
  unfold sendWrite
  simp only [ite_self, hw]
  have hnew : LinesOk { s with
      berryMessageBuff := { s.berryMessageBuff with pucBuffer := buf, xHead := head }
      sending := none, completed := s.completed ++ [msg] } (q ++ [msg]) := by
    refine ⟨hh, h.length, ?_, by simp, ?_, fun _ _ => by simp⟩
    · intro m hmem
      rcases List.mem_append.mp hmem with hmem | hmem
      · exact h.lines m hmem
      · exact List.mem_singleton.mp hmem ▸ hm
    · simp only [List.map_append, ← List.append_assoc, h.conserved]
  split
  · exact linesOk_sendCompleted hnew (by simp)
  · exact hnew

theorem linesOk_sendWait (h : LinesOk s q) (hm : IsMessage msg)
    (hl : msg.length + sbBytesToStoreMessageLength ≤ berryMsgBuffSize) :
    ∃ q', LinesOk (sendWait s msg) q' := by
  simp only [sendWait]
  split
  · refine ⟨q, holds_flags h.holds _ _, h.length, h.lines, ?_, h.conserved, h.woken⟩
    intro m hmem
    obtain rfl := Option.some.inj hmem
    exact ⟨hm, hl⟩
  · next hs => exact ⟨_, linesOk_sendWrite h hm (Nat.le_of_not_lt hs)⟩

/-- A message that can never fit is dropped, and its send returns. -/
theorem xMessageBufferSend_long (h : LinesOk s q)
    (hl : berryMsgBuffSize < msg.length + sbBytesToStoreMessageLength) :
    xMessageBufferSend s msg = { s with sending := none, completed := s.completed ++ [msg] } := by
  have hspace := h.holds.spaces_add
  have hlen := h.length
  have hno : ¬ xStreamBufferSpacesAvailable s.berryMessageBuff ≥
      msg.length + sbBytesToStoreMessageLength := by
    omega
  have hmax : msg.length + sbBytesToStoreMessageLength > s.berryMessageBuff.xLength - 1 := by
    omega
  simp only [xMessageBufferSend, if_pos hmax, sendWrite, ite_true, prvWriteMessageToBuffer,
    if_neg hno]
  exact if_neg fun h0 => Nat.lt_irrefl 0 h0.1

theorem linesOk_send (h : LinesOk s q) (hm : IsMessage msg)
    (hl : msg.length + sbBytesToStoreMessageLength ≤ berryMsgBuffSize) :
    ∃ q', LinesOk (xMessageBufferSend s msg) q' := by
  unfold xMessageBufferSend
  rw [if_neg (by rw [h.length]; exact Nat.not_lt.mpr hl)]
  exact linesOk_sendWait h hm hl

/-! ## Receiving -/

/-- A read with a message in the buffer returns that message. -/
theorem linesOk_receiveRead (h : LinesOk s q) (hq : q ≠ []) :
    ∃ q', LinesOk (receiveRead s) q' := by
  cases q with
  | nil => exact absurd rfl hq
  | cons msg q =>
    have hm : IsMessage msg := h.lines msg List.mem_cons_self
    have hpos : 0 < msg.length := List.length_pos_iff.mpr (isMessage_ne_nil hm)
    obtain ⟨tail, hr, hh⟩ := h.holds.readMessage (isMessage_length hm)
    refine ⟨q, ?_⟩
    have hread : LinesOk { s with
        berryMessageBuff := { s.berryMessageBuff with xTail := tail }
        receiving := false
        buf := write s.buf 0 msg
        returned := s.returned ++ [some msg] } q := by
      refine ⟨hh, h.length, fun m hmem => h.lines m (List.mem_cons_of_mem _ hmem), h.sending, ?_,
        fun h0 => absurd h0 (by simp)⟩
      rw [← h.conserved, List.map_cons, List.append_assoc]
      rfl
    have hdone := linesOk_receiveCompleted hread
    unfold receiveRead
    simp only [if_pos (h.holds.readable_iff.mpr hq), hr, if_pos (Nat.ne_of_gt hpos)]
    unfold getLineReturn
    simp only [gt_iff_lt, if_pos hpos, cString_message hm]
    unfold prvReceiveCompleted at hdone ⊢
    split
    · next hw => simpa only [if_pos hw] using hdone
    · next hw => simpa only [if_neg hw] using hdone

theorem linesOk_getLine (h : LinesOk s q) :
    ∃ q', LinesOk (berryLangInteractiveGetLine s) q' := by
  unfold berryLangInteractiveGetLine
  split
  · refine ⟨q, holds_flags h.holds _ _, h.length, h.lines, h.sending, h.conserved, ?_⟩
    exact fun _ h0 => absurd h0 (by simp)
  · next hb => exact linesOk_receiveRead h (h.holds.readable_iff.mp (Nat.lt_of_not_le hb))

/-! ## Steps -/

/-- Everything one event can do. -/
theorem lineStep_cases {ev : LineEvent} (h : lineStep s ev = some s') :
    (∃ pInter, ev = .interactive pInter ∧ s' = shellCmdBerryInteractive s pInter) ∨
    (∃ msg, ev = .sendWake ∧ s.sending = some msg ∧ s' = sendWait { s with
        sendNotified := false
        berryMessageBuff := { s.berryMessageBuff with xTaskWaitingToSend := false } } msg) ∨
    (ev = .getLine ∧ s.receiving = false ∧ s' = berryLangInteractiveGetLine s) ∨
    (ev = .receiveWake ∧ s.receiving = true ∧ s.receiveNotified = true ∧
      s' = receiveRead { s with
        receiveNotified := false
        berryMessageBuff := { s.berryMessageBuff with xTaskWaitingToReceive := false } }) := by
  cases ev with
  | interactive pInter =>
    simp only [lineStep] at h
    split at h
    · exact .inl ⟨pInter, rfl, (Option.some.inj h).symm⟩
    · cases h
  | sendWake =>
    simp only [lineStep] at h
    split at h
    · next msg hmsg _ => exact .inr (.inl ⟨msg, rfl, hmsg, (Option.some.inj h).symm⟩)
    · cases h
  | getLine =>
    simp only [lineStep] at h
    split at h
    · cases h
    · next hr =>
      exact .inr (.inr (.inl ⟨rfl, Bool.eq_false_iff.mpr hr, (Option.some.inj h).symm⟩))
  | receiveWake =>
    simp only [lineStep] at h
    split at h
    · next hr => exact .inr (.inr (.inr ⟨rfl, hr.1, hr.2, (Option.some.inj h).symm⟩))
    · cases h

theorem linesOk_init : LinesOk LinesState.init [] where
  holds := holds_create (by decide)
  length := rfl
  lines := by simp
  sending := by simp [LinesState.init]
  conserved := rfl
  woken := fun h0 => absurd h0 (by simp [LinesState.init])

theorem linesIntact_of_linesOk (h : LinesOk s q) : LinesIntact s := by
  unfold LinesIntact
  rw [h.holds.messages_eq]
  exact h.conserved

end Lemmas

open Lemmas

variable {s s' : LinesState} {q : List (List UInt8)}

/-- Every step that sends no long line keeps the invariant. -/
theorem linesOk_step {ev : LineEvent} (h : LinesOk s q) (hc : SendsShort s ev)
    (hs : lineStep s ev = some s') : ∃ q', LinesOk s' q' := by
  rcases lineStep_cases hs with ⟨pInter, rfl, rfl⟩ | ⟨msg, rfl, hmsg, rfl⟩ | ⟨rfl, _, rfl⟩ |
    ⟨rfl, hr, hn, rfl⟩
  · refine linesOk_send h (isMessage_message pInter) ?_
    rw [message_length]
    exact Nat.add_le_add_right (Nat.succ_le_succ hc) sbBytesToStoreMessageLength
  · -- a send that has blocked was short when it began
    obtain ⟨hm, hl⟩ := h.sending msg hmsg
    refine linesOk_sendWait (q := q) ?_ hm hl
    exact ⟨holds_flags h.holds _ _, h.length, h.lines, h.sending, h.conserved, h.woken⟩
  · exact linesOk_getLine h
  · refine linesOk_receiveRead (q := q) ?_ (h.woken hr hn)
    exact ⟨holds_flags h.holds _ _, h.length, h.lines, h.sending, h.conserved,
      fun _ h0 => absurd h0 (by simp)⟩

/-- A long line breaks the property at once: its send returns and it is nowhere. -/
theorem sendsShort_of_linesIntact {ev : LineEvent} (h : LinesOk s q)
    (hs : lineStep s ev = some s') (hP : LinesIntact s') : SendsShort s ev := by
  cases ev with
  | interactive pInter =>
    rcases Nat.lt_or_ge 123 (strlen pInter.buff) with hlong | hshort
    · obtain ⟨_, he, rfl⟩ | ⟨_, he, _⟩ | ⟨he, _⟩ | ⟨he, _⟩ := lineStep_cases hs
      · obtain rfl := LineEvent.interactive.inj he
        unfold shellCmdBerryInteractive at hP
        rw [xMessageBufferSend_long h (by
          rw [message_length]
          exact Nat.add_le_add_right (Nat.succ_le_succ hlong) sbBytesToStoreMessageLength)] at hP
        unfold LinesIntact at hP
        rw [h.holds.messages_eq, h.conserved, List.map_append] at hP
        exact absurd (congrArg List.length hP) (by simp)
      all_goals cases he
    · exact hshort
  | _ => trivial

/-- The strings returned by `GetLine`, never NULL, and the messages in the buffer
are in every state of a run the lines whose send has returned, in order, exactly
when no line of the run has more than 123 characters. -/
theorem lines_reach_repl_iff (events : List LineEvent) :
    Always (Steps lineStep) LinesIntact LinesState.init events ↔
      Meets (Steps lineStep) SendsShort LinesState.init events := by
  refine always_iff_meets (I := fun s => ∃ q, LinesOk s q) ?_ ?_ ?_ ⟨[], linesOk_init⟩ events
  · rintro s ev s' ⟨q, h⟩ hc hs
    exact linesOk_step h hc hs
  · rintro s ⟨q, h⟩
    exact linesIntact_of_linesOk h
  · rintro s ev s' ⟨q, h⟩ hs hP
    exact sendsShort_of_linesIntact h hs hP

/-- A line of 124 characters. -/
def longLine : CommandLine where
  buff := List.replicate 124 0x31 ++ 0 :: List.replicate 3 0
  length_eq := by simp [wshShellIntrBuffLen]
  terminated := by simp

/-- The longest lines of the interactive buffer are lost without an error. -/
theorem long_line_is_dropped :
    ¬ Always (Steps lineStep) LinesIntact LinesState.init [.interactive longLine] := by
  intro h
  have hstep : lineStep LinesState.init (.interactive longLine) =
      some (shellCmdBerryInteractive LinesState.init longLine) := rfl
  have hs := (always_cons.mp h).2 _ hstep
  have hshort : strlen longLine.buff ≤ 123 :=
    sendsShort_of_linesIntact linesOk_init hstep (hs [] [] _ rfl Run.nil)
  rw [longLine, strlen_append (by simp), List.length_replicate] at hshort
  exact absurd hshort (by decide)

end BerryLines

end BlackPill
