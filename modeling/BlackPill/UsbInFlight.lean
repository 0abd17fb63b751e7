import BlackPill.UsbTransmit

/-!
# The byte under the registered pointer

`USBD_CDC_TransmitPacket` keeps a pointer, not the byte: the USB side reads the cell
of `c` at some later step and sets `TxState` back to zero still later. Here one task
is in `_write`, which stores its next byte in the same cell, or returns and gives
the cell up, before it asks for `TxState` again.

Results:
1. `bytes_in_flight_iff`: the USB side reads the bytes that were accepted, in their
   order, in exactly those runs in which the loop stores a different byte, or
   returns, only after the fetch; and `c` keeps its value until the transfer is
   complete when it does so only after the completion. `stored_before_fetch`: a
   fetch after the next store reads the next byte.
2. `flight_run_is_print_run`: what is accepted here is what `UsbTransmit` takes as
   sent.
-/

namespace BlackPill

open Runs

/-! ## Definitions -/

/-- The buffers that are registered with `USBD_CDC_SetTxBuffer`: `UserTxBufferFS` in
`CDC_Init_FS`, and the cell of `c`. -/
inductive TxBuffer
  | userTxBufferFs
  | c
deriving DecidableEq, Repr

/-- The call of `_write`, the fields of `USBD_CDC_HandleTypeDef`, whether the byte of
the last transfer has been fetched, the bytes of the accepted transfers, and what
the USB side has read, `none` for what is no longer or not yet a byte of the call. -/
structure FlightState where
  writer : Writer
  txBuffer : TxBuffer
  txState : Bool
  fetched : Bool
  accepted : List UInt8
  read : List (Option UInt8)
deriving DecidableEq, Repr

/-- The cell that the registered pointer leads to. -/
def FlightState.pointed (s : FlightState) : Option UInt8 :=
  match s.txBuffer with
  | .userTxBufferFs => none
  | .c => s.writer.c

/-- One step of the call of `_write`. -/
def flightWrite (s : FlightState) : Option FlightState :=
  let w := s.writer
  match w.pc with
  | .loop =>
    match w.rest with
    -- the cell of `c` is given up
    | [] => some { s with writer := { w with c := none, pc := .returned } }
    | b :: rest => some { s with writer := ⟨rest, some b, .testTxState⟩ }
  | .testTxState =>
    some { s with writer := { w with pc := if s.txState then .testTxState else .setTxBuffer } }
  | .setTxBuffer => some { s with writer := { w with pc := .transmitPacket }, txBuffer := .c }
  | .transmitPacket =>
    if s.txState then some { s with writer := { w with pc := .testTxState } }
    else some { s with
      writer := { w with pc := .loop }
      txState := true
      fetched := false
      accepted := s.accepted ++ w.c.toList }
  | .returned => none

/-- A step of the call, the fetch of a byte, or the end of its transfer. -/
inductive FlightEvent
  | write
  | fetch
  | complete
deriving DecidableEq, Repr

def flightStep (s : FlightState) : FlightEvent → Option FlightState
  | .write => flightWrite s
  | .fetch =>
    if s.txState = true ∧ s.fetched = false then
      some { s with fetched := true, read := s.read ++ [s.pointed] }
    else none
  | .complete =>
    if s.txState = true ∧ s.fetched = true then some { s with txState := false } else none

/-- `_write` is called with the bytes `input`, and no transfer is under way. -/
def FlightState.init (input : List UInt8) : FlightState :=
  { writer := ⟨input, none, .loop⟩, txBuffer := .userTxBufferFs, txState := false
    fetched := false, accepted := [], read := [] }

/-- What a fetch that is still to come would read. -/
def FlightState.inFlight (s : FlightState) : List (Option UInt8) :=
  if s.txState = true ∧ s.fetched = false then [s.pointed] else []

/-- The USB side reads the bytes of the call.

* `inOrder`: the bytes are accepted in their order;
* `held`: what has been read, and what the next fetch would read, is what has been
  accepted;
* `complete`: at the end it is the whole of the bytes. -/
structure BytesRead (input : List UInt8) (s : FlightState) : Prop where
  inOrder : s.accepted <+: input
  held : s.read ++ s.inFlight = s.accepted.map some
  complete : s.writer.pc = .returned → s.txState = false → s.read = input.map some

/-- The same, and `c` keeps the byte until its transfer is complete. -/
structure BytesKept (input : List UInt8) (s : FlightState) : Prop where
  bytesRead : BytesRead input s
  kept : s.txState = true → s.pointed = s.accepted.getLast?

/-- The top of the loop changes the cell of `c` only when `free` says it may. -/
def StoresWhen (free : FlightState → Bool) (s : FlightState) : FlightEvent → Prop
  | .write => s.writer.pc = .loop → free s = false → s.writer.rest.head? = s.writer.c
  | _ => True

instance {free : FlightState → Bool} {s : FlightState} :
    (ev : FlightEvent) → Decidable (StoresWhen free s ev)
  | .write => by unfold StoresWhen; infer_instance
  | .fetch | .complete => .isTrue trivial

/-- The byte of the last transfer has been fetched. -/
def afterFetch (s : FlightState) : Bool := !s.txState || s.fetched

/-- The last transfer is complete. -/
def afterCompletion (s : FlightState) : Bool := !s.txState

/-- The invariant. -/
structure Flight (input : List UInt8) (s : FlightState) : Prop where
  split : input = s.accepted ++ s.writer.pending
  inCall : s.writer.InCall
  held : s.read ++ s.inFlight = s.accepted.map some
  idle : s.writer.pc = .setTxBuffer ∨ s.writer.pc = .transmitPacket → s.txState = false
  registered : s.writer.pc = .transmitPacket ∨ s.txState = true → s.txBuffer = .c

namespace UsbInFlightLemmas

open UsbTransmitLemmas

variable {input : List UInt8} {s s' : FlightState} {w : Writer} {ev : FlightEvent}

/-! ## The byte in flight -/

theorem inFlight_of_unfetched (h : s.txState = true) (hf : s.fetched = false) :
    s.inFlight = [s.pointed] := if_pos ⟨h, hf⟩

theorem inFlight_of_idle (h : s.txState = false) : s.inFlight = [] :=
  if_neg fun h' => absurd (h.symm.trans h'.1) (by decide)

theorem inFlight_of_fetched (h : s.fetched = true) : s.inFlight = [] :=
  if_neg fun h' => absurd (h.symm.trans h'.2) (by decide)

theorem pointed_of_c (h : s.txBuffer = .c) : s.pointed = s.writer.c := by
  unfold FlightState.pointed
  rw [h]

theorem afterFetch_eq_false : afterFetch s = false ↔ s.txState = true ∧ s.fetched = false := by
  unfold afterFetch
  rw [Bool.or_eq_false_iff, Bool.not_eq_false']

/-- The cell matters only while there is a fetch to come. -/
theorem inFlight_setWriter (h : s.txBuffer = .c ∨ s.txState = false)
    (hc : afterFetch s = false → w.c = s.writer.c) :
    ({ s with writer := w } : FlightState).inFlight = s.inFlight := by
  cases ha : afterFetch s with
  | true =>
    have hn : ¬ (s.txState = true ∧ s.fetched = false) := fun h' =>
      absurd (ha.symm.trans (afterFetch_eq_false.mpr h')) (by decide)
    exact (if_neg hn).trans (if_neg hn).symm
  | false =>
    obtain ⟨htx, hf⟩ := afterFetch_eq_false.mp ha
    have hb : s.txBuffer = .c := h.resolve_right fun h0 => absurd (h0.symm.trans htx) (by decide)
    rw [inFlight_of_unfetched htx hf, inFlight_of_unfetched (s := { s with writer := w }) htx hf,
      pointed_of_c hb, pointed_of_c (s := { s with writer := w }) hb, hc ha]

/-! ## The steps of the call -/

/-- At the top of the loop the next byte goes to the cell, or the cell is given up. -/
theorem flightWrite_loop (hpc : s.writer.pc = .loop) (hs : flightWrite s = some s') :
    ∃ w, s' = { s with writer := w } ∧ w.c = s.writer.rest.head? ∧
      w.pending = s.writer.pending ∧ w.InCall ∧ w.pc ≠ .setTxBuffer ∧ w.pc ≠ .transmitPacket := by
  cases hr : s.writer.rest with
  | nil =>
    simp only [flightWrite, hpc, hr, Option.some.injEq] at hs
    refine ⟨_, hs.symm, rfl, ?_, fun _ h0 => absurd rfl h0, by simp, by simp⟩
    simp [Writer.pending, hpc, hr]
  | cons b rest =>
    simp only [flightWrite, hpc, hr, Option.some.injEq] at hs
    refine ⟨_, hs.symm, rfl, ?_, fun _ _ => rfl, by simp, by simp⟩
    simp [Writer.pending, hpc, hr]

/-- A step that leaves the transfer alone. -/
theorem flight_setWriter (h : Flight input s) (hp : w.pending = s.writer.pending)
    (hin : w.InCall) (hc : afterFetch s = false → w.c = s.writer.c)
    (hidle : w.pc = .setTxBuffer ∨ w.pc = .transmitPacket → s.txState = false)
    (hreg : w.pc ≠ .transmitPacket) : Flight input { s with writer := w } where
  split := by
    rw [h.split]
    exact congrArg (s.accepted ++ ·) hp.symm
  inCall := hin
  held := by
    have hb : s.txBuffer = .c ∨ s.txState = false := by
      cases htx : s.txState with
      | true => exact .inl (h.registered (.inr htx))
      | false => exact .inr rfl
    rw [inFlight_setWriter hb hc]
    exact h.held
  idle := hidle
  registered h0 := h.registered (h0.imp_left fun h0 => absurd h0 hreg)

theorem flight_register (h : Flight input s) (hpc : s.writer.pc = .setTxBuffer) :
    Flight input { s with
      writer := { s.writer with pc := .transmitPacket }, txBuffer := .c } where
  split := by
    rw [h.split]
    simp [Writer.pending, hpc]
  inCall := inCall_of_pc h.inCall (.inr (.inl hpc))
  held := by
    have hidle := h.idle (.inl hpc)
    rw [inFlight_of_idle (s := { s with
      writer := { s.writer with pc := .transmitPacket }, txBuffer := .c }) hidle,
      ← inFlight_of_idle hidle]
    exact h.held
  idle _ := h.idle (.inl hpc)
  registered _ := rfl

/-- The byte in the cell is accepted, and is now the one in flight. -/
theorem flight_accept (h : Flight input s) (hpc : s.writer.pc = .transmitPacket) :
    Flight input { s with
      writer := { s.writer with pc := .loop }
      txState := true
      fetched := false
      accepted := s.accepted ++ s.writer.c.toList } := by
  obtain ⟨b, hb⟩ :=
    Option.isSome_iff_exists.mp (isSome_of_inCall h.inCall (.inr (.inr hpc)))
  have hreg := h.registered (.inl hpc)
  have hheld := h.held
  rw [inFlight_of_idle (h.idle (.inr hpc)), List.append_nil] at hheld
  refine ⟨?_, fun h0 => absurd rfl h0, ?_, fun h0 => ?_, fun _ => hreg⟩
  · rw [h.split]
    simp [Writer.pending, hpc]
  · rw [inFlight_of_unfetched rfl rfl, pointed_of_c (by exact hreg), hheld, hb]
    simp
  · rcases h0 with h0 | h0 <;> cases h0

theorem flight_write (h : Flight input s) (hc : StoresWhen afterFetch s .write)
    (hs : flightWrite s = some s') : Flight input s' := by
  cases hpc : s.writer.pc with
  | loop =>
    obtain ⟨w, rfl, hwc, hp, hin, hset, htr⟩ := flightWrite_loop hpc hs
    refine flight_setWriter h hp hin (fun ha => hwc.trans (hc hpc ha)) (fun h0 => ?_) htr
    exact (h0.elim hset htr).elim
  | testTxState =>
    simp only [flightWrite, hpc, Option.some.injEq] at hs
    subst hs
    refine flight_setWriter h ?_ ?_ (fun _ => rfl) (fun h0 => ?_) ?_
    · cases s.txState <;> simp [Writer.pending, hpc]
    · exact inCall_of_pc h.inCall (.inl hpc)
    · cases htx : s.txState with
      | true => rw [htx] at h0; rcases h0 with h0 | h0 <;> cases h0
      | false => rfl
    · cases s.txState <;> simp
  | setTxBuffer =>
    simp only [flightWrite, hpc, Option.some.injEq] at hs
    subst hs
    exact flight_register h hpc
  | transmitPacket =>
    have hidle := h.idle (.inr hpc)
    simp only [flightWrite, hpc, hidle, Bool.false_eq_true, if_false, Option.some.injEq] at hs
    subst hs
    exact flight_accept h hpc
  | returned =>
    simp only [flightWrite, hpc] at hs
    cases hs

/-! ## The steps of the USB side -/

theorem fetch_some (hs : flightStep s .fetch = some s') : s.txState = true ∧ s.fetched = false ∧
    s' = { s with fetched := true, read := s.read ++ [s.pointed] } := by
  simp only [flightStep] at hs
  split at hs
  · next hg => exact ⟨hg.1, hg.2, (Option.some.inj hs).symm⟩
  · cases hs

theorem complete_some (hs : flightStep s .complete = some s') :
    s.txState = true ∧ s.fetched = true ∧ s' = { s with txState := false } := by
  simp only [flightStep] at hs
  split at hs
  · next hg => exact ⟨hg.1, hg.2, (Option.some.inj hs).symm⟩
  · cases hs

theorem flight_fetch (h : Flight input s) (htx : s.txState = true) (hf : s.fetched = false) :
    Flight input { s with fetched := true, read := s.read ++ [s.pointed] } where
  split := h.split
  inCall := h.inCall
  held := by
    rw [inFlight_of_fetched rfl, List.append_nil, ← inFlight_of_unfetched htx hf]
    exact h.held
  idle := h.idle
  registered := h.registered

theorem flight_complete (h : Flight input s) (hf : s.fetched = true) :
    Flight input { s with txState := false } where
  split := h.split
  inCall := h.inCall
  held := by
    rw [inFlight_of_idle rfl, ← inFlight_of_fetched hf]
    exact h.held
  idle _ := rfl
  registered h0 := h0.elim (fun h0 => h.registered (.inl h0)) fun h0 => by cases h0

theorem flight_step (h : Flight input s) (hc : StoresWhen afterFetch s ev)
    (hs : flightStep s ev = some s') : Flight input s' := by
  cases ev with
  | write => exact flight_write h hc hs
  | fetch =>
    obtain ⟨htx, hf, rfl⟩ := fetch_some hs
    exact flight_fetch h htx hf
  | complete =>
    obtain ⟨_, hf, rfl⟩ := complete_some hs
    exact flight_complete h hf

theorem flight_init : Flight input (.init input) where
  split := rfl
  inCall h0 := absurd rfl h0
  held := rfl
  idle _ := rfl
  registered h0 := by rcases h0 with h0 | h0 <;> cases h0

theorem bytesRead_of_flight (h : Flight input s) : BytesRead input s where
  inOrder := ⟨_, h.split.symm⟩
  held := h.held
  complete hpc htx := by
    have hp : s.writer.pending = [] := by
      unfold Writer.pending
      rw [hpc]
    have hheld := h.held
    rw [inFlight_of_idle htx, List.append_nil] at hheld
    rw [hheld, h.split, hp, List.append_nil]

/-- A store over the byte in flight shows at once. -/
theorem stores_of_bytesRead (h : Flight input s) (hs : flightStep s ev = some s')
    (hP : BytesRead input s') : StoresWhen afterFetch s ev := by
  cases ev with
  | write =>
    intro hpc ha
    obtain ⟨htx, hf⟩ := afterFetch_eq_false.mp ha
    obtain ⟨w, rfl, hwc, _⟩ := flightWrite_loop hpc hs
    have hb := h.registered (.inr htx)
    have hold := h.held
    have hnew := hP.held
    rw [inFlight_of_unfetched htx hf, pointed_of_c hb] at hold
    rw [inFlight_of_unfetched (s := { s with writer := w }) htx hf,
      pointed_of_c (s := { s with writer := w }) hb, hwc] at hnew
    exact List.singleton_inj.mp (List.append_cancel_left (hnew.trans hold.symm))
  | _ => trivial

/-! ## Until the completion -/

theorem storesWhen_mono {free free' : FlightState → Bool} (hf : free s = true → free' s = true)
    (hc : StoresWhen free s ev) : StoresWhen free' s ev := by
  cases ev with
  | write =>
    intro hpc hn
    refine hc hpc (Bool.eq_false_iff.mpr fun h0 => ?_)
    exact absurd ((hf h0).symm.trans hn) (by decide)
  | _ => trivial

theorem afterFetch_of_afterCompletion (h : afterCompletion s = true) : afterFetch s = true := by
  unfold afterFetch
  rw [show (!s.txState) = true from h]
  rfl

/-- Without a store over it the cell goes on holding the last byte accepted. -/
theorem kept_step (h : Flight input s) (hk : s.txState = true → s.pointed = s.accepted.getLast?)
    (hc : StoresWhen afterCompletion s ev) (hs : flightStep s ev = some s') :
    s'.txState = true → s'.pointed = s'.accepted.getLast? := by
  have hcell : ∀ w : Writer, (s.txState = true → w.c = s.writer.c) → s.txState = true →
      ({ s with writer := w } : FlightState).pointed = s.accepted.getLast? := by
    intro w hw htx
    have hb := h.registered (.inr htx)
    rw [pointed_of_c (s := { s with writer := w }) hb, hw htx, ← pointed_of_c hb]
    exact hk htx
  cases ev with
  | write =>
    have hs' : flightWrite s = some s' := hs
    cases hpc : s.writer.pc with
    | loop =>
      obtain ⟨w, rfl, hwc, _⟩ := flightWrite_loop hpc hs'
      refine hcell w fun htx => hwc.trans (hc hpc ?_)
      unfold afterCompletion
      rw [htx]
      rfl
    | testTxState =>
      simp only [flightWrite, hpc, Option.some.injEq] at hs'
      subst hs'
      exact hcell _ fun _ => rfl
    | setTxBuffer =>
      simp only [flightWrite, hpc, Option.some.injEq] at hs'
      subst hs'
      exact fun htx => absurd ((h.idle (.inl hpc)).symm.trans htx) (by decide)
    | transmitPacket =>
      have hidle := h.idle (.inr hpc)
      simp only [flightWrite, hpc, hidle, Bool.false_eq_true, if_false, Option.some.injEq] at hs'
      subst hs'
      obtain ⟨b, hb⟩ :=
        Option.isSome_iff_exists.mp (isSome_of_inCall h.inCall (.inr (.inr hpc)))
      intro _
      rw [pointed_of_c (by exact h.registered (.inl hpc)), hb]
      simp
    | returned =>
      simp only [flightWrite, hpc] at hs'
      cases hs'
  | fetch =>
    obtain ⟨_, _, rfl⟩ := fetch_some hs
    exact hk
  | complete =>
    obtain ⟨_, _, rfl⟩ := complete_some hs
    exact fun h0 => by cases h0

theorem stores_of_kept (h : Flight input s)
    (hk : s.txState = true → s.pointed = s.accepted.getLast?)
    (hs : flightStep s ev = some s') (hP : BytesKept input s') :
    StoresWhen afterCompletion s ev := by
  cases ev with
  | write =>
    intro hpc ha
    have htx : s.txState = true := by simpa [afterCompletion] using ha
    obtain ⟨w, rfl, hwc, _⟩ := flightWrite_loop hpc hs
    have hb := h.registered (.inr htx)
    have hnew := hP.kept htx
    rw [pointed_of_c (s := { s with writer := w }) hb, hwc] at hnew
    exact hnew.trans ((hk htx).symm.trans (pointed_of_c hb))
  | _ => trivial

end UsbInFlightLemmas

open UsbInFlightLemmas

/-- For every call of `_write` and every schedule of the USB side: the bytes read are
the bytes of the call exactly when the cell of `c` changes only after the fetch of
the byte accepted last, and the cell keeps that byte until the transfer is complete
exactly when it changes only after the completion. -/
theorem bytes_in_flight_iff (input : List UInt8) (events : List FlightEvent) :
    (Always (Steps flightStep) (BytesRead input) (.init input) events ↔
      Meets (Steps flightStep) (StoresWhen afterFetch) (.init input) events) ∧
    (Always (Steps flightStep) (BytesKept input) (.init input) events ↔
      Meets (Steps flightStep) (StoresWhen afterCompletion) (.init input) events) := by
  constructor
  · refine always_iff_meets (I := Flight input) ?_ (fun _ h => bytesRead_of_flight h) ?_
      flight_init events
    · intro s ev s' h hc hs
      exact flight_step h hc hs
    · intro s ev s' h hs hP
      exact stores_of_bytesRead h hs hP
  · refine always_iff_meets (I := fun s => Flight input s ∧
      (s.txState = true → s.pointed = s.accepted.getLast?)) ?_
      (fun _ h => ⟨bytesRead_of_flight h.1, h.2⟩) ?_ ⟨flight_init, fun h0 => by cases h0⟩ events
    · intro s ev s' h hc hs
      exact ⟨flight_step h.1 (storesWhen_mono afterFetch_of_afterCompletion hc) hs,
        kept_step h.1 h.2 hc hs⟩
    · intro s ev s' h hs hP
      exact stores_of_kept h.1 h.2 hs hP

/-- The bytes 1 and 2, and the first is fetched after the second has been stored: the
USB side reads 2 and 2. -/
theorem stored_before_fetch :
    ¬ Always (Steps flightStep) (BytesRead [1, 2]) (.init [1, 2])
      [.write, .write, .write, .write, .write, .fetch, .complete, .write, .write, .write,
        .fetch, .complete, .write] := by
  refine not_always_of_exec rfl fun h => ?_
  exact absurd (h.complete rfl rfl) (by decide)

/-! ## The bytes accepted and the bytes sent -/

/-- The other model of the call, in which a byte counts as sent once it is accepted
and the other task prints nothing. -/
structure MatchesPrint (s : FlightState) (t : PrintState) : Prop where
  writer : t.writers .shell = s.writer
  txBuffer : t.txBuffer = if s.txBuffer = .c then some .shell else none
  txState : t.txState = s.txState
  sent : t.sent = s.accepted.map some
  inCall : s.writer.InCall
  registered : s.writer.pc = .transmitPacket → s.txBuffer = .c

namespace UsbInFlightLemmas

open UsbTransmitLemmas

variable {input : List UInt8} {s s' : FlightState} {t : PrintState} {w : Writer}

/-- A step of the call that starts no transfer. -/
theorem matches_setWriter (h : MatchesPrint s t) (hin : w.InCall) (hreg : w.pc ≠ .transmitPacket) :
    MatchesPrint { s with writer := w } (t.setWriter .shell w) where
  writer := setWriter_self
  txBuffer := h.txBuffer
  txState := h.txState
  sent := h.sent
  inCall := hin
  registered h0 := absurd h0 hreg

theorem matches_write (h : MatchesPrint s t) (hs : flightWrite s = some s') :
    ∃ t', printStep t (.write .shell) = some t' ∧ MatchesPrint s' t' := by
  have hw := h.writer
  have htx := h.txState
  cases hpc : s.writer.pc with
  | loop =>
    cases hr : s.writer.rest with
    | nil =>
      simp only [flightWrite, hpc, hr, Option.some.injEq] at hs
      subst hs
      refine ⟨_, by simp only [printStep, writeStep, hw, hpc, hr],
        matches_setWriter h ?_ (by simp)⟩
      exact fun _ h0 => absurd rfl h0
    | cons b rest =>
      simp only [flightWrite, hpc, hr, Option.some.injEq] at hs
      subst hs
      refine ⟨_, by simp only [printStep, writeStep, hw, hpc, hr],
        matches_setWriter h ?_ (by simp)⟩
      exact fun _ _ => rfl
  | testTxState =>
    simp only [flightWrite, hpc, Option.some.injEq] at hs
    subst hs
    refine ⟨_, by simp only [printStep, writeStep, hw, hpc, htx], matches_setWriter h ?_ ?_⟩
    · exact inCall_of_pc h.inCall (.inl hpc)
    · cases s.txState <;> simp
  | setTxBuffer =>
    simp only [flightWrite, hpc, Option.some.injEq] at hs
    subst hs
    refine ⟨{ t.setWriter .shell { s.writer with pc := .transmitPacket } with
        txBuffer := some .shell }, by simp only [printStep, writeStep, hw, hpc],
      rfl, rfl, htx, h.sent, inCall_of_pc h.inCall (.inr (.inl hpc)), fun _ => rfl⟩
  | transmitPacket =>
    cases ht : s.txState with
    | true =>
      simp only [flightWrite, hpc, ht, if_true, Option.some.injEq] at hs
      subst hs
      rw [ht] at htx
      have hm := matches_setWriter (w := { s.writer with pc := .testTxState }) h
        (inCall_of_pc h.inCall (.inr (.inr hpc))) (by simp)
      refine ⟨t.setWriter .shell { s.writer with pc := .testTxState },
        by simp only [printStep, writeStep, hw, hpc, htx, if_true], ?_⟩
      simpa only [ht] using hm
    | false =>
      simp only [flightWrite, hpc, ht, Bool.false_eq_true, if_false, Option.some.injEq] at hs
      subst hs
      rw [ht] at htx
      have hb := h.txBuffer
      rw [if_pos (h.registered hpc)] at hb
      obtain ⟨b, hc⟩ :=
        Option.isSome_iff_exists.mp (isSome_of_inCall h.inCall (.inr (.inr hpc)))
      have hreg : t.registered = some b := by
        unfold PrintState.registered
        rw [hb, Option.bind_some, hw, hc]
      refine ⟨{ t.setWriter .shell { s.writer with pc := .loop } with
          txState := true
          sent := t.sent ++ [t.registered] },
        by simp only [printStep, writeStep, hw, hpc, htx, Bool.false_eq_true, if_false],
        rfl, h.txBuffer, rfl, ?_, fun h0 => absurd rfl h0, fun h0 => by cases h0⟩
      rw [hreg, h.sent, hc]
      simp
  | returned =>
    simp only [flightWrite, hpc] at hs
    cases hs

end UsbInFlightLemmas

/-- The call of the shell task, with a timer task that prints nothing. -/
def shellOnly (input : List UInt8) : PrintTask → List UInt8
  | .shell => input
  | .timer => []

/-- A run here is a run of the other model, whose bytes sent are those accepted. -/
theorem flight_run_is_print_run {input : List UInt8} {events : List FlightEvent}
    {s : FlightState} (h : Run (Steps flightStep) (.init input) events s) :
    ∃ evs t, Run (Steps printStep) (.init (shellOnly input)) evs t ∧ MatchesPrint s t := by
  refine Run.simulate (R := MatchesPrint) ?_ h
    ⟨rfl, rfl, rfl, rfl, fun h0 => absurd rfl h0, fun h0 => by cases h0⟩
  intro s ev s' t hm hs
  cases ev with
  | write =>
    obtain ⟨t', ht, hm'⟩ := matches_write hm hs
    exact ⟨[.write .shell], t', Run.single ht, hm'⟩
  | fetch =>
    obtain ⟨_, _, rfl⟩ := fetch_some hs
    exact ⟨[], t, Run.nil, hm.writer, hm.txBuffer, hm.txState, hm.sent, hm.inCall, hm.registered⟩
  | complete =>
    obtain ⟨htx, _, rfl⟩ := complete_some hs
    refine ⟨[.complete], { t with txState := false }, Run.single ?_, hm.writer, hm.txBuffer, rfl,
      hm.sent, hm.inCall, hm.registered⟩
    exact if_pos (hm.txState.trans htx)

end BlackPill
