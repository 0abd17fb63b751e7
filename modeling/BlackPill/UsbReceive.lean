import BlackPill.Runs
import BlackPill.CyclicBuffer

/-!
# The USB receive ring

`usbd_cdc_if.c` keeps received bytes in a ring of 512 cells. `CDC_Receive_FS`
fills it in the USB interrupt; `_read` empties it in the shell task, with no
lock between the two. The reader is modelled access by access: each read or
write of `USB_RxHead`, `USB_RxTail` and `USB_RxBuffer` is one step, and the
interrupt may run, to completion, between any two of them.

Results:
1. `cdcReceiveFs_spec`: what one interrupt does to the ring.
2. `usb_refines_fifo`: the ring with its reader refines a first-in first-out
   queue of 511 bytes.
3. `usb_ring_fifo`: indices in range, accepted prefixes, and the `k`-th read
   returns the `k`-th accepted byte, in every state of every run.
4. `usb_read_returns`: once the ring holds a byte, `_read` returns after 13 more
   accesses at most.
-/

namespace BlackPill

open CyclicBuffer Runs

/-! ## Definitions -/

/-- `USB_RX_BUFFER_SIZE`. -/
def usbRxBufferSize : UInt32 := 512

/-- `USB_RxBuffer`, `USB_RxHead` and `USB_RxTail`. -/
structure UsbRx where
  usbRxBuffer : Nat → UInt8
  usbRxHead : UInt32
  usbRxTail : UInt32

/-- One turn of the loop of `CDC_Receive_FS`, and the bytes it stored: one, or
none when the ring is full. -/
def receiveByte (r : UsbRx) (b : UInt8) : UsbRx × List UInt8 :=
  let next := (r.usbRxHead + 1) % usbRxBufferSize
  if next ≠ r.usbRxTail then
    ({ r with usbRxBuffer := store r.usbRxBuffer r.usbRxHead.toNat b, usbRxHead := next }, [b])
  else (r, [])

/-- `CDC_Receive_FS` on a packet, and the bytes it stored. The two calls that
arm the endpoint for the next packet do not touch the ring. -/
def cdcReceiveFs (r : UsbRx) : List UInt8 → UsbRx × List UInt8
  | [] => (r, [])
  | b :: rest =>
    let first := receiveByte r b
    let others := cdcReceiveFs first.1 rest
    (others.1, first.2 ++ others.2)

/-- Where the reader is inside `CDC_GetRxBufferBytesAvailable_FS`, with what it
has read. The comparison and the subtraction read the two indices separately. -/
inductive AvailPc
  | cmpHead
  | cmpTail (head : UInt32)
  | geHead
  | geTail (head : UInt32)
  | ltTail
  | ltHead (tail : UInt32)
deriving DecidableEq, Repr

/-- One access of `CDC_GetRxBufferBytesAvailable_FS`: the next place, or the
value it returns. -/
def cdcGetRxBufferBytesAvailableFs (r : UsbRx) : AvailPc → AvailPc ⊕ UInt32
  | .cmpHead => .inl (.cmpTail r.usbRxHead)
  | .cmpTail head => if head ≥ r.usbRxTail then .inl .geHead else .inl .ltTail
  | .geHead => .inl (.geTail r.usbRxHead)
  | .geTail head => .inr (head - r.usbRxTail)
  | .ltTail => .inl (.ltHead r.usbRxTail)
  | .ltHead tail => .inr (usbRxBufferSize - (tail - r.usbRxHead))

/-- Where the reader is inside `_read`.

* `poll`: in the condition of the waiting loop;
* `check`: in the count that `CDC_ReadRxBuffer_FS` makes for itself;
* `loadTail`, `loadByte`: in `*out = USB_RxBuffer[USB_RxTail]`;
* `bumpLoad`, `bumpStore`: in `USB_RxTail = (USB_RxTail + 1) % USB_RX_BUFFER_SIZE`,
  with the byte that `*out` already holds. -/
inductive ReadPc
  | poll (a : AvailPc)
  | check (a : AvailPc)
  | loadTail
  | loadByte (tail : UInt32)
  | bumpLoad (c : UInt8)
  | bumpStore (c : UInt8) (tail : UInt32)
deriving DecidableEq, Repr

/-- The end of one `_read` call: its return value and the byte stored through
`ptr`, if any. -/
structure ReadResult where
  ret : Int
  stored : Option UInt8
deriving DecidableEq, Repr

/-- The ring, the reader, and what has happened so far: the bytes stored by the
interrupt and the ends of the `_read` calls. -/
structure UsbState where
  ring : UsbRx
  pc : ReadPc
  accepted : List UInt8
  completed : List ReadResult

/-- `_read` returns and the reader calls it again. -/
def UsbState.complete (s : UsbState) (r : ReadResult) : UsbState :=
  { s with pc := .poll .cmpHead, completed := s.completed ++ [r] }

/-- One access of the reader. -/
def readStep (s : UsbState) : UsbState :=
  match s.pc with
  | .poll a =>
    match cdcGetRxBufferBytesAvailableFs s.ring a with
    | .inl a' => { s with pc := .poll a' }
    | .inr available =>
      if available = 0 then { s with pc := .poll .cmpHead } else { s with pc := .check .cmpHead }
  | .check a =>
    match cdcGetRxBufferBytesAvailableFs s.ring a with
    | .inl a' => { s with pc := .check a' }
    | .inr available =>
      -- `CDC_ReadRxBuffer_FS` copies nothing and `_read` returns -1
      if available = 0 then s.complete ⟨-1, none⟩ else { s with pc := .loadTail }
  | .loadTail => { s with pc := .loadByte s.ring.usbRxTail }
  | .loadByte tail => { s with pc := .bumpLoad (s.ring.usbRxBuffer tail.toNat) }
  | .bumpLoad c => { s with pc := .bumpStore c s.ring.usbRxTail }
  | .bumpStore c tail =>
    { s with ring := { s.ring with usbRxTail := (tail + 1) % usbRxBufferSize } }.complete
      ⟨1, some c⟩

/-- The interrupt on a packet. -/
def receiveStep (s : UsbState) (buf : List UInt8) : UsbState :=
  let received := cdcReceiveFs s.ring buf
  { s with ring := received.1, accepted := s.accepted ++ received.2 }

/-- What may happen next: an access of the reader, or a whole interrupt. -/
inductive UsbEvent
  | reader
  | receive (buf : List UInt8)

def usbStep (s : UsbState) : UsbEvent → Option UsbState
  | .reader => some (readStep s)
  | .receive buf => some (receiveStep s buf)

/-- Both indices zero, an empty ring, and the reader about to call `_read`. -/
def UsbState.init : UsbState :=
  { ring := ⟨fun _ => 0, 0, 0⟩, pc := .poll .cmpHead, accepted := [], completed := [] }

/-! ## The ring as a queue -/

namespace UsbRx

/-- Both indices are in range. -/
structure Wf (r : UsbRx) : Prop where
  head_lt : r.usbRxHead < usbRxBufferSize
  tail_lt : r.usbRxTail < usbRxBufferSize

/-- The number of bytes in the ring. -/
def occupancy (r : UsbRx) : Nat :=
  CyclicBuffer.occupancy usbRxBufferSize.toNat r.usbRxHead.toNat r.usbRxTail.toNat

/-- The bytes in the ring, oldest first. -/
def contents (r : UsbRx) : List UInt8 :=
  window usbRxBufferSize.toNat r.usbRxBuffer r.usbRxTail.toNat r.occupancy

end UsbRx

namespace UsbReceiveLemmas

theorem size_toNat : usbRxBufferSize.toNat = 512 := rfl

theorem toNat_next (i : UInt32) :
    ((i + 1) % usbRxBufferSize).toNat = (i.toNat + 1) % usbRxBufferSize.toNat := by
  rw [UInt32.toNat_mod, UInt32.toNat_add, size_toNat, UInt32.toNat_one]
  -- 512 divides 2^32, so a sum that wraps has the same remainder
  omega

theorem head_lt_nat {r : UsbRx} (hw : r.Wf) : r.usbRxHead.toNat < usbRxBufferSize.toNat :=
  UInt32.lt_iff_toNat_lt.mp hw.head_lt

theorem tail_lt_nat {r : UsbRx} (hw : r.Wf) : r.usbRxTail.toNat < usbRxBufferSize.toNat :=
  UInt32.lt_iff_toNat_lt.mp hw.tail_lt

theorem next_lt (i : UInt32) : (i + 1) % usbRxBufferSize < usbRxBufferSize := by
  rw [UInt32.lt_iff_toNat_lt, toNat_next]
  exact Nat.mod_lt _ (by decide)

theorem occupancy_lt_size (r : UsbRx) : r.occupancy < usbRxBufferSize.toNat :=
  occupancy_lt (by decide)

@[simp] theorem contents_length (r : UsbRx) : r.contents.length = r.occupancy := window_length

theorem contents_ne_nil_iff {r : UsbRx} (hw : r.Wf) :
    r.contents ≠ [] ↔ r.usbRxHead ≠ r.usbRxTail := by
  rw [ne_eq, ← List.length_eq_zero_iff, contents_length, UsbRx.occupancy,
    occupancy_eq_zero_iff (head_lt_nat hw) (tail_lt_nat hw), UInt32.toNat_inj]

/-- The oldest byte is the one under `USB_RxTail`. -/
theorem contents_head {r : UsbRx} (hw : r.Wf) {c : UInt8} {rest : List UInt8}
    (h : r.contents = c :: rest) : r.usbRxBuffer r.usbRxTail.toNat = c := by
  have hlen : r.occupancy = rest.length + 1 := by
    rw [← contents_length, h, List.length_cons]
  rw [UsbRx.contents, hlen, window_eq_cons (tail_lt_nat hw)] at h
  exact (List.cons.inj h).1

/-- Moving `USB_RxTail` on removes the oldest byte. -/
theorem contents_bump {r : UsbRx} (hw : r.Wf) {c : UInt8} {rest : List UInt8}
    (h : r.contents = c :: rest) :
    ({ r with usbRxTail := (r.usbRxTail + 1) % usbRxBufferSize } : UsbRx).contents = rest := by
  have hlen : r.occupancy = rest.length + 1 := by
    rw [← contents_length, h, List.length_cons]
  have hocc : ({ r with usbRxTail := (r.usbRxTail + 1) % usbRxBufferSize } : UsbRx).occupancy =
      rest.length := by
    have hle : 1 ≤ CyclicBuffer.occupancy usbRxBufferSize.toNat r.usbRxHead.toNat
        r.usbRxTail.toNat := by
      change 1 ≤ r.occupancy
      omega
    have hadv := occupancy_advance_tail (head_lt_nat hw) (tail_lt_nat hw) hle
    rw [← toNat_next] at hadv
    change CyclicBuffer.occupancy _ _ _ = _ at hlen
    rw [UsbRx.occupancy, hadv, hlen, Nat.add_sub_cancel]
  rw [UsbRx.contents, hlen, window_eq_cons (tail_lt_nat hw)] at h
  rw [UsbRx.contents, hocc]
  simp only [toNat_next]
  exact (List.cons.inj h).2

/-! ### The interrupt -/

theorem receiveByte_room {r : UsbRx} (hw : r.Wf) (b : UInt8) (hroom : r.occupancy < 511) :
    (receiveByte r b).2 = [b] ∧ (receiveByte r b).1.Wf ∧
    (receiveByte r b).1.usbRxTail = r.usbRxTail ∧
    (receiveByte r b).1.contents = r.contents ++ [b] := by
  have hne : (r.usbRxHead + 1) % usbRxBufferSize ≠ r.usbRxTail := by
    intro he
    have hfull := (next_head_eq_tail_iff (head_lt_nat hw) (tail_lt_nat hw)).mp
      (by rw [← toNat_next, he])
    rw [size_toNat] at hfull
    change CyclicBuffer.occupancy 512 _ _ < 511 at hroom
    omega
  have hstep : receiveByte r b =
      (⟨store r.usbRxBuffer r.usbRxHead.toNat b, (r.usbRxHead + 1) % usbRxBufferSize,
        r.usbRxTail⟩, [b]) := if_pos hne
  rw [hstep]
  refine ⟨rfl, ⟨next_lt _, hw.tail_lt⟩, rfl, ?_⟩
  have hlt : r.occupancy < usbRxBufferSize.toNat := occupancy_lt_size r
  have hocc : CyclicBuffer.occupancy usbRxBufferSize.toNat
      ((r.usbRxHead.toNat + 1) % usbRxBufferSize.toNat) r.usbRxTail.toNat = r.occupancy + 1 :=
    occupancy_advance_head (head_lt_nat hw) (tail_lt_nat hw)
      (by change r.occupancy + 1 < 512; omega)
  have hcell : r.usbRxHead.toNat = (r.usbRxTail.toNat + r.occupancy) % usbRxBufferSize.toNat :=
    (tail_add_occupancy (head_lt_nat hw) (tail_lt_nat hw)).symm
  simp only [UsbRx.contents, UsbRx.occupancy, toNat_next]
  rw [hocc]
  change window _ (store _ _ _) _ (r.occupancy + 1) = window _ _ _ r.occupancy ++ [b]
  rw [hcell, window_push hlt]

theorem receiveByte_full {r : UsbRx} (hw : r.Wf) (b : UInt8) (hfull : r.occupancy = 511) :
    receiveByte r b = (r, []) := by
  refine if_neg (not_not_intro (UInt32.toNat_inj.mp ?_))
  rw [toNat_next, next_head_eq_tail_iff (head_lt_nat hw) (tail_lt_nat hw)]
  change r.occupancy + 1 = 512
  rw [hfull]

end UsbReceiveLemmas

open UsbReceiveLemmas

/-- One interrupt on a well-formed ring: it stores the longest prefix of the
packet that fits, behind what is already there, and leaves `USB_RxTail` alone. -/
theorem cdcReceiveFs_spec {r : UsbRx} (hw : r.Wf) (buf : List UInt8) :
    (cdcReceiveFs r buf).2 = buf.take (511 - r.occupancy) ∧ (cdcReceiveFs r buf).1.Wf ∧
    (cdcReceiveFs r buf).1.usbRxTail = r.usbRxTail ∧
    (cdcReceiveFs r buf).1.contents = r.contents ++ (cdcReceiveFs r buf).2 := by
  induction buf generalizing r with
  | nil => simp [cdcReceiveFs, hw]
  | cons b rest ih =>
    have hlt := occupancy_lt_size r
    rw [size_toNat] at hlt
    by_cases hroom : r.occupancy < 511
    · obtain ⟨hs, hw', ht, hc⟩ := receiveByte_room hw b hroom
      obtain ⟨ihs, ihw, iht, ihc⟩ := ih hw'
      have hocc : (receiveByte r b).1.occupancy = r.occupancy + 1 := by
        rw [← contents_length, hc, List.length_append, contents_length, List.length_singleton]
      refine ⟨?_, ihw, iht.trans ht, ?_⟩
      · simp only [cdcReceiveFs]
        rw [hs, ihs, hocc, show 511 - r.occupancy = (511 - (r.occupancy + 1)) + 1 by omega,
          List.take_succ_cons]
        rfl
      · simp only [cdcReceiveFs]
        rw [ihc, hc, hs, List.append_assoc]
    · -- a full ring stays full for the rest of the packet
      have hfull : r.occupancy = 511 := by omega
      obtain ⟨ihs, ihw, iht, ihc⟩ := ih hw
      simp only [cdcReceiveFs, receiveByte_full hw b hfull, List.nil_append]
      refine ⟨?_, ihw, iht, ihc⟩
      rw [ihs, hfull]
      rfl

/-! ## The reader as the queue's taker -/

/-- What a place inside `CDC_GetRxBufferBytesAvailable_FS` says about the ring
while `_read` polls: once the reader has seen two different indices, or took
the second branch, the ring is not empty and stays so. -/
def PollOk (r : UsbRx) : AvailPc → Prop
  | .cmpHead => True
  | .cmpTail head => head ≠ r.usbRxTail → r.contents ≠ []
  | .geHead => True
  | .geTail head => head ≠ r.usbRxTail → r.contents ≠ []
  | .ltTail => r.contents ≠ []
  | .ltHead _ => r.contents ≠ []

/-- The same inside `CDC_ReadRxBuffer_FS`, where the ring is known to hold
something: the count is made from indices that differ. -/
def CheckOk (r : UsbRx) : AvailPc → Prop
  | .geTail head => head ≠ r.usbRxTail
  | .ltHead tail => tail = r.usbRxTail
  | _ => True

/-- What the reader's place says about the ring. -/
def PcOk (r : UsbRx) : ReadPc → Prop
  | .poll a => PollOk r a
  | .check a => r.contents ≠ [] ∧ CheckOk r a
  | .loadTail => r.contents ≠ []
  | .loadByte tail => tail = r.usbRxTail ∧ r.contents ≠ []
  | .bumpLoad c => ∃ rest, r.contents = c :: rest
  | .bumpStore c tail => tail = r.usbRxTail ∧ ∃ rest, r.contents = c :: rest

/-- A `_read` call that returned 1 and stored `b`. -/
def ReadResult.byte (b : UInt8) : ReadResult := ⟨1, some b⟩

/-- The queue `l` is what the state `s` stands for. -/
structure Represents (s : UsbState) (l : Ledger UInt8) : Prop where
  wf : s.ring.Wf
  accepted : s.accepted = l.accepted
  completed : s.completed = l.delivered.map ReadResult.byte
  queued : l.queued = s.ring.contents
  pc : PcOk s.ring s.pc

namespace UsbReceiveLemmas

/-- What the reader knows survives an interrupt, which moves only the head and
only adds bytes. -/
theorem pcOk_extend {r r' : UsbRx} {xs : List UInt8} {pc : ReadPc}
    (ht : r'.usbRxTail = r.usbRxTail) (hc : r'.contents = r.contents ++ xs) (h : PcOk r pc) :
    PcOk r' pc := by
  have hne : r.contents ≠ [] → r'.contents ≠ [] := by
    intro hr
    rw [hc]
    exact List.append_ne_nil_of_left_ne_nil hr xs
  have hcons : ∀ c, (∃ rest, r.contents = c :: rest) → ∃ rest, r'.contents = c :: rest := by
    rintro c ⟨rest, hr⟩
    exact ⟨rest ++ xs, by rw [hc, hr, List.cons_append]⟩
  cases pc with
  | poll a =>
    cases a with
    | cmpHead => trivial
    | cmpTail head => exact fun hh => hne (h (ht ▸ hh))
    | geHead => trivial
    | geTail head => exact fun hh => hne (h (ht ▸ hh))
    | ltTail => exact hne h
    | ltHead tail => exact hne h
  | check a =>
    refine ⟨hne h.1, ?_⟩
    have hk := h.2
    cases a with
    | geTail head => exact fun hh => hk (hh.trans ht)
    | ltHead tail => exact Eq.trans hk ht.symm
    | _ => trivial
  | loadTail => exact hne h
  | loadByte tail => exact ⟨h.1.trans ht.symm, hne h.2⟩
  | bumpLoad c => exact hcons c h
  | bumpStore c tail => exact ⟨h.1.trans ht.symm, hcons c h.2⟩

/-- The count made on the first branch is zero only for equal indices. -/
theorem first_branch_ne_zero {head tail : UInt32} (h : head ≠ tail) : head - tail ≠ 0 := by
  have hh := UInt32.toNat_lt head
  have ht := UInt32.toNat_lt tail
  intro hz
  refine h (UInt32.toNat_inj.mp ?_)
  have hz' := congrArg UInt32.toNat hz
  rw [UInt32.toNat_sub, UInt32.toNat_zero] at hz'
  omega

/-- The count made on the second branch is never zero. -/
theorem second_branch_ne_zero {r : UsbRx} (hw : r.Wf) :
    usbRxBufferSize - (r.usbRxTail - r.usbRxHead) ≠ 0 := by
  have hh := head_lt_nat hw
  have ht := tail_lt_nat hw
  rw [size_toNat] at hh ht
  intro h
  have hz := congrArg UInt32.toNat h
  rw [UInt32.toNat_sub, UInt32.toNat_sub, size_toNat, UInt32.toNat_zero] at hz
  omega

/-- One access of the count made by `CDC_ReadRxBuffer_FS` on a ring that holds
something: the value it may return is not zero. -/
theorem check_access {r : UsbRx} (hw : r.Wf) (hne : r.contents ≠ []) {a : AvailPc}
    (hk : CheckOk r a) :
    (∃ a', cdcGetRxBufferBytesAvailableFs r a = .inl a' ∧ CheckOk r a') ∨
    (∃ n, cdcGetRxBufferBytesAvailableFs r a = .inr n ∧ n ≠ 0) := by
  cases a with
  | cmpHead => exact .inl ⟨_, rfl, trivial⟩
  | cmpTail head =>
    by_cases hge : head ≥ r.usbRxTail
    · exact .inl ⟨.geHead, if_pos hge, trivial⟩
    · exact .inl ⟨.ltTail, if_neg hge, trivial⟩
  | geHead => exact .inl ⟨_, rfl, (contents_ne_nil_iff hw).mp hne⟩
  | geTail head => exact .inr ⟨_, rfl, first_branch_ne_zero hk⟩
  | ltTail => exact .inl ⟨_, rfl, rfl⟩
  | ltHead tail =>
    have htail : tail = r.usbRxTail := hk
    subst htail
    exact .inr ⟨_, rfl, second_branch_ne_zero hw⟩

/-- One access of the count made while polling: a value that is not zero is
returned only when the ring holds something. -/
theorem poll_access {r : UsbRx} (hw : r.Wf) {a : AvailPc} (hk : PollOk r a) :
    (∃ a', cdcGetRxBufferBytesAvailableFs r a = .inl a' ∧ PollOk r a') ∨
    (∃ n, cdcGetRxBufferBytesAvailableFs r a = .inr n ∧ (n ≠ 0 → r.contents ≠ [])) := by
  cases a with
  | cmpHead => exact .inl ⟨_, rfl, (contents_ne_nil_iff hw).mpr⟩
  | cmpTail head =>
    by_cases hge : head ≥ r.usbRxTail
    · exact .inl ⟨.geHead, if_pos hge, trivial⟩
    · refine .inl ⟨.ltTail, if_neg hge, hk ?_⟩
      intro he
      subst he
      exact hge (UInt32.le_refl _)
  | geHead => exact .inl ⟨_, rfl, (contents_ne_nil_iff hw).mpr⟩
  | geTail head =>
    refine .inr ⟨_, rfl, fun hn => hk ?_⟩
    intro he
    subst he
    exact hn (UInt32.sub_self _)
  | ltTail => exact .inl ⟨_, rfl, hk⟩
  | ltHead tail => exact .inr ⟨_, rfl, fun _ => hk⟩

/-- An access that changes only the reader's place is no move of the queue. -/
theorem represents_setPc {s : UsbState} {l : Ledger UInt8} (h : Represents s l) {pc : ReadPc}
    (hpc : PcOk s.ring pc) : Represents { s with pc := pc } l :=
  ⟨h.wf, h.accepted, h.completed, h.queued, hpc⟩

/-- Storing `USB_RxTail` is the move that takes the front byte. -/
theorem represents_bump {s : UsbState} {l : Ledger UInt8} (h : Represents s l) {c : UInt8}
    {rest : List UInt8} (hc : l.queued = c :: rest) :
    Represents ({ s with ring := { s.ring with
        usbRxTail := (s.ring.usbRxTail + 1) % usbRxBufferSize } }.complete ⟨1, some c⟩)
      (l.deliver c rest hc) where
  wf := ⟨h.wf.head_lt, next_lt _⟩
  accepted := h.accepted
  completed := by
    simp only [UsbState.complete, Ledger.deliver_delivered, List.map_append, h.completed]
    rfl
  queued := (contents_bump h.wf (h.queued.symm.trans hc)).symm
  pc := trivial

theorem represents_readStep {s : UsbState} {l : Ledger UInt8} (h : Represents s l) :
    ∃ ms l', Run (Ledger.FifoStep 511) l ms l' ∧ Represents (readStep s) l' := by
  have hstay : ∀ pc, PcOk s.ring pc → readStep s = { s with pc := pc } →
      ∃ ms l', Run (Ledger.FifoStep 511) l ms l' ∧ Represents (readStep s) l' := by
    intro pc hpc he
    exact ⟨[], l, Run.nil, he ▸ represents_setPc h hpc⟩
  have hpc := h.pc
  cases hs : s.pc with
  | poll a =>
    rw [hs] at hpc
    rcases poll_access h.wf hpc with ⟨a', ha, hok⟩ | ⟨n, ha, hok⟩
    · exact hstay (.poll a') hok (by simp only [readStep, hs, ha])
    · by_cases hn : n = 0
      · exact hstay (.poll .cmpHead) trivial (by simp only [readStep, hs, ha, if_pos hn])
      · exact hstay (.check .cmpHead) ⟨hok hn, trivial⟩
          (by simp only [readStep, hs, ha, if_neg hn])
  | check a =>
    rw [hs] at hpc
    rcases check_access h.wf hpc.1 hpc.2 with ⟨a', ha, hok⟩ | ⟨n, ha, hn⟩
    · exact hstay (.check a') ⟨hpc.1, hok⟩ (by simp only [readStep, hs, ha])
    · exact hstay .loadTail hpc.1 (by simp only [readStep, hs, ha, if_neg hn])
  | loadTail =>
    rw [hs] at hpc
    exact hstay (.loadByte s.ring.usbRxTail) ⟨rfl, hpc⟩ (by simp only [readStep, hs])
  | loadByte tail =>
    rw [hs] at hpc
    obtain ⟨rfl, hne⟩ := hpc
    obtain ⟨c, rest, hc⟩ := List.exists_cons_of_ne_nil hne
    refine hstay (.bumpLoad c) ⟨rest, hc⟩ ?_
    simp only [readStep, hs, contents_head h.wf hc]
  | bumpLoad c =>
    rw [hs] at hpc
    exact hstay (.bumpStore c s.ring.usbRxTail) ⟨rfl, hpc⟩ (by simp only [readStep, hs])
  | bumpStore c tail =>
    rw [hs] at hpc
    obtain ⟨rfl, rest, hc⟩ := hpc
    have hq : l.queued = c :: rest := h.queued.trans hc
    refine ⟨[.take], _, Run.single (.take l c rest hq), ?_⟩
    have he : readStep s = ({ s with ring := { s.ring with
        usbRxTail := (s.ring.usbRxTail + 1) % usbRxBufferSize } }.complete ⟨1, some c⟩) := by
      simp only [readStep, hs]
    exact he ▸ represents_bump h hq

theorem represents_receiveStep {s : UsbState} {l : Ledger UInt8} (h : Represents s l)
    (buf : List UInt8) :
    ∃ ms l', Run (Ledger.FifoStep 511) l ms l' ∧ Represents (receiveStep s buf) l' := by
  obtain ⟨hs, hw, ht, hc⟩ := cdcReceiveFs_spec h.wf buf
  refine ⟨[.offer buf], _, Run.single (.offer l buf), ?_⟩
  rw [h.queued, contents_length, ← hs]
  exact {
    wf := hw
    accepted := by rw [Ledger.accept_accepted, ← h.accepted]; rfl
    completed := h.completed
    queued := by rw [Ledger.accept_queued, h.queued]; exact hc.symm
    pc := pcOk_extend ht hc h.pc }

theorem represents_init : Represents UsbState.init Ledger.empty :=
  ⟨⟨by decide, by decide⟩, rfl, rfl, rfl, trivial⟩

end UsbReceiveLemmas

/-- The ring with its reader, under every placement of interrupts, refines the
first-in first-out queue of 511 bytes. -/
theorem usb_refines_fifo {events : List UsbEvent} {s : UsbState}
    (h : Run (Steps usbStep) UsbState.init events s) :
    ∃ ms l, Run (Ledger.FifoStep 511) Ledger.empty ms l ∧ Represents s l := by
  refine Run.simulate (fun s ev s' l hr hs => ?_) h represents_init
  cases ev with
  | reader =>
    obtain rfl := Option.some.inj hs
    exact represents_readStep hr
  | receive buf =>
    obtain rfl := Option.some.inj hs
    exact represents_receiveStep hr buf

/-- What holds of the ring and its reader at any moment. -/
structure RingCorrect (s : UsbState) : Prop where
  head_lt : s.ring.usbRxHead < 512
  tail_lt : s.ring.usbRxTail < 512
  receive_accepts : ∀ buf, (receiveStep s buf).accepted =
    s.accepted ++ buf.take (min buf.length (511 - s.ring.occupancy))
  read_kth : ∀ k, k < s.completed.length →
    ∃ b, s.accepted[k]? = some b ∧ s.completed[k]? = some ⟨1, some b⟩
  nothing_lost : s.accepted = s.completed.filterMap ReadResult.stored ++ s.ring.contents
  not_overwritten : ∀ c, (s.pc = .bumpLoad c ∨ ∃ tail, s.pc = .bumpStore c tail) →
    s.ring.usbRxBuffer s.ring.usbRxTail.toNat = c ∧ s.accepted[s.completed.length]? = some c
  read_never_fails : ∀ r ∈ s.completed, r.ret ≠ -1

namespace UsbReceiveLemmas

theorem stored_byte (bs : List UInt8) :
    (bs.map ReadResult.byte).filterMap ReadResult.stored = bs := by
  induction bs with
  | nil => rfl
  | cons b bs ih =>
    rw [List.map_cons, List.filterMap_cons]
    simp only [ReadResult.byte]
    exact congrArg (b :: ·) ih

theorem held_byte {s : UsbState} {l : Ledger UInt8} (h : Represents s l) {c : UInt8}
    (hpc : s.pc = .bumpLoad c ∨ ∃ tail, s.pc = .bumpStore c tail) :
    ∃ rest, s.ring.contents = c :: rest := by
  have hok := h.pc
  rcases hpc with hpc | ⟨tail, hpc⟩
  · rw [hpc] at hok
    exact hok
  · rw [hpc] at hok
    exact hok.2

theorem ringCorrect_of_represents {s : UsbState} {l : Ledger UInt8} (h : Represents s l) :
    RingCorrect s where
  head_lt := h.wf.head_lt
  tail_lt := h.wf.tail_lt
  receive_accepts buf := by
    have hmin : buf.take (min buf.length (511 - s.ring.occupancy)) =
        buf.take (511 - s.ring.occupancy) := by
      rw [Nat.min_comm, ← List.take_eq_take_min]
    rw [hmin, ← (cdcReceiveFs_spec h.wf buf).1]
    rfl
  read_kth k hk := by
    rw [h.completed, List.length_map] at hk
    refine ⟨l.delivered[k], ?_, ?_⟩
    · rw [h.accepted, ← l.getElem?_delivered hk, List.getElem?_eq_getElem hk]
    · rw [h.completed, List.getElem?_map, List.getElem?_eq_getElem hk]
      rfl
  nothing_lost := by
    rw [h.accepted, h.completed, stored_byte, ← h.queued, l.conserved]
  not_overwritten c hpc := by
    obtain ⟨rest, hc⟩ := held_byte h hpc
    refine ⟨contents_head h.wf hc, ?_⟩
    rw [h.accepted, h.completed, List.length_map, l.conserved, h.queued, hc]
    simp
  read_never_fails r hr := by
    rw [h.completed] at hr
    obtain ⟨b, _, rfl⟩ := List.mem_map.mp hr
    show (1 : Int) ≠ -1
    decide

end UsbReceiveLemmas

/-- The USB receive ring is a bounded first-in first-out queue under every
interrupt interleaving: in every state of every run the indices are in range,
an interrupt stores exactly the prefix that fits in the 511 usable cells, the
`k`-th `_read` returns 1 with the `k`-th stored byte, nothing stored is lost or
overwritten before its read ends, and no `_read` returns -1. -/
theorem usb_ring_fifo (events : List UsbEvent) :
    Always (Steps usbStep) RingCorrect UsbState.init events := by
  intro done rest s _ hr
  obtain ⟨_, l, _, hrep⟩ := usb_refines_fifo hr
  exact ringCorrect_of_represents hrep

/-! ## Progress -/

/-- How many accesses the count still makes. -/
def AvailPc.accessesLeft : AvailPc → Nat
  | .cmpHead => 4
  | .cmpTail _ => 3
  | .geHead | .ltTail => 2
  | .geTail _ | .ltHead _ => 1

/-- How many accesses `_read` still makes at most once the ring holds something. While it
polls, a count that was begun on the empty ring may have to be made again. -/
def accessesLeft (tail : UInt32) : ReadPc → Nat
  | .poll (.geTail head) => if head = tail then 13 else 9
  | .poll (.ltHead tail') => if tail' = tail then 9 else 13
  | .poll a => a.accessesLeft + 8
  | .check a => a.accessesLeft + 4
  | .loadTail => 4
  | .loadByte _ => 3
  | .bumpLoad _ => 2
  | .bumpStore _ _ => 1

/-- The accesses of the reader among the events. -/
def readerAccesses : List UsbEvent → Nat
  | [] => 0
  | .reader :: events => readerAccesses events + 1
  | .receive _ :: events => readerAccesses events

namespace UsbReceiveLemmas

theorem avail_bounds (a : AvailPc) : 1 ≤ a.accessesLeft ∧ a.accessesLeft ≤ 4 := by
  cases a <;> simp [AvailPc.accessesLeft]

theorem accessesLeft_le {tail : UInt32} {pc : ReadPc} : accessesLeft tail pc ≤ 13 := by
  unfold accessesLeft
  split
  · split <;> decide
  · split <;> decide
  · exact Nat.le_succ_of_le (Nat.add_le_add_right (avail_bounds _).2 8)
  · exact Nat.le_trans (Nat.add_le_add_right (avail_bounds _).2 4) (by decide)
  all_goals decide

theorem le_accessesLeft_poll {tail : UInt32} {a : AvailPc} : 9 ≤ accessesLeft tail (.poll a) := by
  cases a with
  | geTail head =>
    show 9 ≤ if head = tail then 13 else 9
    split <;> decide
  | ltHead tail' =>
    show 9 ≤ if tail' = tail then 9 else 13
    split <;> decide
  | _ => exact Nat.add_le_add_right (avail_bounds _).1 8

theorem accessesLeft_pos {tail : UInt32} {pc : ReadPc} : 0 < accessesLeft tail pc := by
  cases pc with
  | poll a => exact Nat.lt_of_lt_of_le (by decide) le_accessesLeft_poll
  | check a => exact Nat.add_pos_right _ (by decide)
  | _ => exact Nat.succ_pos _

/-- An access of the count brings its end closer. -/
theorem accessesLeft_avail {r : UsbRx} {a a' : AvailPc}
    (h : cdcGetRxBufferBytesAvailableFs r a = .inl a') : a'.accessesLeft < a.accessesLeft := by
  cases a with
  | cmpHead | geHead | ltTail =>
    obtain rfl := Sum.inl.inj h
    exact Nat.lt_succ_self _
  | cmpTail head =>
    have h' : (if head ≥ r.usbRxTail then .inl .geHead else .inl .ltTail) = Sum.inl a' := h
    split at h'
    · obtain rfl := Sum.inl.inj h'
      exact Nat.lt_succ_self _
    · obtain rfl := Sum.inl.inj h'
      exact Nat.lt_succ_self _
  | geTail | ltHead => cases h

/-- A step of the reader to another place of `_read`. -/
structure Closer (s s' : UsbState) : Prop where
  ring : s'.ring = s.ring
  completed : s'.completed = s.completed
  left : accessesLeft s.ring.usbRxTail s'.pc < accessesLeft s.ring.usbRxTail s.pc

theorem closer_setPc {s : UsbState} (pc : ReadPc) (he : readStep s = { s with pc := pc })
    (hlt : accessesLeft s.ring.usbRxTail pc < accessesLeft s.ring.usbRxTail s.pc) :
    Closer s (readStep s) := by
  rw [he]
  exact ⟨rfl, rfl, hlt⟩

/-- While it polls a ring that holds something, the reader comes closer to the byte. -/
theorem closer_poll {s : UsbState} (hw : s.ring.Wf) (hne : s.ring.contents ≠ []) {a : AvailPc}
    (hs : s.pc = .poll a) : Closer s (readStep s) := by
  have hdiff := (contents_ne_nil_iff hw).mp hne
  -- a count that is made to its end is followed by another one or by the check
  have hend : ∀ n, cdcGetRxBufferBytesAvailableFs s.ring a = .inr n →
      (n = 0 → accessesLeft s.ring.usbRxTail (.poll a) = 13) → Closer s (readStep s) := by
    intro n hn hzero
    by_cases h0 : n = 0
    · refine closer_setPc (.poll .cmpHead) (by simp only [readStep, hs, hn, if_pos h0]) ?_
      rw [hs, hzero h0]
      exact Nat.lt_succ_self 12
    · refine closer_setPc (.check .cmpHead) (by simp only [readStep, hs, hn, if_neg h0]) ?_
      rw [hs]
      exact le_accessesLeft_poll
  cases a with
  | cmpHead =>
    refine closer_setPc (.poll (.cmpTail s.ring.usbRxHead))
      (by simp only [readStep, hs]; rfl) ?_
    rw [hs]
    exact Nat.lt_succ_self 11
  | cmpTail head =>
    by_cases hge : head ≥ s.ring.usbRxTail
    · refine closer_setPc (.poll .geHead)
        (by simp only [readStep, hs, cdcGetRxBufferBytesAvailableFs, if_pos hge]) ?_
      rw [hs]
      exact Nat.lt_succ_self 10
    · refine closer_setPc (.poll .ltTail)
        (by simp only [readStep, hs, cdcGetRxBufferBytesAvailableFs, if_neg hge]) ?_
      rw [hs]
      exact Nat.lt_succ_self 10
  | geHead =>
    refine closer_setPc (.poll (.geTail s.ring.usbRxHead))
      (by simp only [readStep, hs]; rfl) ?_
    rw [hs, accessesLeft, if_neg hdiff]
    exact Nat.lt_succ_self 9
  | ltTail =>
    refine closer_setPc (.poll (.ltHead s.ring.usbRxTail))
      (by simp only [readStep, hs]; rfl) ?_
    rw [hs, accessesLeft, if_pos rfl]
    exact Nat.lt_succ_self 9
  | geTail head =>
    refine hend _ rfl fun h0 => ?_
    by_cases he : head = s.ring.usbRxTail
    · exact if_pos he
    · exact absurd h0 (first_branch_ne_zero he)
  | ltHead tail =>
    refine hend _ rfl fun h0 => ?_
    by_cases he : tail = s.ring.usbRxTail
    · subst he
      exact absurd h0 (second_branch_ne_zero hw)
    · exact if_neg he

/-- Each access of the reader on a ring that holds something brings the end of `_read`
closer, or is its end. -/
theorem closer_or_completes {s : UsbState} {l : Ledger UInt8} (h : Represents s l)
    (hne : s.ring.contents ≠ []) :
    Closer s (readStep s) ∨ s.completed.length < (readStep s).completed.length := by
  have hpc := h.pc
  cases hs : s.pc with
  | poll a => exact .inl (closer_poll h.wf hne hs)
  | check a =>
    rw [hs] at hpc
    rcases check_access h.wf hpc.1 hpc.2 with ⟨a', ha, _⟩ | ⟨n, ha, hn⟩
    · refine .inl (closer_setPc (.check a') (by simp only [readStep, hs, ha]) ?_)
      rw [hs]
      exact Nat.add_lt_add_right (accessesLeft_avail ha) 4
    · refine .inl (closer_setPc .loadTail (by simp only [readStep, hs, ha, if_neg hn]) ?_)
      rw [hs]
      exact Nat.lt_add_of_pos_left (avail_bounds a).1
  | loadTail =>
    refine .inl (closer_setPc (.loadByte s.ring.usbRxTail) (by simp only [readStep, hs]) ?_)
    rw [hs]
    exact Nat.lt_succ_self 3
  | loadByte tail =>
    refine .inl (closer_setPc (.bumpLoad (s.ring.usbRxBuffer tail.toNat))
      (by simp only [readStep, hs]) ?_)
    rw [hs]
    exact Nat.lt_succ_self 2
  | bumpLoad c =>
    refine .inl (closer_setPc (.bumpStore c s.ring.usbRxTail)
      (by simp only [readStep, hs]) ?_)
    rw [hs]
    exact Nat.lt_succ_self 1
  | bumpStore c tail =>
    refine .inr ?_
    simp only [readStep, hs, UsbState.complete, List.length_append, List.length_singleton]
    exact Nat.lt_succ_self _

theorem completed_readStep (s : UsbState) :
    s.completed.length ≤ (readStep s).completed.length := by
  unfold readStep
  split
  · split
    · exact Nat.le_refl _
    · split <;> exact Nat.le_refl _
  · split
    · exact Nat.le_refl _
    · split
      · simp [UsbState.complete]
      · exact Nat.le_refl _
  · exact Nat.le_refl _
  · exact Nat.le_refl _
  · exact Nat.le_refl _
  · simp [UsbState.complete]

theorem completed_mono {s t : UsbState} {events : List UsbEvent}
    (h : Run (Steps usbStep) s events t) : s.completed.length ≤ t.completed.length := by
  induction h with
  | nil => exact Nat.le_refl _
  | @cons s u t e events hs _ ih =>
    refine Nat.le_trans ?_ ih
    cases e with
    | reader =>
      obtain rfl := Option.some.inj hs
      exact completed_readStep s
    | receive buf =>
      obtain rfl := Option.some.inj hs
      exact Nat.le_refl _

/-- After as many accesses as are left, whatever interrupts come between them, a `_read` has
returned. -/
theorem completes_of_accesses {s t : UsbState} {l : Ledger UInt8} {events : List UsbEvent}
    (hr : Run (Steps usbStep) s events t) (h : Represents s l) (hne : s.ring.contents ≠ [])
    (hn : accessesLeft s.ring.usbRxTail s.pc ≤ readerAccesses events) :
    s.completed.length < t.completed.length := by
  induction hr generalizing l with
  | nil => exact absurd (Nat.lt_of_lt_of_le accessesLeft_pos hn) (Nat.lt_irrefl 0)
  | @cons s u t e events hs hr ih =>
    cases e with
    | reader =>
      obtain rfl := Option.some.inj hs
      rcases closer_or_completes h hne with hc | hlt
      · obtain ⟨_, l', _, h'⟩ := represents_readStep h
        rw [← hc.completed]
        refine ih h' (hc.ring ▸ hne) ?_
        rw [hc.ring]
        exact Nat.le_of_lt_succ (Nat.lt_of_lt_of_le hc.left hn)
      · exact Nat.lt_of_lt_of_le hlt (completed_mono hr)
    | receive buf =>
      -- an interrupt leaves `USB_RxTail` and the place of the reader alone
      obtain rfl := Option.some.inj hs
      obtain ⟨_, l', _, h'⟩ := represents_receiveStep h buf
      obtain ⟨_, _, htail, hcontents⟩ := cdcReceiveFs_spec h.wf buf
      refine ih h' ?_ ?_
      · show (cdcReceiveFs s.ring buf).1.contents ≠ []
        rw [hcontents]
        exact List.append_ne_nil_of_left_ne_nil hne _
      · show accessesLeft (cdcReceiveFs s.ring buf).1.usbRxTail s.pc ≤ _
        rw [htail]
        exact hn

end UsbReceiveLemmas

/-- In every state of every run: once the ring holds a byte, `_read` returns within 13
accesses of the reader, whatever interrupts come between them. -/
theorem usb_read_returns (events : List UsbEvent) :
    Always (Steps usbStep) (fun s => s.ring.contents ≠ [] → ∀ events' t,
      Run (Steps usbStep) s events' t → 13 ≤ readerAccesses events' →
        s.completed.length < t.completed.length) UsbState.init events := by
  intro done rest s _ hr hne events' t hr' hn
  obtain ⟨_, l, _, hrep⟩ := usb_refines_fifo hr
  exact completes_of_accesses hr' hrep hne (Nat.le_trans accessesLeft_le hn)

/-- Two bytes come in after the reader has seen an empty ring, and are read. -/
example : ((exec usbStep UsbState.init
    (.reader :: .receive [7, 8] :: List.replicate 25 .reader)).map UsbState.completed) =
    some [⟨1, some 7⟩, ⟨1, some 8⟩] := by
  decide

end BlackPill
