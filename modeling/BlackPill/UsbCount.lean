import BlackPill.UsbReceive

/-!
# The available-bytes count of the USB receive ring

`CDC_GetRxBufferBytesAvailable_FS` reads `USB_RxHead` twice, once to choose its
branch and once to subtract, and the interrupt may run before every access. The
call is followed here on its own, from any state that the ring can be in.

Results:
1. `available_count_true_iff`: the count lies between the occupancy at the entry
   and at the exit, and nothing wraps below zero, in exactly those runs in which
   the head is still ahead of the tail when the first branch reads it again.
   `head_wraps_between_reads`: one byte in between is enough.
2. `wrapped_head_returns_huge`: what is returned otherwise.
3. `count_within_read`: the call as a part of `_read`.
-/

namespace BlackPill

open CyclicBuffer Runs

/-! ## Definitions -/

/-- The ring and the place in the call, or the value it has returned. -/
structure CountState where
  ring : UsbRx
  pc : AvailPc ⊕ UInt32

/-- What may happen next: an access of the call, or a whole interrupt. -/
inductive CountEvent
  | access
  | receive (buf : List UInt8)

def countStep (s : CountState) : CountEvent → Option CountState
  | .access =>
    match s.pc with
    | .inl a => some { s with pc := cdcGetRxBufferBytesAvailableFs s.ring a }
    | .inr _ => none
  | .receive buf => some { s with ring := (cdcReceiveFs s.ring buf).1 }

/-- The entry of the call. -/
def CountState.enter (r : UsbRx) : CountState := ⟨r, .inl .cmpHead⟩

/-- The subtractions that the next access completes do not go below zero. -/
def NoWrap (r : UsbRx) : AvailPc → Prop
  | .geTail head => r.usbRxTail ≤ head
  | .ltHead tail => r.usbRxHead ≤ tail ∧ tail - r.usbRxHead ≤ usbRxBufferSize
  | _ => True

/-- What the call must keep to, when it was entered with the ring `entry`. -/
structure CountTrue (entry : UsbRx) (s : CountState) : Prop where
  noWrap : ∀ a, s.pc = .inl a → NoWrap s.ring a
  value : ∀ n, s.pc = .inr n → entry.occupancy ≤ n.toNat ∧ n.toNat ≤ s.ring.occupancy
  bound : ∀ n, s.pc = .inr n → n ≤ 511

/-- When the first branch reads `USB_RxHead` for its subtraction, the head has not
wrapped round behind the tail. -/
def HeadStaysAhead (s : CountState) : CountEvent → Prop
  | .access => s.pc = .inl .geHead → s.ring.usbRxTail ≤ s.ring.usbRxHead
  | .receive _ => True

instance {s : CountState} : (ev : CountEvent) → Decidable (HeadStaysAhead s ev)
  | .access => by unfold HeadStaysAhead; infer_instance
  | .receive _ => .isTrue trivial

/-- What a place in the call says about the ring, and about its occupancy `occ` at
the entry. A head behind the tail stays behind it, whatever is received. -/
def CountOk (occ : Nat) (r : UsbRx) : AvailPc ⊕ UInt32 → Prop
  | .inl .cmpHead => True
  | .inl (.cmpTail head) => head < r.usbRxTail → r.usbRxHead < r.usbRxTail
  | .inl .geHead => True
  | .inl (.geTail head) => r.usbRxTail ≤ head ∧ occ ≤ head.toNat - r.usbRxTail.toNat ∧
      head.toNat - r.usbRxTail.toNat ≤ r.occupancy
  | .inl .ltTail => r.usbRxHead < r.usbRxTail
  | .inl (.ltHead tail) => tail = r.usbRxTail ∧ r.usbRxHead < r.usbRxTail
  | .inr n => occ ≤ n.toNat ∧ n.toNat ≤ r.occupancy

/-- The invariant. -/
structure CountInv (entry : UsbRx) (s : CountState) : Prop where
  wf : s.ring.Wf
  grown : entry.occupancy ≤ s.ring.occupancy
  ok : CountOk entry.occupancy s.ring s.pc

namespace UsbCountLemmas

variable {r r' entry : UsbRx} {s s' : CountState} {head : UInt32}

/-! ## The occupancy from the indices -/

theorem occupancy_of_le (hw : r.Wf) (h : r.usbRxTail ≤ r.usbRxHead) :
    r.occupancy = r.usbRxHead.toNat - r.usbRxTail.toNat := by
  unfold UsbRx.occupancy
  rw [occupancy_eq (UsbReceiveLemmas.head_lt_nat hw) (UsbReceiveLemmas.tail_lt_nat hw),
    if_pos (UInt32.le_iff_toNat_le.mp h)]

theorem occupancy_of_lt (hw : r.Wf) (h : r.usbRxHead < r.usbRxTail) :
    r.occupancy = r.usbRxHead.toNat + usbRxBufferSize.toNat - r.usbRxTail.toNat := by
  unfold UsbRx.occupancy
  rw [occupancy_eq (UsbReceiveLemmas.head_lt_nat hw) (UsbReceiveLemmas.tail_lt_nat hw),
    if_neg (Nat.not_le_of_lt (UInt32.lt_iff_toNat_lt.mp h))]

/-- On the second branch neither subtraction goes below zero, and the result is the
occupancy. -/
theorem second_branch_noWrap (hw : r.Wf) (h : r.usbRxHead < r.usbRxTail) :
    r.usbRxHead ≤ r.usbRxTail ∧ r.usbRxTail - r.usbRxHead ≤ usbRxBufferSize := by
  have hle : r.usbRxHead ≤ r.usbRxTail := UInt32.le_of_lt h
  refine ⟨hle, UInt32.le_iff_toNat_le.mpr ?_⟩
  rw [UInt32.toNat_sub_of_le _ _ hle]
  exact Nat.le_trans (Nat.sub_le _ _) (Nat.le_of_lt (UsbReceiveLemmas.tail_lt_nat hw))

theorem second_branch_value (hw : r.Wf) (h : r.usbRxHead < r.usbRxTail) :
    (usbRxBufferSize - (r.usbRxTail - r.usbRxHead)).toNat = r.occupancy := by
  obtain ⟨hle, hsize⟩ := second_branch_noWrap hw h
  have hlt := UInt32.lt_iff_toNat_lt.mp h
  rw [UInt32.toNat_sub_of_le _ _ hsize, UInt32.toNat_sub_of_le _ _ hle, occupancy_of_lt hw h]
  omega

/-! ## The interrupt -/

/-- What an interrupt leaves alone, and what it only adds to. -/
theorem receive_grows (hw : r.Wf) (buf : List UInt8) :
    (cdcReceiveFs r buf).1.Wf ∧ (cdcReceiveFs r buf).1.usbRxTail = r.usbRxTail ∧
      r.occupancy ≤ (cdcReceiveFs r buf).1.occupancy := by
  obtain ⟨_, hw', ht, hc⟩ := cdcReceiveFs_spec hw buf
  refine ⟨hw', ht, ?_⟩
  rw [← UsbReceiveLemmas.contents_length, ← UsbReceiveLemmas.contents_length, hc,
    List.length_append]
  exact Nat.le_add_right _ _

/-- The head does not overtake the tail. -/
theorem head_stays_behind (hw : r.Wf) (hw' : r'.Wf) (ht : r'.usbRxTail = r.usbRxTail)
    (hocc : r.occupancy ≤ r'.occupancy) (h : r.usbRxHead < r.usbRxTail) :
    r'.usbRxHead < r'.usbRxTail := by
  by_cases hlt : r'.usbRxHead < r'.usbRxTail
  · exact hlt
  · have hge := UInt32.not_lt.mp hlt
    have hhead := UsbReceiveLemmas.head_lt_nat hw'
    have htail := UsbReceiveLemmas.tail_lt_nat hw
    have hge' := UInt32.le_iff_toNat_le.mp hge
    rw [ht] at hge'
    rw [occupancy_of_lt hw h, occupancy_of_le hw' hge, ht] at hocc
    omega

theorem countOk_receive {occ : Nat} {pc : AvailPc ⊕ UInt32} (hw : r.Wf) (hw' : r'.Wf)
    (ht : r'.usbRxTail = r.usbRxTail) (hocc : r.occupancy ≤ r'.occupancy)
    (h : CountOk occ r pc) : CountOk occ r' pc := by
  cases pc with
  | inl a =>
    cases a with
    | cmpHead => trivial
    | cmpTail head => exact fun hlt => head_stays_behind hw hw' ht hocc (h (ht ▸ hlt))
    | geHead => trivial
    | geTail head =>
      obtain ⟨hle, hlo, hhi⟩ := h
      unfold CountOk
      rw [ht]
      exact ⟨hle, hlo, Nat.le_trans hhi hocc⟩
    | ltTail => exact head_stays_behind hw hw' ht hocc h
    | ltHead tail => exact ⟨h.1.trans ht.symm, head_stays_behind hw hw' ht hocc h.2⟩
  | inr n => exact ⟨h.1, Nat.le_trans h.2 hocc⟩

/-! ## The accesses -/

theorem countOk_access (hw : r.Wf) {a : AvailPc} (hgrown : entry.occupancy ≤ r.occupancy)
    (h : CountOk entry.occupancy r (.inl a)) (hahead : a = .geHead → r.usbRxTail ≤ r.usbRxHead) :
    CountOk entry.occupancy r (cdcGetRxBufferBytesAvailableFs r a) := by
  cases a with
  | cmpHead => exact id
  | cmpTail head =>
    have hstep : cdcGetRxBufferBytesAvailableFs r (.cmpTail head) =
        if head ≥ r.usbRxTail then .inl .geHead else .inl .ltTail := rfl
    rw [hstep]
    split
    · trivial
    · next hlt => exact h (UInt32.not_le.mp hlt)
  | geHead =>
    have hle := hahead rfl
    have hocc := occupancy_of_le hw hle
    exact ⟨hle, hocc ▸ hgrown, Nat.le_of_eq hocc.symm⟩
  | geTail head =>
    obtain ⟨hle, hlo, hhi⟩ := h
    have hvalue : (head - r.usbRxTail).toNat = head.toNat - r.usbRxTail.toNat :=
      UInt32.toNat_sub_of_le _ _ hle
    exact ⟨hvalue ▸ hlo, hvalue ▸ hhi⟩
  | ltTail => exact ⟨rfl, h⟩
  | ltHead tail =>
    obtain ⟨rfl, hlt⟩ := h
    have hvalue := second_branch_value hw hlt
    exact ⟨hvalue ▸ hgrown, Nat.le_of_eq hvalue⟩

theorem access_some (hs : countStep s .access = some s') : ∃ a, s.pc = .inl a ∧
    s' = { s with pc := cdcGetRxBufferBytesAvailableFs s.ring a } := by
  simp only [countStep] at hs
  split at hs
  · next a hpc => exact ⟨a, hpc, (Option.some.inj hs).symm⟩
  · cases hs

theorem countInv_step {ev : CountEvent} (h : CountInv entry s) (hc : HeadStaysAhead s ev)
    (hs : countStep s ev = some s') : CountInv entry s' := by
  cases ev with
  | access =>
    obtain ⟨a, hpc, rfl⟩ := access_some hs
    refine ⟨h.wf, h.grown, countOk_access h.wf h.grown (hpc ▸ h.ok) fun he => ?_⟩
    exact hc (hpc.trans (congrArg Sum.inl he))
  | receive buf =>
    obtain rfl := Option.some.inj hs
    obtain ⟨hw, ht, hocc⟩ := receive_grows h.wf buf
    exact ⟨hw, Nat.le_trans h.grown hocc, countOk_receive h.wf hw ht hocc h.ok⟩

theorem countInv_enter (hw : entry.Wf) : CountInv entry (.enter entry) :=
  ⟨hw, Nat.le_refl _, trivial⟩

theorem countTrue_of_inv (h : CountInv entry s) : CountTrue entry s where
  noWrap a hpc := by
    have hok := h.ok
    rw [hpc] at hok
    cases a with
    | geTail head => exact hok.1
    | ltHead tail =>
      obtain ⟨rfl, hlt⟩ := hok
      exact second_branch_noWrap h.wf hlt
    | _ => trivial
  value n hpc := by
    have hok := h.ok
    rw [hpc] at hok
    exact hok
  bound n hpc := by
    have hok := h.ok
    rw [hpc] at hok
    have hlt := UsbReceiveLemmas.occupancy_lt_size s.ring
    exact UInt32.le_iff_toNat_le.mpr (Nat.le_trans hok.2 (Nat.le_of_lt_succ hlt))

/-- The head that the first branch has just read shows where it was. -/
theorem headStaysAhead_of_true {ev : CountEvent} (hs : countStep s ev = some s')
    (h : CountTrue entry s') : HeadStaysAhead s ev := by
  cases ev with
  | access =>
    intro hpc
    simp only [countStep, hpc] at hs
    obtain rfl := Option.some.inj hs
    exact h.noWrap (.geTail s.ring.usbRxHead) rfl
  | receive buf => trivial

end UsbCountLemmas

open UsbCountLemmas

/-- From every state that the ring can be in, and for every placement of interrupts,
the count lies between the occupancy at the entry and at the exit, and no
subtraction goes below zero, exactly when the head has not wrapped round behind the
tail where the first branch reads it again. -/
theorem available_count_true_iff {before : List UsbEvent} {s : UsbState}
    (h : Run (Steps usbStep) UsbState.init before s) (events : List CountEvent) :
    Always (Steps countStep) (CountTrue s.ring) (.enter s.ring) events ↔
      Meets (Steps countStep) HeadStaysAhead (.enter s.ring) events := by
  obtain ⟨_, _, _, hrep⟩ := usb_refines_fifo h
  refine always_iff_meets (I := CountInv s.ring) ?_ (fun _ hi => countTrue_of_inv hi) ?_
    (countInv_enter hrep.wf) events
  · intro t ev t' hi hc ht
    exact countInv_step hi hc ht
  · intro t ev t' _ ht hp
    exact headStaysAhead_of_true ht hp

/-- An empty ring that gets two bytes while the count is made. -/
theorem count_while_receiving : Always (Steps countStep) (CountTrue UsbState.init.ring)
    (.enter UsbState.init.ring)
    [.access, .receive [1], .access, .receive [2], .access, .access] :=
  (available_count_true_iff Run.nil _).mpr (by decide)

/-- Eight packets of 511 bytes in all, of which `_read` takes one. -/
def fillAndRead : List UsbEvent :=
  List.replicate 7 (.receive (List.replicate 64 0)) ++ [.receive (List.replicate 63 0)] ++
    List.replicate 12 .reader

namespace UsbCountLemmas

theorem fillAndRead_indices : (exec usbStep .init fillAndRead).map
    (fun s => (s.ring.usbRxHead, s.ring.usbRxTail)) = some (511, 1) := by
  decide +kernel

/-- The first branch, with a packet between its two readings of the head. -/
theorem first_branch_exec (buf : List UInt8) (h : r.usbRxHead ≥ r.usbRxTail) :
    exec countStep (.enter r) [.access, .access, .receive buf, .access, .access] =
      some ⟨(cdcReceiveFs r buf).1,
        .inr ((cdcReceiveFs r buf).1.usbRxHead - (cdcReceiveFs r buf).1.usbRxTail)⟩ := by
  have hcmp : cdcGetRxBufferBytesAvailableFs r (.cmpTail r.usbRxHead) = .inl .geHead := if_pos h
  have hstart : cdcGetRxBufferBytesAvailableFs r .cmpHead = .inl (.cmpTail r.usbRxHead) := rfl
  simp only [exec, countStep, CountState.enter, Option.bind_some, hstart, hcmp]
  rfl

/-- A byte received with the head in the last cell. -/
theorem receive_in_last_cell {buf : Nat → UInt8} {b : UInt8} :
    (cdcReceiveFs ⟨buf, 511, 1⟩ [b]).1 = ⟨store buf 511 b, 0, 1⟩ := by
  have hnext : (511 + 1) % usbRxBufferSize = 0 := by decide
  have hne : (0 : UInt32) ≠ 1 := by decide
  simp only [cdcReceiveFs, receiveByte, hnext, if_pos hne]
  rfl

end UsbCountLemmas

/-- With the head in the last cell and the tail in the second, a byte that comes
between the two readings of the head makes the count wrap. -/
theorem head_wraps_between_reads : ∃ s, Run (Steps usbStep) UsbState.init fillAndRead s ∧
    ¬ Always (Steps countStep) (CountTrue s.ring) (.enter s.ring)
      [.access, .access, .receive [0], .access, .access] := by
  obtain ⟨⟨⟨buf, head, tail⟩, _, _, _⟩, hs, hindices⟩ :=
    Option.map_eq_some_iff.mp fillAndRead_indices
  obtain ⟨rfl, rfl⟩ := Prod.mk.inj hindices
  have hge : (511 : UInt32) ≥ 1 := by decide
  have hexec := first_branch_exec (r := ⟨buf, 511, 1⟩) [0] hge
  rw [receive_in_last_cell] at hexec
  refine ⟨_, run_iff_exec.mpr hs, not_always_of_exec hexec fun h => ?_⟩
  exact absurd (h.bound (0 - 1) rfl) (by decide)

/-- A head behind the tail makes the first branch return more than the ring holds. -/
theorem wrapped_head_returns_huge {r : UsbRx} (hw : r.Wf) {head : UInt32}
    (h : head < r.usbRxTail) :
    ∃ n, cdcGetRxBufferBytesAvailableFs r (.geTail head) = .inr n ∧ 511 < n := by
  refine ⟨_, rfl, UInt32.lt_iff_toNat_lt.mpr ?_⟩
  have hlt := UInt32.lt_iff_toNat_lt.mp h
  have htail := UsbReceiveLemmas.tail_lt_nat hw
  rw [UsbReceiveLemmas.size_toNat] at htail
  rw [UInt32.toNat_sub]
  change 511 < _
  omega

/-! ## The count inside `_read` -/

/-- The reader is at the same place of its first count, as long as that lasts. -/
def Embeds (s : CountState) (t : UsbState) : Prop :=
  t.ring = s.ring ∧ ∀ a, s.pc = .inl a → t.pc = .poll a

namespace UsbCountLemmas

theorem readStep_poll {t : UsbState} {a : AvailPc} (hp : t.pc = .poll a) :
    (readStep t).ring = t.ring ∧
      ∀ a', cdcGetRxBufferBytesAvailableFs t.ring a = .inl a' → (readStep t).pc = .poll a' := by
  cases hr : cdcGetRxBufferBytesAvailableFs t.ring a with
  | inl a' =>
    have hstep : readStep t = { t with pc := .poll a' } := by simp only [readStep, hp, hr]
    rw [hstep]
    exact ⟨rfl, fun b hb => congrArg ReadPc.poll (Sum.inl.inj hb)⟩
  | inr n =>
    simp only [readStep, hp, hr]
    refine ⟨?_, fun b hb => by cases hb⟩
    split <;> rfl

end UsbCountLemmas

/-- The call that `_read` makes first is a run here. -/
theorem count_within_read {r : UsbRx} {events : List CountEvent} {s : CountState}
    (h : Run (Steps countStep) (.enter r) events s) {t : UsbState} (hr : t.ring = r)
    (hp : t.pc = .poll .cmpHead) : ∃ evs t', Run (Steps usbStep) t evs t' ∧ Embeds s t' := by
  refine Run.simulate (R := Embeds) ?_ h ⟨hr, fun a ha => ?_⟩
  · intro s ev s' t hm hs
    cases ev with
    | access =>
      obtain ⟨a, hpc, rfl⟩ := access_some hs
      obtain ⟨hring, hnext⟩ := readStep_poll (hm.2 a hpc)
      refine ⟨[.reader], readStep t, Run.single rfl, hring.trans hm.1, fun a' ha' => ?_⟩
      exact hnext a' (hm.1 ▸ ha')
    | receive buf =>
      obtain rfl := Option.some.inj hs
      refine ⟨[.receive buf], receiveStep t buf, Run.single rfl, ?_, hm.2⟩
      simp only [receiveStep, hm.1]
  · obtain rfl := Sum.inl.inj ha
    exact hp

end BlackPill
