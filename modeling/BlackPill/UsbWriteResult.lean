import BlackPill.ByteMemory
import Mathlib.Data.Nat.Find

/-!
# What `_write` returns

For each byte `_write` calls `CDC_Transmit_FS` until the result is another than
`USBD_BUSY`, and at the end it returns `len`. The results of the calls are an
argument of the model: the reading of `TxState`, and what `USBD_CDC_TransmitPacket`
returns if it is called. That is `USBD_OK`, `USBD_BUSY` or `USBD_FAIL`, and only with
`USBD_OK` is the byte taken.

Results:
1. `write_eq`: the bytes accepted are those whose last call returned `USBD_OK`, and the
   value returned is `len` whatever the results.
2. `write_returns_iff`: so the accepted bytes are as many as returned, from the first
   one on, exactly when no call fails before the last byte has been answered.
   `failed_byte_skipped`: a byte that fails is passed over and counted.
-/

namespace BlackPill

namespace WriteCall

open ByteMemory (load load_add load_length)

/-! ## Definitions -/

/-- The results of `USBD_CDC_TransmitPacket`. -/
inductive UsbdStatus
  | ok
  | busy
  | fail
deriving DecidableEq, Repr

/-- What one call of `CDC_Transmit_FS` meets. -/
structure TransmitTry where
  txState : Nat
  transmitPacket : UsbdStatus
deriving DecidableEq, Repr

/-- `CDC_Transmit_FS`. -/
def cdcTransmitFs (t : TransmitTry) : UsbdStatus :=
  if t.txState ≠ 0 then .busy else t.transmitPacket

/-- The `while` loop: the result that ends it and the tries behind it, `none` if it has
not ended after the given tries. -/
def transmitByte : List TransmitTry → Option (UsbdStatus × List TransmitTry)
  | [] => none
  | t :: ts => if cdcTransmitFs t = .busy then transmitByte ts else some (cdcTransmitFs t, ts)

/-- The `for` loop over `n` bytes from `ptr` on: the bytes that the library takes. -/
def writeLoop (mem : Nat → UInt8) (ptr : Nat) : Nat → List TransmitTry → Option (List UInt8)
  | 0, _ => some []
  | n + 1, ts =>
    match transmitByte ts with
    | none => none
    -- the loop goes on to the next byte with every result but `busy`
    | some (res, ts') => (writeLoop mem (ptr + 1) n ts').map fun accepted =>
        if res = .ok then mem ptr :: accepted else accepted

/-- The value returned by `_write` and the bytes accepted by the library. -/
structure WriteResult where
  ret : Int
  accepted : List UInt8
deriving DecidableEq, Repr

/-- `_write`. -/
def write (mem : Nat → UInt8) (ptr : Nat) (len : Int) (ts : List TransmitTry) :
    Option WriteResult :=
  (writeLoop mem ptr len.toNat ts).map fun accepted => ⟨len, accepted⟩

/-- The bytes accepted are the first `ret` bytes of the buffer. -/
def ReportsSent (mem : Nat → UInt8) (ptr : Nat) (res : WriteResult) : Prop :=
  res.accepted = load mem ptr res.ret.toNat

/-- The results that end the `while` loop, in their order. -/
def answers (ts : List TransmitTry) : List UsbdStatus :=
  (ts.map cdcTransmitFs).filter fun r => decide (r ≠ .busy)

/-- The first `k` of an endless sequence of tries. -/
def upTo (tries : Nat → TransmitTry) (k : Nat) : List TransmitTry := (List.range k).map tries

/-- Each run of `USBD_BUSY` is finite. -/
def BusyEnds (tries : Nat → TransmitTry) : Prop :=
  ∀ n, ∃ i, n ≤ i ∧ cdcTransmitFs (tries i) ≠ .busy

/-- No call fails as long as there are less than `len` answers before it. -/
def NeverFails (tries : Nat → TransmitTry) (len : Nat) : Prop :=
  ∀ i, (answers (upTo tries i)).length < len → cdcTransmitFs (tries i) ≠ .fail

/-- The bytes from `ptr` on that are answered with `ok`. -/
def taken (mem : Nat → UInt8) (ptr : Nat) : List UsbdStatus → List UInt8
  | [] => []
  | r :: rs => if r = .ok then mem ptr :: taken mem (ptr + 1) rs else taken mem (ptr + 1) rs

/-! ## A list of tries -/

section Lists

variable {mem : Nat → UInt8} {ptr n : Nat} {t : TransmitTry} {ts ts' : List TransmitTry}
  {r : UsbdStatus} {rs : List UsbdStatus}

theorem answers_cons_of_busy (h : cdcTransmitFs t = .busy) : answers (t :: ts) = answers ts :=
  List.filter_cons_of_neg (by simp [h])

theorem answers_cons (h : cdcTransmitFs t ≠ .busy) :
    answers (t :: ts) = cdcTransmitFs t :: answers ts :=
  List.filter_cons_of_pos (by simp [h])

theorem answers_append : answers (ts ++ ts') = answers ts ++ answers ts' := by
  unfold answers
  rw [List.map_append, List.filter_append]

/-- The `while` loop ends with the first answer. -/
theorem transmitByte_none (h : transmitByte ts = none) : answers ts = [] := by
  induction ts with
  | nil => rfl
  | cons t ts ih =>
    unfold transmitByte at h
    split at h
    · next hb =>
      rw [answers_cons_of_busy hb]
      exact ih h
    · cases h

theorem transmitByte_some (h : transmitByte ts = some (r, ts')) :
    answers ts = r :: answers ts' := by
  induction ts with
  | nil => cases h
  | cons t ts ih =>
    unfold transmitByte at h
    split at h
    · next hb =>
      rw [answers_cons_of_busy hb]
      exact ih h
    · next hb =>
      cases h
      exact answers_cons hb

/-- The `for` loop takes one answer for each byte. -/
theorem writeLoop_eq : writeLoop mem ptr n ts =
    if n ≤ (answers ts).length then some (taken mem ptr ((answers ts).take n)) else none := by
  induction n generalizing ptr ts with
  | zero =>
    rw [if_pos (Nat.zero_le _)]
    rfl
  | succ n ih =>
    unfold writeLoop
    cases h : transmitByte ts with
    | none =>
      rw [transmitByte_none h]
      rfl
    | some p =>
      obtain ⟨r, ts'⟩ := p
      rw [transmitByte_some h]
      simp only [ih, List.length_cons, Nat.succ_le_succ_iff, List.take_succ_cons, taken]
      by_cases hn : n ≤ (answers ts').length
      · rw [if_pos hn, if_pos hn]
        rfl
      · rw [if_neg hn, if_neg hn]
        rfl

theorem taken_length : (taken mem ptr rs).length = rs.countP fun r => decide (r = .ok) := by
  induction rs generalizing ptr with
  | nil => rfl
  | cons r rs ih =>
    unfold taken
    split
    · next h => rw [List.countP_cons_of_pos (by simp [h]), List.length_cons, ih]
    · next h => rw [List.countP_cons_of_neg (by simp [h]), ih]

theorem taken_of_ok (h : ∀ r ∈ rs, r = .ok) : taken mem ptr rs = load mem ptr rs.length := by
  induction rs generalizing ptr with
  | nil => rfl
  | cons r rs ih =>
    obtain ⟨hr, hrs⟩ := List.forall_mem_cons.mp h
    have hload : load mem ptr (1 + rs.length) = mem ptr :: load mem (ptr + 1) rs.length := load_add
    unfold taken
    rw [if_pos hr, ih hrs, ← hload, List.length_cons, Nat.add_comm]

/-- Counting the bytes is enough to see that one is missing. -/
theorem taken_eq_load_iff : taken mem ptr rs = load mem ptr rs.length ↔ ∀ r ∈ rs, r = .ok := by
  refine ⟨fun h => ?_, taken_of_ok⟩
  have hlen := congrArg List.length h
  rw [taken_length, load_length] at hlen
  intro r hr
  exact of_decide_eq_true (List.countP_eq_length.mp hlen r hr)

end Lists

/-- For every buffer, every length and every list of tries: if there is an answer for
each byte, `_write` returns `len`, and the bytes answered with `ok` are the ones
accepted; otherwise it has not returned. -/
theorem write_eq (mem : Nat → UInt8) (ptr len : Nat) (ts : List TransmitTry) :
    write mem ptr len ts =
      if len ≤ (answers ts).length then some ⟨len, taken mem ptr ((answers ts).take len)⟩
      else none := by
  unfold write
  rw [Int.toNat_natCast, writeLoop_eq]
  split <;> rfl

/-! ## An endless sequence of tries -/

section Sequences

variable {tries : Nat → TransmitTry} {i k len : Nat} {r : UsbdStatus}

theorem upTo_succ : upTo tries (k + 1) = upTo tries k ++ [tries k] := by
  unfold upTo
  rw [List.range_succ, List.map_append]
  rfl

theorem answers_upTo_succ_of_busy (h : cdcTransmitFs (tries k) = .busy) :
    answers (upTo tries (k + 1)) = answers (upTo tries k) := by
  rw [upTo_succ, answers_append, answers_cons_of_busy h]
  exact List.append_nil _

theorem answers_upTo_succ (h : cdcTransmitFs (tries k) ≠ .busy) :
    answers (upTo tries (k + 1)) = answers (upTo tries k) ++ [cdcTransmitFs (tries k)] := by
  rw [upTo_succ, answers_append, answers_cons h]
  rfl

theorem answers_grow (h : i ≤ k) : answers (upTo tries i) <+: answers (upTo tries k) := by
  induction h with
  | refl => exact List.prefix_rfl
  | step _ ih =>
    rw [upTo_succ, answers_append]
    exact ih.trans (List.prefix_append _ _)

theorem answers_busy_until (hik : i ≤ k)
    (h : ∀ j, i ≤ j → j < k → cdcTransmitFs (tries j) = .busy) :
    answers (upTo tries k) = answers (upTo tries i) := by
  induction hik with
  | refl => rfl
  | step hik ih =>
    rw [answers_upTo_succ_of_busy (h _ hik (Nat.lt_succ_self _))]
    exact ih fun j hj hjk => h j hj (Nat.lt_succ_of_lt hjk)

/-- There comes one answer after the other. -/
theorem exists_answers (h : BusyEnds tries) (len : Nat) :
    ∃ k, (answers (upTo tries k)).length = len := by
  induction len with
  | zero => exact ⟨0, rfl⟩
  | succ len ih =>
    obtain ⟨k, hk⟩ := ih
    -- the first call from `k` on that is not answered with `busy`
    obtain ⟨hki, hi⟩ := Nat.find_spec (h k)
    have hbusy : ∀ j, k ≤ j → j < Nat.find (h k) → cdcTransmitFs (tries j) = .busy := by
      intro j hj hlt
      have hmin := Nat.find_min (h k) hlt
      exact Decidable.not_not.mp fun hn => hmin ⟨hj, hn⟩
    refine ⟨Nat.find (h k) + 1, ?_⟩
    rw [answers_upTo_succ hi, List.length_append, answers_busy_until hki hbusy, hk]
    rfl

theorem mem_answers : r ∈ answers (upTo tries k) ↔
    ∃ i, i < k ∧ cdcTransmitFs (tries i) = r ∧ r ≠ .busy := by
  unfold answers upTo
  simp only [List.mem_filter, List.mem_map, List.mem_range, decide_eq_true_eq]
  constructor
  · rintro ⟨⟨_, ⟨i, hi, rfl⟩, rfl⟩, hr⟩
    exact ⟨i, hi, rfl, hr⟩
  · rintro ⟨i, hi, rfl, hr⟩
    exact ⟨⟨_, ⟨i, hi, rfl⟩, rfl⟩, hr⟩

/-- The first `len` answers are all `ok` if no call before the last of them fails. -/
theorem all_ok_iff (hk : (answers (upTo tries k)).length = len) :
    (∀ r ∈ answers (upTo tries k), r = .ok) ↔ NeverFails tries len := by
  constructor
  · intro hok i hi hfail
    have hik : i < k := by
      refine Nat.lt_of_not_le fun hki => ?_
      have hle : (answers (upTo tries k)).length ≤ (answers (upTo tries i)).length :=
        (answers_grow hki).length_le
      exact absurd (hk ▸ hle) (Nat.not_le_of_lt hi)
    have hmem : UsbdStatus.fail ∈ answers (upTo tries k) := mem_answers.mpr ⟨i, hik, hfail, nofun⟩
    exact absurd (hok _ hmem) nofun
  · intro hnf r hr
    obtain ⟨i, hik, rfl, hb⟩ := mem_answers.mp hr
    have hlt : (answers (upTo tries i)).length < len := by
      have hle : (answers (upTo tries (i + 1))).length ≤ (answers (upTo tries k)).length :=
        (answers_grow (Nat.succ_le_of_lt hik)).length_le
      rw [answers_upTo_succ hb, List.length_append, hk] at hle
      exact hle
    have hf := hnf i hlt
    cases hres : cdcTransmitFs (tries i) with
    | ok => rfl
    | busy => exact absurd hres hb
    | fail => exact absurd hres hf

end Sequences

/-- For every buffer, every length and every sequence of tries in which each run of
`USBD_BUSY` is finite: `_write` returns, and the bytes accepted are the first bytes of
the buffer, as many as it returns, exactly when no call fails before the last byte
has been answered. -/
theorem write_returns_iff (mem : Nat → UInt8) (ptr len : Nat) (tries : Nat → TransmitTry)
    (h : BusyEnds tries) : ∃ res k, (∀ n, k ≤ n → write mem ptr len (upTo tries n) = some res) ∧
      (ReportsSent mem ptr res ↔ NeverFails tries len) := by
  obtain ⟨k, hk⟩ := exists_answers h len
  refine ⟨⟨len, taken mem ptr (answers (upTo tries k))⟩, k, fun n hn => ?_, ?_⟩
  · have hp : answers (upTo tries k) <+: answers (upTo tries n) := answers_grow hn
    have htake : (answers (upTo tries n)).take len = answers (upTo tries k) := by
      rw [← hk]
      exact (List.prefix_iff_eq_take.mp hp).symm
    rw [write_eq, if_pos (hk ▸ hp.length_le), htake]
  · have hload : load mem ptr len = load mem ptr (answers (upTo tries k)).length := by rw [hk]
    unfold ReportsSent
    rw [Int.toNat_natCast, hload, taken_eq_load_iff]
    exact all_ok_iff hk

/-- Each byte is taken at the first call, and the next call is too early. -/
def everyOther (i : Nat) : TransmitTry := ⟨i % 2, .ok⟩

theorem write_two_bytes : ∃ res k,
    (∀ n, k ≤ n → write (fun a => UInt8.ofNat a) 1 2 (upTo everyOther n) = some res) ∧
      (ReportsSent (fun a => UInt8.ofNat a) 1 res ↔ NeverFails everyOther 2) := by
  refine write_returns_iff _ 1 2 everyOther fun n => ⟨2 * n, ?_, ?_⟩
  · exact Nat.le_mul_of_pos_left n (by decide)
  · simp [cdcTransmitFs, everyOther]

/-- The bytes 1 and 2; the transfer of the first fails. `_write` returns 2, and only
the byte 2 has been accepted. -/
theorem failed_byte_skipped :
    ∃ res, write (fun a => UInt8.ofNat a) 1 2 [⟨0, .fail⟩, ⟨0, .ok⟩] = some res ∧
      ¬ ReportsSent (fun a => UInt8.ofNat a) 1 res :=
  ⟨⟨2, [2]⟩, by decide, by unfold ReportsSent; decide⟩

end WriteCall

end BlackPill
