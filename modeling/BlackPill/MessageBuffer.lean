import BlackPill.ByteMemory
import BlackPill.CyclicBuffer

/-!
# Message buffers

The message buffers of `stream_buffer.c`: a cyclic byte buffer in which each
message lies behind its length in four bytes. A `StreamBuffer` here always has
`sbFLAGS_IS_MESSAGE_BUFFER` set, as every buffer of the firmware has. Indices and
sizes are far below 2^32, so `size_t` is `Nat`.

`Holds b q` says that the buffer `b` keeps the messages `q`, oldest first.

Results:
1. `holds_create`: a new buffer keeps no message.
2. `Holds.writeMessage`, `Holds.readMessage`: a write puts a message behind the
   others, a read takes the first one away.
3. `Holds.messages_eq`: the messages are determined by the bytes.
-/

namespace BlackPill

open ByteMemory CyclicBuffer

/-! ## Definitions -/

/-- `StreamBuffer_t`. The two tasks are kept as whether there is one. -/
structure StreamBuffer where
  xTail : Nat
  xHead : Nat
  xLength : Nat
  xTriggerLevelBytes : Nat
  xTaskWaitingToReceive : Bool
  xTaskWaitingToSend : Bool
  pucBuffer : Nat → UInt8

/-- `sbBYTES_TO_STORE_MESSAGE_LENGTH`, the size of a `size_t`. -/
def sbBytesToStoreMessageLength : Nat := 4

/-- `xMessageBufferCreate`, when there is memory for it: one byte more than asked
for is set aside, and a trigger level of 0 becomes 1. -/
def xMessageBufferCreate (xBufferSizeBytes : Nat) : StreamBuffer :=
  { xTail := 0, xHead := 0, xLength := xBufferSizeBytes + 1, xTriggerLevelBytes := 1
    xTaskWaitingToReceive := false, xTaskWaitingToSend := false
    pucBuffer := fun _ => 0x55 }

/-- `prvBytesInBuffer`. -/
def prvBytesInBuffer (b : StreamBuffer) : Nat :=
  let xCount := b.xLength + b.xHead - b.xTail
  if xCount ≥ b.xLength then xCount - b.xLength else xCount

/-- `xStreamBufferSpacesAvailable`. -/
def xStreamBufferSpacesAvailable (b : StreamBuffer) : Nat :=
  let xSpace := b.xLength + b.xTail - b.xHead - 1
  if xSpace ≥ b.xLength then xSpace - b.xLength else xSpace

/-- `prvWriteBytesToBuffer`: at most two copies, up to the end of the buffer and
from its start. Returns the buffer and the index behind what was written. -/
def prvWriteBytesToBuffer (b : StreamBuffer) (pucData : List UInt8) (xHead : Nat) :
    StreamBuffer × Nat :=
  let xFirstLength := min (b.xLength - xHead) pucData.length
  let first := write b.pucBuffer xHead (pucData.take xFirstLength)
  let both := if pucData.length > xFirstLength then write first 0 (pucData.drop xFirstLength)
    else first
  let xNext := xHead + pucData.length
  ({ b with pucBuffer := both }, if xNext ≥ b.xLength then xNext - b.xLength else xNext)

/-- `prvReadBytesFromBuffer`: the bytes and the index behind them. -/
def prvReadBytesFromBuffer (b : StreamBuffer) (xCount xTail : Nat) : List UInt8 × Nat :=
  let xFirstLength := min (b.xLength - xTail) xCount
  let first := load b.pucBuffer xTail xFirstLength
  let both := if xCount > xFirstLength then first ++ load b.pucBuffer 0 (xCount - xFirstLength)
    else first
  let xNext := xTail + xCount
  (both, if xNext ≥ b.xLength then xNext - b.xLength else xNext)

/-- `prvWriteMessageToBuffer`: the length and then the data, if there is space for
both. The head moves only when the data are in place. -/
def prvWriteMessageToBuffer (b : StreamBuffer) (pvTxData : List UInt8)
    (xSpace xRequiredSpace : Nat) : StreamBuffer × Nat :=
  if xSpace ≥ xRequiredSpace then
    let length := prvWriteBytesToBuffer b
      (leBytes sbBytesToStoreMessageLength pvTxData.length) b.xHead
    if pvTxData.length ≠ 0 then
      let data := prvWriteBytesToBuffer length.1 pvTxData length.2
      ({ data.1 with xHead := data.2 }, pvTxData.length)
    else (length.1, 0)
  else (b, 0)

/-- `prvReadMessageFromBuffer`. A message longer than the reader's space stays
where it is. -/
def prvReadMessageFromBuffer (b : StreamBuffer) (xBufferLengthBytes xBytesAvailable : Nat) :
    StreamBuffer × List UInt8 :=
  let length := prvReadBytesFromBuffer b sbBytesToStoreMessageLength b.xTail
  let xTempNextMessageLength := leValue length.1
  let xNextMessageLength :=
    if xTempNextMessageLength > xBufferLengthBytes then 0 else xTempNextMessageLength
  let xCount := min xNextMessageLength (xBytesAvailable - sbBytesToStoreMessageLength)
  if xCount ≠ 0 then
    let data := prvReadBytesFromBuffer b xCount length.2
    ({ b with xTail := data.2 }, data.1)
  else (b, [])

/-- The messages in the buffer, as its bytes spell them. -/
def messages (b : StreamBuffer) : List (List UInt8) :=
  unframe sbBytesToStoreMessageLength b.xLength
    (window b.xLength b.pucBuffer b.xTail (prvBytesInBuffer b))

/-- The buffer keeps the messages `q`, oldest first. -/
structure Holds (b : StreamBuffer) (q : List (List UInt8)) : Prop where
  tail_lt : b.xTail < b.xLength
  head_lt : b.xHead < b.xLength
  length_lt : b.xLength < 2 ^ 32
  nonempty : ∀ msg ∈ q, msg ≠ []
  bytes : window b.xLength b.pucBuffer b.xTail (prvBytesInBuffer b) =
    q.flatMap (frame sbBytesToStoreMessageLength)

namespace MessageBufferLemmas

variable {b : StreamBuffer} {q : List (List UInt8)} {msg data : List UInt8} {k i : Nat}

/-! ## The indices -/

theorem bytesInBuffer_eq (ht : b.xTail < b.xLength) (hh : b.xHead < b.xLength) :
    prvBytesInBuffer b = occupancy b.xLength b.xHead b.xTail := by
  rw [occupancy_eq hh ht]
  simp only [prvBytesInBuffer]
  split <;> split <;> omega

theorem spacesAvailable_add_bytes (ht : b.xTail < b.xLength) (hh : b.xHead < b.xLength) :
    xStreamBufferSpacesAvailable b + prvBytesInBuffer b + 1 = b.xLength := by
  simp only [prvBytesInBuffer, xStreamBufferSpacesAvailable]
  split <;> split <;> omega

theorem next_eq_mod {n : Nat} (hi : i < n) (hk : k ≤ n) :
    (if i + k ≥ n then i + k - n else i + k) = (i + k) % n := by
  rw [mod_of_lt_two_mul (by omega)]
  split <;> split <;> omega

/-! ## Copies with wrap-around -/

theorem write_eq_storeAll {buf : Nat → UInt8} {n : Nat} {xs : List UInt8}
    (h : i + xs.length ≤ n) : storeAll n buf (i % n) xs = write buf i xs := by
  induction xs generalizing buf i with
  | nil => rw [write_nil]; rfl
  | cons x xs ih =>
    rw [List.length_cons] at h
    rw [write_cons, storeAll, Nat.mod_eq_of_lt (show i < n by omega), ih (by omega)]
    rfl

theorem writeBytes_eq (hi : i < b.xLength) (hd : data.length ≤ b.xLength) :
    prvWriteBytesToBuffer b data i =
      ({ b with pucBuffer := storeAll b.xLength b.pucBuffer i data },
        (i + data.length) % b.xLength) := by
  simp only [prvWriteBytesToBuffer, next_eq_mod hi hd]
  congr 2
  by_cases hw : data.length ≤ b.xLength - i
  · rw [Nat.min_eq_right hw, if_neg (Nat.lt_irrefl _), List.take_length,
      ← write_eq_storeAll (show i + data.length ≤ b.xLength by omega), Nat.mod_eq_of_lt hi]
  · rw [Nat.min_eq_left (by omega), if_pos (by omega)]
    have htake : (data.take (b.xLength - i)).length = b.xLength - i := by
      rw [List.length_take, Nat.min_eq_left (by omega)]
    have hend : (i + (data.take (b.xLength - i)).length) % b.xLength = 0 % b.xLength := by
      rw [htake, Nat.add_sub_cancel' (Nat.le_of_lt hi), Nat.mod_self, Nat.zero_mod]
    rw [← write_eq_storeAll (show i + _ ≤ b.xLength by omega), Nat.mod_eq_of_lt hi,
      ← write_eq_storeAll (i := 0) (n := b.xLength) (by rw [List.length_drop]; omega), ← hend,
      ← storeAll_append hi, List.take_append_drop]

theorem window_eq_load {buf : Nat → UInt8} {n : Nat} (h : i + k ≤ n) :
    window n buf i k = load buf i k := by
  apply List.map_congr_left
  intro j hj
  rw [Nat.mod_eq_of_lt]
  exact Nat.lt_of_lt_of_le (Nat.add_lt_add_left (List.mem_range.mp hj) i) h

theorem readBytes_eq (hi : i < b.xLength) (hk : k ≤ b.xLength) :
    prvReadBytesFromBuffer b k i =
      (window b.xLength b.pucBuffer i k, (i + k) % b.xLength) := by
  simp only [prvReadBytesFromBuffer, next_eq_mod hi hk]
  congr 1
  by_cases hw : k ≤ b.xLength - i
  · rw [Nat.min_eq_right hw, if_neg (Nat.lt_irrefl _), window_eq_load (by omega)]
  · have hsplit : k = b.xLength - i + (k - (b.xLength - i)) := by omega
    have hend : (i + (b.xLength - i)) % b.xLength = 0 := by
      rw [Nat.add_sub_cancel' (Nat.le_of_lt hi), Nat.mod_self]
    rw [Nat.min_eq_left (by omega), if_pos (by omega)]
    conv => rhs; rw [hsplit, window_add, hend]
    rw [window_eq_load (by omega), window_eq_load (by omega)]

theorem writeMessage_eq (hi : b.xHead < b.xLength) (hm : msg ≠ []) {xSpace : Nat}
    (hlen : msg.length + sbBytesToStoreMessageLength ≤ b.xLength)
    (hs : msg.length + sbBytesToStoreMessageLength ≤ xSpace) :
    prvWriteMessageToBuffer b msg xSpace (msg.length + sbBytesToStoreMessageLength) =
      ({ b with
          pucBuffer := storeAll b.xLength b.pucBuffer b.xHead
            (frame sbBytesToStoreMessageLength msg)
          xHead := (b.xHead + (frame sbBytesToStoreMessageLength msg).length) % b.xLength },
        msg.length) := by
  have hne : msg.length ≠ 0 := fun h0 => hm (List.length_eq_zero_iff.mp h0)
  have hnext : (b.xHead + sbBytesToStoreMessageLength) % b.xLength < b.xLength :=
    Nat.mod_lt _ (Nat.lt_of_le_of_lt (Nat.zero_le _) hi)
  have hl : (leBytes sbBytesToStoreMessageLength msg.length).length ≤ b.xLength := by
    rw [leBytes_length]
    exact Nat.le_trans (Nat.le_add_left _ _) hlen
  have hword := writeBytes_eq hi hl
  have hdata := writeBytes_eq (b := { b with
      pucBuffer := storeAll b.xLength b.pucBuffer b.xHead
        (leBytes sbBytesToStoreMessageLength msg.length) }) hnext
    (show msg.length ≤ b.xLength from Nat.le_trans (Nat.le_add_right _ _) hlen)
  unfold prvWriteMessageToBuffer
  simp only [ge_iff_le, if_pos hs, if_pos hne, hword, leBytes_length, hdata, frame,
    storeAll_append hi, Nat.mod_add_mod, Nat.add_assoc, List.length_append]

theorem length_le_of_mem {w : Nat} (hm : msg ∈ q) : msg.length ≤ (q.flatMap (frame w)).length := by
  obtain ⟨l, r, rfl⟩ := List.append_of_mem hm
  rw [List.flatMap_append, List.flatMap_cons, List.length_append, List.length_append, frame_length]
  omega

end MessageBufferLemmas

/-! ## What a buffer holds -/

section Contents

open MessageBufferLemmas

variable {b : StreamBuffer} {q : List (List UInt8)} {msg : List UInt8}

/-- A new buffer is empty. -/
theorem holds_create {xBufferSizeBytes : Nat} (h : xBufferSizeBytes + 1 < 2 ^ 32) :
    Holds (xMessageBufferCreate xBufferSizeBytes) [] where
  tail_lt := Nat.succ_pos _
  head_lt := Nat.succ_pos _
  length_lt := h
  nonempty := by simp
  bytes := by simp [xMessageBufferCreate, prvBytesInBuffer]

theorem Holds.bytes_eq (h : Holds b q) :
    prvBytesInBuffer b = (q.flatMap (frame sbBytesToStoreMessageLength)).length := by
  rw [← h.bytes, window_length]

theorem Holds.spaces_add (h : Holds b q) :
    xStreamBufferSpacesAvailable b + prvBytesInBuffer b + 1 = b.xLength :=
  spacesAvailable_add_bytes h.tail_lt h.head_lt

/-- There is something to read exactly when a message is there. -/
theorem Holds.readable_iff (h : Holds b q) :
    prvBytesInBuffer b > sbBytesToStoreMessageLength ↔ q ≠ [] := by
  rw [h.bytes_eq]
  cases q with
  | nil => simp
  | cons msg q =>
    have hm : 0 < msg.length := List.length_pos_iff.mpr (h.nonempty msg List.mem_cons_self)
    rw [List.flatMap_cons, List.length_append, frame_length]
    exact iff_of_true (by omega) (List.cons_ne_nil _ _)

/-- The bytes determine the messages. -/
theorem Holds.messages_eq (h : Holds b q) : messages b = q := by
  have hlt : (q.flatMap (frame sbBytesToStoreMessageLength)).length < b.xLength := by
    rw [← h.bytes_eq, bytesInBuffer_eq h.tail_lt h.head_lt]
    exact occupancy_lt (Nat.lt_of_le_of_lt (Nat.zero_le _) h.tail_lt)
  have hpos : 0 < sbBytesToStoreMessageLength := by decide
  unfold messages
  rw [h.bytes]
  refine unframe_flatMap hpos (fun msg hm => ?_)
    (Nat.le_trans (length_le_flatMap hpos q) (Nat.le_of_lt hlt))
  exact Nat.lt_of_le_of_lt (length_le_of_mem hm) (Nat.lt_trans hlt h.length_lt)

/-- `Holds` from the two indices. -/
theorem Holds.of_window (ht : b.xTail < b.xLength) (hh : b.xHead < b.xLength)
    (hl : b.xLength < 2 ^ 32) (hn : ∀ msg ∈ q, msg ≠ [])
    (hw : window b.xLength b.pucBuffer b.xTail (occupancy b.xLength b.xHead b.xTail) =
      q.flatMap (frame sbBytesToStoreMessageLength)) : Holds b q :=
  ⟨ht, hh, hl, hn, by rw [bytesInBuffer_eq ht hh]; exact hw⟩

/-- A message for which there is space goes behind the others. -/
theorem Holds.writeMessage (h : Holds b q) (hm : msg ≠ [])
    (hs : msg.length + sbBytesToStoreMessageLength ≤ xStreamBufferSpacesAvailable b) :
    ∃ buf head, prvWriteMessageToBuffer b msg (xStreamBufferSpacesAvailable b)
        (msg.length + sbBytesToStoreMessageLength) =
      ({ b with pucBuffer := buf, xHead := head }, msg.length) ∧
    Holds { b with pucBuffer := buf, xHead := head } (q ++ [msg]) := by
  have hspace := h.spaces_add
  have hocc := bytesInBuffer_eq h.tail_lt h.head_lt
  have hmod : 0 < b.xLength := Nat.lt_of_le_of_lt (Nat.zero_le _) h.head_lt
  have hlen : (frame sbBytesToStoreMessageLength msg).length =
      sbBytesToStoreMessageLength + msg.length := frame_length
  have hroom : occupancy b.xLength b.xHead b.xTail +
      (frame sbBytesToStoreMessageLength msg).length < b.xLength := by
    omega
  refine ⟨storeAll b.xLength b.pucBuffer b.xHead (frame sbBytesToStoreMessageLength msg),
    (b.xHead + (frame sbBytesToStoreMessageLength msg).length) % b.xLength, ?_, ?_⟩
  · rw [writeMessage_eq h.head_lt hm (by omega) hs]
  · have hn : ∀ m ∈ q ++ [msg], m ≠ [] := by
      intro m hmem
      rcases List.mem_append.mp hmem with hmem | hmem
      · exact h.nonempty m hmem
      · exact List.mem_singleton.mp hmem ▸ hm
    refine Holds.of_window h.tail_lt (Nat.mod_lt _ hmod) h.length_lt hn ?_
    calc
      window b.xLength _ b.xTail (occupancy b.xLength _ b.xTail)
        = window b.xLength (storeAll b.xLength b.pucBuffer b.xHead _) b.xTail
            (occupancy b.xLength b.xHead b.xTail + _) := by
          rw [occupancy_advance_head h.head_lt h.tail_lt hroom]
      _ = window b.xLength b.pucBuffer b.xTail (occupancy b.xLength b.xHead b.xTail) ++
            frame sbBytesToStoreMessageLength msg := by
          conv => lhs; arg 2; rw [← tail_add_occupancy h.head_lt h.tail_lt]
          exact window_storeAll (Nat.le_of_lt hroom)
      _ = (q ++ [msg]).flatMap (frame sbBytesToStoreMessageLength) := by
          rw [← hocc, h.bytes, List.flatMap_append, List.flatMap_singleton]

/-- A message that the reader has space for is taken from the front. -/
theorem Holds.readMessage (h : Holds b (msg :: q)) {xBufferLengthBytes : Nat}
    (hfit : msg.length ≤ xBufferLengthBytes) : ∃ tail,
    prvReadMessageFromBuffer b xBufferLengthBytes (prvBytesInBuffer b) =
      ({ b with xTail := tail }, msg) ∧ Holds { b with xTail := tail } q := by
  have hbytes := h.bytes
  have hlen := h.bytes_eq
  have hspace := h.spaces_add
  have hocc := bytesInBuffer_eq h.tail_lt h.head_lt
  have hmod : 0 < b.xLength := Nat.lt_of_le_of_lt (Nat.zero_le _) h.tail_lt
  rw [List.flatMap_cons] at hbytes hlen
  rw [List.length_append, frame_length] at hlen
  have hpos : 0 < msg.length := List.length_pos_iff.mpr (h.nonempty msg List.mem_cons_self)
  have hword : msg.length < 256 ^ sbBytesToStoreMessageLength :=
    Nat.lt_trans (show msg.length < b.xLength by omega) h.length_lt
  -- the bytes of the buffer, cut where the length, the data and the other frames begin
  rw [hlen, Nat.add_assoc, window_add, window_add, frame, List.append_assoc] at hbytes
  obtain ⟨hw, hrest⟩ := List.append_inj hbytes (by rw [window_length, leBytes_length])
  obtain ⟨hmsg, hrest⟩ := List.append_inj hrest window_length
  rw [Nat.mod_add_mod, Nat.add_assoc] at hrest
  refine ⟨(b.xTail + (sbBytesToStoreMessageLength + msg.length)) % b.xLength, ?_, ?_⟩
  · unfold prvReadMessageFromBuffer
    rw [readBytes_eq h.tail_lt (by omega)]
    simp only [hw, leValue_leBytes hword]
    rw [if_neg (Nat.not_lt.mpr hfit), Nat.min_eq_left (by omega), if_pos (by omega),
      readBytes_eq (Nat.mod_lt _ hmod) (by omega)]
    simp only [hmsg, Nat.mod_add_mod, Nat.add_assoc]
  · refine Holds.of_window (Nat.mod_lt _ hmod) h.head_lt h.length_lt
      (fun m hm => h.nonempty m (List.mem_cons_of_mem _ hm)) ?_
    have hrem : occupancy b.xLength b.xHead
        ((b.xTail + (sbBytesToStoreMessageLength + msg.length)) % b.xLength) =
        (q.flatMap (frame sbBytesToStoreMessageLength)).length := by
      rw [occupancy_advance_tail h.head_lt h.tail_lt (by omega), ← hocc, hlen,
        Nat.add_sub_cancel_left]
    simp only [hrem, hrest]

end Contents

end BlackPill
