import BlackPill.Heap4Blocks
import Mathlib.Data.Nat.Bitwise

/-!
# The calls of the kernel's heap

Each call on the memory is an operation on the tiling that the memory holds.

Results:
1. `pvPortMalloc_of_some`, `pvPortMalloc_of_none`: `pvPortMalloc` takes the first free block that
   is large enough, and returns NULL if there is none.
2. `freeMark_eq`, `freeLink_eq`: `vPortFree` clears the block and gives it back, and
   joins it with the free blocks on both sides.
3. All of them return, and keep the contents of the other blocks in use.
-/

namespace BlackPill.Heap4

open ByteMemory Tilings LinkedNodes Heap4LinksLemmas Heap4BlocksLemmas

/-! ## Definitions -/

/-- The heap is initialised and holds the blocks `ts`, with the counts that go with them. -/
structure Sound (L : Place) (s : Heap) (ts : List (Tile Owner)) : Prop where
  pxEnd : s.pxEnd = L.uxEndAddress
  blocks : Represents L s.mem ts
  coalesced : Coalesced ts
  free : s.xFreeBytesRemaining = freeBytes ts
  least : s.xMinimumEverFreeBytesRemaining ≤ s.xFreeBytesRemaining

/-- What `pvPortMalloc` does to the tiling. -/
def allocate (xWantedSize : Nat) (ts : List (Tile Owner)) : Option (Nat × List (Tile Owner)) :=
  if requiredSize xWantedSize = 0 then none
  else takeFirst heapMinimumBlockSize (requiredSize xWantedSize) (.app xWantedSize) ts

/-- The bytes behind the header of a block. -/
def Payload (t : Tile Owner) (j : Nat) : Prop :=
  t.addr + xHeapStructSize ≤ j ∧ j < t.addr + t.size

namespace Heap4CallsLemmas

variable {L : Place} {N S : Nat → Nat} {A B ts : List (Tile Owner)} {t u : Tile Owner}
  {mem mem' : Mem} {a z w want n it : Nat} {s : Heap}

/-! ## Words -/

/-- The size of a block leaves room for the top bit. -/
theorem size_lt (h : Linked L N S ts) (ht : t ∈ ts) : t.size < 2 ^ 31 := by
  have hb := h.tiled.bounds ht
  have hs := L.small
  obtain ⟨_, hu, _, _, he⟩ := place_bounds L
  omega

theorem freeBytes_lt (h : Linked L N S ts) : freeBytes ts < 2 ^ 31 := by
  have hb := h.tiled.freeBytes_add
  have hs := L.small
  obtain ⟨_, hu, _, _, he⟩ := place_bounds L
  omega

theorem and_mask_eq_zero (h : z < 2 ^ 31) : z &&& heapBlockAllocatedBitmask = 0 := by
  rw [show heapBlockAllocatedBitmask = 2 ^ 31 from rfl, Nat.and_two_pow, Nat.testBit_lt_two_pow h]
  rfl

theorem and_mask_ne_zero (h : 2 ^ 31 ≤ z) (hz : z < 2 ^ 32) :
    z &&& heapBlockAllocatedBitmask ≠ 0 := by
  rw [show heapBlockAllocatedBitmask = 2 ^ 31 from rfl, Nat.and_two_pow,
    Nat.testBit_of_two_pow_le_and_two_pow_add_one_gt h hz]
  decide

theorem or_mask (h : z < 2 ^ 31) : z ||| heapBlockAllocatedBitmask = z + 2 ^ 31 := by
  have ho := Nat.two_pow_add_eq_or_of_lt h 1
  rw [Nat.mul_one] at ho
  rw [Nat.or_comm, Nat.add_comm]
  exact ho.symm

theorem clear_mask (h : z < 2 ^ 31) :
    (z + 2 ^ 31) &&& (heapSizeMax - heapBlockAllocatedBitmask) = z := by
  rw [show heapSizeMax - heapBlockAllocatedBitmask = 2 ^ 31 - 1 from rfl,
    Nat.and_two_pow_sub_one_eq_mod, Nat.add_mod_right, Nat.mod_eq_of_lt h]

/-- A size other than 0 that is required has the room asked for, and is that of a block. -/
theorem requiredSize_spec (h : requiredSize n ≠ 0) : n + xHeapStructSize ≤ requiredSize n ∧
    8 ∣ requiredSize n ∧ 16 ≤ requiredSize n ∧ requiredSize n < 2 ^ 32 := by
  unfold requiredSize heapAddWillOverflow heapSizeMax xHeapStructSize portByteAlignment at h ⊢
  dsimp only at h ⊢
  split at h
  · next h0 =>
    split at h
    · next h1 =>
      split at h
      · next h2 =>
        split at h
        · next h3 =>
          rw [if_pos h0, if_pos h1, if_pos h2, if_pos h3]
          omega
        · exact absurd rfl h
      · next h2 =>
        rw [if_pos h0, if_pos h1, if_neg h2]
        omega
    · exact absurd rfl h
  · exact absurd rfl h

/-! ## Taking a block -/

theorem node_inside (h : Linked L N S ts) (ht : t ∈ ts) (h8 : 8 ∣ want) (hw : want ≤ t.size) :
    L.Node (t.addr + want) := by
  obtain ⟨hd, hlo, hhi, _⟩ := node_of_mem h ht
  exact .inr ⟨Nat.dvd_add hd h8, by omega, by omega⟩

theorem node_lastFrom (h : Linked L N S (A ++ B)) :
    L.Node (lastFrom L.xStart (freeAddrs A)) :=
  node_of_mem_chain h lastFrom_mem_chain

theorem size_of_leaving (h : Linked L N S (A ++ ⟨a, z, some .leaving⟩ :: B)) : S a = z :=
  h.headers ⟨a, z, some .leaving⟩ (by simp)

/-- `splitBlock` cuts the rest off a block that is outside the list. -/
theorem splitBlock_eq (hv : View L mem N S)
    (h : Linked L N S (A ++ ⟨t.addr, t.size, some .leaving⟩ :: B)) (h8 : 8 ∣ want)
    (h16 : 16 ≤ want) (hw : want ≤ t.size) :
    ∃ mem' N' S', splitBlock mem want (lastFrom L.xStart (freeAddrs A)) t.addr = some mem' ∧
      View L mem' N' S' ∧
      Linked L N' S' (A ++ ⟨t.addr, takenSize heapMinimumBlockSize want t.size, some .leaving⟩ ::
        (remainder heapMinimumBlockSize want t ++ B)) ∧
      Untouched [lastFrom L.xStart (freeAddrs A), t.addr, t.addr + want] mem mem' := by
  have hmem : ⟨t.addr, t.size, some .leaving⟩ ∈ A ++ ⟨t.addr, t.size, some .leaving⟩ :: B := by
    simp
  have hnode : L.Node t.addr := (node_of_mem h hmem).2.2.2
  have hnew : L.Node (t.addr + want) :=
    node_inside (t := ⟨t.addr, t.size, some .leaving⟩) h hmem h8 hw
  have hprev := node_lastFrom h
  have hlt : t.size < 2 ^ 31 := size_lt (t := ⟨t.addr, t.size, some .leaving⟩) h hmem
  have hsize : xBlockSize mem t.addr = t.size := (hv.size _ hnode).trans (size_of_leaving h)
  unfold splitBlock takenSize remainder
  rw [hsize]
  by_cases hl : heapMinimumBlockSize < t.size - want
  · have hcut : want + 16 ≤ t.size := by
      unfold heapMinimumBlockSize xHeapStructSize at hl
      omega
    have halign : ¬ (t.addr + want) % portByteAlignment ≠ 0 := by
      obtain ⟨hd, _⟩ := node_of_mem h hmem
      have ha : 8 ∣ t.addr := hd
      unfold portByteAlignment
      omega
    have hv3 := view_setSize (view_setSize hv hnew (v := t.size - want) (by omega)) hnode
      (v := want) (by omega)
    have hread := hv3.next _ hprev
    rw [if_pos hl, if_pos hl, if_pos hl, if_neg halign]
    dsimp only
    rw [hread]
    have hc := linked_cut h h8 h16 hcut
    have hshape : A ++ ⟨t.addr, want, some .leaving⟩ ::
        ⟨t.addr + want, t.size - want, some .leaving⟩ :: B =
        (A ++ [⟨t.addr, want, some .leaving⟩]) ++
          ⟨t.addr + want, t.size - want, some .leaving⟩ :: B := by simp
    have hlast : freeAddrs (A ++ [⟨t.addr, want, some .leaving⟩]) = freeAddrs A := by
      rw [freeAddrs_owned rfl]
      exact List.append_nil _
    rw [hshape] at hc
    have hin := linked_linkIn hc
    rw [hlast] at hin
    have hN := hv.next _ hprev
    refine ⟨_, _, _, rfl, view_setNext (view_setNext hv3 hnew ?_) hprev (node_lt hnew), ?_, ?_⟩
    · rw [← hN]
      exact pxNextFreeBlock_lt
    · simpa using hin
    · exact untouched_setNext (untouched_setNext (untouched_setSize (untouched_setSize
        untouched_refl (by simp)) (by simp)) (by simp)) (by simp)
  · rw [if_neg hl, if_neg hl, if_neg hl]
    exact ⟨mem, N, S, rfl, hv, h, untouched_refl⟩

/-- What a successful `pvPortMalloc` does to the counts. -/
structure Counted (s s' : Heap) (size : Nat) : Prop where
  pxEnd : s'.pxEnd = s.pxEnd
  free : s'.xFreeBytesRemaining = sub32 s.xFreeBytesRemaining size
  least : s'.xMinimumEverFreeBytesRemaining =
    min s.xMinimumEverFreeBytesRemaining s'.xFreeBytesRemaining
  allocations : s'.xNumberOfSuccessfulAllocations = add32 s.xNumberOfSuccessfulAllocations 1
  frees : s'.xNumberOfSuccessfulFrees = s.xNumberOfSuccessfulFrees

/-- What a part of `vPortFree` does to the counts. -/
structure Freed (s s' : Heap) (size frees : Nat) : Prop where
  free : s'.xFreeBytesRemaining = s.xFreeBytesRemaining + size
  least : s'.xMinimumEverFreeBytesRemaining = s.xMinimumEverFreeBytesRemaining
  allocations : s'.xNumberOfSuccessfulAllocations = s.xNumberOfSuccessfulAllocations
  frees : s'.xNumberOfSuccessfulFrees = frees

/-- `takeBlock` carves the block found. -/
theorem takeBlock_eq (h : Represents L s.mem (A ++ t :: B)) (hf : t.free = true) (h8 : 8 ∣ want)
    (h16 : 16 ≤ want) (hw : want ≤ t.size) :
    ∃ s', takeBlock L s want (lastFrom L.xStart (freeAddrs A)) t.addr =
        some (s', t.addr + xHeapStructSize) ∧
      Represents L s'.mem (A ++ carve heapMinimumBlockSize want (.app w) t ++ B) ∧
      Counted s s' (takenSize heapMinimumBlockSize want t.size) ∧
      Untouched [lastFrom L.xStart (freeAddrs A), t.addr, t.addr + want] s.mem s'.mem := by
  have hmem : t ∈ A ++ t :: B := by simp
  obtain ⟨hd, hlo, hhi, hnode⟩ := node_of_mem h hmem
  have hprev := node_lastFrom h
  have hlt := size_lt h hmem
  have hnext : pxNextFreeBlock s.mem (lastFrom L.xStart (freeAddrs A)) = t.addr := by
    have hc := h.chain
    rw [freeAddrs_free hf] at hc
    exact hc.next_lastFrom
  have hvalid : ¬ ¬ L.Valid (t.addr + xHeapStructSize) := by
    have hg := (h.grain t hmem).2
    unfold xHeapStructSize
    exact not_not_intro (valid_of_mem_heap (by omega) (by omega))
  have hself : View L s.mem (pxNextFreeBlock s.mem) (xBlockSize s.mem) := view_self
  have hv1 := view_setNext hself hprev (v := pxNextFreeBlock s.mem t.addr) pxNextFreeBlock_lt
  have hl1 := linked_unlink h hf
  have hsize1 := hv1.size _ hnode
  rw [size_of_free h hmem hf] at hsize1
  obtain ⟨mem2, N2, S2, he, hv2, hl2, hu2⟩ := splitBlock_eq hv1 hl1 h8 h16 hw
  have hz : S2 t.addr = takenSize heapMinimumBlockSize want t.size := size_of_leaving hl2
  have hsize2 := (hv2.size _ hnode).trans hz
  have hzlt : takenSize heapMinimumBlockSize want t.size < 2 ^ 31 :=
    Nat.lt_of_le_of_lt (takenSize_bounds hw).2 hlt
  have halign : ¬ (t.addr + xHeapStructSize) % portByteAlignment ≠ 0 := by
    unfold xHeapStructSize portByteAlignment
    omega
  unfold takeBlock
  rw [hnext, if_neg hvalid]
  dsimp only
  rw [hsize1, if_neg (Nat.not_lt.mpr hw), he, Option.bind_some, hsize2, or_mask hzlt,
    if_neg halign]
  refine ⟨_, rfl, ?_, ⟨rfl, rfl, ?_, rfl, rfl⟩, ?_⟩
  · have hm := linked_mark (w := w) hl2
    have hv := view_setNext (view_setSize hv2 hnode (v := takenSize heapMinimumBlockSize want t.size
      + 2 ^ 31) (by omega)) hnode (v := 0) (by decide)
    have hr := represents_of_view hv hm
    rw [carve, List.append_assoc, List.cons_append]
    exact hr
  · show (if _ then _ else _) = min _ _
    rw [min_comm, min_def_lt]
  · refine untouched_setNext (untouched_setSize ?_ (by simp)) (by simp)
    intro j hj
    exact (hu2 j hj).trans (untouched_setNext untouched_refl (by simp) j hj)

/-! ## pvPortMalloc -/

/-- The loop may follow every pointer of the list. -/
theorem valid_of_chain (h : Linked L N S ts) (ha : a ∈ freeAddrs ts ++ [L.uxEndAddress]) :
    L.Valid a ∧ a ≠ 0 := by
  obtain ⟨_, hu, _, hle, _⟩ := place_bounds L
  have h0 := L.nonnull.1
  rcases List.mem_append.mp ha with ha | ha
  · obtain ⟨t, ht, _, rfl⟩ := mem_freeAddrs ha
    have hb := h.tiled.bounds ht
    exact ⟨valid_of_mem_heap hb.1 (by omega), by omega⟩
  · obtain rfl := List.mem_singleton.mp ha
    exact ⟨valid_of_mem_heap (by omega) (by omega), by omega⟩

theorem small_of_mem_freeAddrs (h : Linked L N S ts)
    (hs : ∀ u ∈ ts, u.free = true → u.size < want) (ha : a ∈ freeAddrs ts) : S a < want := by
  obtain ⟨u, hu, hf, rfl⟩ := mem_freeAddrs ha
  rw [size_of_free h hu hf]
  exact hs u hu hf

/-- The stores of `takeBlock` meet no payload of another block. -/
theorem payload_untouched (h : Linked L N S (A ++ t :: B)) (hw : want ≤ t.size)
    (hm : Untouched [lastFrom L.xStart (freeAddrs A), t.addr, t.addr + want] mem mem')
    (hu : u ∈ A ++ B) (ho : u.free = false) {j : Nat} (hj : Payload u j) : mem' j = mem j := by
  have hmem : u ∈ A ++ t :: B := by
    rcases List.mem_append.mp hu with hu | hu <;> simp [hu]
  have hb := h.tiled.bounds hmem
  have hout := h.tiled.outside hu
  obtain ⟨hlo, hhi⟩ := hj
  unfold xHeapStructSize at hlo
  refine hm j fun b hb' => ?_
  rcases List.mem_cons.mp hb' with rfl | hb'
  · have hne := owned_notMem_chain h hmem ho
    have hap := node_apart (node_of_mem h hmem).2.2.2 (node_lastFrom h)
    have hlast : lastFrom L.xStart (freeAddrs A) ∈ L.xStart :: freeAddrs A := lastFrom_mem
    rcases List.mem_cons.mp hlast with he | hm'
    · rw [he]
      obtain ⟨_, hus, _, _, hue⟩ := place_bounds L
      have hx := L.apart
      unfold xHeapStructSize at hx ⊢
      omega
    · obtain ⟨v, hv, hvf, hva⟩ := mem_freeAddrs hm'
      have hvm : v ∈ A ++ t :: B := by simp [hv]
      have hvg := (h.grain v hvm).2
      rw [← hva]
      have huv : u ≠ v := fun he => by
        rw [he, hvf] at ho
        cases ho
      unfold xHeapStructSize
      rcases h.tiled.apart hmem hvm huv with hlt | hlt <;> omega
  · have hg := (h.grain t (by simp)).2
    unfold xHeapStructSize
    rcases List.mem_cons.mp hb' with rfl | hb'
    · omega
    · obtain rfl := List.mem_singleton.mp hb'
      omega

end Heap4CallsLemmas

open Heap4CallsLemmas

section Malloc

variable {L : Place} {s : Heap} {A B ts : List (Tile Owner)} {t : Tile Owner} {n : Nat}

/-- The two outcomes of an allocation on the tiling. -/
theorem allocate_cases (n : Nat) (ts : List (Tile Owner)) :
    (allocate n ts = none ∧ (requiredSize n = 0 ∨
      ∀ u ∈ ts, u.free = true → u.size < requiredSize n)) ∨
    ∃ A t B, ts = A ++ t :: B ∧ requiredSize n ≠ 0 ∧
      (∀ u ∈ A, u.free = true → u.size < requiredSize n) ∧ t.free = true ∧
      requiredSize n ≤ t.size ∧ allocate n ts = some (t.addr,
        A ++ carve heapMinimumBlockSize (requiredSize n) (.app n) t ++ B) := by
  unfold allocate
  by_cases h0 : requiredSize n = 0
  · exact .inl ⟨if_pos h0, .inl h0⟩
  · rw [if_neg h0]
    rcases first_or_none (requiredSize n) ts with hall | ⟨A, t, B, rfl, hA, hf, hw⟩
    · exact .inl ⟨takeFirst_of_none hall, .inr hall⟩
    · exact .inr ⟨A, t, B, rfl, h0, hA, hf, hw, takeFirst_of_first hA hf hw⟩

/-- Without a block to take `pvPortMalloc` returns NULL. -/
theorem pvPortMalloc_of_none (h : Sound L (ready L s) ts)
    (hn : requiredSize n = 0 ∨ ∀ u ∈ ts, u.free = true → u.size < requiredSize n) :
    pvPortMalloc L s n = some (ready L s, 0) := by
  unfold pvPortMalloc
  dsimp only
  split
  · split
    · next hreq =>
      have hall := hn.resolve_left (Nat.ne_of_gt hreq.1)
      have hc := h.blocks.chain
      have hvalid := fun x hx => valid_of_chain (a := x) h.blocks hx
      have hfind := findBlock_eq hc hvalid
        (fun x hx => small_of_mem_freeAddrs h.blocks hall hx) (.inr h.blocks.endNext)
        (freeAddrs_length_lt h.blocks)
      rw [if_neg (not_not_intro (hvalid _ hc.next_mem).1), hfind, Option.bind_some,
        if_neg (not_not_intro h.pxEnd.symm)]
    · rfl
  · rfl

/-- `pvPortMalloc` takes the first block that is large enough. -/
theorem pvPortMalloc_of_some (h : Sound L (ready L s) (A ++ t :: B)) (h0 : requiredSize n ≠ 0)
    (hA : ∀ u ∈ A, u.free = true → u.size < requiredSize n) (hf : t.free = true)
    (hw : requiredSize n ≤ t.size) :
    ∃ s', pvPortMalloc L s n = some (s', t.addr + xHeapStructSize) ∧
      Sound L s' (A ++ carve heapMinimumBlockSize (requiredSize n) (.app n) t ++ B) ∧
      Counted (ready L s) s' (takenSize heapMinimumBlockSize (requiredSize n) t.size) ∧
      ∀ u ∈ A ++ B, u.free = false → ∀ j, Payload u j → s'.mem j = (ready L s).mem j := by
  obtain ⟨_, h8, h16, _⟩ := requiredSize_spec h0
  have hmem : t ∈ A ++ t :: B := by simp
  have hlt := size_lt h.blocks hmem
  have hfree := size_le_freeBytes hmem hf
  have hbytes := freeBytes_lt h.blocks
  have hc := h.blocks.chain
  have hvalid := fun x hx => valid_of_chain (a := x) h.blocks hx
  rw [freeAddrs_free hf] at hc
  have hne : t.addr ≠ L.uxEndAddress := by
    have hb := h.blocks.tiled.bounds hmem
    omega
  have hfind : findBlock L (ready L s).mem (requiredSize n) L.configTotalHeapSize L.xStart
      (pxNextFreeBlock (ready L s).mem L.xStart) =
      some (lastFrom L.xStart (freeAddrs A), t.addr) := by
    have hlen := freeAddrs_length_lt h.blocks
    rw [freeAddrs_free hf, List.length_append] at hlen
    refine findBlock_eq (chain_append.mp hc).1 (fun x hx => hvalid x ?_) (fun x hx => ?_)
      (.inl ?_) (by omega)
    · rw [freeAddrs_free hf]
      rcases List.mem_append.mp hx with hx | hx
      · simp [hx]
      · simp [List.mem_singleton.mp hx]
    · obtain ⟨u, hu, huf, rfl⟩ := mem_freeAddrs hx
      rw [size_of_free h.blocks (by simp [hu]) huf]
      exact hA u hu huf
    · rw [size_of_free h.blocks hmem hf]
      exact hw
  obtain ⟨s', he, hr, hcount, hm⟩ := takeBlock_eq (w := n) h.blocks hf h8 h16 hw
  refine ⟨s', ?_, ⟨hcount.pxEnd.trans h.pxEnd, hr, coalesced_carve h.coalesced hf, ?_, ?_⟩, hcount,
    fun u hu ho j hj => payload_untouched h.blocks hw hm hu ho hj⟩
  · unfold pvPortMalloc
    dsimp only
    rw [if_pos (and_mask_eq_zero (by omega)), if_pos ⟨by omega, by rw [h.free]; omega⟩,
      if_neg (not_not_intro (hvalid _ h.blocks.chain.next_mem).1), hfind, Option.bind_some,
      if_pos (by rw [h.pxEnd]; exact hne)]
    exact he
  · have hcarve := freeBytes_carve (L := A) (R := B) heapMinimumBlockSize (Owner.app n) hf hw
    rw [hcount.free, h.free, sub32]
    omega
  · rw [hcount.least]
    exact min_le_right _ _

end Malloc

/-! ## vPortFree -/

section Free

variable {L : Place} {s : Heap} {N S : Nat → Nat} {A B ts : List (Tile Owner)} {t u : Tile Owner}
  {mem mem' : Mem} {a z w it : Nat} {bytes : List UInt8}

/-- What is written in the payload of a block leaves the headers alone. -/
theorem represents_write (bytes : List UInt8) (h : Represents L mem ts) (ht : t ∈ ts) {j : Nat}
    (hj : t.addr + xHeapStructSize ≤ j) (hl : j + bytes.length ≤ t.addr + t.size) :
    Represents L (write mem j bytes) ts := by
  have hnode := fun b (hb : b ∈ L.xStart :: freeAddrs ts) => node_of_mem_chain h hb
  obtain ⟨hd, hlo, hhi, _⟩ := node_of_mem h ht
  obtain ⟨_, hus, _, _, hue⟩ := place_bounds L
  have hx := L.apart
  unfold xHeapStructSize at hj hx
  have hout : ∀ b, (∃ u ∈ ts, u.addr = b) ∨ b = L.xStart ∨ b = L.uxEndAddress →
      ∀ i, b ≤ i → i < b + 8 → write mem j bytes i = mem i := by
    intro b hb i hbi hib
    refine write_outside ?_
    rcases hb with ⟨u, hu, rfl⟩ | rfl | rfl
    · have hg := (h.grain u hu).2
      by_cases huu : u = t
      · rw [huu] at hib
        omega
      · rcases h.tiled.apart hu ht huu with hlt | hlt <;> omega
    · omega
    · omega
  have hnext : ∀ b, (∃ u ∈ ts, u.addr = b) ∨ b = L.xStart ∨ b = L.uxEndAddress →
      pxNextFreeBlock (write mem j bytes) b = pxNextFreeBlock mem b := fun b hb =>
    congrArg leValue (load_congr fun i hi => hout b hb _ (Nat.le_add_right _ _) (by
      unfold sizeofSizeT at hi
      omega))
  have hsize : ∀ b, (∃ u ∈ ts, u.addr = b) ∨ b = L.xStart ∨ b = L.uxEndAddress →
      xBlockSize (write mem j bytes) b = xBlockSize mem b := fun b hb =>
    congrArg leValue (load_congr fun i hi => hout b hb _ (by omega) (by
      unfold sizeofSizeT at hi ⊢
      omega))
  refine ⟨h.tiled, h.grain, chain_congr h.chain fun b hb => hnext b ?_, fun u hu => ?_, ?_, ?_, ?_⟩
  · rcases List.mem_cons.mp hb with rfl | hb
    · exact .inr (.inl rfl)
    · obtain ⟨u, hu, _, rfl⟩ := mem_freeAddrs hb
      exact .inl ⟨u, hu, rfl⟩
  · exact header_congr (h.headers u hu) (hsize _ (.inl ⟨u, hu, rfl⟩)) fun _ =>
      hnext _ (.inl ⟨u, hu, rfl⟩)
  · exact (hsize _ (.inr (.inl rfl))).trans h.startSize
  · exact (hsize _ (.inr (.inr rfl))).trans h.endSize
  · exact (hnext _ (.inr (.inr rfl))).trans h.endNext

theorem coalesced_owned {o o' : Owner} (h : Coalesced (A ++ ⟨a, z, some o⟩ :: B)) :
    Coalesced (A ++ ⟨a, z, some o'⟩ :: B) := by
  obtain ⟨hA, hB, hm⟩ := List.isChain_append.mp h
  refine List.isChain_append.mpr ⟨hA, ?_, fun x hx y hy hb => ?_⟩
  · cases B with
    | nil => exact List.isChain_singleton _
    | cons b B =>
      obtain ⟨_, hr⟩ := List.isChain_cons_cons.mp hB
      exact List.isChain_cons_cons.mpr ⟨fun hb => absurd hb.1 (by simp [Tile.free]), hr⟩
  · obtain rfl := Option.some.inj hy
    exact absurd hb.2 (by simp [Tile.free])

/-- The first part of `vPortFree` clears the block. -/
theorem freeMark_eq (h : Sound L s (A ++ ⟨a, z, some (.app w)⟩ :: B)) :
    ∃ s', freeMark L s (a + xHeapStructSize) = some s' ∧
      Sound L s' (A ++ ⟨a, z, some .leaving⟩ :: B) ∧
      (∀ j, j < a ∨ a + z ≤ j → s'.mem j = s.mem j) ∧
      (∀ j, Payload ⟨a, z, some .leaving⟩ j → s'.mem j = 0) ∧
      Freed s s' 0 s.xNumberOfSuccessfulFrees := by
  have hmem : ⟨a, z, some (.app w)⟩ ∈ A ++ ⟨a, z, some (.app w)⟩ :: B := by simp
  obtain ⟨hd, hlo, hhi, hnode⟩ := node_of_mem h.blocks hmem
  have hlt : z < 2 ^ 31 := size_lt h.blocks hmem
  have hz : 16 ≤ z := (h.blocks.grain _ hmem).2
  have h8 : xHeapStructSize ≤ z := Nat.le_trans (by decide) hz
  obtain ⟨hsize, hnext⟩ := h.blocks.headers _ hmem
  have hsize' : xBlockSize s.mem a = z + 2 ^ 31 := hsize
  have hnext' : pxNextFreeBlock s.mem a = 0 := hnext
  have hvalid : L.Valid a := valid_of_mem_heap hlo (by
    have hhi' : a + z ≤ L.uxEndAddress := hhi
    omega)
  have hself : View L s.mem (pxNextFreeBlock s.mem) (xBlockSize s.mem) := view_self
  have hv := view_setSize hself hnode (v := z) (by omega)
  have hr := represents_of_view hv (linked_unmark h.blocks)
  have hlen : (List.replicate (z - xHeapStructSize) (0 : UInt8)).length = z - xHeapStructSize :=
    List.length_replicate
  have hmem' : ⟨a, z, some .leaving⟩ ∈ A ++ ⟨a, z, some .leaving⟩ :: B := by simp
  have hw := represents_write (List.replicate (z - xHeapStructSize) 0) hr hmem'
    (Nat.le_refl _) (by
      rw [hlen]
      show a + xHeapStructSize + (z - xHeapStructSize) ≤ a + z
      unfold xHeapStructSize
      omega)
  unfold freeMark
  rw [Nat.add_sub_cancel]
  dsimp only
  rw [hsize', hnext', clear_mask hlt, if_pos ⟨hvalid, and_mask_ne_zero (by omega) (by omega), rfl⟩,
    if_pos h8]
  refine ⟨_, rfl, ⟨h.pxEnd, hw, coalesced_owned h.coalesced, ?_, h.least⟩, ?_, ?_,
    ⟨rfl, rfl, rfl, rfl⟩⟩
  · rw [h.free, freeBytes_append, freeBytes_append, freeBytes_cons_owned rfl,
      freeBytes_cons_owned rfl]
  · intro j hj
    refine (write_outside ?_).trans (untouched_setSize untouched_refl (List.mem_singleton_self a) j
      fun b hb => ?_)
    · rw [hlen]
      unfold xHeapStructSize
      omega
    · obtain rfl := List.mem_singleton.mp hb
      unfold xHeapStructSize
      omega
  · rintro j ⟨hj1, hj2⟩
    obtain ⟨i, rfl⟩ := Nat.exists_eq_add_of_le hj1
    have hi : i < (List.replicate (z - xHeapStructSize) (0 : UInt8)).length := by
      rw [hlen]
      have hj2' : a + xHeapStructSize + i < a + z := hj2
      omega
    exact (write_inside hi).trans (List.getElem_replicate ..)

/-- The block in front is joined with the one after it if that is free, and else gets
the pointer of the iterator. -/
theorem mergeAfter_eq (hv : View L mem N S) (h : Linked L N S (A ++ t :: B))
    (hs : S t.addr = t.size) (hit : L.Node it)
    (hn : N it = (freeAddrs B).headD L.uxEndAddress) :
    (∃ r B', B = r :: B' ∧ r.free = true ∧ View L (mergeAfter L.uxEndAddress mem it t.addr)
      (Function.update N t.addr (N r.addr)) (Function.update S t.addr (t.size + r.size))) ∨
    ((∀ r ∈ B.head?, r.free = false) ∧ View L (mergeAfter L.uxEndAddress mem it t.addr)
      (Function.update N t.addr (N it)) S) := by
  have hnode := (node_of_mem h (t := t) (by simp)).2.2.2
  have hsize := (hv.size _ hnode).trans hs
  have hnext := hv.next _ hit
  have hlt : N it < 2 ^ 32 := hnext ▸ pxNextFreeBlock_lt
  unfold mergeAfter
  dsimp only
  rw [hsize, hnext]
  cases B with
  | nil =>
    have hn' : N it = L.uxEndAddress := hn
    refine .inr ⟨fun r hr => absurd hr (by simp), ?_⟩
    rw [if_neg (not_not_intro hn'), ← hn', ite_self]
    exact view_setNext hv hnode hlt
  | cons r B =>
    obtain ⟨m, _, _, hp, hr, hrp, hB⟩ := tiled_append.mp h.tiled
    have hrmem : r ∈ A ++ t :: r :: B := by simp
    have hrn := (node_of_mem h hrmem).2.2.2
    have hrb := h.tiled.bounds hrmem
    cases hrf : r.free with
    | true =>
      have hn' : N it = r.addr := by
        rw [hn, freeAddrs_cons_free hrf]
        rfl
      have hrs := (hv.size _ hrn).trans (size_of_free h hrmem hrf)
      have hsum : add32 t.size r.size = t.size + r.size := by
        have htb := h.tiled.bounds (t := t) (by simp)
        have hend := node_lt (node_end (L := L))
        exact Nat.mod_eq_of_lt (by omega)
      have hv1 := view_setSize hv hnode (v := t.size + r.size) (by
        have hend := node_lt (node_end (L := L))
        omega)
      refine .inl ⟨r, B, rfl, hrf, ?_⟩
      rw [hn', if_pos hr.symm, if_pos (by omega), hrs, hsum, hv1.next _ hrn]
      exact view_setNext hv1 hnode (hv.next _ hrn ▸ pxNextFreeBlock_lt)
    | false =>
      refine .inr ⟨fun u hu => Option.some.inj hu ▸ hrf, ?_⟩
      have hfar : t.addr + t.size ≠ N it := by
        rw [hn, freeAddrs_cons_owned hrf]
        cases hfree : freeAddrs B with
        | nil =>
          show _ ≠ L.uxEndAddress
          omega
        | cons x xs =>
          show _ ≠ x
          obtain ⟨v, hv, _, rfl⟩ := mem_freeAddrs (show x ∈ freeAddrs B by simp [hfree])
          have hvb := hB.bounds hv
          omega
      rw [if_neg hfar]
      exact view_setNext hv hnode hlt

theorem untouched_mergeAfter {as : List Nat} {pxEnd b : Nat} (h : Untouched as mem mem')
    (hb : b ∈ as) : Untouched as mem (mergeAfter pxEnd mem' it b) := by
  unfold mergeAfter
  dsimp only
  split
  · split
    · exact untouched_setNext (untouched_setSize h hb) hb
    · exact untouched_setNext h hb
  · exact untouched_setNext h hb

/-- The loop stops before the first free block behind the one to insert. -/
theorem prvInsert_unfold (h : Represents L mem (A ++ ⟨a, z, some .leaving⟩ :: B))
    (hi : it = lastFrom L.xStart (freeAddrs A)) :
    prvInsertBlockIntoFreeList L L.uxEndAddress mem a =
      some (if it ≠ (mergeBefore mem it a).2 then
          setNext (mergeAfter L.uxEndAddress (mergeBefore mem it a).1 it (mergeBefore mem it a).2) it
            (mergeBefore mem it a).2
        else mergeAfter L.uxEndAddress (mergeBefore mem it a).1 it (mergeBefore mem it a).2) := by
  subst hi
  have hc := h.chain
  rw [freeAddrs_owned rfl] at hc
  have hlen := freeAddrs_length_lt h
  rw [freeAddrs_owned rfl, List.length_append] at hlen
  obtain ⟨m, hA, hm, _, hB⟩ := tiled_append.mp h.tiled
  have hm : a = m := hm
  have hend : a + z ≤ L.uxEndAddress := hB.le
  have hbefore : ∀ x ∈ freeAddrs A, x < a := by
    intro x hx
    obtain ⟨u, hu, _, rfl⟩ := mem_freeAddrs hx
    have hb := hA.bounds hu
    omega
  have hpoint : insertionPoint mem a L.configTotalHeapSize L.xStart =
      some (lastFrom L.xStart (freeAddrs A)) := by
    cases hfree : freeAddrs B with
    | nil =>
      rw [hfree, List.append_nil] at hc
      exact insertionPoint_eq hc hbefore (by omega) (by omega)
    | cons x xs =>
      obtain ⟨v, hv, _, rfl⟩ := mem_freeAddrs (show x ∈ freeAddrs B by simp [hfree])
      have hva : a + z ≤ v.addr := (hB.bounds hv).1
      rw [hfree] at hc
      exact insertionPoint_eq (chain_append.mp hc).1 hbefore (by omega) (by omega)
  have hvalid : ¬ (lastFrom L.xStart (freeAddrs A) ≠ L.xStart ∧
      ¬ L.Valid (lastFrom L.xStart (freeAddrs A))) := by
    rintro ⟨hx, hv⟩
    have hm' := (lastFrom_eq_or_mem _ _).resolve_left hx
    refine hv (valid_of_chain h ?_).1
    rw [freeAddrs_owned rfl]
    simp [hm']
  unfold prvInsertBlockIntoFreeList
  rw [hpoint, Option.bind_some, if_neg hvalid]

/-- When the block before is free, the two become one and the list keeps its pointers. -/
theorem prvInsert_joined {l : Tile Owner} (hf : l.free = true)
    (h : Represents L mem (A ++ l :: ⟨a, z, some .leaving⟩ :: B)) :
    ∃ mem', prvInsertBlockIntoFreeList L L.uxEndAddress mem a = some mem' ∧
      Represents L mem' (A ++ join ⟨l.addr, l.size + z, none⟩ B) ∧
      Untouched [l.addr, a] mem mem' := by
  have hnode := (node_of_mem h (t := l) (by simp)).2.2.2
  have hls := size_of_free h (t := l) (by simp) hf
  have hshape : A ++ l :: ⟨a, z, some .leaving⟩ :: B =
      (A ++ [l]) ++ ⟨a, z, some .leaving⟩ :: B := by simp
  have hlast : l.addr = lastFrom L.xStart (freeAddrs (A ++ [l])) := by
    rw [freeAddrs_free hf]
    exact lastFrom_concat.symm
  have hsize : xBlockSize mem a = z := size_of_leaving (hshape ▸ h)
  have hnext : pxNextFreeBlock mem l.addr = (freeAddrs B).headD L.uxEndAddress := by
    have hc := h.chain
    rw [hshape, freeAddrs_owned rfl] at hc
    rw [hlast]
    exact hc.next_lastFrom
  obtain ⟨_, _, _, _, hadj, _, hB⟩ := tiled_append.mp h.tiled
  have hadj : a = l.addr + l.size := hadj
  have hend := node_lt (node_end (L := L))
  have hhi : a + z ≤ L.uxEndAddress := hB.le
  have hsum : add32 l.size z = l.size + z := Nat.mod_eq_of_lt (by omega)
  have hfront : mergeBefore mem l.addr a = (setSize mem l.addr (l.size + z), l.addr) := by
    unfold mergeBefore
    rw [hls, hsize, hsum, if_pos hadj.symm]
  have hself : View L mem (pxNextFreeBlock mem) (xBlockSize mem) := view_self
  have hv1 := view_setSize hself hnode (v := l.size + z) (by omega)
  have hl1 := linked_absorb h hf
  rw [prvInsert_unfold (hshape ▸ h) hlast, hfront, if_neg (not_not_intro rfl)]
  refine ⟨_, rfl, ?_, untouched_mergeAfter (untouched_setSize untouched_refl (by simp)) (by simp)⟩
  rcases mergeAfter_eq hv1 hl1 (Function.update_self ..) hnode hnext with
    ⟨r, B', rfl, hr, hv⟩ | ⟨hhead, hv⟩
  · rw [join_free rfl hr]
    exact represents_of_view hv (linked_joinNext hl1 hr)
  · rw [join_of_head hhead]
    rw [Function.update_eq_self] at hv
    exact represents_of_view hv hl1

/-- When the block before is not free, the block is linked in. -/
theorem prvInsert_linked (hA : ∀ l ∈ A.getLast?, l.free = false)
    (h : Represents L mem (A ++ ⟨a, z, some .leaving⟩ :: B)) :
    ∃ mem', prvInsertBlockIntoFreeList L L.uxEndAddress mem a = some mem' ∧
      Represents L mem' (A ++ join ⟨a, z, none⟩ B) ∧
      Untouched [lastFrom L.xStart (freeAddrs A), a] mem mem' := by
  have hmem : ⟨a, z, some .leaving⟩ ∈ A ++ ⟨a, z, some .leaving⟩ :: B := by simp
  have hnode : L.Node a := (node_of_mem h hmem).2.2.2
  have hit := node_lastFrom h
  have hsize : xBlockSize mem a = z := size_of_leaving h
  have hne : lastFrom L.xStart (freeAddrs A) ≠ a := fun he =>
    owned_notMem_chain h hmem rfl (he ▸ lastFrom_mem_chain)
  have hnext : pxNextFreeBlock mem (lastFrom L.xStart (freeAddrs A)) =
      (freeAddrs B).headD L.uxEndAddress := by
    have hc := h.chain
    rw [freeAddrs_owned rfl] at hc
    exact hc.next_lastFrom
  have hgap : lastFrom L.xStart (freeAddrs A) +
      xBlockSize mem (lastFrom L.xStart (freeAddrs A)) ≠ a := by
    rcases lastFrom_eq_or_mem L.xStart (freeAddrs A) with he | hm
    · rw [he] at hne ⊢
      rw [h.startSize]
      exact hne
    · obtain ⟨u, hu, huf, hua⟩ := mem_freeAddrs hm
      rw [← hua, size_of_free h (by simp [hu]) huf]
      intro hadj
      rw [hA u (h.tiled.getLast_of_adjacent hu hadj)] at huf
      cases huf
  have hfront : mergeBefore mem (lastFrom L.xStart (freeAddrs A)) a = (mem, a) := if_neg hgap
  have hself : View L mem (pxNextFreeBlock mem) (xBlockSize mem) := view_self
  have hlin := linked_linkIn h
  rw [prvInsert_unfold h rfl, hfront, if_pos hne]
  refine ⟨_, rfl, ?_, untouched_setNext (untouched_mergeAfter untouched_refl (by simp)) (by simp)⟩
  rcases mergeAfter_eq hself h hsize hit hnext with ⟨r, B', rfl, hr, hv⟩ | ⟨hhead, hv⟩
  · rw [join_free rfl hr]
    refine represents_of_view (view_setNext hv hit (node_lt hnode)) ?_
    -- the code does not store the pointer that the join overwrites
    have hj := linked_joinNext hlin hr
    have hmr : r ∈ A ++ ⟨a, z, some .leaving⟩ :: r :: B' := by simp
    obtain ⟨m, hA', hm, hz, hra, _⟩ := tiled_append.mp h.tiled
    have hm : a = m := hm
    have hz : 0 < z := hz
    have hra : r.addr = a + z := hra
    have hrit : r.addr ≠ lastFrom L.xStart (freeAddrs A) := by
      rcases lastFrom_eq_or_mem L.xStart (freeAddrs A) with he | hm'
      · rw [he]
        obtain ⟨_, hlo, hhi, _⟩ := node_of_mem h hmr
        exact (xStart_ne hlo (by omega)).symm
      · obtain ⟨u, hu, _, hua⟩ := mem_freeAddrs hm'
        have hub := hA'.bounds hu
        omega
    rw [Function.update_of_ne hrit, Function.update_of_ne (by omega),
      Function.update_comm hne, Function.update_idem] at hj
    exact hj
  · rw [join_of_head hhead]
    exact represents_of_view (view_setNext hv hit (node_lt hnode)) hlin

/-- `prvInsertBlockIntoFreeList` gives a block back and coalesces. -/
theorem prvInsertBlockIntoFreeList_eq (hco : Coalesced (A ++ ⟨a, z, some .leaving⟩ :: B))
    (h : Represents L mem (A ++ ⟨a, z, some .leaving⟩ :: B)) :
    ∃ mem', prvInsertBlockIntoFreeList L L.uxEndAddress mem a = some mem' ∧
      Represents L mem' (coalesce (A ++ ⟨a, z, none⟩ :: B)) ∧
      Untouched [lastFrom L.xStart (freeAddrs A), a] mem mem' := by
  have hB : Coalesced B := hco.right_of_append.tail
  obtain ⟨hkeep, hjoin⟩ := coalesce_insert (t := ⟨a, z, none⟩) hco.left_of_append hB rfl
  rcases List.eq_nil_or_concat' A with rfl | ⟨A', l, rfl⟩
  · have hA : ∀ l ∈ ([] : List (Tile Owner)).getLast?, l.free = false := fun l hl =>
      absurd hl (by simp)
    rw [hkeep hA]
    exact prvInsert_linked hA h
  · cases hf : l.free with
    | true =>
      rw [hjoin A' l rfl hf, freeAddrs_free hf, show lastFrom L.xStart (freeAddrs A' ++
        l.addr :: freeAddrs []) = l.addr from lastFrom_concat]
      rw [List.append_assoc, List.singleton_append] at h
      exact prvInsert_joined hf h
    | false =>
      have hA : ∀ k ∈ (A' ++ [l]).getLast?, k.free = false := by
        intro k hk
        rw [List.getLast?_concat] at hk
        exact Option.some.inj hk ▸ hf
      rw [hkeep hA]
      exact prvInsert_linked hA h

/-- The second part of `vPortFree` gives the block back. -/
theorem freeLink_eq (h : Sound L s (A ++ ⟨a, z, some .leaving⟩ :: B)) :
    ∃ s', freeLink L s (a + xHeapStructSize) = some s' ∧
      Sound L s' (coalesce (A ++ ⟨a, z, none⟩ :: B)) ∧
      (∀ u ∈ A ++ B, u.free = false → ∀ j, Payload u j → s'.mem j = s.mem j) ∧
      Freed s s' z (add32 s.xNumberOfSuccessfulFrees 1) := by
  obtain ⟨mem', he, hr, hm⟩ := prvInsertBlockIntoFreeList_eq h.coalesced h.blocks
  have hsize : xBlockSize s.mem a = z := size_of_leaving h.blocks
  have hbytes := freeBytes_lt h.blocks
  have hlt : z < 2 ^ 31 := size_lt (t := ⟨a, z, some .leaving⟩) h.blocks (by simp)
  have hsum : add32 s.xFreeBytesRemaining z = s.xFreeBytesRemaining + z := by
    rw [h.free]
    exact Nat.mod_eq_of_lt (by omega)
  unfold freeLink
  rw [Nat.add_sub_cancel]
  dsimp only
  rw [h.pxEnd, he, Option.map_some, hsize, hsum]
  refine ⟨_, rfl, ⟨rfl, hr, coalesced_coalesce _, ?_, Nat.le_trans h.least
    (Nat.le_add_right _ _)⟩, fun u hu ho j hj => ?_, ⟨rfl, rfl, rfl, rfl⟩⟩
  · show s.xFreeBytesRemaining + z = _
    rw [h.free, freeBytes_coalesce, freeBytes_append, freeBytes_append, freeBytes_cons_owned rfl,
      freeBytes_cons_free rfl]
    dsimp only
    omega
  · refine payload_untouched h.blocks (show z ≤ z from Nat.le_refl z) (fun i hi => ?_) hu ho hj
    exact hm i fun b hb => hi b (by
      rcases List.mem_cons.mp hb with rfl | hb
      · simp
      · simp [List.mem_singleton.mp hb])

end Free

end BlackPill.Heap4
