import BlackPill.Heap4
import BlackPill.Tilings
import BlackPill.LinkedNodes

/-!
# The free list of the kernel's heap

What the bytes of the heap say: the blocks tile the array, the header of each one
tells its size and whether it is the application's, and the free ones are linked in
order.

Results:
1. `view_setNext`, `view_setSize`: a store in a header changes one field of one block.
2. `findBlock_eq`, `insertionPoint_eq`, `scanFree_eq`: where the three loops stop, and that they do.
3. `represents_init`: `prvHeapInit` makes the array one free block.
-/

namespace BlackPill.Heap4

open ByteMemory Tilings LinkedNodes

/-! ## Definitions -/

/-- The application with the size it has asked for, or a `vPortFree` between its two
parts. -/
inductive Owner
  | app (wanted : Nat)
  | leaving
deriving DecidableEq, Repr

/-- The aligned addresses of the array, and `xStart`. -/
def Place.Node (L : Place) (a : Nat) : Prop :=
  a = L.xStart ∨ (8 ∣ a ∧ L.uxStartAddress ≤ a ∧ a ≤ L.uxEndAddress)

/-- The header of a block, with the fields of all headers as functions. -/
def Header (next size : Nat → Nat) (t : Tile Owner) : Prop :=
  match t.owner with
  | some (.app _) => size t.addr = t.size + 2 ^ 31 ∧ next t.addr = 0
  | _ => size t.addr = t.size

/-- The addresses of the free blocks. -/
def freeAddrs (ts : List (Tile Owner)) : List Nat := (freeTiles ts).map Tile.addr

/-- The headers are those of the blocks `ts`, and link the free ones. -/
structure Linked (L : Place) (next size : Nat → Nat) (ts : List (Tile Owner)) : Prop where
  tiled : Tiled L.uxStartAddress ts L.uxEndAddress
  grain : ∀ t ∈ ts, 8 ∣ t.size ∧ 16 ≤ t.size
  chain : Chain next L.xStart (freeAddrs ts) L.uxEndAddress
  headers : ∀ t ∈ ts, Header next size t
  startSize : size L.xStart = 0
  endSize : size L.uxEndAddress = 0
  endNext : next L.uxEndAddress = 0

/-- The memory holds the blocks `ts`. -/
def Represents (L : Place) (mem : Mem) (ts : List (Tile Owner)) : Prop :=
  Linked L (pxNextFreeBlock mem) (xBlockSize mem) ts

/-- The fields of all headers. -/
structure View (L : Place) (mem : Mem) (next size : Nat → Nat) : Prop where
  next : ∀ a, L.Node a → pxNextFreeBlock mem a = next a
  size : ∀ a, L.Node a → xBlockSize mem a = size a

/-- Only the headers at the given addresses may differ. -/
def Untouched (as : List Nat) (mem mem' : Mem) : Prop :=
  ∀ j, (∀ a ∈ as, j < a ∨ a + xHeapStructSize ≤ j) → mem' j = mem j

namespace Heap4LinksLemmas

variable {L : Place} {mem mem' : Mem} {a b p v y z want fuel : Nat} {N S : Nat → Nat}
  {ts A B : List (Tile Owner)} {t : Tile Owner} {xs as : List Nat}

/-! ## Addresses -/

theorem place_bounds (L : Place) : 8 ∣ L.uxStartAddress ∧ L.ucHeap ≤ L.uxStartAddress ∧
    8 ∣ L.uxEndAddress ∧ L.uxStartAddress + 16 ≤ L.uxEndAddress ∧
    L.uxEndAddress + 8 ≤ L.ucHeap + L.configTotalHeapSize := by
  have he := L.enough
  unfold Place.uxEndAddress Place.xTotalHeapSize Place.uxStartAddress alignDown portByteAlignment
    xHeapStructSize
  split <;> omega

theorem node_xStart : L.Node L.xStart := .inl rfl

theorem node_end : L.Node L.uxEndAddress := by
  obtain ⟨_, _, he, hle, _⟩ := place_bounds L
  exact .inr ⟨he, by omega, Nat.le_refl _⟩

/-- Two headers are the same or do not meet. -/
theorem node_apart (ha : L.Node a) (hb : L.Node b) : a = b ∨ a + 8 ≤ b ∨ b + 8 ≤ a := by
  obtain ⟨_, hs, _, _, he⟩ := place_bounds L
  have hx := L.apart
  unfold xHeapStructSize at hx
  rcases ha with rfl | ⟨hda, hla, hra⟩ <;> rcases hb with rfl | ⟨hdb, hlb, hrb⟩ <;> omega

theorem node_lt (ha : L.Node a) : a < 2 ^ 32 := by
  obtain ⟨_, _, _, _, he⟩ := place_bounds L
  obtain ⟨hr, hx⟩ := L.inRange
  unfold xHeapStructSize at hx
  rcases ha with rfl | ⟨_, _, ha⟩ <;> omega

theorem valid_of_mem_heap (hs : L.uxStartAddress ≤ a) (he : a < L.uxEndAddress + 8) :
    L.Valid a := by
  obtain ⟨_, hu, _, _, hb⟩ := place_bounds L
  have henough := L.enough
  exact ⟨by omega, by omega⟩

/-! ## Stores -/

theorem leValue_lt (bytes : List UInt8) : leValue bytes < 256 ^ bytes.length := by
  induction bytes with
  | nil => exact Nat.one_pos
  | cons x bytes ih =>
    have hx : x.toNat < 256 := x.toNat_lt
    rw [leValue, List.length_cons, Nat.pow_succ]
    omega

theorem pxNextFreeBlock_lt : pxNextFreeBlock mem a < 2 ^ 32 := by
  have h := leValue_lt (load mem a sizeofSizeT)
  rw [load_length] at h
  exact h

theorem view_self : View L mem (pxNextFreeBlock mem) (xBlockSize mem) :=
  ⟨fun _ _ => rfl, fun _ _ => rfl⟩

theorem load_word (h : v < 2 ^ 32) : leValue (load (write mem a (leBytes sizeofSizeT v)) a
    sizeofSizeT) = v := by
  have hl : load (write mem a (leBytes sizeofSizeT v)) a (leBytes sizeofSizeT v).length = _ :=
    load_write
  rw [leBytes_length] at hl
  rw [hl]
  exact leValue_leBytes h

theorem load_other (h : b + sizeofSizeT ≤ a ∨ a + sizeofSizeT ≤ b) :
    load (write mem a (leBytes sizeofSizeT v)) b sizeofSizeT = load mem b sizeofSizeT :=
  load_write_of_disjoint (by rwa [leBytes_length])

/-- A store of `pxNextFreeBlock`. -/
theorem view_setNext (h : View L mem N S) (ha : L.Node a) (hv : v < 2 ^ 32) :
    View L (setNext mem a v) (Function.update N a v) S where
  next b hb := by
    rcases node_apart hb ha with rfl | hne
    · rw [Function.update_self]
      exact load_word hv
    · rw [Function.update_of_ne (by omega), ← h.next b hb]
      exact congrArg leValue (load_other (by unfold sizeofSizeT; omega))
  size b hb := by
    rw [← h.size b hb]
    refine congrArg leValue (load_other ?_)
    have hne := node_apart hb ha
    unfold sizeofSizeT
    omega

/-- A store of `xBlockSize`. -/
theorem view_setSize (h : View L mem N S) (ha : L.Node a) (hv : v < 2 ^ 32) :
    View L (setSize mem a v) N (Function.update S a v) where
  next b hb := by
    rw [← h.next b hb]
    refine congrArg leValue (load_other ?_)
    have hne := node_apart hb ha
    unfold sizeofSizeT
    omega
  size b hb := by
    rcases node_apart hb ha with rfl | hne
    · rw [Function.update_self]
      exact load_word hv
    · rw [Function.update_of_ne (by omega), ← h.size b hb]
      exact congrArg leValue (load_other (by unfold sizeofSizeT; omega))

theorem untouched_refl : Untouched as mem mem := fun _ _ => rfl

theorem untouched_setNext (h : Untouched as mem mem') (ha : a ∈ as) :
    Untouched as mem (setNext mem' a v) := by
  intro j hj
  rw [← h j hj]
  apply write_outside
  rw [leBytes_length]
  have := hj a ha
  unfold xHeapStructSize at this
  unfold sizeofSizeT
  omega

theorem untouched_setSize (h : Untouched as mem mem') (ha : a ∈ as) :
    Untouched as mem (setSize mem' a v) := by
  intro j hj
  rw [← h j hj]
  apply write_outside
  rw [leBytes_length]
  have := hj a ha
  unfold xHeapStructSize at this
  unfold sizeofSizeT
  omega

/-! ## What a representation says -/

theorem freeAddrs_append : freeAddrs (A ++ B) = freeAddrs A ++ freeAddrs B := by
  simp only [freeAddrs, freeTiles_append, List.map_append]

theorem freeAddrs_cons_free (h : t.free = true) : freeAddrs (t :: B) = t.addr :: freeAddrs B := by
  simp only [freeAddrs, freeTiles_cons_free h, List.map_cons]

theorem freeAddrs_cons_owned (h : t.free = false) : freeAddrs (t :: B) = freeAddrs B := by
  simp only [freeAddrs, freeTiles_cons_owned h]

theorem mem_freeAddrs (h : a ∈ freeAddrs ts) : ∃ t ∈ ts, t.free = true ∧ t.addr = a := by
  obtain ⟨t, ht, rfl⟩ := List.mem_map.mp h
  exact ⟨t, (mem_freeTiles.mp ht).1, (mem_freeTiles.mp ht).2, rfl⟩

theorem node_of_mem (h : Linked L N S ts) (ht : t ∈ ts) :
    8 ∣ t.addr ∧ L.uxStartAddress ≤ t.addr ∧ t.addr + t.size ≤ L.uxEndAddress ∧ L.Node t.addr := by
  obtain ⟨hlo, hhi, hp⟩ := h.tiled.bounds ht
  have hd := h.tiled.dvd_addr (place_bounds L).1 (fun u hu => (h.grain u hu).1) t ht
  exact ⟨hd, hlo, hhi, .inr ⟨hd, hlo, by omega⟩⟩

/-- Every header that the free list passes is one. -/
theorem node_of_mem_chain (h : Linked L N S ts) (ha : a ∈ L.xStart :: freeAddrs ts) :
    L.Node a := by
  rcases List.mem_cons.mp ha with rfl | ha
  · exact node_xStart
  · obtain ⟨t, ht, _, rfl⟩ := mem_freeAddrs ha
    exact (node_of_mem h ht).2.2.2

theorem xStart_ne (hs : L.uxStartAddress ≤ a) (he : a ≤ L.uxEndAddress) : L.xStart ≠ a := by
  obtain ⟨_, hu, _, _, hb⟩ := place_bounds L
  have ha := L.apart
  unfold xHeapStructSize at ha
  omega

/-- `xStart` and the free blocks are different nodes. -/
theorem nodup_chain (h : Linked L N S ts) : (L.xStart :: freeAddrs ts).Nodup := by
  refine List.nodup_cons.mpr ⟨fun hx => ?_, ?_⟩
  · obtain ⟨t, ht, _, hx⟩ := mem_freeAddrs hx
    obtain ⟨_, hlo, hhi, _⟩ := node_of_mem h ht
    exact xStart_ne hlo (by omega) hx.symm
  · have hp : (freeAddrs ts).Pairwise (· < ·) :=
      h.tiled.pairwise_addr.sublist (List.filter_sublist.map Tile.addr)
    exact hp.imp fun hlt => Nat.ne_of_lt hlt

/-- The end marker is not passed. -/
theorem end_notMem_chain (h : Linked L N S ts) : L.uxEndAddress ∉ L.xStart :: freeAddrs ts := by
  obtain ⟨_, _, _, hle, _⟩ := place_bounds L
  intro hm
  rcases List.mem_cons.mp hm with hx | hm
  · exact xStart_ne (by omega) (Nat.le_refl _) hx.symm
  · obtain ⟨t, ht, _, hx⟩ := mem_freeAddrs hm
    have hb := h.tiled.bounds ht
    omega

/-- Nor is the header of an owned block. -/
theorem owned_notMem_chain (h : Linked L N S ts) (ht : t ∈ ts) (ho : t.free = false) :
    t.addr ∉ L.xStart :: freeAddrs ts := by
  intro hm
  rcases List.mem_cons.mp hm with hx | hm
  · obtain ⟨_, hlo, hhi, _⟩ := node_of_mem h ht
    exact xStart_ne hlo (by omega) hx.symm
  · obtain ⟨u, hu, hf, hx⟩ := mem_freeAddrs hm
    obtain rfl := h.tiled.eq_of_addr hu ht hx
    rw [hf] at ho
    cases ho

theorem size_of_free (h : Linked L N S ts) (ht : t ∈ ts) (hf : t.free = true) :
    S t.addr = t.size := by
  have hh := h.headers t ht
  unfold Header at hh
  rwa [show t.owner = none by simpa [Tile.free] using hf] at hh

theorem size_of_leaving (h : Linked L N S ts) (ht : t ∈ ts) (ho : t.owner = some .leaving) :
    S t.addr = t.size := by
  have hh := h.headers t ht
  unfold Header at hh
  rwa [ho] at hh

/-- A header depends on its own two fields, on the pointer only if there is an owner. -/
theorem header_congr {N' S' : Nat → Nat} (h : Header N S t) (hs : S' t.addr = S t.addr)
    (hn : t.free = false → N' t.addr = N t.addr) : Header N' S' t := by
  obtain ⟨addr, size, owner⟩ := t
  unfold Header at h ⊢
  match owner with
  | none => exact hs.trans h
  | some .leaving => exact hs.trans h
  | some (.app _) => exact ⟨hs.trans h.1, (hn rfl).trans h.2⟩

/-- Fields that agree on all headers represent the same blocks. -/
theorem represents_of_view (hv : View L mem N S) (h : Linked L N S ts) : Represents L mem ts where
  tiled := h.tiled
  grain := h.grain
  chain := chain_congr h.chain fun a ha => hv.next a (node_of_mem_chain h ha)
  headers t ht := header_congr (h.headers t ht) (hv.size _ (node_of_mem h ht).2.2.2) fun _ =>
    hv.next _ (node_of_mem h ht).2.2.2
  startSize := (hv.size _ node_xStart).trans h.startSize
  endSize := (hv.size _ node_end).trans h.endSize
  endNext := (hv.next _ node_end).trans h.endNext

/-- There is room for no more blocks than bytes. -/
theorem freeAddrs_length_lt (h : Linked L N S ts) :
    (freeAddrs ts).length < L.configTotalHeapSize := by
  have hsum := h.tiled.sum
  obtain ⟨_, hs, _, _, he⟩ := place_bounds L
  have hlen : ts.length ≤ (ts.map Tile.size).sum := by
    have hone : ∀ i ∈ ts.map Tile.size, 1 ≤ i := fun i hi => by
      obtain ⟨t, ht, rfl⟩ := List.mem_map.mp hi
      exact (h.tiled.bounds ht).2.2
    simpa using List.length_le_sum_of_one_le _ hone
  have hfree : (freeAddrs ts).length ≤ ts.length := by
    unfold freeAddrs
    rw [List.length_map]
    exact List.length_filter_le _ _
  omega

/-! ## The loops -/

/-- The loop of `pvPortMalloc` passes the blocks that are too small. -/
theorem findBlock_eq (hc : Chain (pxNextFreeBlock mem) p xs y)
    (hv : ∀ x ∈ xs ++ [y], L.Valid x ∧ x ≠ 0) (hx : ∀ x ∈ xs, xBlockSize mem x < want)
    (hy : want ≤ xBlockSize mem y ∨ pxNextFreeBlock mem y = 0) (hfuel : xs.length < fuel) :
    findBlock L mem want fuel p (pxNextFreeBlock mem p) = some (lastFrom p xs, y) := by
  induction xs generalizing p fuel with
  | nil =>
    obtain ⟨fuel, rfl⟩ := Nat.exists_eq_succ_of_ne_zero (Nat.ne_of_gt hfuel)
    have hstop : ¬ (xBlockSize mem y < want ∧ pxNextFreeBlock mem y ≠ 0) := fun h =>
      hy.elim (fun hle => Nat.not_le_of_lt h.1 hle) h.2
    rw [show pxNextFreeBlock mem p = y from hc, findBlock, if_neg hstop]
    rfl
  | cons x xs ih =>
    obtain ⟨hpx, hr⟩ := hc
    obtain ⟨fuel, rfl⟩ := Nat.exists_eq_succ_of_ne_zero (Nat.ne_of_gt (Nat.zero_lt_of_lt hfuel))
    obtain ⟨hval, hne⟩ := hv _ (List.mem_cons_of_mem _ hr.next_mem)
    rw [hpx, findBlock, if_pos ⟨hx x List.mem_cons_self, hne⟩, if_pos hval]
    exact ih hr (fun z hz => hv z (List.mem_cons_of_mem _ hz))
      (fun z hz => hx z (List.mem_cons_of_mem _ hz)) (Nat.lt_of_succ_lt_succ hfuel)

/-- The loop of `prvInsertBlockIntoFreeList` passes the blocks at lower addresses. -/
theorem insertionPoint_eq (hc : Chain (pxNextFreeBlock mem) p xs y) (hx : ∀ x ∈ xs, x < b)
    (hy : b ≤ y) (hfuel : xs.length < fuel) :
    insertionPoint mem b fuel p = some (lastFrom p xs) := by
  induction xs generalizing p fuel with
  | nil =>
    obtain ⟨fuel, rfl⟩ := Nat.exists_eq_succ_of_ne_zero (Nat.ne_of_gt hfuel)
    rw [insertionPoint, if_neg]
    · rfl
    · rw [show pxNextFreeBlock mem p = y from hc]
      exact Nat.not_lt.mpr hy
  | cons x xs ih =>
    obtain ⟨hpx, hr⟩ := hc
    obtain ⟨fuel, rfl⟩ := Nat.exists_eq_succ_of_ne_zero (Nat.ne_of_gt (Nat.zero_lt_of_lt hfuel))
    rw [insertionPoint, hpx, if_pos (hx x List.mem_cons_self)]
    exact ih hr (fun z hz => hx z (List.mem_cons_of_mem _ hz)) (Nat.lt_of_succ_lt_succ hfuel)

/-- The loop of `vPortGetHeapStats` counts the free blocks and compares their sizes. -/
theorem scanFree_eq {acc : Nat × Nat × Nat} (hc : Chain (pxNextFreeBlock mem) p xs y)
    (hx : y ∉ xs) (hfuel : xs.length < fuel) :
    scanFree mem y fuel (pxNextFreeBlock mem p) acc =
      some (acc.1 + xs.length, (xs.map (xBlockSize mem)).foldl max acc.2.1,
        (xs.map (xBlockSize mem)).foldl min acc.2.2) := by
  induction xs generalizing p fuel acc with
  | nil =>
    obtain ⟨fuel, rfl⟩ := Nat.exists_eq_succ_of_ne_zero (Nat.ne_of_gt hfuel)
    rw [show pxNextFreeBlock mem p = y from hc, scanFree, if_neg (not_not_intro rfl)]
    rfl
  | cons x xs ih =>
    obtain ⟨hpx, hr⟩ := hc
    obtain ⟨fuel, rfl⟩ := Nat.exists_eq_succ_of_ne_zero (Nat.ne_of_gt (Nat.zero_lt_of_lt hfuel))
    obtain ⟨hne, hxs⟩ := not_or.mp (mt List.mem_cons.mpr hx)
    have hmax : ∀ m n : Nat, (if n > m then n else m) = max m n := fun m n => by
      rw [Nat.max_def]
      split <;> split <;> omega
    have hmin : ∀ m n : Nat, (if n < m then n else m) = min m n := fun m n => by
      rw [Nat.min_def]
      split <;> split <;> omega
    rw [hpx, scanFree, if_pos (Ne.symm hne), ih hr hxs (Nat.lt_of_succ_lt_succ hfuel), hmax, hmin]
    simp only [List.length_cons, List.map_cons, List.foldl_cons, Option.some.injEq, Prod.mk.injEq,
      and_true]
    omega

end Heap4LinksLemmas

open Heap4LinksLemmas

/-- After `prvHeapInit` the whole array is one free block. -/
theorem represents_init (L : Place) (s : Heap) :
    Represents L (prvHeapInit L s).mem
      [⟨L.uxStartAddress, L.uxEndAddress - L.uxStartAddress, none⟩] := by
  obtain ⟨hds, hus, hde, hse, heb⟩ := place_bounds L
  have hsmall := L.small
  have hnode : L.Node L.uxStartAddress := .inr ⟨hds, Nat.le_refl _, by omega⟩
  have hx : L.xStart ≠ L.uxStartAddress ∧ L.xStart ≠ L.uxEndAddress :=
    ⟨xStart_ne (Nat.le_refl _) (by omega), xStart_ne (by omega) (Nat.le_refl _)⟩
  have hne : L.uxStartAddress ≠ L.uxEndAddress := by omega
  have hsize : L.uxEndAddress - L.uxStartAddress < 2 ^ 32 := by omega
  have h16 : 16 ≤ L.uxEndAddress - L.uxStartAddress := by omega
  have h0 : 0 < 2 ^ 32 := by decide
  have hself : View L s.mem (pxNextFreeBlock s.mem) (xBlockSize s.mem) := view_self
  have hstart := view_setSize (view_setNext hself node_xStart (node_lt hnode)) node_xStart h0
  have hend := view_setNext (view_setSize hstart node_end h0) node_end h0
  have hview := view_setNext (view_setSize hend hnode hsize) hnode (node_lt (node_end (L := L)))
  change View L (prvHeapInit L s).mem _ _ at hview
  refine ⟨⟨rfl, Nat.lt_of_lt_of_le (by decide) h16, ?_⟩, ?_, ⟨?_, ?_⟩, ?_, ?_, ?_, ?_⟩
  · show L.uxStartAddress + (L.uxEndAddress - L.uxStartAddress) = L.uxEndAddress
    omega
  · intro t ht
    obtain rfl := List.mem_singleton.mp ht
    exact ⟨Nat.dvd_sub hde hds, h16⟩
  · rw [hview.next _ node_xStart, Function.update_of_ne hx.1, Function.update_of_ne hx.2]
    exact Function.update_self ..
  · show pxNextFreeBlock _ L.uxStartAddress = _
    rw [hview.next _ hnode]
    exact Function.update_self ..
  · intro t ht
    obtain rfl := List.mem_singleton.mp ht
    show xBlockSize _ L.uxStartAddress = _
    rw [hview.size _ hnode]
    exact Function.update_self ..
  · rw [hview.size _ node_xStart, Function.update_of_ne hx.1, Function.update_of_ne hx.2]
    exact Function.update_self ..
  · rw [hview.size _ node_end, Function.update_of_ne hne.symm]
    exact Function.update_self ..
  · rw [hview.next _ node_end, Function.update_of_ne hne.symm]
    exact Function.update_self ..

end BlackPill.Heap4
