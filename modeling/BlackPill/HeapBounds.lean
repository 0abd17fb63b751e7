import BlackPill.HeapAllocator

/-!
# The bounds of the blocks of the heap port

`be_malloc_impl` adds the size of its header in a `size_t` before `pvPortMalloc` gets
to see the sum, so the kernel's own test for an overflow does not see this one.
Here `pvPortMalloc` returns a block of exactly the size it is asked for, rounded up
to its alignment.

Results:
1. `blocks_in_bounds_iff`: the pointers handed out have the room asked for, and the
   header and the copy lie in the new block, for exactly the sizes up to
   `maxRequest`. `wrapped_malloc_too_small`: 4294967293 bytes in a block of 8.
2. `wrapped_realloc_copies_outside`: for the sizes above it `be_realloc_impl` copies
   past the end of the block as soon as there is more than a word to copy.
3. `serves_exactGrant`: up to `maxRequest` such a block is one that the allocator of
   `HeapAllocator` may be given.
-/

namespace BlackPill

open ByteMemory

/-! ## Definitions -/

/-- `portBYTE_ALIGNMENT` of the ARM_CM4F port. -/
def portByteAlignment : Nat := 8

/-- What `pvPortMalloc` makes of the size it is asked for. -/
def aligned (xWantedSize : Nat) : Nat :=
  if xWantedSize % portByteAlignment ≠ 0 then
    xWantedSize + (portByteAlignment - xWantedSize % portByteAlignment)
  else xWantedSize

/-- The block at `addr` for a request of `be_malloc_impl`. -/
def exactGrant (addr size : Nat) (junk : Nat → UInt8) : Grant :=
  ⟨addr, aligned ((size + sizeofSizeT) % 2 ^ 32), junk⟩

/-- A call keeps to its new block.

* `room`: a pointer other than NULL lies behind the header and has `size` bytes up to
  the end of the block;
* `writes`: all that the port writes lies in the block. -/
structure InBounds (s : HeapState) (g : Grant) (size : Nat) (res : HeapState × Nat) : Prop where
  room : res.2 ≠ 0 → g.addr + sizeofSizeT ≤ res.2 ∧ res.2 + size ≤ g.addr + g.size
  writes : ∃ ws, res.1.writes = s.writes ++ ws ∧
    ∀ w ∈ ws, g.addr ≤ w.1 ∧ w.1 + w.2 ≤ g.addr + g.size

namespace HeapBoundsLemmas

variable {s : HeapState} {size ptr addr : Nat} {junk freed : Nat → UInt8} {g : Grant}

/-! ## The size of the block -/

theorem le_aligned (n : Nat) : n ≤ aligned n := by
  unfold aligned
  split
  · exact Nat.le_add_right _ _
  · exact Nat.le_refl _

theorem aligned_small {n : Nat} (h : n ≤ 3) : aligned n ≤ 8 := by
  unfold aligned portByteAlignment
  split <;> omega

/-- Up to `maxRequest` the sum does not wrap. -/
theorem exactGrant_enough (h : size ≤ maxRequest) :
    size + sizeofSizeT ≤ (exactGrant addr size junk).size := by
  have hsum : (size + sizeofSizeT) % 2 ^ 32 = size + sizeofSizeT := by
    unfold maxRequest at h
    unfold sizeofSizeT
    exact Nat.mod_eq_of_lt (by omega)
  calc
    size + sizeofSizeT = (size + sizeofSizeT) % 2 ^ 32 := hsum.symm
    _ ≤ aligned ((size + sizeofSizeT) % 2 ^ 32) := le_aligned _

/-- Above it at most three bytes are asked for. -/
theorem exactGrant_small (h : maxRequest < size) (hs : size < 2 ^ 32) :
    (exactGrant addr size junk).size ≤ 8 := by
  refine aligned_small ?_
  unfold maxRequest at h
  unfold sizeofSizeT
  omega

/-! ## The writes -/

/-- The kernel's work is no write of the port. -/
theorem beFreeImpl_writes : (beFreeImpl s ptr junk).writes = s.writes := by
  unfold beFreeImpl vPortFree
  split
  · rfl
  · cases s.inUse.find? fun b => b.addr == ptr - sizeofSizeT <;> rfl

theorem beMallocImpl_writes :
    (beMallocImpl s size (some g)).1.writes = s.writes ++ [(g.addr, sizeofSizeT)] := by
  show s.writes ++ [(g.addr, (leBytes sizeofSizeT size).length)] = _
  rw [leBytes_length]

/-- `be_realloc_impl` of a pointer with a new size above 0 writes the header and the
bytes up to both sizes. -/
theorem beReallocImpl_writes (hp : ptr ≠ 0) (hs : size ≠ 0) :
    (beReallocImpl s ptr size (some g) freed).1.writes = s.writes ++
      [(g.addr, sizeofSizeT), (g.addr + sizeofSizeT, min (beSizeImpl s ptr) size)] := by
  rw [beReallocImpl_of_some hp hs, beFreeImpl_writes]
  show (beMallocImpl s size (some g)).1.writes ++ [(g.addr + sizeofSizeT, _)] = _
  rw [beMallocImpl_writes, load_length, List.append_assoc]
  rfl

theorem beReallocImpl_ptr (hs : size ≠ 0) :
    (beReallocImpl s ptr size (some g) freed).2 = g.addr + sizeofSizeT := by
  by_cases hp : ptr = 0
  · subst hp
    rfl
  · rw [beReallocImpl_of_some hp hs]
    rfl

/-! ## Both calls -/

theorem malloc_inBounds (h : size + sizeofSizeT ≤ g.size) :
    InBounds s g size (beMallocImpl s size (some g)) where
  room _ := by
    refine ⟨Nat.le_refl _, ?_⟩
    show g.addr + sizeofSizeT + size ≤ g.addr + g.size
    omega
  writes := by
    refine ⟨_, beMallocImpl_writes, fun w hw => ?_⟩
    obtain rfl := List.mem_singleton.mp hw
    exact ⟨Nat.le_refl _, by omega⟩

theorem realloc_inBounds (h : size + sizeofSizeT ≤ g.size) :
    InBounds s g size (beReallocImpl s ptr size (some g) freed) := by
  by_cases hp : ptr = 0
  · subst hp
    exact malloc_inBounds h
  by_cases hs : size = 0
  · subst hs
    simp only [beReallocImpl, if_neg hp, if_true]
    refine ⟨fun h0 => absurd rfl h0, [], ?_, fun w hw => absurd hw List.not_mem_nil⟩
    rw [beFreeImpl_writes, List.append_nil]
  refine ⟨fun _ => ?_, _, beReallocImpl_writes hp hs, fun w hw => ?_⟩
  · rw [beReallocImpl_ptr hs]
    exact ⟨Nat.le_refl _, by omega⟩
  · have hmin := Nat.min_le_right (beSizeImpl s ptr) size
    rcases List.mem_cons.mp hw with rfl | hw
    · exact ⟨Nat.le_refl _, by omega⟩
    · obtain rfl := List.mem_singleton.mp hw
      exact ⟨Nat.le_add_right _ _, by omega⟩

/-- The block of a size that wraps has not the room. -/
theorem not_inBounds_of_small {res : HeapState × Nat} (hp : res.2 = g.addr + sizeofSizeT)
    (hg : g.size ≤ 8) (hs : maxRequest < size) : ¬ InBounds s g size res := by
  intro h
  have hne : g.addr + sizeofSizeT ≠ 0 := Nat.succ_ne_zero _
  obtain ⟨_, hroom⟩ := h.room (by rw [hp]; exact hne)
  rw [hp] at hroom
  unfold maxRequest at hs
  omega

end HeapBoundsLemmas

open HeapBoundsLemmas

/-- For every size that a `size_t` has, in every state of the heap, and for every pointer
with whatever size in its header: `be_malloc_impl` and `be_realloc_impl` keep to the
block that `pvPortMalloc` returns exactly when the size and the header are together
below 2^32. -/
theorem blocks_in_bounds_iff (s : HeapState) (size : UInt32) (ptr addr : Nat)
    (junk freed : Nat → UInt8) :
    (InBounds s (exactGrant addr size.toNat junk) size.toNat
        (beMallocImpl s size.toNat (some (exactGrant addr size.toNat junk))) ↔
      size.toNat ≤ maxRequest) ∧
    (InBounds s (exactGrant addr size.toNat junk) size.toNat
        (beReallocImpl s ptr size.toNat (some (exactGrant addr size.toNat junk)) freed) ↔
      size.toNat ≤ maxRequest) := by
  have hlt : size.toNat < 2 ^ 32 := size.toNat_lt
  generalize size.toNat = n at hlt
  constructor
  · refine ⟨fun h => ?_, fun h => malloc_inBounds (exactGrant_enough h)⟩
    refine Nat.le_of_not_lt fun hn => ?_
    exact not_inBounds_of_small rfl (exactGrant_small hn hlt) hn h
  · refine ⟨fun h => ?_, fun h => realloc_inBounds (exactGrant_enough h)⟩
    refine Nat.le_of_not_lt fun hn => ?_
    exact not_inBounds_of_small (beReallocImpl_ptr (Nat.ne_of_gt (Nat.zero_lt_of_lt hn)))
      (exactGrant_small hn hlt) hn h

/-- A first request of 4294967293 bytes: one byte is asked for, and a block of 8 is
taken for one of 4294967297. -/
theorem wrapped_malloc_too_small : ¬ InBounds (.init fun _ => 0)
    (exactGrant 0x20000100 0xFFFFFFFD fun _ => 0) 0xFFFFFFFD
    (beMallocImpl (.init fun _ => 0) 0xFFFFFFFD
      (some (exactGrant 0x20000100 0xFFFFFFFD fun _ => 0))) := by
  intro h
  exact absurd (h.room (by decide)).2 (by decide)

/-- With a size that wraps, the copy of `be_realloc_impl` runs over the end of the new
block unless the old one has at most a word. -/
theorem wrapped_realloc_copies_outside {s : HeapState} {ptr size addr : Nat}
    {junk freed : Nat → UInt8} (hp : ptr ≠ 0) (hs : maxRequest < size) (hlt : size < 2 ^ 32)
    (hold : sizeofSizeT < beSizeImpl s ptr) :
    ∃ w ∈ (beReallocImpl s ptr size (some (exactGrant addr size junk)) freed).1.writes,
      w.1 = addr + sizeofSizeT ∧ addr + (exactGrant addr size junk).size < w.1 + w.2 := by
  have hs0 : size ≠ 0 := Nat.ne_of_gt (Nat.zero_lt_of_lt hs)
  have hsmall : (exactGrant addr size junk).size ≤ 8 := exactGrant_small hs hlt
  rw [beReallocImpl_writes hp hs0]
  refine ⟨(addr + sizeofSizeT, min (beSizeImpl s ptr) size), ?_, rfl, ?_⟩
  · exact List.mem_append_right _ (List.mem_cons_of_mem _ (List.mem_singleton_self _))
  · have hmin : sizeofSizeT < min (beSizeImpl s ptr) size :=
      Nat.lt_min.mpr ⟨hold, Nat.lt_trans (by decide) hs⟩
    unfold sizeofSizeT at hmin ⊢
    omega

/-- Up to `maxRequest` a block apart from those in use serves the request. -/
theorem serves_exactGrant {s : HeapState} {size addr : Nat} {junk : Nat → UInt8}
    (hs : size ≤ maxRequest) (hn : 0 < addr)
    (ha : ∀ b ∈ s.inUse, b.addr + b.size ≤ addr ∨
      addr + (exactGrant addr size junk).size ≤ b.addr) :
    Serves s size (exactGrant addr size junk) where
  nonnull := hn
  enough := exactGrant_enough hs
  apart := ha

end BlackPill
