import BlackPill.ByteMemory
import Mathlib.Data.Nat.Basic
import Mathlib.Order.Basic

/-!
# The Berry heap port

`be_port.c` puts the interpreter's heap on that of FreeRTOS. Each block carries
its size in a hidden `size_t` before the pointer that is handed out.

The outcome of each `pvPortMalloc` is an argument of the model: `none` for NULL, or
the address and the size of a block. Whatever the kernel writes, it leaves the
blocks in use alone; every other cell may change in `pvPortMalloc` and `vPortFree`
(a freed block is cleared, free blocks hold the kernel's list).

Results:
1. `beMallocImpl_of_null`, `beReallocImpl_of_null`: what the two functions do when
   `pvPortMalloc` returns NULL; `beReallocImpl_of_some` otherwise.
2. `null_never_fails_cleanly`: they never fail cleanly then.
   `null_malloc_not_clean`: the result is a pointer to address 4.
-/

namespace BlackPill

open ByteMemory

/-! ## Definitions -/

/-- `sizeof(size_t)` on the target. -/
def sizeofSizeT : Nat := 4

/-- A block that `pvPortMalloc` has returned. `serial` numbers the blocks in the
order in which they were obtained, `wanted` is the size that was asked for. -/
structure PortBlock where
  serial : Nat
  addr : Nat
  wanted : Nat
  size : Nat
deriving DecidableEq, Repr

/-- A successful outcome of `pvPortMalloc`: the block, and what the kernel leaves
in the cells outside the blocks that were in use. -/
structure Grant where
  addr : Nat
  size : Nat
  junk : Nat → UInt8

/-- The memory and the kernel's heap. `obtained` and `freed` list the blocks
returned by `pvPortMalloc` and given back, `badFrees` the addresses passed to
`vPortFree` at which no block in use begins, `writes` the addresses and lengths of
what the port itself has written. -/
structure HeapState where
  mem : Nat → UInt8
  inUse : List PortBlock
  obtained : List PortBlock
  freed : List PortBlock
  badFrees : List Nat
  writes : List (Nat × Nat)

/-- Whether a cell lies in the block. -/
def PortBlock.Has (b : PortBlock) (j : Nat) : Prop := b.addr ≤ j ∧ j < b.addr + b.size

instance {b : PortBlock} {j : Nat} : Decidable (b.Has j) := by
  unfold PortBlock.Has
  infer_instance

/-- The memory after the kernel has worked on it: only the given blocks are sure to
keep their contents. -/
def keep (blocks : List PortBlock) (mem junk : Nat → UInt8) : Nat → UInt8 :=
  fun j => if blocks.any fun b => decide (b.Has j) then mem j else junk j

/-- `pvPortMalloc`: the heap after it and the pointer, 0 for NULL. -/
def pvPortMalloc (s : HeapState) (xWantedSize : Nat) : Option Grant → HeapState × Nat
  | none => (s, 0)
  | some g =>
    let b : PortBlock := ⟨s.obtained.length, g.addr, xWantedSize, g.size⟩
    ({ s with
      mem := keep s.inUse s.mem g.junk
      inUse := b :: s.inUse
      obtained := s.obtained ++ [b] }, g.addr)

/-- `vPortFree`. -/
def vPortFree (s : HeapState) (pv : Nat) (junk : Nat → UInt8) : HeapState :=
  if pv = 0 then s
  else
    match s.inUse.find? fun b => b.addr == pv with
    | none => { s with badFrees := s.badFrees ++ [pv] }
    | some b => { s with
        mem := keep (s.inUse.erase b) s.mem junk
        inUse := s.inUse.erase b
        freed := s.freed ++ [b] }

/-- A write of the port. -/
def HeapState.store (s : HeapState) (a : Nat) (bytes : List UInt8) : HeapState :=
  { s with mem := write s.mem a bytes, writes := s.writes ++ [(a, bytes.length)] }

/-- `be_malloc_impl`. The sum of the sizes is taken in a `size_t`. -/
def beMallocImpl (s : HeapState) (size : Nat) (g : Option Grant) : HeapState × Nat :=
  let p := pvPortMalloc s ((size + sizeofSizeT) % 2 ^ 32) g
  (p.1.store p.2 (leBytes sizeofSizeT size), p.2 + sizeofSizeT)

/-- `be_free_impl`. Callers never pass NULL: the code would then give `vPortFree` the address
below 0, which the subtraction here does not model. -/
def beFreeImpl (s : HeapState) (ptr : Nat) (junk : Nat → UInt8) : HeapState :=
  vPortFree s (ptr - sizeofSizeT) junk

/-- `be_size_impl`. -/
def beSizeImpl (s : HeapState) (ptr : Nat) : Nat :=
  leValue (load s.mem (ptr - sizeofSizeT) sizeofSizeT)

/-- `be_realloc_impl`. -/
def beReallocImpl (s : HeapState) (ptr newSize : Nat) (g : Option Grant) (junk : Nat → UInt8) :
    HeapState × Nat :=
  if ptr = 0 then beMallocImpl s newSize g
  else if newSize = 0 then (beFreeImpl s ptr junk, 0)
  else
    let oldSize := beSizeImpl s ptr
    let new := beMallocImpl s newSize g
    -- never so: `be_malloc_impl` returns what `pvPortMalloc` does, plus 4
    if new.2 = 0 then (new.1, 0)
    else
      let copySize := if oldSize < newSize then oldSize else newSize
      let copied := new.1.store new.2 (load new.1.mem ptr copySize)
      (beFreeImpl copied ptr junk, new.2)

/-- Before the first call. -/
def HeapState.init (mem : Nat → UInt8) : HeapState :=
  { mem := mem, inUse := [], obtained := [], freed := [], badFrees := [], writes := [] }

/-- `be_realloc_impl` of a pointer with a new size above 0, when there is a block for it:
`be_malloc_impl`, a copy of the bytes up to both sizes, and `be_free_impl`. -/
theorem beReallocImpl_of_some {s : HeapState} {ptr size : Nat} {g : Grant} {junk : Nat → UInt8}
    (hp : ptr ≠ 0) (hs : size ≠ 0) :
    beReallocImpl s ptr size (some g) junk =
      (beFreeImpl ((beMallocImpl s size (some g)).1.store (beMallocImpl s size (some g)).2
        (load (beMallocImpl s size (some g)).1.mem ptr (min (beSizeImpl s ptr) size))) ptr junk,
        (beMallocImpl s size (some g)).2) := by
  have hnew : (beMallocImpl s size (some g)).2 ≠ 0 := Nat.succ_ne_zero _
  simp only [beReallocImpl, if_neg hp, if_neg hs, if_neg hnew, min_def_lt]

/-! ## Exhaustion of the heap -/

/-- A call fails cleanly: it returns NULL, writes nothing, and leaves every block in
use where it is, with its header and contents. -/
structure FailsCleanly (s : HeapState) (res : HeapState × Nat) : Prop where
  null : res.2 = 0
  writes : res.1.writes = s.writes
  inUse : res.1.inUse = s.inUse
  contents : ∀ b ∈ s.inUse, load res.1.mem b.addr b.size = load s.mem b.addr b.size

section Exhaustion

variable {s : HeapState} {size ptr : Nat} {junk : Nat → UInt8}

/-- On NULL, `be_malloc_impl` writes the size to address 0 and returns address 4. -/
theorem beMallocImpl_of_null :
    beMallocImpl s size none = (s.store 0 (leBytes sizeofSizeT size), sizeofSizeT) := rfl

/-- On NULL, `be_realloc_impl` takes address 4 for the new block: its test is never
true, so it copies the contents there and frees the block it was to keep. -/
theorem beReallocImpl_of_null (s : HeapState) (junk : Nat → UInt8) (hp : ptr ≠ 0)
    (hs : size ≠ 0) : ∃ bytes,
    beReallocImpl s ptr size none junk =
      (beFreeImpl ((s.store 0 (leBytes sizeofSizeT size)).store sizeofSizeT bytes) ptr junk,
        sizeofSizeT) := by
  unfold beReallocImpl
  rw [if_neg hp, if_neg hs, beMallocImpl_of_null]
  exact ⟨_, rfl⟩

theorem beReallocImpl_of_null_ne_zero (hs : size ≠ 0) :
    (beReallocImpl s ptr size none junk).2 ≠ 0 := by
  by_cases hp : ptr = 0
  · unfold beReallocImpl
    rw [if_pos hp, beMallocImpl_of_null]
    exact Nat.succ_ne_zero 3
  · obtain ⟨_, he⟩ := beReallocImpl_of_null s junk hp hs
    rw [he]
    exact Nat.succ_ne_zero 3

end Exhaustion

/-- In no state of the heap do `be_malloc_impl`, and `be_realloc_impl` with a new size
above 0, fail cleanly when `pvPortMalloc` returns NULL. -/
theorem null_never_fails_cleanly (s : HeapState) :
    (∀ size, ¬ FailsCleanly s (beMallocImpl s size none)) ∧
    (∀ ptr size junk, ¬ FailsCleanly s (beReallocImpl s ptr (size + 1) none junk)) := by
  constructor
  · intro size h
    exact Nat.succ_ne_zero 3 h.null
  · intro ptr size junk h
    exact beReallocImpl_of_null_ne_zero (Nat.succ_ne_zero size) h.null

/-- A first request of 8 bytes that `pvPortMalloc` cannot serve: the header goes to
address 0. -/
theorem null_malloc_not_clean : ¬ FailsCleanly (.init fun _ => 0)
    (beMallocImpl (.init fun _ => 0) 8 none) := by
  intro h
  exact absurd h.writes (by decide)

end BlackPill
