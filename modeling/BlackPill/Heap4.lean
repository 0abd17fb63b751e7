import BlackPill.HeapBounds

/-!
# The kernel's heap

`heap_4.c` serves `pvPortMalloc` from one array. Each block begins with a
`BlockLink_t`; the free blocks are linked in the order of their addresses, between
`xStart` and the marker `*pxEnd` at the end of the array, and the top bit of
`xBlockSize` tells the blocks of the application. All of it is kept in the bytes of
the memory, next to what the application writes there.

`vPortFree` has two parts, since the scheduler is suspended only for the second:
`freeMark` clears the bit and the contents, `freeLink` puts the block in the list.
A failed `configASSERT` and a loop that does not end are `none`: the call does not
return.
-/

namespace BlackPill.Heap4

open ByteMemory

/-! ## Sizes -/

/-- `xHeapStructSize`: two words, a multiple of the alignment. -/
def xHeapStructSize : Nat := 8

/-- `heapMINIMUM_BLOCK_SIZE`. -/
def heapMinimumBlockSize : Nat := xHeapStructSize <<< 1

/-- `heapSIZE_MAX`. -/
def heapSizeMax : Nat := 2 ^ 32 - 1

/-- `heapADD_WILL_OVERFLOW`. -/
def heapAddWillOverflow (a b : Nat) : Prop := a > heapSizeMax - b

/-- `heapMULTIPLY_WILL_OVERFLOW`. -/
def heapMultiplyWillOverflow (a b : Nat) : Prop := a > 0 ∧ b > heapSizeMax / a

instance {a b : Nat} : Decidable (heapAddWillOverflow a b) :=
  inferInstanceAs (Decidable (_ > _))

instance {a b : Nat} : Decidable (heapMultiplyWillOverflow a b) :=
  inferInstanceAs (Decidable (_ ∧ _))

/-- `heapBLOCK_ALLOCATED_BITMASK`. -/
def heapBlockAllocatedBitmask : Nat := 1 <<< 31

/-- A sum and a difference in a `size_t`. -/
def add32 (a b : Nat) : Nat := (a + b) % 2 ^ 32

def sub32 (a b : Nat) : Nat := (a + 2 ^ 32 - b) % 2 ^ 32

/-- `x & ~portBYTE_ALIGNMENT_MASK`. -/
def alignDown (x : Nat) : Nat := x - x % portByteAlignment

/-- What `pvPortMalloc` makes of the size asked for: with the header and rounded up,
0 if it is 0 or overflows. -/
def requiredSize (xWantedSize : Nat) : Nat :=
  if xWantedSize > 0 then
    if ¬ heapAddWillOverflow xWantedSize xHeapStructSize then
      let xWantedSize := xWantedSize + xHeapStructSize
      if xWantedSize % portByteAlignment ≠ 0 then
        let xAdditionalRequiredSize := portByteAlignment - xWantedSize % portByteAlignment
        if ¬ heapAddWillOverflow xWantedSize xAdditionalRequiredSize then
          xWantedSize + xAdditionalRequiredSize
        else 0
      else xWantedSize
    else 0
  else 0

/-! ## Links in the memory -/

abbrev Mem : Type := Nat → UInt8

/-- `pxBlock->pxNextFreeBlock`. -/
def pxNextFreeBlock (mem : Mem) (pxBlock : Nat) : Nat := leValue (load mem pxBlock sizeofSizeT)

/-- `pxBlock->xBlockSize`. -/
def xBlockSize (mem : Mem) (pxBlock : Nat) : Nat :=
  leValue (load mem (pxBlock + sizeofSizeT) sizeofSizeT)

def setNext (mem : Mem) (pxBlock v : Nat) : Mem := write mem pxBlock (leBytes sizeofSizeT v)

def setSize (mem : Mem) (pxBlock v : Nat) : Mem :=
  write mem (pxBlock + sizeofSizeT) (leBytes sizeofSizeT v)

/-- Where the linker has put `ucHeap` and `xStart`. -/
structure Place where
  ucHeap : Nat
  configTotalHeapSize : Nat
  xStart : Nat
  nonnull : 0 < ucHeap ∧ 0 < xStart
  enough : 32 ≤ configTotalHeapSize
  small : configTotalHeapSize < 2 ^ 31
  inRange : ucHeap + configTotalHeapSize ≤ 2 ^ 32 ∧ xStart + xHeapStructSize ≤ 2 ^ 32
  apart : xStart + xHeapStructSize ≤ ucHeap ∨ ucHeap + configTotalHeapSize ≤ xStart

/-- `heapVALIDATE_BLOCK_POINTER`. -/
def Place.Valid (L : Place) (pxBlock : Nat) : Prop :=
  L.ucHeap ≤ pxBlock ∧ pxBlock ≤ L.ucHeap + (L.configTotalHeapSize - 1)

instance {L : Place} {a : Nat} : Decidable (L.Valid a) := inferInstanceAs (Decidable (_ ∧ _))

/-- The memory and the variables of the allocator. -/
structure Heap where
  mem : Mem
  pxEnd : Nat
  xFreeBytesRemaining : Nat
  xMinimumEverFreeBytesRemaining : Nat
  xNumberOfSuccessfulAllocations : Nat
  xNumberOfSuccessfulFrees : Nat

/-- Before the first call. -/
def Heap.init (mem : Mem) : Heap := ⟨mem, 0, 0, 0, 0, 0⟩

/-! ## prvHeapInit -/

/-- The first aligned address of the array. -/
def Place.uxStartAddress (L : Place) : Nat :=
  if L.ucHeap % portByteAlignment ≠ 0 then alignDown (L.ucHeap + (portByteAlignment - 1))
  else L.ucHeap

/-- What is left of the array from there on. -/
def Place.xTotalHeapSize (L : Place) : Nat :=
  L.configTotalHeapSize - (L.uxStartAddress - L.ucHeap)

/-- Where the end marker lies. -/
def Place.uxEndAddress (L : Place) : Nat :=
  alignDown (L.uxStartAddress + L.xTotalHeapSize - xHeapStructSize)

def prvHeapInit (L : Place) (s : Heap) : Heap :=
  let pxEnd := L.uxEndAddress
  let pxFirstFreeBlock := L.uxStartAddress
  let mem := setSize (setNext s.mem L.xStart L.uxStartAddress) L.xStart 0
  let mem := setNext (setSize mem pxEnd 0) pxEnd 0
  let mem := setSize mem pxFirstFreeBlock (pxEnd - pxFirstFreeBlock)
  let mem := setNext mem pxFirstFreeBlock pxEnd
  { s with
    mem := mem
    pxEnd := pxEnd
    xMinimumEverFreeBytesRemaining := pxEnd - pxFirstFreeBlock
    xFreeBytesRemaining := pxEnd - pxFirstFreeBlock }

/-- The heap as `pvPortMalloc` finds it after its test of `pxEnd`. -/
def ready (L : Place) (s : Heap) : Heap := if s.pxEnd = 0 then prvHeapInit L s else s

/-! ## pvPortMalloc -/

/-- The loop: `pxPreviousBlock` and `pxBlock` when it stops. -/
def findBlock (L : Place) (mem : Mem) (xWantedSize : Nat) : Nat → Nat → Nat → Option (Nat × Nat)
  | 0, _, _ => none
  | fuel + 1, pxPreviousBlock, pxBlock =>
    if xBlockSize mem pxBlock < xWantedSize ∧ pxNextFreeBlock mem pxBlock ≠ 0 then
      if L.Valid (pxNextFreeBlock mem pxBlock) then
        findBlock L mem xWantedSize fuel pxBlock (pxNextFreeBlock mem pxBlock)
      else none
    else some (pxPreviousBlock, pxBlock)

/-- The block is split in two if it is larger than required. -/
def splitBlock (mem : Mem) (xWantedSize pxPreviousBlock pxBlock : Nat) : Option Mem :=
  if xBlockSize mem pxBlock - xWantedSize > heapMinimumBlockSize then
    let pxNewBlockLink := pxBlock + xWantedSize
    if pxNewBlockLink % portByteAlignment ≠ 0 then none
    else
      let mem := setSize mem pxNewBlockLink (xBlockSize mem pxBlock - xWantedSize)
      let mem := setSize mem pxBlock xWantedSize
      let mem := setNext mem pxNewBlockLink (pxNextFreeBlock mem pxPreviousBlock)
      some (setNext mem pxPreviousBlock pxNewBlockLink)
  else some mem

/-- The block found is taken out of the list. -/
def takeBlock (L : Place) (s : Heap) (xWantedSize pxPreviousBlock pxBlock : Nat) :
    Option (Heap × Nat) :=
  let pvReturn := pxNextFreeBlock s.mem pxPreviousBlock + xHeapStructSize
  if ¬ L.Valid pvReturn then none
  else
    let mem := setNext s.mem pxPreviousBlock (pxNextFreeBlock s.mem pxBlock)
    if xBlockSize mem pxBlock < xWantedSize then none
    else (splitBlock mem xWantedSize pxPreviousBlock pxBlock).bind fun mem =>
      let xFreeBytesRemaining := sub32 s.xFreeBytesRemaining (xBlockSize mem pxBlock)
      let mem := setSize mem pxBlock (xBlockSize mem pxBlock ||| heapBlockAllocatedBitmask)
      let mem := setNext mem pxBlock 0
      if pvReturn % portByteAlignment ≠ 0 then none
      else some ({ s with
        mem := mem
        xFreeBytesRemaining := xFreeBytesRemaining
        xMinimumEverFreeBytesRemaining :=
          if xFreeBytesRemaining < s.xMinimumEverFreeBytesRemaining then xFreeBytesRemaining
          else s.xMinimumEverFreeBytesRemaining
        xNumberOfSuccessfulAllocations := add32 s.xNumberOfSuccessfulAllocations 1 }, pvReturn)

/-- `pvPortMalloc`: the heap after it and the pointer, 0 for NULL. -/
def pvPortMalloc (L : Place) (s : Heap) (xWantedSize : Nat) : Option (Heap × Nat) :=
  let xWantedSize := requiredSize xWantedSize
  let s := ready L s
  if xWantedSize &&& heapBlockAllocatedBitmask = 0 then
    if xWantedSize > 0 ∧ xWantedSize ≤ s.xFreeBytesRemaining then
      let first := pxNextFreeBlock s.mem L.xStart
      if ¬ L.Valid first then none
      else (findBlock L s.mem xWantedSize L.configTotalHeapSize L.xStart first).bind fun found =>
        if found.2 ≠ s.pxEnd then takeBlock L s xWantedSize found.1 found.2
        else some (s, 0)
    else some (s, 0)
  else some (s, 0)

/-- `pvPortCalloc`. -/
def pvPortCalloc (L : Place) (s : Heap) (xNum xSize : Nat) : Option (Heap × Nat) :=
  if ¬ heapMultiplyWillOverflow xNum xSize then
    (pvPortMalloc L s (xNum * xSize)).map fun res =>
      if res.2 ≠ 0 then
        ({ res.1 with mem := write res.1.mem res.2 (List.replicate (xNum * xSize) 0) }, res.2)
      else res
  else some (s, 0)

/-! ## vPortFree -/

/-- The part of `vPortFree` before the scheduler is suspended. -/
def freeMark (L : Place) (s : Heap) (pv : Nat) : Option Heap :=
  let pxLink := pv - xHeapStructSize
  if L.Valid pxLink ∧ xBlockSize s.mem pxLink &&& heapBlockAllocatedBitmask ≠ 0 ∧
      pxNextFreeBlock s.mem pxLink = 0 then
    let xSize := xBlockSize s.mem pxLink &&& (heapSizeMax - heapBlockAllocatedBitmask)
    let mem := setSize s.mem pxLink xSize
    -- `configHEAP_CLEAR_MEMORY_ON_FREE` is 1
    some { s with
      mem := if xHeapStructSize ≤ xSize then
          write mem (pxLink + xHeapStructSize) (List.replicate (xSize - xHeapStructSize) 0)
        else mem }
  else none

/-- The loop of `prvInsertBlockIntoFreeList`. -/
def insertionPoint (mem : Mem) (pxBlockToInsert : Nat) : Nat → Nat → Option Nat
  | 0, _ => none
  | fuel + 1, pxIterator =>
    if pxNextFreeBlock mem pxIterator < pxBlockToInsert then
      insertionPoint mem pxBlockToInsert fuel (pxNextFreeBlock mem pxIterator)
    else some pxIterator

/-- The block and the one before it make one if they are contiguous. -/
def mergeBefore (mem : Mem) (pxIterator pxBlockToInsert : Nat) : Mem × Nat :=
  if pxIterator + xBlockSize mem pxIterator = pxBlockToInsert then
    (setSize mem pxIterator (add32 (xBlockSize mem pxIterator) (xBlockSize mem pxBlockToInsert)),
      pxIterator)
  else (mem, pxBlockToInsert)

/-- The same for the block and the one after it. -/
def mergeAfter (pxEnd : Nat) (mem : Mem) (pxIterator pxBlockToInsert : Nat) : Mem :=
  let pxNext := pxNextFreeBlock mem pxIterator
  if pxBlockToInsert + xBlockSize mem pxBlockToInsert = pxNext then
    if pxNext ≠ pxEnd then
      let mem := setSize mem pxBlockToInsert
        (add32 (xBlockSize mem pxBlockToInsert) (xBlockSize mem pxNext))
      setNext mem pxBlockToInsert (pxNextFreeBlock mem pxNext)
    else setNext mem pxBlockToInsert pxEnd
  else setNext mem pxBlockToInsert pxNext

def prvInsertBlockIntoFreeList (L : Place) (pxEnd : Nat) (mem : Mem) (pxBlockToInsert : Nat) :
    Option Mem :=
  (insertionPoint mem pxBlockToInsert L.configTotalHeapSize L.xStart).bind fun pxIterator =>
    if pxIterator ≠ L.xStart ∧ ¬ L.Valid pxIterator then none
    else
      let front := mergeBefore mem pxIterator pxBlockToInsert
      let mem := mergeAfter pxEnd front.1 pxIterator front.2
      some (if pxIterator ≠ front.2 then setNext mem pxIterator front.2 else mem)

/-- The part of `vPortFree` with the scheduler suspended. -/
def freeLink (L : Place) (s : Heap) (pv : Nat) : Option Heap :=
  let pxLink := pv - xHeapStructSize
  (prvInsertBlockIntoFreeList L s.pxEnd s.mem pxLink).map fun mem => { s with
    mem := mem
    xFreeBytesRemaining := add32 s.xFreeBytesRemaining (xBlockSize s.mem pxLink)
    xNumberOfSuccessfulFrees := add32 s.xNumberOfSuccessfulFrees 1 }

/-- `vPortFree` in one go. -/
def vPortFree (L : Place) (s : Heap) (pv : Nat) : Option Heap :=
  if pv ≠ 0 then (freeMark L s pv).bind fun s => freeLink L s pv else some s

/-! ## Statistics -/

/-- `HeapStats_t`. -/
structure HeapStats where
  xAvailableHeapSpaceInBytes : Nat
  xSizeOfLargestFreeBlockInBytes : Nat
  xSizeOfSmallestFreeBlockInBytes : Nat
  xNumberOfFreeBlocks : Nat
  xMinimumEverFreeBytesRemaining : Nat
  xNumberOfSuccessfulAllocations : Nat
  xNumberOfSuccessfulFrees : Nat
deriving DecidableEq, Repr

/-- The loop of `vPortGetHeapStats`: `xBlocks`, `xMaxSize` and `xMinSize`. -/
def scanFree (mem : Mem) (pxEnd : Nat) : Nat → Nat → Nat × Nat × Nat → Option (Nat × Nat × Nat)
  | 0, _, _ => none
  | fuel + 1, pxBlock, acc =>
    if pxBlock ≠ pxEnd then
      let size := xBlockSize mem pxBlock
      scanFree mem pxEnd fuel (pxNextFreeBlock mem pxBlock)
        (acc.1 + 1, if size > acc.2.1 then size else acc.2.1,
          if size < acc.2.2 then size else acc.2.2)
    else some acc

def vPortGetHeapStats (L : Place) (s : Heap) : Option HeapStats :=
  let pxBlock := pxNextFreeBlock s.mem L.xStart
  let scanned := if pxBlock ≠ 0 then
      scanFree s.mem s.pxEnd L.configTotalHeapSize pxBlock (0, 0, heapSizeMax)
    else some (0, 0, heapSizeMax)
  scanned.map fun acc =>
    { xAvailableHeapSpaceInBytes := s.xFreeBytesRemaining
      xSizeOfLargestFreeBlockInBytes := acc.2.1
      xSizeOfSmallestFreeBlockInBytes := acc.2.2
      xNumberOfFreeBlocks := acc.1
      xMinimumEverFreeBytesRemaining := s.xMinimumEverFreeBytesRemaining
      xNumberOfSuccessfulAllocations := s.xNumberOfSuccessfulAllocations
      xNumberOfSuccessfulFrees := s.xNumberOfSuccessfulFrees }

end BlackPill.Heap4
