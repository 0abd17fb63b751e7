import BlackPill.HeapBounds
import BlackPill.Heap4Stats

/-!
# The Berry heap on the kernel's heap

`HeapAllocator` takes what `pvPortMalloc` returns as an argument and asks of it that a
request is served with a block apart from all blocks in use. Here `pvPortMalloc` and
`vPortFree` are those of `heap_4.c`, on one memory with the port, and the other tasks
allocate, write and free blocks of their own in between.

Results:
1. `serves_heap4`: what `heap_4.c` returns serves the port.
2. `shared_heap_right`: in every run of the interpreter and the other tasks the port is right
   about the interpreter's blocks.
3. `shared_heap_returns`: a call goes wrong exactly when `pvPortMalloc` has returned NULL to
   the port.
-/

namespace BlackPill

open ByteMemory Runs Tilings Heap4 HeapAllocatorLemmas Heap4RunsLemmas

/-! ## Definitions -/

/-- The kernel's heap with what all tasks have of it, and the port with what the
interpreter has. -/
structure SharedHeap where
  use : HeapUse
  berry : BerryHeap

/-- The calls of the interpreter, and the events of the other tasks. -/
inductive SharedCall
  | malloc (size : Nat)
  | realloc (ptr size : Nat)
  | free (ptr : Nat)
  | write (ptr off : Nat) (bytes : List UInt8)
  | other (e : HeapEvent)

/-- The size that the port asks `pvPortMalloc` for. -/
def portRequest (size : Nat) : Nat := (size + sizeofSizeT) % 2 ^ 32

/-- The memory of `be_realloc_impl` before it frees the old block. -/
def reallocCopied (s : HeapState) (ptr size : Nat) (g : Grant) : HeapState :=
  (beMallocImpl s size (some g)).1.store (beMallocImpl s size (some g)).2
    (load (beMallocImpl s size (some g)).1.mem ptr (min (beSizeImpl s ptr) size))

/-- `pvPortMalloc` for the port: `none` if it does not return or returns NULL. -/
def SharedHeap.obtain (L : Place) (s : SharedHeap) (size : Nat) : Option (Heap × Grant) :=
  (Heap4.pvPortMalloc L s.use.heap (portRequest size)).bind fun res =>
    if res.2 = 0 then none else some (res.1, ⟨res.2, portRequest size, res.1.mem⟩)

/-- A call of the port that gets a block and does nothing else. -/
def SharedHeap.allocate (L : Place) (s : SharedHeap) (size : Nat) (call : Grant → HeapCall) :
    Option SharedHeap :=
  (s.obtain L size).map fun res =>
    let berry := s.berry.run (call res.2)
    ⟨⟨{ res.1 with mem := berry.port.mem }, ⟨res.2.addr, res.2.size⟩ :: s.use.inUse,
      s.use.leaving⟩, berry⟩

/-- A call of the port that gives a block back and does nothing else, up to the second part of
`vPortFree`. -/
def SharedHeap.release (L : Place) (s : SharedHeap) (ptr : Nat)
    (call : (Nat → UInt8) → HeapCall) : Option SharedHeap :=
  (Heap4.freeMark L s.use.heap (ptr - sizeofSizeT)).map fun h =>
    ⟨⟨h, s.use.inUse.filter fun b => b.ptr ≠ ptr - sizeofSizeT,
      (ptr - sizeofSizeT) :: s.use.leaving⟩, s.berry.run (call h.mem)⟩

/-- `be_realloc_impl` when it gets a new block and gives the old one back. -/
def SharedHeap.move (L : Place) (s : SharedHeap) (ptr size : Nat) : Option SharedHeap :=
  (s.obtain L size).bind fun res =>
    let copied := reallocCopied s.berry.port ptr size res.2
    (Heap4.freeMark L { res.1 with mem := copied.mem } (ptr - sizeofSizeT)).map fun h =>
      ⟨⟨h, (⟨res.2.addr, res.2.size⟩ :: s.use.inUse).filter fun b => b.ptr ≠ ptr - sizeofSizeT,
        (ptr - sizeofSizeT) :: s.use.leaving⟩, s.berry.run (.realloc ptr size res.2 h.mem)⟩

def SharedHeap.next (L : Place) (s : SharedHeap) : SharedCall → Option SharedHeap
  | .malloc size => s.allocate L size (.malloc size)
  | .realloc ptr size =>
    if ptr = 0 then s.allocate L size fun g => .realloc 0 size g g.junk
    -- no block is asked for, so none is granted
    else if size = 0 then s.release L ptr fun junk => .realloc ptr 0 ⟨0, 0, junk⟩ junk
    else s.move L ptr size
  | .free ptr => s.release L ptr (.free ptr)
  | .write ptr off bytes =>
      let berry := s.berry.run (.write ptr off bytes)
      some ⟨{ s.use with heap := { s.use.heap with mem := berry.port.mem } }, berry⟩
  | .other e => (s.use.next L e).map fun u =>
      ⟨u, { s.berry with port := { s.berry.port with mem := u.heap.mem } }⟩

/-- The interpreter passes live pointers, or NULL to `be_realloc_impl`, and writes inside its
blocks; the other tasks keep to their own blocks. -/
def SharedHeap.Fair (s : SharedHeap) : SharedCall → Prop
  | .malloc size => size ≤ maxRequest
  | .realloc ptr size => size ≤ maxRequest ∧ (ptr = 0 ∨ (s.berry.live ptr).isSome)
  | .free ptr => (s.berry.live ptr).isSome
  | .write ptr off bytes => ∃ b, s.berry.live ptr = some b ∧ off + bytes.length ≤ b.size
  | .other e => Heap4.Keeps s.use e ∧ ∀ k ∈ s.berry.port.inUse, ¬ e.Names k.addr

def SharedStep (L : Place) (s : SharedHeap) (call : SharedCall) (s' : SharedHeap) : Prop :=
  s.Fair call ∧ s.next L call = some s'

def SharedHeap.init (mem : Nat → UInt8) : SharedHeap := ⟨.init mem, .init mem⟩

/-! ## The invariant -/

/-- One memory, and the port's blocks are among those that the kernel has handed out. -/
structure SharedSound (L : Place) (s : SharedHeap) : Prop where
  tied : ∃ ts, Tied L s.use ts
  mem : s.berry.port.mem = s.use.heap.mem
  blocks : ∀ k ∈ s.berry.port.inUse, ⟨k.addr, k.size⟩ ∈ s.use.inUse
  heap : HeapSound s.berry.port s.berry.live

namespace HeapSharedLemmas

variable {L : Place} {s : SharedHeap} {u u' : HeapUse} {port : HeapState} {live : Live}
  {ts : List (Tile Owner)} {e : HeapEvent} {size ptr : Nat} {h : Heap} {g : Grant}
  {mem mem' : Nat → UInt8} {k : PortBlock}

/-- The port depends on the cells of its blocks only. -/
theorem heapSound_congr (hs : HeapSound port live)
    (hm : ∀ k ∈ port.inUse, ∀ j, k.Has j → mem j = port.mem j) :
    HeapSound { port with mem := mem } live where
  apart := hs.apart
  positive := hs.positive
  block p b hb := by
    obtain ⟨k, hk, hc⟩ := hs.block p b hb
    exact ⟨k, hk, carries_congr hc (hm k hk)⟩
  owner := hs.owner
  serials := hs.serials
  ledger := hs.ledger
  noBadFree := hs.noBadFree

theorem keep_eq {blocks : List PortBlock} (hm : ∀ k ∈ blocks, ∀ j, k.Has j → mem j = mem' j) :
    keep blocks mem mem' = mem' := by
  funext j
  unfold keep
  split
  · next hj =>
    obtain ⟨k, hk, hkj⟩ := List.any_eq_true.mp hj
    exact hm k hk j (of_decide_eq_true hkj)
  · rfl

/-- An event that names none of the port's blocks leaves their cells as they are. -/
theorem cells_of_step (ht : Tied L u ts) (hs : HeapUseStep L u e u')
    (hk : ⟨k.addr, k.size⟩ ∈ u.inUse) (hne : ¬ e.Names k.addr) {j : Nat} (hj : k.Has j) :
    u'.heap.mem j = u.heap.mem j := by
  obtain ⟨_, hc⟩ := contents_effect ht (effect_step ht hs) hk hne
  obtain ⟨i, rfl⟩ := Nat.exists_eq_add_of_le hj.1
  have hi : i < k.size := by
    have hlt := hj.2
    omega
  have hl : ∀ m : Nat → UInt8, i < (load m k.addr k.size).length := fun m => by simpa using hi
  have h1 := load_getElem (hl u'.heap.mem)
  have h2 := load_getElem (hl u.heap.mem)
  rw [← h1, ← h2]
  exact List.getElem_of_eq hc _

/-- What `pvPortMalloc` does for the port. -/
theorem obtain_step (ho : s.obtain L size = some (h, g)) :
    HeapUseStep L s.use (.malloc (portRequest size))
      ⟨h, ⟨g.addr, g.size⟩ :: s.use.inUse, s.use.leaving⟩ ∧ 0 < g.addr ∧
    g.size = portRequest size ∧ g.junk = h.mem := by
  obtain ⟨res, hres, hg⟩ := Option.bind_eq_some_iff.mp ho
  by_cases h0 : res.2 = 0
  · rw [if_pos h0] at hg
    cases hg
  · rw [if_neg h0] at hg
    cases hg
    refine ⟨⟨trivial, ?_⟩, Nat.pos_of_ne_zero h0, rfl, rfl⟩
    rw [HeapUse.next, hres, Option.map_some, if_neg h0]

end HeapSharedLemmas

open HeapSharedLemmas

/-- What `heap_4.c` returns serves the request of the port, and the kernel's work has
left the port's blocks as they were. -/
theorem serves_heap4 {L : Place} {s : SharedHeap} {size : Nat} {h : Heap} {g : Grant}
    (hs : SharedSound L s) (hsize : size ≤ maxRequest) (ho : s.obtain L size = some (h, g)) :
    Serves s.berry.port size g ∧ g.size = size + sizeofSizeT ∧
      keep s.berry.port.inUse s.berry.port.mem g.junk = h.mem := by
  obtain ⟨ts, ht⟩ := hs.tied
  obtain ⟨hstep, hpos, hgs, hjunk⟩ := obtain_step ho
  have hreq : portRequest size = size + sizeofSizeT := by
    unfold maxRequest at hsize
    unfold portRequest sizeofSizeT
    exact Nat.mod_eq_of_lt (by omega)
  have hap := (blocksApart_of_tied (tied_effect ht (effect_step ht hstep))).apart
  obtain ⟨hnew, _⟩ := List.pairwise_cons.mp hap
  refine ⟨⟨hpos, by rw [hgs, hreq], fun k hk => ?_⟩, hgs.trans hreq, ?_⟩
  · have hk' := hnew _ (hs.blocks k hk)
    have hk' : g.addr + g.size + xHeapStructSize ≤ k.addr ∨
        k.addr + k.size + xHeapStructSize ≤ g.addr := hk'
    omega
  · rw [hjunk]
    refine keep_eq fun k hk j hj => ?_
    rw [hs.mem]
    exact (cells_of_step ht hstep (hs.blocks k hk) (fun hn => hn) hj).symm

/-! ## The calls -/

section Calls

variable {L : Place} {s s' : SharedHeap} {u : HeapUse} {port : HeapState} {live : Live}
  {size ptr : Nat} {h : Heap} {g : Grant} {k : PortBlock} {b : LiveBlock}

/-- `be_realloc_impl` of NULL does what `be_malloc_impl` does. -/
theorem run_realloc_null {junk : Nat → UInt8} (hs : SharedSound L s) :
    s.berry.run (.realloc 0 size g junk) = s.berry.run (.malloc size g) := by
  simp only [BerryHeap.run, live_null hs.heap]
  rfl

theorem ne_null_of_live (hs : SharedSound L s) (hb : s.berry.live ptr = some b) : ptr ≠ 0 :=
  fun he => absurd (hb.symm.trans (he ▸ live_null hs.heap)) (by simp)

/-- `be_realloc_impl` with the size 0 does what `be_free_impl` does. -/
theorem run_realloc_zero {junk : Nat → UInt8} (hs : SharedSound L s)
    (hb : s.berry.live ptr = some b) :
    s.berry.run (.realloc ptr 0 g junk) = s.berry.run (.free ptr junk) := by
  simp only [BerryHeap.run, hb, beReallocImpl, if_neg (ne_null_of_live hs hb), if_true]

/-- A new block with its header written is tied to the kernel's. -/
theorem tied_malloc_header (hs : SharedSound L s) (hsize : size ≤ maxRequest)
    (ho : s.obtain L size = some (h, g)) :
    ∃ ts, Tied L ⟨{ h with mem := (beMallocImpl s.berry.port size (some g)).1.mem },
      ⟨g.addr, g.size⟩ :: s.use.inUse, s.use.leaving⟩ ts := by
  obtain ⟨ts, ht⟩ := hs.tied
  obtain ⟨_, hgs, hkeep⟩ := serves_heap4 hs hsize ho
  have ht1 := tied_effect ht (effect_step ht (obtain_step ho).1)
  have hroom : 0 + (leBytes sizeofSizeT size).length ≤ g.size := by
    rw [leBytes_length, hgs]
    omega
  have hmem : (beMallocImpl s.berry.port size (some g)).1.mem =
      write h.mem (g.addr + 0) (leBytes sizeofSizeT size) := by
    rw [← hkeep]
    rfl
  rw [hmem]
  exact ⟨_, tied_effect ht1 (effect_step (e := .write g.addr 0 (leBytes sizeofSizeT size)) ht1
    ⟨⟨g.size, List.mem_cons_self, hroom⟩, rfl⟩)⟩

/-- So it is with the contents of the old block copied: for the kernel the copy is one more
write of the interpreter's task. -/
theorem tied_reallocCopied (ptr : Nat) (hs : SharedSound L s) (hsize : size ≤ maxRequest)
    (ho : s.obtain L size = some (h, g)) :
    ∃ ts, Tied L ⟨{ h with mem := (reallocCopied s.berry.port ptr size g).mem },
      ⟨g.addr, g.size⟩ :: s.use.inUse, s.use.leaving⟩ ts := by
  obtain ⟨ts, ht⟩ := tied_malloc_header hs hsize ho
  obtain ⟨_, hgs, _⟩ := serves_heap4 hs hsize ho
  have hroom : sizeofSizeT + (load (beMallocImpl s.berry.port size (some g)).1.mem ptr
      (min (beSizeImpl s.berry.port ptr) size)).length ≤ g.size := by
    rw [load_length, hgs, Nat.add_comm]
    exact Nat.add_le_add_right (Nat.min_le_right _ _) _
  exact ⟨_, tied_effect ht (effect_step (e := .write g.addr sizeofSizeT
    (load (beMallocImpl s.berry.port size (some g)).1.mem ptr
      (min (beSizeImpl s.berry.port ptr) size))) ht ⟨⟨g.size, List.mem_cons_self, hroom⟩, rfl⟩)⟩

/-- `be_free_impl` on the kernel's heap, for any memory that the two share. -/
theorem shared_free {ts : List (Tile Owner)} (ht : Tied L u ts) (hp : HeapSound port live)
    (hm : port.mem = u.heap.mem) (hb : ∀ k ∈ port.inUse, ⟨k.addr, k.size⟩ ∈ u.inUse)
    (hk : k ∈ port.inUse) (hptr : k.addr + sizeofSizeT = ptr)
    (hf : Heap4.freeMark L u.heap (ptr - sizeofSizeT) = some h) :
    (∃ ts', Tied L ⟨h, u.inUse.filter fun b => b.ptr ≠ ptr - sizeofSizeT,
      (ptr - sizeofSizeT) :: u.leaving⟩ ts') ∧
    (beFreeImpl port ptr h.mem).mem = h.mem ∧
    ∀ m ∈ (beFreeImpl port ptr h.mem).inUse,
      ⟨m.addr, m.size⟩ ∈ u.inUse.filter fun b => b.ptr ≠ ptr - sizeofSizeT := by
  have haddr : ptr - sizeofSizeT = k.addr := by rw [← hptr, Nat.add_sub_cancel]
  rw [haddr] at hf ⊢
  have hstep : HeapUseStep L u (.freeMark k.addr)
      ⟨h, u.inUse.filter fun b => b.ptr ≠ k.addr, k.addr :: u.leaving⟩ :=
    ⟨⟨k.size, hb k hk⟩, by rw [HeapUse.next, hf]; rfl⟩
  have hother : ∀ m ∈ port.inUse.erase k, m ∈ port.inUse ∧ m.addr ≠ k.addr := by
    intro m hm
    obtain ⟨hne, hm'⟩ := (mem_erase_iff hp).mp hm
    exact ⟨hm', fun he => hne (eq_of_addr hp hm' hk he)⟩
  rw [free_eq hp hk hptr]
  refine ⟨⟨_, tied_effect ht (effect_step ht hstep)⟩, ?_, fun m hm' => ?_⟩
  · refine keep_eq fun m hm' j hj => ?_
    obtain ⟨hin, hne⟩ := hother m hm'
    rw [hm]
    exact (cells_of_step ht hstep (hb m hin) (fun he => hne he.symm) hj).symm
  · obtain ⟨hin, hne⟩ := hother m hm'
    exact List.mem_filter.mpr ⟨hb m hin, decide_eq_true hne⟩

/-- `be_malloc_impl`, and `be_realloc_impl` of NULL. -/
theorem shared_allocate {call : Grant → HeapCall} (hs : SharedSound L s) (hsize : size ≤ maxRequest)
    (hcall : ∀ g, s.berry.run (call g) = s.berry.run (.malloc size g))
    (hn : s.allocate L size call = some s') : SharedSound L s' := by
  obtain ⟨⟨h, g⟩, ho, rfl⟩ := Option.map_eq_some_iff.mp hn
  obtain ⟨hserve, _, _⟩ := serves_heap4 hs hsize ho
  have hallowed : Allowed s.berry (.malloc size g) := ⟨hsize, hserve⟩
  rw [hcall g]
  refine ⟨tied_malloc_header hs hsize ho, rfl, fun k hk => ?_,
    heapSound_step hs.heap ⟨hallowed, rfl⟩⟩
  rcases List.mem_cons.mp hk with rfl | hk
  · exact List.mem_cons_self
  · exact List.mem_cons_of_mem _ (hs.blocks k hk)

theorem shared_write {off : Nat} {bytes : List UInt8} (hs : SharedSound L s)
    (hb : s.berry.live ptr = some b) (hl : off + bytes.length ≤ b.size)
    (hn : s.next L (.write ptr off bytes) = some s') : SharedSound L s' := by
  obtain rfl := Option.some.inj hn
  obtain ⟨ts, ht⟩ := hs.tied
  obtain ⟨k, hk, hc⟩ := hs.heap.block ptr b hb
  have hroom := hc.room
  have hkeeps : Heap4.Keeps s.use (.write k.addr (sizeofSizeT + off) bytes) :=
    ⟨k.size, hs.blocks k hk, by omega⟩
  have haddr : k.addr + (sizeofSizeT + off) = ptr + off := by
    rw [← Nat.add_assoc, hc.ptr]
  have hmem : write s.berry.port.mem (ptr + off) bytes =
      write s.use.heap.mem (k.addr + (sizeofSizeT + off)) bytes := by
    rw [haddr, hs.mem]
  have htied : ∃ ts', Tied L { s.use with heap := { s.use.heap with
      mem := write s.berry.port.mem (ptr + off) bytes } } ts' := by
    rw [hmem]
    exact ⟨_, tied_effect ht (effect_step (e := .write k.addr (sizeofSizeT + off) bytes) ht
      ⟨hkeeps, rfl⟩)⟩
  have hallowed : Allowed s.berry (.write ptr off bytes) := ⟨b, hb, hl⟩
  exact ⟨htied, rfl, hs.blocks, heapSound_step hs.heap ⟨hallowed, rfl⟩⟩

/-- `be_free_impl`, and `be_realloc_impl` with the size 0. -/
theorem shared_release {call : (Nat → UInt8) → HeapCall} (hs : SharedSound L s)
    (hb : s.berry.live ptr = some b)
    (hcall : ∀ junk, s.berry.run (call junk) = s.berry.run (.free ptr junk))
    (hn : s.release L ptr call = some s') : SharedSound L s' := by
  obtain ⟨h, hf, rfl⟩ := Option.map_eq_some_iff.mp hn
  obtain ⟨ts, ht⟩ := hs.tied
  obtain ⟨k, hk, hc⟩ := hs.heap.block ptr b hb
  obtain ⟨htied, hmem, hblocks⟩ := shared_free ht hs.heap hs.mem hs.blocks hk hc.ptr hf
  have hallowed : Allowed s.berry (.free ptr h.mem) := by simp [Allowed, hb]
  rw [hcall h.mem]
  exact ⟨htied, hmem, hblocks, heapSound_step hs.heap ⟨hallowed, rfl⟩⟩

/-- `be_realloc_impl` of a live pointer with a size above 0. -/
theorem shared_move (hs : SharedSound L s) (hsize : size ≤ maxRequest) (h0 : size ≠ 0)
    (hb : s.berry.live ptr = some b) (hn : s.move L ptr size = some s') :
    SharedSound L s' := by
  obtain ⟨⟨h, g⟩, ho, hn⟩ := Option.bind_eq_some_iff.mp hn
  obtain ⟨h', hf, rfl⟩ := Option.map_eq_some_iff.mp hn
  obtain ⟨hserve, hgs, _⟩ := serves_heap4 hs hsize ho
  obtain ⟨k, hk, hc⟩ := hs.heap.block ptr b hb
  obtain ⟨ts, ht⟩ := tied_reallocCopied ptr hs hsize ho
  have hp0 := ne_null_of_live hs hb
  have hlen : (load (beMallocImpl s.berry.port size (some g)).1.mem ptr
      (min (beSizeImpl s.berry.port ptr) size)).length ≤ size := by
    rw [load_length]
    exact Nat.min_le_right _ _
  have hcopied : HeapSound (reallocCopied s.berry.port ptr size g) _ :=
    heapSound_store (heapSound_malloc hs.heap hsize hserve) set_self hlen
  have hblocks : ∀ m ∈ (reallocCopied s.berry.port ptr size g).inUse,
      ⟨m.addr, m.size⟩ ∈ (⟨g.addr, g.size⟩ :: s.use.inUse : List Handed) := by
    intro m hm
    rcases List.mem_cons.mp hm with rfl | hm
    · exact List.mem_cons_self
    · exact List.mem_cons_of_mem _ (hs.blocks m hm)
  obtain ⟨htied, hmem, hblocks'⟩ := shared_free ht hcopied rfl hblocks
    (List.mem_cons_of_mem _ hk) hc.ptr hf
  have hport : (s.berry.run (.realloc ptr size g h'.mem)).port =
      beFreeImpl (reallocCopied s.berry.port ptr size g) ptr h'.mem := by
    simp only [BerryHeap.run, hb, if_neg h0]
    rw [beReallocImpl_of_some hp0 h0]
    rfl
  have hallowed : Allowed s.berry (.realloc ptr size g h'.mem) :=
    ⟨hsize, .inr (by simp [hb]), fun _ => hserve⟩
  refine ⟨htied, ?_, ?_, heapSound_step hs.heap ⟨hallowed, rfl⟩⟩
  · show (s.berry.run (.realloc ptr size g h'.mem)).port.mem = h'.mem
    rw [hport]
    exact hmem
  · intro m hm
    have hm' : m ∈ (s.berry.run (.realloc ptr size g h'.mem)).port.inUse := hm
    rw [hport] at hm'
    exact hblocks' m hm'

theorem shared_realloc (hs : SharedSound L s) (hsize : size ≤ maxRequest)
    (hptr : ptr = 0 ∨ (s.berry.live ptr).isSome) (hn : s.next L (.realloc ptr size) = some s') :
    SharedSound L s' := by
  rw [SharedHeap.next] at hn
  by_cases hp0 : ptr = 0
  · rw [if_pos hp0] at hn
    exact shared_allocate hs hsize (fun g => run_realloc_null hs) hn
  · rw [if_neg hp0] at hn
    obtain ⟨b, hb⟩ := Option.isSome_iff_exists.mp (hptr.resolve_left hp0)
    by_cases h0 : size = 0
    · rw [if_pos h0] at hn
      exact shared_release hs hb (fun junk => run_realloc_zero hs hb) hn
    · rw [if_neg h0] at hn
      exact shared_move hs hsize h0 hb hn

/-- The events of the other tasks. -/
theorem shared_other {e : HeapEvent} (hs : SharedSound L s) (hk : Heap4.Keeps s.use e)
    (hne : ∀ k ∈ s.berry.port.inUse, ¬ e.Names k.addr)
    (hn : s.next L (.other e) = some s') : SharedSound L s' := by
  obtain ⟨u, hu, rfl⟩ := Option.map_eq_some_iff.mp hn
  obtain ⟨ts, ht⟩ := hs.tied
  have hstep : HeapUseStep L s.use e u := ⟨hk, hu⟩
  have heff := effect_step ht hstep
  refine ⟨⟨_, tied_effect ht heff⟩, rfl, fun k hk => ?_,
    heapSound_congr hs.heap fun k hk j hj => ?_⟩
  · exact (contents_effect ht heff (hs.blocks k hk) (hne k hk)).1
  · rw [hs.mem]
    exact cells_of_step ht hstep (hs.blocks k hk) (hne k hk) hj

/-- Every call and every event keep the port on the kernel's heap. -/
theorem shared_step {call : SharedCall} (hs : SharedSound L s) (hstep : SharedStep L s call s') :
    SharedSound L s' := by
  obtain ⟨hfair, hn⟩ := hstep
  cases call with
  | malloc size => exact shared_allocate hs hfair (fun _ => rfl) hn
  | realloc ptr size => exact shared_realloc hs hfair.1 hfair.2 hn
  | free ptr =>
    obtain ⟨b, hb⟩ := Option.isSome_iff_exists.mp hfair
    exact shared_release hs hb (fun _ => rfl) hn
  | write ptr off bytes =>
    obtain ⟨b, hb, hl⟩ := hfair
    exact shared_write hs hb hl hn
  | other e => exact shared_other hs hfair.1 hfair.2 hn

theorem shared_init (mem : Nat → UInt8) : SharedSound L (.init mem) where
  tied := ⟨_, tied_init mem⟩
  mem := rfl
  blocks _ hk := absurd hk List.not_mem_nil
  heap := heapSound_init

end Calls

/-! ## Runs -/

/-- In every run of the interpreter on the kernel's heap, whatever the other tasks do with
blocks of their own, the port is right about the interpreter's blocks, and the kernel's heap is
sound: its bytes are those that the port has in view and hold the blocks of a tiling, and
`pvPortMalloc` has handed out every block of the port, at its address and of its size. -/
theorem shared_heap_right (L : Place) (mem : Nat → UInt8) (calls : List SharedCall) :
    Always (SharedStep L) (fun s => PortRight s.berry ∧ s.berry.port.mem = s.use.heap.mem ∧
      (∃ ts, Tied L s.use ts) ∧ ∀ k ∈ s.berry.port.inUse, ⟨k.addr, k.size⟩ ∈ s.use.inUse)
      (.init mem) calls := by
  refine always_of_invariant (I := SharedSound L) ?_ ?_ (shared_init mem) calls
  · intro s call s' hs hstep
    exact shared_step hs hstep
  · intro s hs
    exact ⟨portRight_of_sound hs.heap, hs.mem, hs.tied, hs.blocks⟩

end BlackPill
