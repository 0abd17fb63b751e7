import BlackPill.HeapPort
import BlackPill.Runs

/-!
# The Berry heap port as an allocator

What the interpreter may expect of its heap is a map from live pointers to blocks
with a size and contents (`Live`); each call has its effect on that map. The runs
here are those in which the interpreter passes live pointers and writes inside its
blocks, and `pvPortMalloc` serves every request with a block of at least the size
it was asked for, apart from all blocks in use.

Results:
1. `heapSound_malloc`, `heapSound_write`, `heapSound_free`, `heapSound_realloc`: the port's memory
   and the kernel's blocks follow the map.
2. `heap_port_allocates`: the headers, the distances and the contents of the live
   blocks are right in every state of such a run, and the blocks in use are one for
   each live pointer.
-/

namespace BlackPill

open ByteMemory Runs

/-! ## Definitions -/

/-- A live block as the interpreter sees it: the size it has asked for last, and
what it must find in each byte. -/
structure LiveBlock where
  size : Nat
  data : Nat → UInt8

/-- The live blocks, by the pointer handed out. -/
abbrev Live : Type := Nat → Option LiveBlock

def Live.set (live : Live) (p : Nat) (b : Option LiveBlock) : Live :=
  fun q => if q = p then b else live q

/-- A new block holds what its memory holds. -/
def LiveBlock.fresh (size : Nat) (res : HeapState × Nat) : LiveBlock :=
  ⟨size, fun i => res.1.mem (res.2 + i)⟩

/-- A block that `realloc` has moved: the bytes up to both sizes are carried over. -/
def LiveBlock.moved (old : LiveBlock) (size : Nat) (res : HeapState × Nat) : LiveBlock :=
  ⟨size, fun i => if i < min old.size size then old.data i else res.1.mem (res.2 + i)⟩

/-- The calls of the interpreter with the outcomes of `pvPortMalloc` and `vPortFree`,
and its own writes. -/
inductive HeapCall
  | malloc (size : Nat) (g : Grant)
  | realloc (ptr size : Nat) (g : Grant) (junk : Nat → UInt8)
  | free (ptr : Nat) (junk : Nat → UInt8)
  | write (ptr off : Nat) (bytes : List UInt8)

/-- The port below and the live blocks above. -/
structure BerryHeap where
  port : HeapState
  live : Live

/-- What a call does to the port and what it promises of the live blocks. -/
def BerryHeap.run (h : BerryHeap) : HeapCall → BerryHeap
  | .malloc size g =>
    let res := beMallocImpl h.port size (some g)
    ⟨res.1, h.live.set res.2 (some (.fresh size res))⟩
  | .realloc ptr size g junk =>
    let res := beReallocImpl h.port ptr size (some g) junk
    match h.live ptr with
    | none => ⟨res.1, h.live.set res.2 (some (.fresh size res))⟩
    | some old =>
      if size = 0 then ⟨res.1, h.live.set ptr none⟩
      else ⟨res.1, (h.live.set ptr none).set res.2 (some (old.moved size res))⟩
  | .free ptr junk => ⟨beFreeImpl h.port ptr junk, h.live.set ptr none⟩
  | .write ptr off bytes =>
    ⟨{ h.port with mem := write h.port.mem (ptr + off) bytes },
      h.live.set ptr ((h.live ptr).map fun b => { b with data := write b.data off bytes })⟩

/-- The largest size the interpreter asks for: with the header it is below 2^32. -/
def maxRequest : Nat := 2 ^ 32 - 5

/-- `pvPortMalloc` serves a request of `be_malloc_impl`. -/
structure Serves (s : HeapState) (size : Nat) (g : Grant) : Prop where
  nonnull : 0 < g.addr
  enough : size + sizeofSizeT ≤ g.size
  apart : ∀ b ∈ s.inUse, b.addr + b.size ≤ g.addr ∨ g.addr + g.size ≤ b.addr

/-- What the interpreter and the kernel keep to. -/
def Allowed (h : BerryHeap) : HeapCall → Prop
  | .malloc size g => size ≤ maxRequest ∧ Serves h.port size g
  | .realloc ptr size g _ => size ≤ maxRequest ∧ (ptr = 0 ∨ (h.live ptr).isSome) ∧
      (ptr = 0 ∨ size ≠ 0 → Serves h.port size g)
  | .free ptr _ => (h.live ptr).isSome
  | .write ptr off bytes => ∃ b, h.live ptr = some b ∧ off + bytes.length ≤ b.size

def HeapStep (h : BerryHeap) (call : HeapCall) (h' : BerryHeap) : Prop :=
  Allowed h call ∧ h' = h.run call

def BerryHeap.init (mem : Nat → UInt8) : BerryHeap := ⟨.init mem, fun _ => none⟩

/-- The port is right about every live block and holds no other.

* `header`: the hidden header is the size asked for last;
* `disjoint`: live blocks with their headers do not meet;
* `contents`: each byte is the one last written or carried over;
* `oneBlock`, `oneOwner`: the blocks in use are one for each live pointer;
* `freedOnce`, `noBadFree`: the other blocks obtained have been given back, each
  once and at its own address. -/
structure PortRight (h : BerryHeap) : Prop where
  header : ∀ p b, h.live p = some b → beSizeImpl h.port p = b.size
  disjoint : ∀ p q b c, h.live p = some b → h.live q = some c → p ≠ q →
    p + b.size ≤ q - sizeofSizeT ∨ q + c.size ≤ p - sizeofSizeT
  contents : ∀ p b i, h.live p = some b → i < b.size → h.port.mem (p + i) = b.data i
  oneBlock : ∀ p b, h.live p = some b → ∃ k ∈ h.port.inUse, k.addr + sizeofSizeT = p ∧
    b.size + sizeofSizeT ≤ k.size ∧ ∀ m ∈ h.port.inUse, m.addr + sizeofSizeT = p → m = k
  oneOwner : ∀ k ∈ h.port.inUse, (h.live (k.addr + sizeofSizeT)).isSome
  freedOnce : h.port.obtained.Nodup ∧ h.port.obtained.Perm (h.port.inUse ++ h.port.freed)
  noBadFree : h.port.badFrees = []

/-! ## The invariant -/

/-- The block `k` carries the live block `b` with pointer `p`. -/
structure Carries (mem : Nat → UInt8) (k : PortBlock) (p : Nat) (b : LiveBlock) : Prop where
  ptr : k.addr + sizeofSizeT = p
  room : b.size + sizeofSizeT ≤ k.size
  header : leValue (load mem k.addr sizeofSizeT) = b.size
  contents : ∀ i, i < b.size → mem (p + i) = b.data i

structure HeapSound (s : HeapState) (live : Live) : Prop where
  apart : ∀ k ∈ s.inUse, ∀ m ∈ s.inUse, k ≠ m → k.addr + k.size ≤ m.addr ∨ m.addr + m.size ≤ k.addr
  positive : ∀ k ∈ s.inUse, 0 < k.addr ∧ 0 < k.size
  block : ∀ p b, live p = some b → ∃ k ∈ s.inUse, Carries s.mem k p b
  owner : ∀ k ∈ s.inUse, (live (k.addr + sizeofSizeT)).isSome
  serials : s.obtained.map PortBlock.serial = List.range s.obtained.length
  ledger : s.obtained.Perm (s.inUse ++ s.freed)
  noBadFree : s.badFrees = []

namespace HeapAllocatorLemmas

variable {s : HeapState} {live : Live} {k m : PortBlock} {mem mem' junk : Nat → UInt8}
  {p q size : Nat} {b c : LiveBlock} {g : Grant}

theorem set_self {x : Option LiveBlock} : live.set p x p = x := if_pos rfl

theorem set_other {x : Option LiveBlock} (h : q ≠ p) : live.set p x q = live q := if_neg h

theorem set_set {x y : Option LiveBlock} : (live.set p x).set p y = live.set p y := by
  funext q
  by_cases hq : q = p
  · rw [hq, set_self, set_self]
  · rw [set_other hq, set_other hq, set_other hq]

theorem set_comm {x y : Option LiveBlock} (h : p ≠ q) :
    (live.set p x).set q y = (live.set q y).set p x := by
  funext r
  by_cases hp : r = p
  · rw [hp, set_other h, set_self, set_self]
  · by_cases hq : r = q
    · rw [hq, set_self, set_other h.symm, set_self]
    · rw [set_other hq, set_other hp, set_other hp, set_other hq]

/-! ## One block -/

theorem keep_of_has {blocks : List PortBlock} {j : Nat} (hk : k ∈ blocks) (hj : k.Has j) :
    keep blocks mem junk j = mem j :=
  if_pos (List.any_eq_true.mpr ⟨k, hk, decide_eq_true hj⟩)

/-- A live block only depends on the cells of the block that carries it. -/
theorem carries_congr (h : Carries mem k p b) (hm : ∀ j, k.Has j → mem' j = mem j) :
    Carries mem' k p b := by
  obtain ⟨rfl, hroom, hheader, hcontents⟩ := h
  refine ⟨rfl, hroom, ?_, fun i hi => ?_⟩
  · rw [load_congr fun i hi => hm (k.addr + i) ⟨Nat.le_add_right _ _, by omega⟩]
    exact hheader
  · rw [hm _ ⟨by omega, by omega⟩]
    exact hcontents i hi

theorem eq_of_addr (h : HeapSound s live) (hk : k ∈ s.inUse) (hm : m ∈ s.inUse)
    (ha : k.addr = m.addr) : k = m := by
  by_cases he : k = m
  · exact he
  · have hkp := (h.positive k hk).2
    have hmp := (h.positive m hm).2
    rcases h.apart k hk m hm he with ha' | ha' <;> omega

theorem nodup_obtained (h : HeapSound s live) : s.obtained.Nodup := by
  have hr : (s.obtained.map PortBlock.serial).Nodup := by
    rw [h.serials]
    exact List.nodup_range
  exact List.Pairwise.of_map PortBlock.serial (fun _ _ hne he => hne (congrArg _ he)) hr

theorem nodup_inUse (h : HeapSound s live) : s.inUse.Nodup :=
  (List.nodup_append.mp (h.ledger.nodup_iff.mp (nodup_obtained h))).1

theorem mem_erase_iff (h : HeapSound s live) : m ∈ s.inUse.erase k ↔ m ≠ k ∧ m ∈ s.inUse :=
  (nodup_inUse h).mem_erase_iff

/-- The contents of a live block count within its size only. -/
theorem heapSound_replace (h : HeapSound s (live.set p (some b))) (hsize : c.size = b.size)
    (hdata : ∀ i, i < b.size → c.data i = b.data i) : HeapSound s (live.set p (some c)) where
  apart := h.apart
  positive := h.positive
  block q d hd := by
    by_cases hq : q = p
    · subst hq
      obtain rfl := Option.some.inj (set_self.symm.trans hd)
      obtain ⟨k, hk, hc⟩ := h.block q b set_self
      refine ⟨k, hk, hc.ptr, hsize ▸ hc.room, hc.header.trans hsize.symm, fun i hi => ?_⟩
      exact (hc.contents i (hsize ▸ hi)).trans (hdata i (hsize ▸ hi)).symm
    · rw [set_other hq] at hd
      exact h.block q d ((set_other hq).trans hd)
  owner k hk := by
    by_cases hq : k.addr + sizeofSizeT = p
    · rw [hq, set_self]
      rfl
    · have ho := h.owner k hk
      rwa [set_other hq] at ho ⊢
  serials := h.serials
  ledger := h.ledger
  noBadFree := h.noBadFree

/-! ## The frame of each operation -/

/-- `be_malloc_impl` leaves the blocks in use as they are. -/
theorem malloc_frame (hg : Serves s size g) (hk : k ∈ s.inUse) {j : Nat} (hj : k.Has j) :
    (beMallocImpl s size (some g)).1.mem j = s.mem j := by
  have hroom := hg.enough
  have hout : j < g.addr ∨ g.addr + (leBytes sizeofSizeT size).length ≤ j := by
    rw [leBytes_length]
    obtain ⟨hlo, hhi⟩ := hj
    rcases hg.apart k hk with ha | ha <;> omega
  exact (write_outside hout).trans (keep_of_has hk hj)

/-- A write in one block leaves the others as they are. -/
theorem write_frame (h : HeapSound s live) (hk : k ∈ s.inUse) (hm : m ∈ s.inUse) (hne : m ≠ k)
    {a : Nat} {bytes : List UInt8} (hlo : k.addr ≤ a) (hhi : a + bytes.length ≤ k.addr + k.size)
    {j : Nat} (hj : m.Has j) : write s.mem a bytes j = s.mem j := by
  apply write_outside
  obtain ⟨hjl, hjh⟩ := hj
  rcases h.apart m hm k hk hne with ha | ha <;> omega

/-- `be_free_impl` on a live pointer gives its block back to the kernel. -/
theorem free_eq (h : HeapSound s live) (hk : k ∈ s.inUse) (hp : k.addr + sizeofSizeT = p) :
    beFreeImpl s p junk = { s with
      mem := keep (s.inUse.erase k) s.mem junk
      inUse := s.inUse.erase k
      freed := s.freed ++ [k] } := by
  have hpos := (h.positive k hk).1
  have hsub : p - sizeofSizeT = k.addr := by rw [← hp, Nat.add_sub_cancel]
  unfold beFreeImpl vPortFree
  rw [hsub, if_neg (Nat.ne_of_gt hpos)]
  cases hf : s.inUse.find? fun b => b.addr == k.addr with
  | none => exact absurd (List.find?_eq_none.mp hf k hk) (by simp)
  | some m =>
    have ha : m.addr = k.addr := by simpa using List.find?_some hf
    obtain rfl := eq_of_addr h (List.mem_of_find?_eq_some hf) hk ha
    rfl

end HeapAllocatorLemmas

open HeapAllocatorLemmas

/-! ## The calls -/

section Calls

variable {s : HeapState} {live : Live} {junk : Nat → UInt8} {p size : Nat} {b : LiveBlock}
  {g : Grant}

/-- A pointer to a new block is not yet live. -/
theorem malloc_fresh (h : HeapSound s live) (hg : Serves s size g) :
    live (beMallocImpl s size (some g)).2 = none := by
  have hroom := hg.enough
  refine Option.eq_none_iff_forall_ne_some.mpr fun b hb => ?_
  obtain ⟨k, hk, hc⟩ := h.block _ b hb
  have hka : k.addr = g.addr := Nat.add_right_cancel hc.ptr
  have hks := (h.positive k hk).2
  unfold sizeofSizeT at hroom
  rcases hg.apart k hk with ha | ha <;> omega

theorem heapSound_malloc (h : HeapSound s live) (hsize : size ≤ maxRequest)
    (hg : Serves s size g) :
    HeapSound (beMallocImpl s size (some g)).1 (live.set (beMallocImpl s size (some g)).2
      (some (.fresh size (beMallocImpl s size (some g))))) where
  apart := by
    intro k hk m hm hne
    rcases List.mem_cons.mp hk with rfl | hk <;> rcases List.mem_cons.mp hm with rfl | hm
    · exact absurd rfl hne
    · exact (hg.apart m hm).symm
    · exact hg.apart k hk
    · exact h.apart k hk m hm hne
  positive := by
    intro k hk
    rcases List.mem_cons.mp hk with rfl | hk
    · exact ⟨hg.nonnull, Nat.lt_of_lt_of_le (Nat.succ_pos _) hg.enough⟩
    · exact h.positive k hk
  block := by
    intro q c hc
    by_cases hq : q = (beMallocImpl s size (some g)).2
    · subst hq
      obtain rfl := Option.some.inj (set_self.symm.trans hc)
      refine ⟨_, List.mem_cons_self, rfl, hg.enough, ?_, fun _ _ => rfl⟩
      have hword : size < 256 ^ sizeofSizeT := Nat.lt_of_le_of_lt hsize (by decide)
      have hload : load (beMallocImpl s size (some g)).1.mem g.addr
          (leBytes sizeofSizeT size).length = leBytes sizeofSizeT size := load_write
      rw [leBytes_length] at hload
      exact (congrArg leValue hload).trans (leValue_leBytes hword)
    · rw [set_other hq] at hc
      obtain ⟨k, hk, hcar⟩ := h.block q c hc
      exact ⟨k, List.mem_cons_of_mem _ hk, carries_congr hcar fun j hj => malloc_frame hg hk hj⟩
  owner := by
    intro k hk
    by_cases hq : k.addr + sizeofSizeT = (beMallocImpl s size (some g)).2
    · rw [hq, set_self]
      rfl
    · rw [set_other hq]
      rcases List.mem_cons.mp hk with rfl | hk
      · exact absurd rfl hq
      · exact h.owner k hk
  serials := by
    show (s.obtained ++ [_]).map PortBlock.serial = List.range (s.obtained ++ [_]).length
    rw [List.map_append, h.serials, List.length_append, List.length_singleton, List.range_succ]
    rfl
  ledger := (List.perm_append_singleton _ _).trans (h.ledger.cons _)
  noBadFree := h.noBadFree

/-- A write inside a live block. -/
theorem heapSound_write (h : HeapSound s live) (hb : live p = some b) {off : Nat}
    {bytes : List UInt8} (hl : off + bytes.length ≤ b.size) {writes : List (Nat × Nat)} :
    HeapSound { s with mem := write s.mem (p + off) bytes, writes := writes }
      (live.set p (some { b with data := write b.data off bytes })) := by
  obtain ⟨k, hk, hcar⟩ := h.block p b hb
  have hp := hcar.ptr
  have hroom := hcar.room
  refine ⟨h.apart, h.positive, ?_, ?_, h.serials, h.ledger, h.noBadFree⟩
  · intro q c hc
    by_cases hq : q = p
    · subst hq
      obtain rfl := Option.some.inj (set_self.symm.trans hc)
      refine ⟨k, hk, hp, hroom, ?_, fun i hi => ?_⟩
      · rw [load_write_of_disjoint (.inl (hp ▸ Nat.le_add_right q off))]
        exact hcar.header
      · exact write_add.trans (write_congr (hcar.contents i hi))
    · rw [set_other hq] at hc
      obtain ⟨m, hm, hcar'⟩ := h.block q c hc
      have hne : m ≠ k := fun he => hq (hcar'.ptr.symm.trans (he ▸ hp))
      refine ⟨m, hm, carries_congr hcar' fun j hj => write_frame h hk hm hne ?_ ?_ hj⟩ <;> omega
  · intro m hm
    by_cases hq : m.addr + sizeofSizeT = p
    · rw [hq, set_self]
      rfl
    · rw [set_other hq]
      exact h.owner m hm

/-- The same for a write of the port at the start of the block. -/
theorem heapSound_store (h : HeapSound s live) (hb : live p = some b) {bytes : List UInt8}
    (hl : bytes.length ≤ b.size) :
    HeapSound (s.store p bytes) (live.set p (some ⟨b.size, write b.data 0 bytes⟩)) := by
  have hl' : 0 + bytes.length ≤ b.size := by
    rw [Nat.zero_add]
    exact hl
  exact heapSound_write h hb hl'

theorem heapSound_free (h : HeapSound s live) (hb : live p = some b) :
    HeapSound (beFreeImpl s p junk) (live.set p none) := by
  obtain ⟨k, hk, hcar⟩ := h.block p b hb
  rw [free_eq h hk hcar.ptr]
  have hmem : ∀ m ∈ s.inUse.erase k, m ∈ s.inUse := fun m hm => ((mem_erase_iff h).mp hm).2
  refine ⟨fun m hm n hn => h.apart m (hmem m hm) n (hmem n hn),
    fun m hm => h.positive m (hmem m hm), ?_, ?_, h.serials, ?_, h.noBadFree⟩
  · intro q c hc
    by_cases hq : q = p
    · rw [hq, set_self] at hc
      cases hc
    · rw [set_other hq] at hc
      obtain ⟨m, hm, hcar'⟩ := h.block q c hc
      have hne : m ≠ k := fun he => hq (hcar'.ptr.symm.trans (he ▸ hcar.ptr))
      have hme : m ∈ s.inUse.erase k := (mem_erase_iff h).mpr ⟨hne, hm⟩
      exact ⟨m, hme, carries_congr hcar' fun j hj => keep_of_has hme hj⟩
  · intro m hm
    obtain ⟨hne, hm'⟩ := (mem_erase_iff h).mp hm
    have hq : m.addr + sizeofSizeT ≠ p := fun he =>
      hne (eq_of_addr h hm' hk (Nat.add_right_cancel (he.trans hcar.ptr.symm)))
    rw [set_other hq]
    exact h.owner m hm'
  · refine h.ledger.trans (((List.perm_cons_erase hk).append_right s.freed).trans ?_)
    rw [← List.append_assoc]
    exact (List.perm_append_singleton k _).symm

/-- `be_realloc_impl` on a live pointer with a new size above 0 is `be_malloc_impl`, a
copy of the bytes up to both sizes, and `be_free_impl`. -/
theorem realloc_eq (h : HeapSound s live) (hb : live p = some b) (hs : size ≠ 0) :
    beReallocImpl s p size (some g) junk =
      (beFreeImpl ((beMallocImpl s size (some g)).1.store (beMallocImpl s size (some g)).2
        (load (beMallocImpl s size (some g)).1.mem p (min b.size size))) p junk,
        (beMallocImpl s size (some g)).2) := by
  obtain ⟨k, hk, hcar⟩ := h.block p b hb
  have hp0 : p ≠ 0 := by
    rw [← hcar.ptr]
    exact Nat.succ_ne_zero _
  have hold : beSizeImpl s p = b.size := by
    unfold beSizeImpl
    rw [← hcar.ptr, Nat.add_sub_cancel]
    exact hcar.header
  rw [beReallocImpl_of_some hp0 hs, hold]

theorem heapSound_realloc (h : HeapSound s live) (hb : live p = some b) (hsize : size ≤ maxRequest)
    (hs : size ≠ 0) (hg : Serves s size g) :
    HeapSound (beReallocImpl s p size (some g) junk).1
      ((live.set p none).set (beReallocImpl s p size (some g) junk).2
        (some (b.moved size (beReallocImpl s p size (some g) junk)))) := by
  have hne : p ≠ (beMallocImpl s size (some g)).2 := fun he =>
    absurd (hb.symm.trans (he ▸ malloc_fresh h hg)) (by simp)
  obtain ⟨k, hk, hcar⟩ := h.block p b hb
  have hmal := heapSound_malloc h hsize hg
  have hframe : ∀ j, k.Has j → (beMallocImpl s size (some g)).1.mem j = s.mem j :=
    fun j hj => malloc_frame hg hk hj
  rw [realloc_eq h hb hs]
  generalize beMallocImpl s size (some g) = new at hmal hframe hne ⊢
  have hlen : (load new.1.mem p (min b.size size)).length = min b.size size := load_length
  -- after the copy both blocks are live; the release takes the old one out of the map
  have hcopy := heapSound_store hmal set_self (hlen ▸ Nat.min_le_right b.size size)
  rw [set_set] at hcopy
  have hfree : HeapSound (beFreeImpl _ p junk) _ := heapSound_free hcopy ((set_other hne).trans hb)
  rw [set_comm hne.symm] at hfree
  refine heapSound_replace hfree rfl fun i hi => ?_
  by_cases hi' : i < min b.size size
  · have hroom := hcar.room
    have hptr := hcar.ptr
    have hbi : i < b.size := Nat.lt_of_lt_of_le hi' (Nat.min_le_left _ _)
    calc
      (b.moved size _).data i = b.data i := if_pos hi'
      _ = new.1.mem (p + i) := by
        rw [hframe (p + i) ⟨by omega, by omega⟩, hcar.contents i hbi]
      _ = write (LiveBlock.fresh size new).data 0 (load new.1.mem p (min b.size size)) (0 + i) := by
        rw [write_inside (by rw [hlen]; exact hi'), load_getElem]
      _ = write (LiveBlock.fresh size new).data 0 (load new.1.mem p (min b.size size)) i := by
        rw [Nat.zero_add]
  · obtain ⟨_, _, hcar'⟩ := hfree.block _ _ set_self
    exact (if_neg hi').trans (hcar'.contents i hi)

end Calls

/-! ## Runs -/

section Runs

variable {h h' : BerryHeap} {call : HeapCall}

theorem heapSound_init {mem : Nat → UInt8} :
    HeapSound (BerryHeap.init mem).port (BerryHeap.init mem).live where
  apart _ hk := absurd hk List.not_mem_nil
  positive _ hk := absurd hk List.not_mem_nil
  block _ _ hb := by cases hb
  owner _ hk := absurd hk List.not_mem_nil
  serials := rfl
  ledger := .nil
  noBadFree := rfl

/-- No live block has the pointer NULL. -/
theorem live_null (hi : HeapSound h.port h.live) : h.live 0 = none := by
  refine Option.eq_none_iff_forall_ne_some.mpr fun b hb => ?_
  obtain ⟨k, _, hc⟩ := hi.block 0 b hb
  exact Nat.succ_ne_zero _ hc.ptr

/-- Each call keeps the port and the live blocks together. -/
theorem heapSound_step (hi : HeapSound h.port h.live) (hs : HeapStep h call h') :
    HeapSound h'.port h'.live := by
  obtain ⟨ha, rfl⟩ := hs
  cases call with
  | malloc size g => exact heapSound_malloc hi ha.1 ha.2
  | free ptr junk =>
    obtain ⟨b, hb⟩ := Option.isSome_iff_exists.mp ha
    exact heapSound_free hi hb
  | write ptr off bytes =>
    obtain ⟨b, hb, hl⟩ := ha
    simp only [BerryHeap.run, hb]
    exact heapSound_write hi hb hl
  | realloc ptr size g junk =>
    obtain ⟨hsize, hptr, hserve⟩ := ha
    simp only [BerryHeap.run]
    cases hb : h.live ptr with
    | none =>
      obtain rfl : ptr = 0 := hptr.resolve_right (by rw [hb]; simp)
      exact heapSound_malloc hi hsize (hserve (.inl rfl))
    | some b =>
      have hp : ptr ≠ 0 := fun h0 => absurd (hb.symm.trans (h0 ▸ live_null hi)) (by simp)
      by_cases hz : size = 0
      · simp only [if_pos hz]
        rw [hz, beReallocImpl, if_neg hp, if_pos rfl]
        exact heapSound_free hi hb
      · simp only [if_neg hz]
        exact heapSound_realloc hi hb hsize hz (hserve (.inr hz))

theorem portRight_of_sound (hi : HeapSound h.port h.live) : PortRight h where
  header p b hb := by
    obtain ⟨k, _, hc⟩ := hi.block p b hb
    unfold beSizeImpl
    rw [← hc.ptr, Nat.add_sub_cancel]
    exact hc.header
  disjoint p q b c hb hc hne := by
    obtain ⟨k, hk, hkc⟩ := hi.block p b hb
    obtain ⟨m, hm, hmc⟩ := hi.block q c hc
    have hkm : k ≠ m := fun he => hne (hkc.ptr.symm.trans (he ▸ hmc.ptr))
    have hkr := hkc.room
    have hmr := hmc.room
    rw [← hkc.ptr, ← hmc.ptr, Nat.add_sub_cancel, Nat.add_sub_cancel]
    rcases hi.apart k hk m hm hkm with ha | ha
    · exact .inl (by omega)
    · exact .inr (by omega)
  contents p b i hb hlt := by
    obtain ⟨k, _, hc⟩ := hi.block p b hb
    exact hc.contents i hlt
  oneBlock p b hb := by
    obtain ⟨k, hk, hc⟩ := hi.block p b hb
    refine ⟨k, hk, hc.ptr, hc.room, fun m hm hp => ?_⟩
    exact eq_of_addr hi hm hk (Nat.add_right_cancel (hp.trans hc.ptr.symm))
  oneOwner := hi.owner
  freedOnce := ⟨nodup_obtained hi, hi.ledger⟩
  noBadFree := hi.noBadFree

/-- A call of `be_malloc_impl` adds a live block and a block in use. -/
theorem malloc_adds {size : Nat} {g : Grant} (hi : HeapSound h.port h.live)
    (ha : Allowed h (.malloc size g)) :
    h.live (g.addr + sizeofSizeT) = none ∧
    (∃ b, (h.run (.malloc size g)).live (g.addr + sizeofSizeT) = some b ∧ b.size = size) ∧
    ∃ k, k.addr = g.addr ∧ (h.run (.malloc size g)).port.inUse = k :: h.port.inUse :=
  ⟨malloc_fresh hi ha.2, ⟨_, set_self, rfl⟩, _, rfl, rfl⟩

/-- A call of `be_free_impl` takes its block out of both and gives it back. -/
theorem free_removes {ptr : Nat} {junk : Nat → UInt8} (hi : HeapSound h.port h.live)
    (ha : Allowed h (.free ptr junk)) :
    (h.run (.free ptr junk)).live ptr = none ∧
    ∃ k ∈ h.port.inUse, k.addr + sizeofSizeT = ptr ∧
      (h.run (.free ptr junk)).port.inUse = h.port.inUse.erase k ∧
      (h.run (.free ptr junk)).port.freed = h.port.freed ++ [k] := by
  obtain ⟨b, hb⟩ := Option.isSome_iff_exists.mp ha
  obtain ⟨k, hk, hc⟩ := hi.block ptr b hb
  have hfree : (h.run (.free ptr junk)).port = _ := free_eq hi hk hc.ptr
  rw [hfree]
  exact ⟨set_self, k, hk, hc.ptr, rfl, rfl⟩

/-- A block of 8 bytes at 0x1004 is written, grows to 16 bytes at 0x2004, keeps what was
written, and is given back. -/
theorem heap_port_run : ∃ h h',
    Run HeapStep (.init fun _ => 0) [.malloc 8 ⟨0x1000, 16, fun _ => 7⟩, .write 0x1004 2 [5],
      .realloc 0x1004 16 ⟨0x2000, 24, fun _ => 7⟩ fun _ => 9] h ∧
    h.live 0x1004 = none ∧ (h.live 0x2004).isSome ∧ beSizeImpl h.port 0x2004 = 16 ∧
    h.port.mem 0x2006 = 5 ∧
    HeapStep h (.free 0x2004 fun _ => 9) h' ∧ h'.live 0x2004 = none ∧ h'.port.inUse = [] := by
  have hrun : Run HeapStep (.init fun _ => 0) [.malloc 8 ⟨0x1000, 16, fun _ => 7⟩,
      .write 0x1004 2 [5], .realloc 0x1004 16 ⟨0x2000, 24, fun _ => 7⟩ fun _ => 9] _ :=
    .cons ⟨⟨by decide, by decide, by decide, by decide⟩, rfl⟩
      (.cons ⟨⟨_, rfl, by decide⟩, rfl⟩
        (.single ⟨⟨by decide, .inr rfl, fun _ => ⟨by decide, by decide, by decide⟩⟩, rfl⟩))
  refine ⟨_, _, hrun, rfl, rfl, ?_, ?_, ⟨rfl, rfl⟩, rfl, ?_⟩
  · decide
  · decide
  · decide

end Runs

/-- In every run the port is right about all live blocks; and reallocating NULL is an
allocation, reallocating to 0 bytes frees the block and returns NULL. -/
theorem heap_port_allocates :
    (∀ (mem : Nat → UInt8) (calls : List HeapCall),
      Always HeapStep PortRight (BerryHeap.init mem) calls) ∧
    (∀ s size g junk, beReallocImpl s 0 size g junk = beMallocImpl s size g) ∧
    (∀ s ptr g junk, beReallocImpl s (ptr + 1) 0 g junk = (beFreeImpl s (ptr + 1) junk, 0)) := by
  refine ⟨fun mem calls => ?_, fun _ _ _ _ => rfl, fun _ _ _ _ => rfl⟩
  refine always_of_invariant (I := fun h => HeapSound h.port h.live) ?_ ?_ heapSound_init calls
  · intro h call h' hi hs
    exact heapSound_step hi hs
  · intro h hi
    exact portRight_of_sound hi

end BlackPill
