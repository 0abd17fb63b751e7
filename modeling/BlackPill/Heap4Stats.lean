import BlackPill.Heap4Runs

/-!
# What the kernel's heap reports

The numbers that `heap_4.c` keeps and those that `vPortGetHeapStats` finds on its
walk, along the runs of `Heap4Runs`.

Results:
1. `malloc_null_iff`: `pvPortMalloc` returns NULL exactly when the size is 0 or overflows, or
   the largest free block is too small for it; and what is reported of that block.
2. `heap4_accounts`: no byte of the array is lost, and the calls counted are those that
   succeeded.
3. `heap4_least_ever`: the minimum reported is the least there ever was.
4. `heap4_all_freed`: when every block has been given back, the heap is one block again.
5. `pvPortCalloc_run`: `pvPortCalloc` is an allocation and a write of zeros; when it returns NULL.
-/

namespace BlackPill.Heap4

open ByteMemory Tilings LinkedNodes Runs Heap4LinksLemmas Heap4BlocksLemmas Heap4CallsLemmas
  Heap4RunsLemmas

/-! ## Definitions -/

/-- What `vPortGetHeapStats` reports of the blocks `ts`. -/
def statsOf (s : Heap) (ts : List (Tile Owner)) : HeapStats where
  xAvailableHeapSpaceInBytes := freeBytes ts
  xSizeOfLargestFreeBlockInBytes := ((freeTiles ts).map Tile.size).foldl max 0
  xSizeOfSmallestFreeBlockInBytes := ((freeTiles ts).map Tile.size).foldl min heapSizeMax
  xNumberOfFreeBlocks := (freeTiles ts).length
  xMinimumEverFreeBytesRemaining := s.xMinimumEverFreeBytesRemaining
  xNumberOfSuccessfulAllocations := s.xNumberOfSuccessfulAllocations
  xNumberOfSuccessfulFrees := s.xNumberOfSuccessfulFrees

namespace Heap4StatsLemmas

variable {L : Place} {s s' : HeapUse} {h : Heap} {ts : List (Tile Owner)} {n : Nat}
  {e : HeapEvent}

/-- `vPortGetHeapStats` returns, with the statistics of the blocks. -/
theorem vPortGetHeapStats_eq (hs : Sound L h ts) :
    vPortGetHeapStats L h = some (statsOf h ts) := by
  have hc := hs.blocks.chain
  have hfirst := (valid_of_chain hs.blocks hc.next_mem).2
  have hend : L.uxEndAddress ∉ freeAddrs ts := fun hm =>
    end_notMem_chain hs.blocks (List.mem_cons_of_mem _ hm)
  have hsizes : (freeAddrs ts).map (xBlockSize h.mem) = (freeTiles ts).map Tile.size := by
    unfold freeAddrs
    rw [List.map_map]
    refine List.map_congr_left fun t ht => ?_
    obtain ⟨hm, hf⟩ := mem_freeTiles.mp ht
    exact size_of_free hs.blocks hm hf
  unfold vPortGetHeapStats
  dsimp only
  rw [if_pos hfirst, hs.pxEnd, scanFree_eq hc hend (freeAddrs_length_lt hs.blocks), hsizes,
    Option.map_some, hs.free, Nat.zero_add]
  unfold freeAddrs
  rw [List.length_map]
  rfl

theorem foldl_max_lt_iff {xs : List Nat} {m : Nat} :
    xs.foldl max m < n ↔ m < n ∧ ∀ x ∈ xs, x < n := by
  induction xs generalizing m with
  | nil => simp
  | cons x xs ih =>
    rw [List.foldl_cons, ih, Nat.max_lt, List.forall_mem_cons, and_assoc]

theorem largest_lt_iff (hn : 0 < n) :
    (statsOf h ts).xSizeOfLargestFreeBlockInBytes < n ↔
      ∀ t ∈ ts, t.free = true → t.size < n := by
  show ((freeTiles ts).map Tile.size).foldl max 0 < n ↔ _
  rw [foldl_max_lt_iff]
  constructor
  · rintro ⟨_, hall⟩ t ht hf
    exact hall t.size (List.mem_map_of_mem (mem_freeTiles.mpr ⟨ht, hf⟩))
  · intro hall
    refine ⟨hn, fun x hx => ?_⟩
    obtain ⟨t, ht, rfl⟩ := List.mem_map.mp hx
    obtain ⟨hm, hf⟩ := mem_freeTiles.mp ht
    exact hall t hm hf

end Heap4StatsLemmas

open Heap4StatsLemmas

/-- When `pvPortMalloc` returns NULL: the size is 0 or overflows, or it fits no free block,
with the header and the rounding. From the first call on, the largest free block is the
one that `vPortGetHeapStats` reports. Before it, it is the array, and no block is reported
as long as `xStart` is zero, as it is at start-up. -/
structure NullWhen (L : Place) (s : Heap) : Prop where
  reported : s.pxEnd ≠ 0 → ∃ stats, vPortGetHeapStats L s = some stats ∧
    ∀ n, ∃ h p, pvPortMalloc L s n = some (h, p) ∧
      (p = 0 ↔ requiredSize n = 0 ∨ stats.xSizeOfLargestFreeBlockInBytes < requiredSize n)
  array : s.pxEnd = 0 → ∀ n, ∃ h p, pvPortMalloc L s n = some (h, p) ∧
    (p = 0 ↔ requiredSize n = 0 ∨ L.uxEndAddress - L.uxStartAddress < requiredSize n)
  unreported : pxNextFreeBlock s.mem L.xStart = 0 → ∃ stats, vPortGetHeapStats L s = some stats ∧
    stats.xSizeOfLargestFreeBlockInBytes = 0

namespace Heap4StatsLemmas

/-- The largest free block decides. -/
theorem malloc_null_of_tied {L : Place} {s : HeapUse} {ts : List (Tile Owner)}
    (ht : Tied L s ts) (n : Nat) : ∃ h p, pvPortMalloc L s.heap n = some (h, p) ∧
      (p = 0 ↔ requiredSize n = 0 ∨
        (statsOf s.heap ts).xSizeOfLargestFreeBlockInBytes < requiredSize n) := by
  rcases allocate_cases n ts with ⟨_, hn⟩ | ⟨A, t, B, rfl, h0, hA, hf, hw, _⟩
  · refine ⟨_, _, pvPortMalloc_of_none ht.sound hn, fun _ => ?_, fun _ => rfl⟩
    by_cases h0 : requiredSize n = 0
    · exact .inl h0
    · exact .inr ((largest_lt_iff (Nat.pos_of_ne_zero h0)).mpr (hn.resolve_left h0))
  · obtain ⟨h', hcall, _⟩ := pvPortMalloc_of_some ht.sound h0 hA hf hw
    refine ⟨_, _, hcall, fun hp => ?_, ?_⟩
    · exact absurd hp (Nat.succ_ne_zero _)
    · rintro (h0' | hlt)
      · exact absurd h0' h0
      · have hall := (largest_lt_iff (Nat.pos_of_ne_zero h0)).mp hlt
        exact absurd (hall t (by simp) hf) (Nat.not_lt.mpr hw)

end Heap4StatsLemmas

/-- In every state of every run, `pvPortMalloc` returns, with NULL just in these cases. -/
theorem malloc_null_iff (L : Place) (mem : Mem) (es : List HeapEvent) :
    Always (HeapUseStep L) (fun s => NullWhen L s.heap) (.init mem) es := by
  intro done rest s _ hr
  have ht := tied_of_run hr
  refine ⟨fun hinit => ?_, fun hfresh n => ?_, fun hzero => ?_⟩
  · have hsound := ht.sound
    rw [show ready L s.heap = s.heap from if_neg hinit] at hsound
    exact ⟨_, vPortGetHeapStats_eq hsound, malloc_null_of_tied ht⟩
  · have hn := malloc_null_of_tied ht n
    rw [ht.fresh hfresh] at hn
    exact hn
  · unfold vPortGetHeapStats
    dsimp only
    rw [hzero, if_neg (not_not_intro rfl)]
    exact ⟨_, rfl, rfl⟩

/-! ## Accounts -/

namespace Heap4StatsLemmas

/-- What one event does to the numbers.

* `calls`: allocations less frees is the number of blocks that are not free;
* `least`: the minimum follows the free bytes, from the first call on. -/
structure Counts (L : Place) (s s' : HeapUse) (ts ts' : List (Tile Owner)) : Prop where
  calls : s.heap.xNumberOfSuccessfulAllocations =
      add32 s.heap.xNumberOfSuccessfulFrees (owned ts).length →
    s'.heap.xNumberOfSuccessfulAllocations =
      add32 s'.heap.xNumberOfSuccessfulFrees (owned ts').length
  started : s'.heap.pxEnd ≠ 0
  least : s'.heap.xMinimumEverFreeBytesRemaining = if s.heap.pxEnd = 0 then
      s'.heap.xFreeBytesRemaining
    else min s.heap.xMinimumEverFreeBytesRemaining s'.heap.xFreeBytesRemaining

variable {L : Place} {s s' : HeapUse} {h : Heap} {ts A B : List (Tile Owner)} {t : Tile Owner}
  {n : Nat} {e : HeapEvent}

theorem ready_counts :
    (ready L h).xNumberOfSuccessfulAllocations = h.xNumberOfSuccessfulAllocations ∧
    (ready L h).xNumberOfSuccessfulFrees = h.xNumberOfSuccessfulFrees := by
  unfold ready
  split
  · exact ⟨rfl, rfl⟩
  · exact ⟨rfl, rfl⟩

theorem add32_succ {f k : Nat} : add32 (add32 f k) 1 = add32 f (k + 1) := by
  unfold add32
  omega

theorem owned_mid (hf : t.free = false) : (owned (A ++ t :: B)).length =
    (owned A).length + (owned B).length + 1 := by
  rw [owned_append, owned_cons_owned hf, List.length_append, List.length_cons, Nat.add_assoc]

theorem owned_mid_free (hf : t.free = true) : (owned (A ++ t :: B)).length =
    (owned A).length + (owned B).length := by
  rw [owned_append, owned_cons_free hf, List.length_append]

theorem owned_remainder {least want : Nat} : owned (remainder least want t) = [] := by
  unfold remainder
  split
  · exact owned_cons_free rfl
  · rfl

/-- A minimum that is not above the free bytes stays when these do not drop. -/
theorem least_of_not_drop {m f f' : Nat} (hm : m ≤ f) (hf : f ≤ f') : m = min m f' :=
  (Nat.min_eq_left (Nat.le_trans hm hf)).symm

/-- Each event keeps the accounts. -/
theorem counts_effect {ts' : List (Tile Owner)} (he : Effect L s ts e s' ts') :
    Counts L s s' ts ts' := by
  have hstarted : s'.heap.pxEnd ≠ 0 := fun h0 =>
    end_ne_zero L ((sound_effect he).pxEnd.symm.trans h0)
  have hstart : ∀ {ts}, Sound L s.heap ts → s.heap.pxEnd ≠ 0 := fun hs h0 =>
    end_ne_zero L (hs.pxEnd.symm.trans h0)
  obtain ⟨hra, hrf⟩ := ready_counts (L := L) (h := s.heap)
  refine ⟨fun hc => ?_, hstarted, ?_⟩
  · cases he with
    | null =>
      show (ready L s.heap).xNumberOfSuccessfulAllocations =
        add32 (ready L s.heap).xNumberOfSuccessfulFrees _
      rw [hra, hrf, hc]
    | @took A B t n h h0 hf hw hs hs' hcount =>
      have hlen : (owned (A ++ carve heapMinimumBlockSize (requiredSize n) (.app n) t ++ B)).length
          = (owned (A ++ t :: B)).length + 1 := by
        rw [List.append_assoc, carve, List.cons_append, owned_mid rfl, owned_mid_free hf,
          owned_append, owned_remainder, List.nil_append]
      show h.xNumberOfSuccessfulAllocations = add32 h.xNumberOfSuccessfulFrees _
      rw [hcount.allocations, hcount.frees, hra, hrf, hc, add32_succ, hlen]
    | wrote => exact hc
    | @marked A B a z w h hs hs' _ hfreed =>
      rw [owned_mid rfl] at hc ⊢
      show h.xNumberOfSuccessfulAllocations = add32 h.xNumberOfSuccessfulFrees _
      rw [hfreed.allocations, hfreed.frees, hc]
    | @linked A B a z h hs hs' _ hfreed =>
      rw [owned_coalesce, owned_mid_free rfl]
      rw [owned_mid rfl] at hc
      show h.xNumberOfSuccessfulAllocations = add32 h.xNumberOfSuccessfulFrees _
      rw [hfreed.allocations, hfreed.frees, hc]
      unfold add32
      omega
  · cases he with
    | null _ hs =>
      show (ready L s.heap).xMinimumEverFreeBytesRemaining =
        if s.heap.pxEnd = 0 then (ready L s.heap).xFreeBytesRemaining
        else min _ (ready L s.heap).xFreeBytesRemaining
      have hle := hs.least
      by_cases h0 : s.heap.pxEnd = 0
      · rw [if_pos h0, ready, if_pos h0]
        rfl
      · rw [if_neg h0]
        rw [ready, if_neg h0] at hle ⊢
        exact least_of_not_drop hle (Nat.le_refl _)
    | @took A B t n h h0 hf hw hs hs' hcount =>
      show h.xMinimumEverFreeBytesRemaining = if s.heap.pxEnd = 0 then h.xFreeBytesRemaining
        else min _ h.xFreeBytesRemaining
      rw [hcount.least]
      by_cases he0 : s.heap.pxEnd = 0
      · rw [if_pos he0]
        refine Nat.min_eq_right ?_
        have hcarve := freeBytes_carve (L := A) (R := B) heapMinimumBlockSize (Owner.app n)
          hf hw
        have hwhole : (ready L s.heap).xMinimumEverFreeBytesRemaining =
            (ready L s.heap).xFreeBytesRemaining := by
          rw [ready, if_pos he0]
          rfl
        rw [hwhole, hs.free, hs'.free]
        omega
      · rw [if_neg he0, ready, if_neg he0]
    | wrote _ hs =>
      rw [if_neg (hstart hs)]
      exact least_of_not_drop hs.least (Nat.le_refl _)
    | @marked A B a z w h hs _ _ hfreed =>
      rw [if_neg (hstart hs)]
      show h.xMinimumEverFreeBytesRemaining = min _ h.xFreeBytesRemaining
      rw [hfreed.least, hfreed.free]
      exact least_of_not_drop hs.least (Nat.le_add_right _ _)
    | @linked A B a z h hs _ _ hfreed =>
      rw [if_neg (hstart hs)]
      show h.xMinimumEverFreeBytesRemaining = min _ h.xFreeBytesRemaining
      rw [hfreed.least, hfreed.free]
      exact least_of_not_drop hs.least (Nat.le_add_right _ _)

/-- Each block that is not free has a pointer in use or one on its way back. -/
theorem length_owned : (owned ts).length =
    (ts.filterMap handedOf).length + (ts.filterMap leavingOf).length := by
  induction ts with
  | nil => rfl
  | cons t ts ih =>
    obtain ⟨a, z, o⟩ := t
    match o with
    | none =>
      rw [owned_cons_free rfl, List.filterMap_cons_none rfl, List.filterMap_cons_none rfl, ih]
    | some .leaving =>
      rw [owned_cons_owned rfl, List.filterMap_cons_none rfl,
        List.filterMap_cons_some (f := leavingOf) rfl, List.length_cons,
        List.length_cons, ih]
      omega
    | some (.app w) =>
      rw [owned_cons_owned rfl, List.filterMap_cons_some (f := handedOf) rfl,
        List.filterMap_cons_none rfl,
        List.length_cons, List.length_cons, ih]
      omega

/-- The blocks that are not free are those in use, each with at most `heapMINIMUM_BLOCK_SIZE`
bytes more than required, and those on their way back. -/
theorem sum_owned {S : Nat → Nat} (hroom : ∀ t ∈ ts, ∀ w, t.owner = some (.app w) →
      requiredSize w ≤ t.size ∧ t.size ≤ requiredSize w + heapMinimumBlockSize)
    (hsize : ∀ t ∈ ts, t.owner = some .leaving → S t.addr = t.size) :
    ((ts.filterMap handedOf).map fun b => requiredSize b.wanted).sum +
        ((ts.filterMap leavingOf).map fun p => S (p - xHeapStructSize)).sum ≤
        ((owned ts).map Tile.size).sum ∧
      ((owned ts).map Tile.size).sum ≤
        ((ts.filterMap handedOf).map fun b => requiredSize b.wanted + heapMinimumBlockSize).sum +
          ((ts.filterMap leavingOf).map fun p => S (p - xHeapStructSize)).sum := by
  induction ts with
  | nil => exact ⟨Nat.le_refl _, Nat.le_refl _⟩
  | cons t ts ih =>
    obtain ⟨ht, hts⟩ := List.forall_mem_cons.mp hroom
    obtain ⟨hst, hsts⟩ := List.forall_mem_cons.mp hsize
    obtain ⟨ihlo, ihhi⟩ := ih hts hsts
    obtain ⟨a, z, o⟩ := t
    match o with
    | none =>
      rw [owned_cons_free rfl, List.filterMap_cons_none rfl, List.filterMap_cons_none rfl]
      exact ⟨ihlo, ihhi⟩
    | some .leaving =>
      have hz : S (a + xHeapStructSize - xHeapStructSize) = z := by
        rw [Nat.add_sub_cancel]
        exact hst rfl
      rw [owned_cons_owned rfl, List.filterMap_cons_none rfl,
        List.filterMap_cons_some (f := leavingOf) rfl]
      simp only [List.map_cons, List.sum_cons, hz]
      omega
    | some (.app w) =>
      have hw : requiredSize w ≤ z ∧ z ≤ requiredSize w + heapMinimumBlockSize := ht w rfl
      rw [owned_cons_owned rfl, List.filterMap_cons_some (f := handedOf) rfl,
        List.filterMap_cons_none rfl]
      simp only [List.map_cons, List.sum_cons]
      omega

end Heap4StatsLemmas

/-- The bytes of the blocks for which `vPortFree` is between its parts, as their headers
have them. -/
def HeapUse.bytesLeaving (s : HeapUse) : Nat :=
  (s.leaving.map fun p => xBlockSize s.heap.mem (p - xHeapStructSize)).sum

/-- No byte is lost: what is not free is in use, with the header, the rounding and at most
`heapMINIMUM_BLOCK_SIZE` bytes more for each block, or on its way back; and the calls
counted are those whose blocks are out or have come back. Before the first call the
bytes are those that `prvHeapInit` makes of the array. -/
structure Accounts (L : Place) (s : HeapUse) : Prop where
  calls : s.heap.xNumberOfSuccessfulAllocations =
    add32 s.heap.xNumberOfSuccessfulFrees (s.inUse.length + s.leaving.length)
  atMost : (ready L s.heap).xFreeBytesRemaining + s.bytesLeaving +
    (s.inUse.map fun b => requiredSize b.wanted).sum ≤ L.uxEndAddress - L.uxStartAddress
  atLeast : L.uxEndAddress - L.uxStartAddress ≤
    (ready L s.heap).xFreeBytesRemaining + s.bytesLeaving +
      (s.inUse.map fun b => requiredSize b.wanted + heapMinimumBlockSize).sum

theorem counts_run {L : Place} {s s' : HeapUse} {ts : List (Tile Owner)} {es : List HeapEvent}
    (h : Run (HeapUseStep L) s es s') (ht : Tied L s ts)
    (hc : s.heap.xNumberOfSuccessfulAllocations =
      add32 s.heap.xNumberOfSuccessfulFrees (owned ts).length) :
    s'.heap.xNumberOfSuccessfulAllocations =
      add32 s'.heap.xNumberOfSuccessfulFrees (owned (es.foldl tileStep ts)).length := by
  induction h generalizing ts with
  | nil => exact hc
  | cons hs _ ih =>
    have he := effect_step ht hs
    exact ih (tied_effect ht he) ((counts_effect he).calls hc)

/-- In every state of every run the accounts balance. -/
theorem heap4_accounts (L : Place) (mem : Mem) (es : List HeapEvent) :
    Always (HeapUseStep L) (Accounts L) (.init mem) es := by
  intro done rest s _ hr
  have ht := tied_of_run hr
  have hcalls := counts_run hr (tied_init mem) (by rw [owned_cons_free rfl]; rfl)
  have hbytes := ht.sound.blocks.tiled.freeBytes_add
  rw [← ht.sound.free] at hbytes
  have hsize : ∀ t ∈ tilesAfter L done, t.owner = some .leaving →
      xBlockSize s.heap.mem t.addr = t.size := by
    intro t hm ho
    have hready := ready_of_owned ht hm (by simp [Tile.free, ho])
    rw [← hready]
    exact size_of_leaving ht.sound.blocks hm ho
  have hsum := sum_owned (fun t hm w ho => (ht.room t hm w ho).2) hsize
  have hleaving : _ = s.bytesLeaving :=
    (ht.leaving.map fun p => xBlockSize s.heap.mem (p - xHeapStructSize)).sum_eq
  rw [hleaving, (ht.inUse.map _).sum_eq, (ht.inUse.map _).sum_eq] at hsum
  refine ⟨?_, by omega, by omega⟩
  rw [← ht.inUse.length_eq, ← ht.leaving.length_eq, ← length_owned]
  exact hcalls

/-! ## The least there ever was -/

theorem started_of_run {L : Place} {mem : Mem} {es : List HeapEvent} {s : HeapUse}
    (hr : Run (HeapUseStep L) (.init mem) es s) (hes : es ≠ []) : s.heap.pxEnd ≠ 0 := by
  rcases List.eq_nil_or_concat' es with rfl | ⟨fs, e, rfl⟩
  · exact absurd rfl hes
  · obtain ⟨u, hu, hs⟩ := hr.split
    cases hs with
    | cons hs hnil =>
      cases hnil
      exact (counts_effect (effect_step (tied_of_run hu) hs)).started

theorem heapUseStep_unique {L : Place} (s : HeapUse) (e : HeapEvent) (t u : HeapUse)
    (ht : HeapUseStep L s e t) (hu : HeapUseStep L s e u) : t = u :=
  Option.some.inj (ht.2.symm.trans hu.2)

/-- After any calls the minimum reported is the least number of free bytes of all states
since the first call, and it was reached. -/
theorem heap4_least_ever (L : Place) (mem : Mem) (es : List HeapEvent) (s : HeapUse)
    (hr : Run (HeapUseStep L) (.init mem) es s) (hes : es ≠ []) :
    (∀ done rest t, es = done ++ rest → done ≠ [] → Run (HeapUseStep L) (.init mem) done t →
      s.heap.xMinimumEverFreeBytesRemaining ≤ t.heap.xFreeBytesRemaining) ∧
    ∃ done rest t, es = done ++ rest ∧ done ≠ [] ∧ Run (HeapUseStep L) (.init mem) done t ∧
      s.heap.xMinimumEverFreeBytesRemaining = t.heap.xFreeBytesRemaining := by
  induction es using List.reverseRecOn generalizing s with
  | nil => exact absurd rfl hes
  | append_singleton fs e ih =>
    obtain ⟨u, hu, hs⟩ := hr.split
    cases hs with
    | cons hs hnil =>
      cases hnil
      have hl := (counts_effect (effect_step (tied_of_run hu) hs)).least
      have hlast : s.heap.xMinimumEverFreeBytesRemaining ≤ s.heap.xFreeBytesRemaining := by
        rw [hl]
        split
        · exact Nat.le_refl _
        · exact Nat.min_le_right _ _
      by_cases hfs : fs = []
      · subst hfs
        cases hu
        have hreached : s.heap.xMinimumEverFreeBytesRemaining = s.heap.xFreeBytesRemaining :=
          hl.trans (if_pos rfl)
        refine ⟨fun done rest t he hd ht => ?_, [e], [], s, rfl, by simp, hr, hreached⟩
        obtain ⟨rfl, rfl⟩ : done = [e] ∧ rest = [] := by
          cases done with
          | nil => exact absurd rfl hd
          | cons x done => simpa [eq_comm, and_assoc] using he
        exact (ht.unique heapUseStep_unique hr) ▸ hlast
      · rw [if_neg (started_of_run hu hfs)] at hl
        obtain ⟨hall, done, rest, t, he, hd, ht, hm⟩ := ih u hu hfs
        constructor
        · intro done' rest' t' he' hd' ht'
          rcases List.eq_nil_or_concat' rest' with rfl | ⟨rest'', e', rfl⟩
          · rw [List.append_nil] at he'
            exact (ht'.unique heapUseStep_unique (he' ▸ hr)) ▸ hlast
          · rw [← List.append_assoc] at he'
            obtain ⟨hfs', _⟩ := List.append_inj' he' rfl
            rw [hl]
            exact Nat.le_trans (Nat.min_le_left _ _) (hall done' rest'' t' hfs' hd' ht')
        · rcases Nat.le_total u.heap.xMinimumEverFreeBytesRemaining s.heap.xFreeBytesRemaining with
            hle | hle
          · rw [Nat.min_eq_left hle] at hl
            exact ⟨done, rest ++ [e], t, by rw [he, List.append_assoc], hd, ht, hl.trans hm⟩
          · rw [Nat.min_eq_right hle] at hl
            exact ⟨fs ++ [e], [], s, (List.append_nil _).symm, by simp, hr, hl⟩

/-- The three blocks: in the end there are more free bytes than the minimum. -/
theorem heap4_least_ever_threeBlocks : ∃ s,
    Run (HeapUseStep somePlace) (.init fun _ => 0) threeBlocks s ∧
      (∀ done rest t, threeBlocks = done ++ rest → done ≠ [] →
        Run (HeapUseStep somePlace) (.init fun _ => 0) done t →
        s.heap.xMinimumEverFreeBytesRemaining ≤ t.heap.xFreeBytesRemaining) ∧
      (∃ done rest t, threeBlocks = done ++ rest ∧ done ≠ [] ∧
        Run (HeapUseStep somePlace) (.init fun _ => 0) done t ∧
        s.heap.xMinimumEverFreeBytesRemaining = t.heap.xFreeBytesRemaining) ∧
      s.heap.xMinimumEverFreeBytesRemaining + 56 ≤ s.heap.xFreeBytesRemaining := by
  obtain ⟨s, hs⟩ := threeBlocks_runs
  obtain ⟨hall, hreached⟩ := heap4_least_ever somePlace _ _ s hs (List.cons_ne_nil _ _)
  refine ⟨s, hs, hall, hreached, ?_⟩
  have hcut : threeBlocks = threeBlocks.take 5 ++ threeBlocks.drop 5 :=
    (List.take_append_drop 5 threeBlocks).symm
  obtain ⟨t, ht, _⟩ := Run.split (hcut ▸ hs)
  have hle := hall _ _ t hcut (List.cons_ne_nil _ _) ht
  have hfree : ∀ {es u}, es ≠ [] → Run (HeapUseStep somePlace) (.init fun _ => 0) es u →
      u.heap.xFreeBytesRemaining = freeBytes (tilesAfter somePlace es) := by
    intro es u hne hu
    have hsound := (tied_of_run hu).sound
    rw [show ready somePlace u.heap = u.heap from if_neg (started_of_run hu hne)] at hsound
    exact hsound.free
  rw [hfree (List.cons_ne_nil _ _) ht] at hle
  rw [hfree (List.cons_ne_nil _ _) hs]
  exact Nat.le_trans (Nat.add_le_add_right hle 56) (by decide)

/-! ## All blocks given back -/

/-- When every pointer has come back, in whatever order, the heap is one free block again:
any request that fits the array is served from its start. -/
theorem heap4_all_freed (L : Place) (mem : Mem) (es : List HeapEvent) :
    Always (HeapUseStep L) (fun s => s.inUse = [] → s.leaving = [] →
      Sound L (ready L s.heap) [L.whole] ∧
      ∀ n, requiredSize n ≠ 0 → requiredSize n ≤ L.uxEndAddress - L.uxStartAddress →
        ∃ h, pvPortMalloc L s.heap n = some (h, L.uxStartAddress + xHeapStructSize))
      (.init mem) es := by
  intro done rest s _ hr hin hle
  have ht := tied_of_run hr
  obtain ⟨_, _, _, hlt, _⟩ := place_bounds L
  have howned : owned (tilesAfter L done) = [] := by
    refine List.eq_nil_of_length_eq_zero ?_
    rw [length_owned, ht.inUse.length_eq, ht.leaving.length_eq, hin, hle]
    rfl
  have hsingle := eq_single_of_all_free ht.sound.blocks.tiled ht.sound.coalesced howned (by omega)
  have hsound : Sound L (ready L s.heap) [L.whole] := hsingle ▸ ht.sound
  refine ⟨hsound, fun n h0 hw => ?_⟩
  obtain ⟨h', hcall, _⟩ := pvPortMalloc_of_some (A := []) (B := []) (t := L.whole) hsound h0
    (fun u hu => absurd hu List.not_mem_nil) rfl hw
  exact ⟨h', hcall⟩

/-! ## pvPortCalloc -/

theorem multiply_overflow_iff {a b : Nat} : heapMultiplyWillOverflow a b ↔ 2 ^ 32 ≤ a * b := by
  unfold heapMultiplyWillOverflow heapSizeMax
  constructor
  · rintro ⟨ha, hb⟩
    have hlt := (Nat.div_lt_iff_lt_mul ha).mp hb
    rw [Nat.mul_comm] at hlt
    omega
  · intro h
    have ha : 0 < a := Nat.pos_of_ne_zero fun ha => by simp [ha] at h
    refine ⟨ha, (Nat.div_lt_iff_lt_mul ha).mpr ?_⟩
    rw [Nat.mul_comm]
    omega

/-- `pvPortCalloc` is an allocation and a write of zeros in the new block, with the pointer
that `pvPortMalloc` returns for the product; when the product overflows it does nothing
and returns NULL. -/
theorem pvPortCalloc_run (L : Place) (mem : Mem) (es : List HeapEvent) :
    Always (HeapUseStep L) (fun s => ∀ xNum xSize,
      ∃ h p, pvPortCalloc L s.heap xNum xSize = some (h, p) ∧
        (2 ^ 32 ≤ xNum * xSize → p = 0 ∧ h = s.heap) ∧
        (xNum * xSize < 2 ^ 32 → ∃ h', pvPortMalloc L s.heap (xNum * xSize) = some (h', p) ∧
          (p = 0 → h = h')) ∧
        (p ≠ 0 → ∃ s', Run (HeapUseStep L) s [.malloc (xNum * xSize),
            .write p 0 (List.replicate (xNum * xSize) 0)] s' ∧ s'.heap = h ∧
          s'.inUse = ⟨p, xNum * xSize⟩ :: s.inUse ∧
          s'.contents ⟨p, xNum * xSize⟩ = List.replicate (xNum * xSize) 0))
      (.init mem) es := by
  intro done rest s _ hr xNum xSize
  have ht := tied_of_run hr
  unfold pvPortCalloc
  by_cases ho : heapMultiplyWillOverflow xNum xSize
  · rw [if_neg (not_not_intro ho)]
    have hbig := multiply_overflow_iff.mp ho
    exact ⟨_, _, rfl, fun _ => ⟨rfl, rfl⟩, fun h => absurd h (Nat.not_lt.mpr hbig),
      fun h => absurd rfl h⟩
  · rw [if_pos ho]
    have hfits : ¬ 2 ^ 32 ≤ xNum * xSize := fun h => ho (multiply_overflow_iff.mpr h)
    obtain ⟨s1, hn, htied⟩ := tied_next (e := .malloc (xNum * xSize)) ht trivial
    have hstep : HeapUseStep L s (.malloc (xNum * xSize)) s1 := ⟨trivial, hn⟩
    rw [HeapUse.next] at hn
    obtain ⟨res, hres, hs1⟩ := Option.map_eq_some_iff.mp hn
    rw [hres, Option.map_some]
    by_cases hp0 : res.2 = 0
    · rw [if_neg (not_not_intro hp0)]
      exact ⟨_, _, rfl, fun h => absurd h hfits, fun _ => ⟨_, rfl, fun _ => rfl⟩,
        fun hp => absurd hp0 hp⟩
    · rw [if_neg hp0] at hs1
      rw [if_pos hp0]
      subst hs1
      refine ⟨_, _, rfl, fun h => absurd h hfits, fun _ => ⟨_, rfl, fun h => absurd h hp0⟩,
        fun _ => ?_⟩
      have hlen : (List.replicate (xNum * xSize) (0 : UInt8)).length = xNum * xSize :=
        List.length_replicate
      refine ⟨_, .cons hstep (.single ⟨⟨xNum * xSize, List.mem_cons_self, ?_⟩, rfl⟩), rfl, rfl, ?_⟩
      · rw [hlen, Nat.zero_add]
      · have hl : load (write res.1.mem res.2 (List.replicate (xNum * xSize) 0)) res.2
            (List.replicate (xNum * xSize) (0 : UInt8)).length = _ := load_write
        rw [hlen] at hl
        exact hl

end BlackPill.Heap4
