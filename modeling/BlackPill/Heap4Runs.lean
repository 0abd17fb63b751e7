import BlackPill.Heap4Calls
import BlackPill.Runs

/-!
# Runs of the kernel's heap

Any number of tasks call `pvPortMalloc` and `vPortFree` and write in their blocks, in
any order. The scheduler is suspended while the free list is worked on, so a call of
`pvPortMalloc` and the second part of `vPortFree` are single events; other tasks may
run between the two parts of `vPortFree`.

Results:
1. `heap4_refines_tiling`: the memory always holds the blocks that the allocator on
   tilings has computed.
2. `heap4_returns`: no call fails an assertion or loops.
3. `heap4_blocks_apart`, `heap4_keeps_contents`: each task has its block to itself.
-/

namespace BlackPill.Heap4

open ByteMemory Tilings LinkedNodes Runs Heap4LinksLemmas Heap4BlocksLemmas Heap4CallsLemmas

/-! ## Definitions -/

/-- A pointer that `pvPortMalloc` has returned, with the size that was asked for. -/
structure Handed where
  ptr : Nat
  wanted : Nat
deriving DecidableEq, Repr

/-- The heap, what the tasks have of it, and the pointers for which `vPortFree` is
between its parts. -/
structure HeapUse where
  heap : Heap
  inUse : List Handed
  leaving : List Nat

inductive HeapEvent
  | malloc (xWantedSize : Nat)
  | write (ptr off : Nat) (bytes : List UInt8)
  | freeMark (ptr : Nat)
  | freeLink (ptr : Nat)

/-- `none` if the call does not return. -/
def HeapUse.next (L : Place) (s : HeapUse) : HeapEvent → Option HeapUse
  | .malloc n => (pvPortMalloc L s.heap n).map fun res =>
      if res.2 = 0 then { s with heap := res.1 }
      else { s with heap := res.1, inUse := ⟨res.2, n⟩ :: s.inUse }
  | .write ptr off bytes =>
      some { s with heap := { s.heap with mem := write s.heap.mem (ptr + off) bytes } }
  | .freeMark ptr => (freeMark L s.heap ptr).map fun h =>
      ⟨h, s.inUse.filter fun b => b.ptr ≠ ptr, ptr :: s.leaving⟩
  | .freeLink ptr => (freeLink L s.heap ptr).map fun h =>
      ⟨h, s.inUse, s.leaving.filter fun p => p ≠ ptr⟩

/-- The tasks write within the size they have asked for, and free a block once. -/
def Keeps (s : HeapUse) : HeapEvent → Prop
  | .malloc _ => True
  | .write ptr off bytes => ∃ w, ⟨ptr, w⟩ ∈ s.inUse ∧ off + bytes.length ≤ w
  | .freeMark ptr => ∃ w, ⟨ptr, w⟩ ∈ s.inUse
  | .freeLink ptr => ptr ∈ s.leaving

def HeapUseStep (L : Place) (s : HeapUse) (e : HeapEvent) (s' : HeapUse) : Prop :=
  Keeps s e ∧ s.next L e = some s'

def HeapUse.init (mem : Mem) : HeapUse := ⟨.init mem, [], []⟩

/-- The array as one free block. -/
def Place.whole (L : Place) : Tile Owner :=
  ⟨L.uxStartAddress, L.uxEndAddress - L.uxStartAddress, none⟩

/-- The allocator on tilings. -/
def tileStep (ts : List (Tile Owner)) : HeapEvent → List (Tile Owner)
  | .malloc n => match allocate n ts with
    | none => ts
    | some r => r.2
  | .write _ _ _ => ts
  | .freeMark ptr => reassign (ptr - xHeapStructSize) (some .leaving) ts
  | .freeLink ptr => release (ptr - xHeapStructSize) ts

/-- The blocks after the events of a run. -/
def tilesAfter (L : Place) (es : List HeapEvent) : List (Tile Owner) := es.foldl tileStep [L.whole]

/-- What the owner of a block has been given. -/
def handedOf (t : Tile Owner) : Option Handed :=
  match t.owner with
  | some (.app w) => some ⟨t.addr + xHeapStructSize, w⟩
  | _ => none

def leavingOf (t : Tile Owner) : Option Nat :=
  match t.owner with
  | some .leaving => some (t.addr + xHeapStructSize)
  | _ => none

/-- The heap holds the blocks `ts`, and the tasks have those that are not free. Before
the first call the heap stands for what `prvHeapInit` makes of it. -/
structure Tied (L : Place) (s : HeapUse) (ts : List (Tile Owner)) : Prop where
  sound : Sound L (ready L s.heap) ts
  fresh : s.heap.pxEnd = 0 → ts = [L.whole]
  inUse : (ts.filterMap handedOf).Perm s.inUse
  leaving : (ts.filterMap leavingOf).Perm s.leaving
  room : ∀ t ∈ ts, ∀ w, t.owner = some (.app w) → requiredSize w ≠ 0 ∧
    requiredSize w ≤ t.size ∧ t.size ≤ requiredSize w + heapMinimumBlockSize

namespace Heap4RunsLemmas

variable {L : Place} {s s' : HeapUse} {h : Heap} {ts A B : List (Tile Owner)} {t u : Tile Owner}
  {a z w p n : Nat} {b : Handed} {e : HeapEvent} {es : List HeapEvent} {mem : Mem}

/-! ## The state before a call -/

theorem end_ne_zero (L : Place) : L.uxEndAddress ≠ 0 := by
  obtain ⟨_, _, _, hle, _⟩ := place_bounds L
  omega

theorem ready_of_pxEnd (he : h.pxEnd = L.uxEndAddress) : ready L h = h :=
  if_neg (he ▸ end_ne_zero L)

/-- A heap with a block that is not free has been initialised. -/
theorem ready_of_owned (ht : Tied L s ts) (hm : t ∈ ts) (ho : t.free = false) :
    ready L s.heap = s.heap := by
  refine if_neg fun he => ?_
  rw [ht.fresh he] at hm
  obtain rfl := List.mem_singleton.mp hm
  exact absurd ho (by simp [Tile.free, Place.whole])

/-- A block has the room asked for behind its header. -/
theorem roomFor (ht : Tied L s ts) (hm : t ∈ ts) (ho : t.owner = some (.app w)) :
    w + xHeapStructSize ≤ t.size := by
  obtain ⟨h0, hle, _⟩ := ht.room t hm w ho
  exact Nat.le_trans (requiredSize_spec h0).1 hle

theorem tied_init (mem : Mem) : Tied L (.init mem) [L.whole] where
  sound := by
    refine ⟨rfl, represents_init L (.init mem), List.isChain_singleton _, ?_, Nat.le_refl _⟩
    rw [freeBytes_cons_free rfl]
    rfl
  fresh _ := rfl
  inUse := .nil
  leaving := .nil
  room t ht w hw := by
    obtain rfl := List.mem_singleton.mp ht
    cases hw

/-! ## Blocks and pointers -/

theorem handedOf_eq_some (hb : handedOf t = some b) :
    t = ⟨t.addr, t.size, some (.app b.wanted)⟩ ∧ b.ptr = t.addr + xHeapStructSize := by
  obtain ⟨addr, size, owner⟩ := t
  unfold handedOf at hb
  match owner with
  | none => cases hb
  | some .leaving => cases hb
  | some (.app w) =>
    obtain rfl := Option.some.inj hb
    exact ⟨rfl, rfl⟩

theorem leavingOf_eq_some (hp : leavingOf t = some p) :
    t = ⟨t.addr, t.size, some .leaving⟩ ∧ p = t.addr + xHeapStructSize := by
  obtain ⟨addr, size, owner⟩ := t
  unfold leavingOf at hp
  match owner with
  | none => cases hp
  | some (.app _) => cases hp
  | some .leaving =>
    obtain rfl := Option.some.inj hp
    exact ⟨rfl, rfl⟩

/-- A pointer in use is that of a block of the application. -/
theorem exists_of_inUse (ht : Tied L s ts) (hb : b ∈ s.inUse) :
    ∃ A B a z, ts = A ++ ⟨a, z, some (.app b.wanted)⟩ :: B ∧ b.ptr = a + xHeapStructSize := by
  obtain ⟨t, hmem, hbt⟩ := List.mem_filterMap.mp (ht.inUse.mem_iff.mpr hb)
  obtain ⟨htile, hptr⟩ := handedOf_eq_some hbt
  obtain ⟨A, B, rfl⟩ := List.append_of_mem hmem
  exact ⟨A, B, t.addr, t.size, by rw [← htile], hptr⟩

theorem exists_of_leaving (ht : Tied L s ts) (hp : p ∈ s.leaving) :
    ∃ A B a z, ts = A ++ ⟨a, z, some .leaving⟩ :: B ∧ p = a + xHeapStructSize := by
  obtain ⟨t, hmem, hpt⟩ := List.mem_filterMap.mp (ht.leaving.mem_iff.mpr hp)
  obtain ⟨htile, hptr⟩ := leavingOf_eq_some hpt
  obtain ⟨A, B, rfl⟩ := List.append_of_mem hmem
  exact ⟨A, B, t.addr, t.size, by rw [← htile], hptr⟩

/-- Free blocks carry no pointer, so only the owned ones count. -/
theorem filterMap_owned {β : Type} {f : Tile Owner → Option β}
    (hf : ∀ t, t.free = true → f t = none) :
    ts.filterMap f = (owned ts).filterMap f := by
  induction ts with
  | nil => rfl
  | cons t ts ih =>
    cases ht : t.free with
    | true => rw [owned_cons_free ht, List.filterMap_cons_none (hf t ht), ih]
    | false =>
      rw [owned_cons_owned ht, List.filterMap_cons, List.filterMap_cons, ih]

theorem handedOf_free (ht : t.free = true) : handedOf t = none := by
  unfold handedOf
  rw [show t.owner = none by simpa [Tile.free] using ht]

theorem leavingOf_free (ht : t.free = true) : leavingOf t = none := by
  unfold leavingOf
  rw [show t.owner = none by simpa [Tile.free] using ht]

/-- The pointers of the other blocks are other pointers. -/
theorem handed_ne (ht : Tiled L.uxStartAddress (A ++ t :: B) L.uxEndAddress)
    (hb : b ∈ A.filterMap handedOf ++ B.filterMap handedOf) :
    b.ptr ≠ t.addr + xHeapStructSize := by
  rw [← List.filterMap_append] at hb
  obtain ⟨u, hu, hub⟩ := List.mem_filterMap.mp hb
  rw [(handedOf_eq_some hub).2]
  intro he
  exact ht.addr_ne hu (Nat.add_right_cancel he)

theorem leaving_ne (ht : Tiled L.uxStartAddress (A ++ t :: B) L.uxEndAddress)
    (hp : p ∈ A.filterMap leavingOf ++ B.filterMap leavingOf) :
    p ≠ t.addr + xHeapStructSize := by
  rw [← List.filterMap_append] at hp
  obtain ⟨u, hu, hup⟩ := List.mem_filterMap.mp hp
  rw [(leavingOf_eq_some hup).2]
  intro he
  exact ht.addr_ne hu (Nat.add_right_cancel he)

/-! ## What an event does -/

theorem filterMap_mid_none {β : Type} {f : Tile Owner → Option β} (hf : f t = none) :
    (A ++ t :: B).filterMap f = A.filterMap f ++ B.filterMap f := by
  rw [List.filterMap_append, List.filterMap_cons_none hf]

theorem filterMap_mid_some {β : Type} {f : Tile Owner → Option β} {x : β} (hf : f t = some x) :
    ((A ++ t :: B).filterMap f).Perm (x :: (A.filterMap f ++ B.filterMap f)) := by
  rw [List.filterMap_append, List.filterMap_cons_some hf]
  exact List.perm_middle

theorem filterMap_remainder {β : Type} {f : Tile Owner → Option β}
    (hf : ∀ t, t.free = true → f t = none) {least want : Nat} :
    (remainder least want t).filterMap f = [] := by
  unfold remainder
  split
  · exact List.filterMap_cons_none (hf _ rfl)
  · rfl

/-- Everything that an event can do, with the blocks before and after it. -/
inductive Effect (L : Place) (s : HeapUse) :
    List (Tile Owner) → HeapEvent → HeapUse → List (Tile Owner) → Prop
  | null {ts : List (Tile Owner)} {n : Nat} :
      (requiredSize n = 0 ∨ ∀ u ∈ ts, u.free = true → u.size < requiredSize n) →
      Sound L (ready L s.heap) ts →
      Effect L s ts (.malloc n) { s with heap := ready L s.heap } ts
  | took {A B : List (Tile Owner)} {t : Tile Owner} {n : Nat} {h : Heap} :
      requiredSize n ≠ 0 → t.free = true → requiredSize n ≤ t.size →
      Sound L (ready L s.heap) (A ++ t :: B) →
      Sound L h (A ++ carve heapMinimumBlockSize (requiredSize n) (.app n) t ++ B) →
      Counted (ready L s.heap) h (takenSize heapMinimumBlockSize (requiredSize n) t.size) →
      (∀ u ∈ A ++ B, u.free = false → ∀ j, Payload u j → h.mem j = (ready L s.heap).mem j) →
      Effect L s (A ++ t :: B) (.malloc n)
        ⟨h, ⟨t.addr + xHeapStructSize, n⟩ :: s.inUse, s.leaving⟩
        (A ++ carve heapMinimumBlockSize (requiredSize n) (.app n) t ++ B)
  | wrote {A B : List (Tile Owner)} {a z w off : Nat} {bytes : List UInt8} :
      off + bytes.length + xHeapStructSize ≤ z →
      Sound L s.heap (A ++ ⟨a, z, some (.app w)⟩ :: B) →
      Effect L s (A ++ ⟨a, z, some (.app w)⟩ :: B) (.write (a + xHeapStructSize) off bytes)
        { s with heap := { s.heap with
          mem := write s.heap.mem (a + xHeapStructSize + off) bytes } }
        (A ++ ⟨a, z, some (.app w)⟩ :: B)
  | marked {A B : List (Tile Owner)} {a z w : Nat} {h : Heap} :
      Sound L s.heap (A ++ ⟨a, z, some (.app w)⟩ :: B) →
      Sound L h (A ++ ⟨a, z, some .leaving⟩ :: B) →
      (∀ j, j < a ∨ a + z ≤ j → h.mem j = s.heap.mem j) →
      Freed s.heap h 0 s.heap.xNumberOfSuccessfulFrees →
      Effect L s (A ++ ⟨a, z, some (.app w)⟩ :: B) (.freeMark (a + xHeapStructSize))
        ⟨h, s.inUse.filter fun b => b.ptr ≠ a + xHeapStructSize,
          (a + xHeapStructSize) :: s.leaving⟩
        (A ++ ⟨a, z, some .leaving⟩ :: B)
  | linked {A B : List (Tile Owner)} {a z : Nat} {h : Heap} :
      Sound L s.heap (A ++ ⟨a, z, some .leaving⟩ :: B) →
      Sound L h (coalesce (A ++ ⟨a, z, none⟩ :: B)) →
      (∀ u ∈ A ++ B, u.free = false → ∀ j, Payload u j → h.mem j = s.heap.mem j) →
      Freed s.heap h z (add32 s.heap.xNumberOfSuccessfulFrees 1) →
      Effect L s (A ++ ⟨a, z, some .leaving⟩ :: B) (.freeLink (a + xHeapStructSize))
        ⟨h, s.inUse, s.leaving.filter fun p => p ≠ a + xHeapStructSize⟩
        (coalesce (A ++ ⟨a, z, none⟩ :: B))

/-- Every event that the tasks may make returns, with one of the effects. -/
theorem effect_next (ht : Tied L s ts) (hk : Keeps s e) :
    ∃ s', s.next L e = some s' ∧ Effect L s ts e s' (tileStep ts e) := by
  cases e with
  | malloc n =>
    rcases allocate_cases n ts with ⟨hnone, hn⟩ | ⟨A, t, B, rfl, h0, hA, hf, hw, hsome⟩
    · rw [HeapUse.next, pvPortMalloc_of_none ht.sound hn, tileStep, hnone]
      exact ⟨_, rfl, .null hn ht.sound⟩
    · obtain ⟨h', hcall, hsound, hcount, hframe⟩ := pvPortMalloc_of_some ht.sound h0 hA hf hw
      rw [HeapUse.next, hcall, tileStep, hsome]
      exact ⟨_, rfl, .took h0 hf hw ht.sound hsound hcount hframe⟩
  | write ptr off bytes =>
    obtain ⟨w, hb, hl⟩ := hk
    obtain ⟨A, B, a, z, rfl, hp⟩ := exists_of_inUse ht hb
    obtain rfl : ptr = a + xHeapStructSize := hp
    have hmem : ⟨a, z, some (.app w)⟩ ∈ A ++ ⟨a, z, some (.app w)⟩ :: B := by simp
    have hroom : w + xHeapStructSize ≤ z := roomFor ht hmem rfl
    exact ⟨_, rfl, .wrote (by omega) (ready_of_owned ht hmem rfl ▸ ht.sound)⟩
  | freeMark ptr =>
    obtain ⟨w, hb⟩ := hk
    obtain ⟨A, B, a, z, rfl, hp⟩ := exists_of_inUse ht hb
    obtain rfl : ptr = a + xHeapStructSize := hp
    have hsound := ht.sound
    rw [ready_of_owned ht (t := ⟨a, z, some (.app w)⟩) (by simp) rfl] at hsound
    obtain ⟨h', hcall, hsound', hframe, _, hfreed⟩ := freeMark_eq hsound
    have htile : tileStep (A ++ ⟨a, z, some (.app w)⟩ :: B) (.freeMark (a + xHeapStructSize)) =
        A ++ ⟨a, z, some .leaving⟩ :: B := by
      rw [tileStep, Nat.add_sub_cancel]
      exact hsound.blocks.tiled.reassign_eq
    rw [HeapUse.next, hcall, htile]
    exact ⟨_, rfl, .marked hsound hsound' hframe hfreed⟩
  | freeLink ptr =>
    obtain ⟨A, B, a, z, rfl, rfl⟩ := exists_of_leaving ht hk
    have hsound := ht.sound
    rw [ready_of_owned ht (t := ⟨a, z, some .leaving⟩) (by simp) rfl] at hsound
    obtain ⟨h', hcall, hsound', hframe, hfreed⟩ := freeLink_eq hsound
    have htile : tileStep (A ++ ⟨a, z, some .leaving⟩ :: B) (.freeLink (a + xHeapStructSize)) =
        coalesce (A ++ ⟨a, z, none⟩ :: B) := by
      rw [tileStep, Nat.add_sub_cancel, release]
      exact congrArg coalesce hsound.blocks.tiled.reassign_eq
    rw [HeapUse.next, hcall, htile]
    exact ⟨_, rfl, .linked hsound hsound' hframe hfreed⟩

/-! ## What stays tied -/

/-- After an event the heap has been initialised. -/
theorem sound_effect {ts' : List (Tile Owner)} (he : Effect L s ts e s' ts') :
    Sound L s'.heap ts' := by
  cases he with
  | null _ hs => exact hs
  | took _ _ _ _ hs => exact hs
  | marked _ hs => exact hs
  | linked _ hs => exact hs
  | @wrote A B a z w off bytes hl hs =>
    refine ⟨hs.pxEnd, represents_write _ hs.blocks (t := ⟨a, z, some (.app w)⟩) (by simp) ?_ ?_,
      hs.coalesced, hs.free, hs.least⟩
    · exact Nat.le_add_right _ _
    · show a + xHeapStructSize + off + bytes.length ≤ a + z
      omega

theorem filterMap_carve {β : Type} {f : Tile Owner → Option β}
    (hf : ∀ t, t.free = true → f t = none) {least want : Nat} {o : Owner} :
    (A ++ carve least want o t ++ B).filterMap f =
      (A ++ ⟨t.addr, takenSize least want t.size, some o⟩ :: B).filterMap f := by
  rw [carve, List.append_assoc, List.cons_append, List.filterMap_append, List.filterMap_append,
    List.filterMap_cons, List.filterMap_cons, List.filterMap_append, filterMap_remainder hf,
    List.nil_append]

theorem filterMap_coalesce {β : Type} {f : Tile Owner → Option β}
    (hf : ∀ t, t.free = true → f t = none) :
    (coalesce (A ++ ⟨a, z, none⟩ :: B)).filterMap f = A.filterMap f ++ B.filterMap f := by
  rw [filterMap_owned hf, owned_coalesce, ← filterMap_owned hf, filterMap_mid_none (hf _ rfl)]

/-- The pointer of a block leaves a list from which it is filtered. -/
theorem perm_filter_mid {β : Type} [DecidableEq β] {f : Tile Owner → Option β} {q : β → Nat}
    {x : β} {xs : List β} (hx : f t = some x)
    (hne : ∀ y ∈ A.filterMap f ++ B.filterMap f, q y ≠ q x)
    (hp : ((A ++ t :: B).filterMap f).Perm xs) :
    (A.filterMap f ++ B.filterMap f).Perm (xs.filter fun y => q y ≠ q x) := by
  have hmid := (filterMap_mid_some (A := A) (B := B) hx).symm.trans hp
  have hfil := hmid.filter fun y => decide (q y ≠ q x)
  rwa [List.filter_cons_of_neg (by simp), List.filter_eq_self.mpr fun y hy =>
    decide_eq_true (hne y hy)] at hfil

theorem tied_effect {ts' : List (Tile Owner)} (ht : Tied L s ts) (he : Effect L s ts e s' ts') :
    Tied L s' ts' := by
  have hs := sound_effect he
  have hready : ready L s'.heap = s'.heap := ready_of_pxEnd hs.pxEnd
  have hfresh : s'.heap.pxEnd = 0 → ts' = [L.whole] := fun h0 =>
    absurd (hs.pxEnd.symm.trans h0) (end_ne_zero L)
  have hin := ht.inUse
  have hle := ht.leaving
  refine ⟨by rw [hready]; exact hs, hfresh, ?_, ?_, ?_⟩
  · cases he with
    | null => exact hin
    | wrote => exact hin
    | took _ hf =>
      rw [filterMap_mid_none (handedOf_free hf)] at hin
      rw [filterMap_carve fun _ => handedOf_free]
      exact (filterMap_mid_some (f := handedOf) rfl).trans (hin.cons _)
    | marked hs' =>
      rw [filterMap_mid_none rfl]
      exact perm_filter_mid (q := Handed.ptr) rfl (fun _ => handed_ne hs'.blocks.tiled) hin
    | linked =>
      rw [filterMap_coalesce fun _ => handedOf_free]
      rwa [filterMap_mid_none rfl] at hin
  · cases he with
    | null => exact hle
    | wrote => exact hle
    | took _ hf =>
      rw [filterMap_mid_none (leavingOf_free hf)] at hle
      rw [filterMap_carve fun _ => leavingOf_free, filterMap_mid_none rfl]
      exact hle
    | marked =>
      refine (filterMap_mid_some (f := leavingOf) rfl).trans (List.Perm.cons _ ?_)
      rwa [filterMap_mid_none rfl] at hle
    | linked hs' =>
      rw [filterMap_coalesce fun _ => leavingOf_free]
      exact perm_filter_mid (q := id) rfl (fun _ => leaving_ne hs'.blocks.tiled) hle
  · intro u hu v hv
    cases he with
    | null => exact ht.room u hu v hv
    | wrote => exact ht.room u hu v hv
    | @took A B t n h h0 hf hw =>
      rw [List.append_assoc, carve, List.cons_append] at hu
      rcases List.mem_append.mp hu with hu | hu
      · exact ht.room u (by simp [hu]) v hv
      rcases List.mem_cons.mp hu with rfl | hu
      · obtain rfl := Owner.app.inj (Option.some.inj hv)
        refine ⟨h0, (takenSize_bounds hw).1, ?_⟩
        show takenSize _ _ _ ≤ _
        unfold takenSize
        split <;> omega
      rcases List.mem_append.mp hu with hu | hu
      · have hrest : u.owner = none := by
          unfold remainder at hu
          split at hu
          · rw [List.mem_singleton.mp hu]
          · exact absurd hu List.not_mem_nil
        rw [hrest] at hv
        cases hv
      · exact ht.room u (by simp [hu]) v hv
    | marked =>
      rcases List.mem_append.mp hu with hu | hu
      · exact ht.room u (by simp [hu]) v hv
      rcases List.mem_cons.mp hu with rfl | hu
      · cases hv
      · exact ht.room u (by simp [hu]) v hv
    | @linked A B a z =>
      have hu' : u ∈ owned (coalesce (A ++ ⟨a, z, none⟩ :: B)) :=
        mem_owned.mpr ⟨hu, by simp [Tile.free, hv]⟩
      rw [owned_coalesce, owned_append, owned_cons_free rfl] at hu'
      rcases List.mem_append.mp hu' with hu' | hu'
      · exact ht.room u (by simp [(mem_owned.mp hu').1]) v hv
      · exact ht.room u (by simp [(mem_owned.mp hu').1]) v hv

/-- Every call returns, and does to the blocks what the allocator on tilings does. -/
theorem tied_next (ht : Tied L s ts) (hk : Keeps s e) :
    ∃ s', s.next L e = some s' ∧ Tied L s' (tileStep ts e) := by
  obtain ⟨s', hn, he⟩ := effect_next ht hk
  exact ⟨s', hn, tied_effect ht he⟩

/-- The same for a step that has been taken. -/
theorem effect_step (ht : Tied L s ts) (hs : HeapUseStep L s e s') :
    Effect L s ts e s' (tileStep ts e) := by
  obtain ⟨hk, hn⟩ := hs
  obtain ⟨u, hu, he⟩ := effect_next ht hk
  obtain rfl := Option.some.inj (hn.symm.trans hu)
  exact he

end Heap4RunsLemmas

open Heap4RunsLemmas

/-! ## Whole runs -/

theorem tied_run {L : Place} {s s' : HeapUse} {ts : List (Tile Owner)} {es : List HeapEvent}
    (h : Run (HeapUseStep L) s es s') (ht : Tied L s ts) : Tied L s' (es.foldl tileStep ts) := by
  induction h generalizing ts with
  | nil => exact ht
  | cons hs _ ih => exact ih (tied_effect ht (effect_step ht hs))

theorem tied_of_run {L : Place} {mem : Mem} {es : List HeapEvent} {s : HeapUse}
    (h : Run (HeapUseStep L) (.init mem) es s) : Tied L s (tilesAfter L es) :=
  tied_run h (tied_init mem)

/-! ## Runs of the allocator on tilings -/

/-- `Keeps`, read off the blocks. -/
def Allowed (ts : List (Tile Owner)) : HeapEvent → Prop
  | .malloc _ => True
  | .write ptr off bytes => ∃ b ∈ ts.filterMap handedOf, b.ptr = ptr ∧ off + bytes.length ≤ b.wanted
  | .freeMark ptr => ∃ b ∈ ts.filterMap handedOf, b.ptr = ptr
  | .freeLink ptr => ptr ∈ ts.filterMap leavingOf

instance {ts : List (Tile Owner)} : (e : HeapEvent) → Decidable (Allowed ts e)
  | .malloc _ => inferInstanceAs (Decidable True)
  | .write _ _ _ => inferInstanceAs (Decidable (∃ b ∈ _, _))
  | .freeMark _ => inferInstanceAs (Decidable (∃ b ∈ _, _))
  | .freeLink _ => inferInstanceAs (Decidable (_ ∈ _))

/-- The allocator on tilings allows the events one after the other. -/
def AllAllowed : List (Tile Owner) → List HeapEvent → Prop
  | _, [] => True
  | ts, e :: es => Allowed ts e ∧ AllAllowed (tileStep ts e) es

def decideAllAllowed :
    (ts : List (Tile Owner)) → (es : List HeapEvent) → Decidable (AllAllowed ts es)
  | _, [] => inferInstanceAs (Decidable True)
  | ts, e :: es =>
    have := decideAllAllowed (tileStep ts e) es
    inferInstanceAs (Decidable (_ ∧ _))

instance {ts : List (Tile Owner)} {es : List HeapEvent} : Decidable (AllAllowed ts es) :=
  decideAllAllowed ts es

theorem keeps_iff_allowed {L : Place} {s : HeapUse} {ts : List (Tile Owner)} {e : HeapEvent}
    (ht : Tied L s ts) : Keeps s e ↔ Allowed ts e := by
  cases e with
  | malloc n => exact Iff.rfl
  | write ptr off bytes =>
    constructor
    · rintro ⟨w, hb, hl⟩
      exact ⟨⟨ptr, w⟩, ht.inUse.mem_iff.mpr hb, rfl, hl⟩
    · rintro ⟨b, hb, rfl, hl⟩
      exact ⟨b.wanted, ht.inUse.mem_iff.mp hb, hl⟩
  | freeMark ptr =>
    constructor
    · rintro ⟨w, hb⟩
      exact ⟨⟨ptr, w⟩, ht.inUse.mem_iff.mpr hb, rfl⟩
    · rintro ⟨b, hb, rfl⟩
      exact ⟨b.wanted, ht.inUse.mem_iff.mp hb⟩
  | freeLink ptr => exact ht.leaving.mem_iff.symm

/-- What the allocator on tilings allows, the heap can run. -/
theorem exists_run {L : Place} {s : HeapUse} {ts : List (Tile Owner)} (es : List HeapEvent)
    (ht : Tied L s ts) (h : AllAllowed ts es) :
    ∃ s', Run (HeapUseStep L) s es s' ∧ Tied L s' (es.foldl tileStep ts) := by
  induction es generalizing s ts with
  | nil => exact ⟨s, .nil, ht⟩
  | cons e es ih =>
    obtain ⟨he, hes⟩ := h
    have hk := (keeps_iff_allowed ht).mpr he
    obtain ⟨s₁, hn, ht₁⟩ := tied_next ht hk
    obtain ⟨s', hr, ht'⟩ := ih ht₁ hes
    exact ⟨s', .cons ⟨hk, hn⟩ hr, ht'⟩

/-- A place for the heap in the memory of the board. -/
def somePlace : Place where
  ucHeap := 0x20001004
  configTotalHeapSize := 0xF000
  xStart := 0x20000100
  nonnull := by decide
  enough := by decide
  small := by decide
  inRange := by decide
  apart := by decide

/-- Three tasks get a block each. The third gets its own while the first is inside
`vPortFree`, and gives it back last, with a free block on either side. -/
def threeBlocks : List HeapEvent :=
  [.malloc 16, .malloc 8, .write 0x20001010 0 [1, 2, 3], .freeMark 0x20001010, .malloc 4,
    .freeLink 0x20001010, .freeMark 0x20001028, .freeLink 0x20001028, .freeMark 0x20001038,
    .freeLink 0x20001038]

theorem threeBlocks_runs : ∃ s, Run (HeapUseStep somePlace) (.init fun _ => 0) threeBlocks s := by
  obtain ⟨s, hs, _⟩ := exists_run threeBlocks (tied_init (L := somePlace) fun _ => 0)
    (by decide)
  exact ⟨s, hs⟩

/-! ## Refinement -/

/-- In every run, whatever the order of the calls, the bytes of the heap hold exactly the
blocks that the allocator on tilings has: first fit, and free neighbours joined. -/
theorem heap4_refines_tiling (L : Place) (mem : Mem) (es : List HeapEvent) (s : HeapUse)
    (h : Run (HeapUseStep L) (.init mem) es s) : Tied L s (tilesAfter L es) :=
  tied_of_run h

theorem heap4_refines_tiling_threeBlocks : ∃ s,
    Run (HeapUseStep somePlace) (.init fun _ => 0) threeBlocks s ∧
      Tied somePlace s (tilesAfter somePlace threeBlocks) ∧
      tilesAfter somePlace threeBlocks = [somePlace.whole] := by
  obtain ⟨s, hs⟩ := threeBlocks_runs
  exact ⟨s, hs, heap4_refines_tiling somePlace _ _ s hs, by decide⟩

/-- In every state of every run, each call that the tasks may make returns: no assertion
fails, and the loops over the free list end. -/
theorem heap4_returns (L : Place) (mem : Mem) (es : List HeapEvent) :
    Always (HeapUseStep L) (fun s => ∀ e, Keeps s e → ∃ s', s.next L e = some s')
      (.init mem) es := by
  intro done rest s _ h e hk
  obtain ⟨s', hn, _⟩ := tied_next (tied_of_run h) hk
  exact ⟨s', hn⟩

/-! ## The blocks of the tasks -/

/-- The pointers in use are aligned and inside the array, and between two blocks there
is room for the header of the second. -/
structure BlocksApart (L : Place) (s : HeapUse) : Prop where
  aligned : ∀ b ∈ s.inUse, portByteAlignment ∣ b.ptr
  inside : ∀ b ∈ s.inUse, L.ucHeap + xHeapStructSize ≤ b.ptr ∧
    b.ptr + b.wanted ≤ L.ucHeap + L.configTotalHeapSize
  apart : s.inUse.Pairwise fun b c => b.ptr + b.wanted + xHeapStructSize ≤ c.ptr ∨
    c.ptr + c.wanted + xHeapStructSize ≤ b.ptr

/-- The block of a pointer in use lies in a tile of its own. -/
theorem tile_of_handed {L : Place} {s : HeapUse} {ts : List (Tile Owner)} {t : Tile Owner}
    {b : Handed} (ht : Tied L s ts) (hm : t ∈ ts) (hb : handedOf t = some b) :
    b.ptr = t.addr + xHeapStructSize ∧ b.ptr + b.wanted ≤ t.addr + t.size ∧ 8 ∣ t.addr := by
  obtain ⟨htile, hptr⟩ := handedOf_eq_some hb
  have hroom := roomFor ht hm (congrArg Tile.owner htile)
  exact ⟨hptr, by omega, (node_of_mem ht.sound.blocks hm).1⟩

theorem blocksApart_of_tied {L : Place} {s : HeapUse} {ts : List (Tile Owner)}
    (ht : Tied L s ts) : BlocksApart L s := by
  have htile : ∀ b ∈ s.inUse, ∃ t ∈ ts, handedOf t = some b := fun b hb =>
    List.mem_filterMap.mp (ht.inUse.mem_iff.mpr hb)
  obtain ⟨_, hus, _, _, hue⟩ := place_bounds L
  refine ⟨fun b hb => ?_, fun b hb => ?_, ?_⟩
  · obtain ⟨t, hm, hbt⟩ := htile b hb
    obtain ⟨hptr, _, hd⟩ := tile_of_handed ht hm hbt
    rw [hptr]
    exact Nat.dvd_add hd (Nat.dvd_refl 8)
  · obtain ⟨t, hm, hbt⟩ := htile b hb
    obtain ⟨hptr, hend, _⟩ := tile_of_handed ht hm hbt
    have hb' := ht.sound.blocks.tiled.bounds hm
    exact ⟨by omega, by omega⟩
  · refine (ht.inUse.pairwise_iff fun h => Or.symm h).mp (List.pairwise_filterMap.mpr ?_)
    refine ht.sound.blocks.tiled.pairwise.imp_of_mem fun hm hm' hlt b hb c hc => ?_
    obtain ⟨hptr, hend, _⟩ := tile_of_handed ht hm hb
    obtain ⟨hptr', hend', _⟩ := tile_of_handed ht hm' hc
    exact .inl (by omega)

/-- In every state of every run the blocks of the tasks are apart from each other. -/
theorem heap4_blocks_apart (L : Place) (mem : Mem) (es : List HeapEvent) :
    Always (HeapUseStep L) (BlocksApart L) (.init mem) es :=
  fun _ _ _ _ h => blocksApart_of_tied (tied_of_run h)

/-- A write in the block, or its release. -/
def HeapEvent.Names : HeapEvent → Nat → Prop
  | .write ptr _ _, p => ptr = p
  | .freeMark ptr, p => ptr = p
  | _, _ => False

/-- The bytes that a task finds in its block. -/
def HeapUse.contents (s : HeapUse) (b : Handed) : List UInt8 := load s.heap.mem b.ptr b.wanted

theorem mem_of_ne {A B : List (Tile Owner)} {t u : Tile Owner} (hu : u ∈ A ++ t :: B)
    (hne : u ≠ t) : u ∈ A ++ B := by
  rcases List.mem_append.mp hu with hu | hu
  · exact List.mem_append_left _ hu
  · exact List.mem_append_right _ ((List.mem_cons.mp hu).resolve_left hne)

/-- One event leaves the blocks alone that it does not name. -/
theorem contents_effect {L : Place} {s s' : HeapUse} {ts ts' : List (Tile Owner)} {e : HeapEvent}
    {b : Handed} (ht : Tied L s ts) (he : Effect L s ts e s' ts') (hb : b ∈ s.inUse)
    (hne : ¬ e.Names b.ptr) : b ∈ s'.inUse ∧ s'.contents b = s.contents b := by
  obtain ⟨u, hu, hbu⟩ := List.mem_filterMap.mp (ht.inUse.mem_iff.mpr hb)
  obtain ⟨hptr, hend, _⟩ := tile_of_handed ht hu hbu
  have huo : u.free = false := by
    rw [(handedOf_eq_some hbu).1]
    rfl
  have hready := ready_of_owned ht hu huo
  have hpay : ∀ i, i < b.wanted → Payload u (b.ptr + i) := fun i hi => ⟨by omega, by omega⟩
  have hother : ∀ {A B : List (Tile Owner)} {t : Tile Owner}, u ∈ A ++ t :: B →
      handedOf t ≠ some b → u ∈ A ++ B := fun hm hnt => mem_of_ne hm fun he => hnt (he ▸ hbu)
  cases he with
  | null =>
    refine ⟨hb, ?_⟩
    show load (ready L s.heap).mem _ _ = _
    rw [hready]
    rfl
  | took _ hf _ _ _ _ hframe =>
    have hm := hother hu (by rw [handedOf_free hf]; simp)
    refine ⟨List.mem_cons_of_mem _ hb, load_congr fun i hi => ?_⟩
    have hkeep := hframe u hm huo _ (hpay i hi)
    rwa [hready] at hkeep
  | @wrote A B a z w off bytes hl hs =>
    have hm := hother hu fun he => hne (congrArg Handed.ptr (Option.some.inj he))
    have hout : u.addr + u.size ≤ a ∨ a + z ≤ u.addr := hs.blocks.tiled.outside hm
    refine ⟨hb, load_write_of_disjoint ?_⟩
    omega
  | @marked A B a z w h hs _ hframe =>
    have hm := hother hu fun he => hne (congrArg Handed.ptr (Option.some.inj he))
    have hout : u.addr + u.size ≤ a ∨ a + z ≤ u.addr := hs.blocks.tiled.outside hm
    refine ⟨List.mem_filter.mpr ⟨hb, decide_eq_true fun he => hne he.symm⟩,
      load_congr fun i hi => hframe _ ?_⟩
    obtain ⟨hlo, hhi⟩ := hpay i hi
    omega
  | linked _ _ hframe =>
    have hm := hother hu (by
      unfold handedOf
      simp)
    exact ⟨hb, load_congr fun i hi => hframe u hm huo _ (hpay i hi)⟩

/-- A block keeps its contents through any calls of the other tasks, and through the
writes in other blocks, until its own task writes or frees it. -/
theorem heap4_keeps_contents (L : Place) (mem : Mem) (es fs : List HeapEvent) (s s' : HeapUse)
    (b : Handed) (hs : Run (HeapUseStep L) (.init mem) es s) (hb : b ∈ s.inUse)
    (hr : Run (HeapUseStep L) s fs s') (hne : ∀ e ∈ fs, ¬ e.Names b.ptr) :
    b ∈ s'.inUse ∧ s'.contents b = s.contents b := by
  have ht := tied_of_run hs
  generalize tilesAfter L es = ts at ht
  clear hs
  induction hr generalizing ts with
  | nil => exact ⟨hb, rfl⟩
  | cons hstep _ ih =>
    obtain ⟨he, hfs⟩ := List.forall_mem_cons.mp hne
    have heff := effect_step ht hstep
    obtain ⟨hb', hc⟩ := contents_effect ht heff hb he
    obtain ⟨hin, hc'⟩ := ih hb' hfs _ (tied_effect ht heff)
    exact ⟨hin, hc'.trans hc⟩

/-- The block of the second task, through the calls of the others. -/
theorem heap4_keeps_contents_threeBlocks : ∃ s s',
    Run (HeapUseStep somePlace) (.init fun _ => 0) (threeBlocks.take 2) s ∧
      Run (HeapUseStep somePlace) s ((threeBlocks.drop 2).take 4) s' ∧
      ⟨0x20001028, 8⟩ ∈ s'.inUse ∧ s'.contents ⟨0x20001028, 8⟩ = s.contents ⟨0x20001028, 8⟩ := by
  obtain ⟨s, hs, ht⟩ := exists_run (threeBlocks.take 2)
    (tied_init (L := somePlace) fun _ => 0) (by decide)
  obtain ⟨s', hs', _⟩ := exists_run ((threeBlocks.drop 2).take 4) ht (by decide)
  have hb : ⟨0x20001028, 8⟩ ∈ s.inUse := ht.inUse.mem_iff.mp (by decide)
  refine ⟨s, s', hs, hs', heap4_keeps_contents somePlace _ _ _ s s' _ hs hb hs' ?_⟩
  simp [threeBlocks, HeapEvent.Names]

end BlackPill.Heap4
