import BlackPill.Heap4Links

/-!
# Blocks of the kernel's heap

`pvPortMalloc` unlinks a block, cuts it in two if it is too large and marks it;
`vPortFree` unmarks it, joins it with the free block before it or links it in, and
joins it with the free block after it. Each of these is a step from one tiling to
the next.

Results:
1. `linked_replace`: when blocks in the middle may be replaced by others over the same bytes.
2. `linked_unlink`, `linked_cut`, `linked_linkIn`, `linked_mark`, `linked_unmark`,
   `linked_absorb`, `linked_joinNext`: the steps.
-/

namespace BlackPill.Heap4

open ByteMemory Tilings LinkedNodes Heap4LinksLemmas

namespace Heap4BlocksLemmas

variable {L : Place} {N S N' S' : Nat → Nat} {A B mid mid' ts : List (Tile Owner)}
  {t l r : Tile Owner} {a z w want v : Nat} {o : Owner}

/-! ## One step -/

/-- The address lies in one of the blocks. -/
def Inside (ts : List (Tile Owner)) (a : Nat) : Prop := ∃ t ∈ ts, t.addr ≤ a ∧ a < t.addr + t.size

theorem inside_self (h : Linked L N S (A ++ t :: B)) : Inside [t] t.addr :=
  ⟨t, List.mem_singleton_self _, Nat.le_refl _,
    Nat.lt_add_of_pos_right (h.tiled.bounds (by simp)).2.2⟩

/-- Blocks in the middle are replaced by others over the same bytes. What changes in
the headers changes inside them, or is a pointer of the free list. -/
theorem linked_replace (h : Linked L N S (A ++ mid ++ B))
    (ht : ∀ a e, Tiled a mid e → Tiled a mid' e) (hg : ∀ t ∈ mid', 8 ∣ t.size ∧ 16 ≤ t.size)
    (hc : Chain N' L.xStart (freeAddrs (A ++ mid' ++ B)) L.uxEndAddress)
    (hh : ∀ t ∈ mid', Header N' S' t) (hS : ∀ a, ¬ Inside mid a → S' a = S a)
    (hN : ∀ a, ¬ Inside mid a → a ∉ L.xStart :: freeAddrs (A ++ mid ++ B) → N' a = N a) :
    Linked L N' S' (A ++ mid' ++ B) := by
  obtain ⟨m', hAm, hB⟩ := tiled_append.mp h.tiled
  obtain ⟨m, hA, hm⟩ := tiled_append.mp hAm
  have hspan : ∀ b, Inside mid b → m ≤ b ∧ b < m' := by
    rintro b ⟨t, hmem, hlo, hhi⟩
    obtain ⟨h1, h2, _⟩ := hm.bounds hmem
    exact ⟨Nat.le_trans h1 hlo, Nat.lt_of_lt_of_le hhi h2⟩
  have hends : ∀ b, b = L.xStart ∨ b = L.uxEndAddress → ¬ Inside mid b := by
    intro b hb hin
    obtain ⟨hlo, hhi⟩ := hspan b hin
    have hs := hA.le
    have he := hB.le
    rcases hb with rfl | rfl
    · exact xStart_ne (Nat.le_trans hs hlo) (by omega) rfl
    · omega
  have hother : ∀ u ∈ A ++ B, u ∈ A ++ mid ++ B ∧ ¬ Inside mid u.addr := by
    intro u hu
    rcases List.mem_append.mp hu with hu | hu
    · refine ⟨by simp [hu], fun hin => ?_⟩
      have hb := hA.bounds hu
      have hlo := (hspan _ hin).1
      omega
    · refine ⟨by simp [hu], fun hin => ?_⟩
      have hb := hB.bounds hu
      have hhi := (hspan _ hin).2
      omega
  have hkeep : ∀ u ∈ A ++ B, Header N' S' u := by
    intro u hu
    obtain ⟨hmem, hout⟩ := hother u hu
    exact header_congr (h.headers u hmem) (hS _ hout) fun ho =>
      hN _ hout (owned_notMem_chain h hmem ho)
  refine ⟨tiled_append.mpr ⟨m', tiled_append.mpr ⟨m, hA, ht _ _ hm⟩, hB⟩, ?_, hc, ?_, ?_, ?_, ?_⟩
  · intro u hu
    rw [List.append_assoc, List.mem_append, List.mem_append] at hu
    rcases hu with hu | hu | hu
    · exact h.grain u (by simp [hu])
    · exact hg u hu
    · exact h.grain u (by simp [hu])
  · intro u hu
    rw [List.append_assoc, List.mem_append, List.mem_append] at hu
    rcases hu with hu | hu | hu
    · exact hkeep u (by simp [hu])
    · exact hh u hu
    · exact hkeep u (by simp [hu])
  · exact (hS _ (hends _ (.inl rfl))).trans h.startSize
  · exact (hS _ (hends _ (.inr rfl))).trans h.endSize
  · exact (hN _ (hends _ (.inr rfl)) (end_notMem_chain h)).trans h.endNext

theorem freeAddrs_owned (h : t.free = false) :
    freeAddrs (A ++ t :: B) = freeAddrs A ++ freeAddrs B := by
  rw [freeAddrs_append, freeAddrs_cons_owned h]

theorem freeAddrs_free (h : t.free = true) :
    freeAddrs (A ++ t :: B) = freeAddrs A ++ t.addr :: freeAddrs B := by
  rw [freeAddrs_append, freeAddrs_cons_free h]

theorem lastFrom_mem_chain : lastFrom L.xStart (freeAddrs A) ∈ L.xStart :: freeAddrs (A ++ B) := by
  rw [freeAddrs_append]
  have hlast : lastFrom L.xStart (freeAddrs A) ∈ L.xStart :: freeAddrs A := lastFrom_mem
  rcases List.mem_cons.mp hlast with he | hm
  · rw [he]
    exact List.mem_cons_self
  · exact List.mem_cons_of_mem _ (List.mem_append_left _ hm)

theorem mid_cons : A ++ t :: B = A ++ [t] ++ B := by simp

/-- An address of the free list, changed or not, is not in an owned block. -/
theorem update_other {f : Nat → Nat} (hb : ¬ Inside mid z) (ha : Inside mid a) :
    Function.update f a v z = f z := by
  refine Function.update_of_ne ?_ ..
  rintro rfl
  exact hb ha

/-! ## The steps of pvPortMalloc -/

/-- A free block is taken out of the list. -/
theorem linked_unlink (h : Linked L N S (A ++ t :: B)) (hf : t.free = true) :
    Linked L (Function.update N (lastFrom L.xStart (freeAddrs A)) (N t.addr)) S
      (A ++ ⟨t.addr, t.size, some .leaving⟩ :: B) := by
  have hg := h.grain t (by simp)
  have hsize := size_of_free h (by simp) hf
  have hd := nodup_chain h
  have hc := h.chain
  rw [freeAddrs_free hf] at hd hc
  rw [mid_cons] at h ⊢
  refine linked_replace h (fun a e ht => ht) ?_ ?_ ?_ (fun _ _ => rfl) ?_
  · exact fun u hu => List.mem_singleton.mp hu ▸ hg
  · rw [← mid_cons, freeAddrs_owned rfl]
    exact chain_unlink hd hc
  · exact fun u hu => List.mem_singleton.mp hu ▸ hsize
  · intro b _ hb
    rw [← mid_cons] at hb
    refine Function.update_of_ne ?_ ..
    rintro rfl
    exact hb lastFrom_mem_chain

/-- A block outside the list is cut in two. -/
theorem linked_cut (h : Linked L N S (A ++ ⟨a, z, some .leaving⟩ :: B)) (h8 : 8 ∣ want)
    (h16 : 16 ≤ want) (hz : want + 16 ≤ z) :
    Linked L N (Function.update (Function.update S (a + want) (z - want)) a want)
      (A ++ ⟨a, want, some .leaving⟩ :: ⟨a + want, z - want, some .leaving⟩ :: B) := by
  have hg := h.grain ⟨a, z, some .leaving⟩ (by simp)
  have hin := inside_self h
  have hin' : Inside [⟨a, z, some .leaving⟩] (a + want) :=
    ⟨_, List.mem_singleton_self _, Nat.le_add_right _ _, by show a + want < a + z; omega⟩
  have hc := h.chain
  rw [freeAddrs_owned rfl] at hc
  rw [mid_cons] at h
  rw [show A ++ ⟨a, want, some .leaving⟩ :: ⟨a + want, z - want, some .leaving⟩ :: B =
    A ++ [⟨a, want, some .leaving⟩, ⟨a + want, z - want, some .leaving⟩] ++ B by simp]
  refine linked_replace h ?_ ?_ ?_ ?_ ?_ (fun _ _ _ => rfl)
  · rintro b e ⟨rfl, hp, he⟩
    refine ⟨rfl, by show 0 < want; omega, rfl, by show 0 < z - want; omega, ?_⟩
    have he' : a + z = e := he
    show a + want + (z - want) = e
    omega
  · intro u hu
    rcases List.mem_cons.mp hu with rfl | hu
    · exact ⟨h8, h16⟩
    · obtain rfl := List.mem_singleton.mp hu
      exact ⟨Nat.dvd_sub hg.1 h8, by show 16 ≤ z - want; omega⟩
  · rw [List.append_assoc, freeAddrs_append]
    exact hc
  · intro u hu
    rcases List.mem_cons.mp hu with rfl | hu
    · exact Function.update_self ..
    · obtain rfl := List.mem_singleton.mp hu
      have hne : a + want ≠ a := by omega
      exact (Function.update_of_ne hne ..).trans (Function.update_self ..)
  · intro b hb
    rw [update_other hb hin, update_other hb hin']

/-- A block outside the list is linked in at its place. -/
theorem linked_linkIn (h : Linked L N S (A ++ ⟨a, z, some .leaving⟩ :: B)) :
    Linked L (Function.update (Function.update N a (N (lastFrom L.xStart (freeAddrs A))))
      (lastFrom L.xStart (freeAddrs A)) a) S (A ++ ⟨a, z, none⟩ :: B) := by
  have hg := h.grain ⟨a, z, some .leaving⟩ (by simp)
  have hh := h.headers ⟨a, z, some .leaving⟩ (by simp)
  have hin := inside_self h
  have hd := nodup_chain h
  have hc := h.chain
  have hn := owned_notMem_chain h (t := ⟨a, z, some .leaving⟩) (by simp) rfl
  rw [freeAddrs_owned rfl] at hd hc hn
  rw [mid_cons] at h ⊢
  refine linked_replace h (fun a e ht => ht) ?_ ?_ ?_ (fun _ _ => rfl) ?_
  · exact fun u hu => List.mem_singleton.mp hu ▸ hg
  · rw [← mid_cons, freeAddrs_free rfl]
    exact chain_insert hd hn hc
  · exact fun u hu => List.mem_singleton.mp hu ▸ hh
  · intro b hb hbc
    rw [Function.update_of_ne, update_other hb hin]
    rintro rfl
    rw [← mid_cons] at hbc
    exact hbc lastFrom_mem_chain

/-- A block outside the list becomes the application's. -/
theorem linked_mark (h : Linked L N S (A ++ ⟨a, z, some .leaving⟩ :: B)) :
    Linked L (Function.update N a 0) (Function.update S a (z + 2 ^ 31))
      (A ++ ⟨a, z, some (.app w)⟩ :: B) := by
  have hg := h.grain ⟨a, z, some .leaving⟩ (by simp)
  have hin := inside_self h
  have hn := owned_notMem_chain h (t := ⟨a, z, some .leaving⟩) (by simp) rfl
  have hc := chain_update_of_notMem (y := 0) hn h.chain
  rw [freeAddrs_owned rfl] at hc
  rw [mid_cons] at h ⊢
  refine linked_replace h (fun a e ht => ht) ?_ ?_ ?_ (fun b hb => update_other hb hin)
    (fun b hb _ => update_other hb hin)
  · exact fun u hu => List.mem_singleton.mp hu ▸ hg
  · rw [← mid_cons, freeAddrs_owned rfl]
    exact hc
  · intro u hu
    obtain rfl := List.mem_singleton.mp hu
    exact ⟨Function.update_self .., Function.update_self ..⟩

/-! ## The steps of vPortFree -/

/-- The application's block is no longer its own. -/
theorem linked_unmark (h : Linked L N S (A ++ ⟨a, z, some (.app w)⟩ :: B)) :
    Linked L N (Function.update S a z) (A ++ ⟨a, z, some .leaving⟩ :: B) := by
  have hg := h.grain ⟨a, z, some (.app w)⟩ (by simp)
  have hin := inside_self h
  have hc := h.chain
  rw [freeAddrs_owned rfl] at hc
  rw [mid_cons] at h ⊢
  refine linked_replace h (fun a e ht => ht) ?_ ?_ ?_ (fun b hb => update_other hb hin)
    (fun _ _ _ => rfl)
  · exact fun u hu => List.mem_singleton.mp hu ▸ hg
  · rw [← mid_cons, freeAddrs_owned rfl]
    exact hc
  · exact fun u hu => List.mem_singleton.mp hu ▸ Function.update_self ..

theorem tiled_two {b e : Nat} {t' : Tile Owner} (h : Tiled b [l, r] e) (ha : t'.addr = l.addr)
    (hs : t'.size = l.size + r.size) : Tiled b [t'] e := by
  obtain ⟨hl, hp, hr, _, he⟩ := h
  have he' : r.addr + r.size = e := he
  refine ⟨ha.trans hl, by omega, ?_⟩
  show t'.addr + t'.size = e
  omega

/-- A block outside the list is joined with the free block before it. -/
theorem linked_absorb (h : Linked L N S (A ++ l :: ⟨a, z, some .leaving⟩ :: B))
    (hf : l.free = true) :
    Linked L N (Function.update S l.addr (l.size + z)) (A ++ ⟨l.addr, l.size + z, none⟩ :: B) := by
  have hgl := h.grain l (by simp)
  have hgt := h.grain ⟨a, z, some .leaving⟩ (by simp)
  have hin : Inside [l, ⟨a, z, some .leaving⟩] l.addr :=
    ⟨l, List.mem_cons_self, Nat.le_refl _, by omega⟩
  have hc := h.chain
  rw [freeAddrs_free hf, freeAddrs_cons_owned rfl] at hc
  rw [show A ++ l :: ⟨a, z, some .leaving⟩ :: B = A ++ [l, ⟨a, z, some .leaving⟩] ++ B by simp] at h
  rw [mid_cons]
  refine linked_replace h (fun b e ht => tiled_two ht rfl rfl) ?_ ?_ ?_
    (fun b hb => update_other hb hin) (fun _ _ _ => rfl)
  · intro u hu
    obtain rfl := List.mem_singleton.mp hu
    exact ⟨Nat.dvd_add hgl.1 hgt.1, Nat.le_add_right_of_le hgl.2⟩
  · rw [← mid_cons, freeAddrs_free rfl]
    exact hc
  · exact fun u hu => List.mem_singleton.mp hu ▸ Function.update_self ..

/-- A free block is joined with the free block after it, which leaves the list. -/
theorem linked_joinNext (h : Linked L N S (A ++ ⟨a, z, none⟩ :: r :: B)) (hr : r.free = true) :
    Linked L (Function.update N a (N r.addr)) (Function.update S a (z + r.size))
      (A ++ ⟨a, z + r.size, none⟩ :: B) := by
  have hgt := h.grain ⟨a, z, none⟩ (by simp)
  have hgr := h.grain r (by simp)
  have hin : Inside [⟨a, z, none⟩, r] a :=
    ⟨_, List.mem_cons_self, Nat.le_refl _, Nat.lt_add_of_pos_right (Nat.lt_of_lt_of_le
      (by decide) hgt.2)⟩
  have hd := nodup_chain h
  have hc := h.chain
  have hshape : freeAddrs (A ++ ⟨a, z, none⟩ :: r :: B) =
      (freeAddrs A ++ [a]) ++ r.addr :: freeAddrs B := by
    rw [freeAddrs_free rfl, freeAddrs_cons_free hr]
    simp
  rw [hshape] at hd hc
  rw [show A ++ ⟨a, z, none⟩ :: r :: B = A ++ [⟨a, z, none⟩, r] ++ B by simp] at h
  rw [mid_cons]
  have hlast : lastFrom L.xStart (freeAddrs A ++ [a]) = a := lastFrom_concat
  refine linked_replace h (fun b e ht => tiled_two ht rfl rfl) ?_ ?_ ?_
    (fun b hb => update_other hb hin) (fun b hb _ => update_other hb hin)
  · intro u hu
    obtain rfl := List.mem_singleton.mp hu
    exact ⟨Nat.dvd_add hgt.1 hgr.1, Nat.le_add_right_of_le hgt.2⟩
  · have hcu := chain_unlink hd hc
    rw [hlast] at hcu
    rw [← mid_cons, freeAddrs_free rfl]
    simpa using hcu
  · exact fun u hu => List.mem_singleton.mp hu ▸ Function.update_self ..

end Heap4BlocksLemmas

end BlackPill.Heap4
