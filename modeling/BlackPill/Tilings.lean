import Mathlib.Data.List.Chain
import Mathlib.Data.List.Nodup
import Mathlib.Algebra.BigOperators.Group.List.Basic
import Mathlib.Algebra.Ring.Nat

/-!
# Tilings of an arena

A tiling cuts the addresses from `a` up to `e` into tiles. A tile is free or has an
owner. An allocation takes the first free tile that is large enough and cuts off what
is left of it, unless that is too little; a release gives a tile back and joins it
with the free tiles on both sides.

Results:
1. `Tiled.bounds`, `Tiled.pairwise`, `Tiled.freeBytes_add`: the tiles are apart from each other,
   and none of the arena is lost.
2. `takeFirst_of_first`, `takeFirst_of_none`: which tile is taken, and when there is none;
   `coalesced_carve`: no two free tiles become neighbours.
3. `coalesce_insert`: in a coalesced tiling, a release changes at most the tiles on both sides.
4. `eq_single_of_all_free`: a coalesced tiling without owners is one free tile.
-/

namespace Tilings

variable {α : Type}

/-! ## Definitions -/

/-- The cells from `addr` on, and who owns them. -/
structure Tile (α : Type) where
  addr : Nat
  size : Nat
  owner : Option α
deriving DecidableEq, Repr

def Tile.free (t : Tile α) : Bool := t.owner.isNone

/-- The tiles follow each other from `a` up to `e`, none of them empty. -/
def Tiled : Nat → List (Tile α) → Nat → Prop
  | a, [], e => a = e
  | a, t :: ts, e => t.addr = a ∧ 0 < t.size ∧ Tiled (t.addr + t.size) ts e

/-- The free tiles. -/
def freeTiles (ts : List (Tile α)) : List (Tile α) := ts.filter Tile.free

/-- The tiles with an owner. -/
def owned (ts : List (Tile α)) : List (Tile α) := ts.filter fun t => !t.free

def freeBytes (ts : List (Tile α)) : Nat := ((freeTiles ts).map Tile.size).sum

/-- No two free tiles are neighbours. -/
def Coalesced (ts : List (Tile α)) : Prop :=
  ts.IsChain fun t u => ¬ (t.free = true ∧ u.free = true)

/-- How much of a tile is taken: all of it if no more than `least` would be left. -/
def takenSize (least want size : Nat) : Nat := if least < size - want then want else size

/-- What is left of the tile. -/
def remainder (least want : Nat) (t : Tile α) : List (Tile α) :=
  if least < t.size - want then [⟨t.addr + want, t.size - want, none⟩] else []

/-- A tile for an owner, and the rest. -/
def carve (least want : Nat) (o : α) (t : Tile α) : List (Tile α) :=
  ⟨t.addr, takenSize least want t.size, some o⟩ :: remainder least want t

/-- The address and the tiling when the first free tile of at least `want` is taken. -/
def takeFirst (least want : Nat) (o : α) : List (Tile α) → Option (Nat × List (Tile α))
  | [] => none
  | t :: ts =>
    if t.free = true ∧ want ≤ t.size then some (t.addr, carve least want o t ++ ts)
    else (takeFirst least want o ts).map fun r => (r.1, t :: r.2)

/-- A tile before a tiling, in one with its first tile if both are free. -/
def join (t : Tile α) : List (Tile α) → List (Tile α)
  | [] => [t]
  | u :: us =>
    if t.free = true ∧ u.free = true then ⟨t.addr, t.size + u.size, none⟩ :: us else t :: u :: us

def coalesce : List (Tile α) → List (Tile α)
  | [] => []
  | t :: ts => join t (coalesce ts)

/-- The tile at `a` for another owner, or none. -/
def reassign (a : Nat) (o : Option α) (ts : List (Tile α)) : List (Tile α) :=
  ts.map fun t => if t.addr = a then { t with owner := o } else t

/-- The tile at `a` is given back. -/
def release (a : Nat) (ts : List (Tile α)) : List (Tile α) := coalesce (reassign a none ts)

variable {a e m least want : Nat} {o : α} {t u : Tile α} {ts us L R : List (Tile α)}

/-! ## Free tiles and owned tiles -/

@[simp] theorem freeTiles_nil : freeTiles ([] : List (Tile α)) = [] := rfl

theorem freeTiles_append : freeTiles (ts ++ us) = freeTiles ts ++ freeTiles us :=
  List.filter_append ..

theorem freeTiles_cons_free (h : t.free = true) : freeTiles (t :: ts) = t :: freeTiles ts :=
  List.filter_cons_of_pos h

theorem freeTiles_cons_owned (h : t.free = false) : freeTiles (t :: ts) = freeTiles ts :=
  List.filter_cons_of_neg (by simp [h])

theorem mem_freeTiles : t ∈ freeTiles ts ↔ t ∈ ts ∧ t.free = true := List.mem_filter

theorem mem_owned : t ∈ owned ts ↔ t ∈ ts ∧ t.free = false := by simp [owned, List.mem_filter]

theorem owned_append : owned (ts ++ us) = owned ts ++ owned us := List.filter_append ..

theorem owned_cons_free (h : t.free = true) : owned (t :: ts) = owned ts :=
  List.filter_cons_of_neg (by simp [h])

theorem owned_cons_owned (h : t.free = false) : owned (t :: ts) = t :: owned ts :=
  List.filter_cons_of_pos (by simp [h])

theorem freeBytes_append : freeBytes (ts ++ us) = freeBytes ts + freeBytes us := by
  simp only [freeBytes, freeTiles_append, List.map_append, List.sum_append]

theorem freeBytes_cons_free (h : t.free = true) :
    freeBytes (t :: ts) = t.size + freeBytes ts := by
  simp only [freeBytes, freeTiles_cons_free h, List.map_cons, List.sum_cons]

theorem freeBytes_cons_owned (h : t.free = false) : freeBytes (t :: ts) = freeBytes ts := by
  simp only [freeBytes, freeTiles_cons_owned h]

theorem size_le_freeBytes (h : t ∈ ts) (hf : t.free = true) : t.size ≤ freeBytes ts := by
  obtain ⟨L, R, rfl⟩ := List.append_of_mem h
  rw [freeBytes_append, freeBytes_cons_free hf]
  omega

/-! ## Tiled arenas -/

theorem tiled_append : Tiled a (ts ++ us) e ↔ ∃ m, Tiled a ts m ∧ Tiled m us e := by
  induction ts generalizing a with
  | nil =>
    constructor
    · intro h
      exact ⟨a, rfl, h⟩
    · rintro ⟨m, rfl, h⟩
      exact h
  | cons t ts ih =>
    simp only [List.cons_append, Tiled, ih]
    constructor
    · rintro ⟨ha, hp, m, hm, hu⟩
      exact ⟨m, ⟨ha, hp, hm⟩, hu⟩
    · rintro ⟨m, ⟨ha, hp, hm⟩, hu⟩
      exact ⟨ha, hp, m, hm, hu⟩

theorem Tiled.le (h : Tiled a ts e) : a ≤ e := by
  induction ts generalizing a with
  | nil => exact Nat.le_of_eq h
  | cons t ts ih =>
    obtain ⟨rfl, _, hr⟩ := h
    exact Nat.le_trans (Nat.le_add_right _ _) (ih hr)

theorem Tiled.bounds (h : Tiled a ts e) (ht : t ∈ ts) :
    a ≤ t.addr ∧ t.addr + t.size ≤ e ∧ 0 < t.size := by
  obtain ⟨L, R, rfl⟩ := List.append_of_mem ht
  obtain ⟨m, hL, hm, hp, hR⟩ := tiled_append.mp h
  exact ⟨hm ▸ hL.le, hR.le, hp⟩

/-- Tiles of a common grain begin at multiples of it. -/
theorem Tiled.dvd_addr {g : Nat} (h : Tiled a ts e) (ha : g ∣ a) (hs : ∀ t ∈ ts, g ∣ t.size) :
    ∀ t ∈ ts, g ∣ t.addr := by
  induction ts generalizing a with
  | nil => exact fun t ht => absurd ht List.not_mem_nil
  | cons t ts ih =>
    obtain ⟨rfl, _, hr⟩ := h
    obtain ⟨ht, hts⟩ := List.forall_mem_cons.mp hs
    exact List.forall_mem_cons.mpr ⟨ha, ih hr (Nat.dvd_add ha ht) hts⟩

/-- Of two tiles at different places one ends before the other begins. -/
theorem Tiled.pairwise (h : Tiled a ts e) :
    ts.Pairwise fun t u => t.addr + t.size ≤ u.addr := by
  induction ts generalizing a with
  | nil => exact .nil
  | cons t ts ih =>
    obtain ⟨_, _, hr⟩ := h
    exact List.pairwise_cons.mpr ⟨fun u hu => (hr.bounds hu).1, ih hr⟩

theorem Tiled.pairwise_addr (h : Tiled a ts e) : (ts.map Tile.addr).Pairwise (· < ·) := by
  induction ts generalizing a with
  | nil => exact .nil
  | cons t ts ih =>
    obtain ⟨_, hp, hr⟩ := h
    refine List.pairwise_cons.mpr ⟨fun x hx => ?_, ih hr⟩
    obtain ⟨u, hu, rfl⟩ := List.mem_map.mp hx
    have hle := (hr.bounds hu).1
    omega

theorem Tiled.eq_of_addr (h : Tiled a ts e) (ht : t ∈ ts) (hu : u ∈ ts)
    (he : t.addr = u.addr) : t = u := by
  have hn : (ts.map Tile.addr).Nodup := h.pairwise_addr.imp fun hlt => Nat.ne_of_lt hlt
  exact List.inj_on_of_nodup_map hn ht hu he

theorem Tiled.apart (h : Tiled a ts e) (ht : t ∈ ts) (hu : u ∈ ts) (hne : t ≠ u) :
    t.addr + t.size ≤ u.addr ∨ u.addr + u.size ≤ t.addr := by
  obtain ⟨L, R, rfl⟩ := List.append_of_mem ht
  have hp := h.pairwise
  rw [List.pairwise_append, List.pairwise_cons] at hp
  obtain ⟨_, ⟨hR, _⟩, hL⟩ := hp
  rcases List.mem_append.mp hu with hu | hu
  · exact .inr (hL u hu t List.mem_cons_self)
  · exact .inl (hR u ((List.mem_cons.mp hu).resolve_left (Ne.symm hne)))

/-- The other tiles lie before or after the one at hand. -/
theorem Tiled.outside (h : Tiled a (L ++ t :: R) e) (hu : u ∈ L ++ R) :
    u.addr + u.size ≤ t.addr ∨ t.addr + t.size ≤ u.addr := by
  obtain ⟨m, hL, hm, _, hR⟩ := tiled_append.mp h
  rcases List.mem_append.mp hu with hu | hu
  · exact .inl (hm ▸ (hL.bounds hu).2.1)
  · exact .inr (hR.bounds hu).1

/-- Only the last tile before one ends where it begins. -/
theorem Tiled.getLast_of_adjacent (h : Tiled a (L ++ t :: R) e) (hu : u ∈ L)
    (he : u.addr + u.size = t.addr) : L.getLast? = some u := by
  obtain ⟨m, hL, hm, _, _⟩ := tiled_append.mp h
  rcases List.eq_nil_or_concat' L with rfl | ⟨L', l, rfl⟩
  · exact absurd hu List.not_mem_nil
  · obtain ⟨m', hL', hl, hp, hlm⟩ := tiled_append.mp hL
    have hend : l.addr + l.size = m := hlm
    rcases List.mem_append.mp hu with hu | hu
    · have hb := (hL'.bounds hu).2.1
      omega
    · rw [List.mem_singleton.mp hu, List.getLast?_concat]

theorem Tiled.addr_ne (h : Tiled a (L ++ t :: R) e) (hu : u ∈ L ++ R) : u.addr ≠ t.addr := by
  have hmem : u ∈ L ++ t :: R := by
    rcases List.mem_append.mp hu with hu | hu <;> simp [hu]
  have hup := (h.bounds hmem).2.2
  have htp := (h.bounds (t := t) (by simp)).2.2
  rcases h.outside hu with hlt | hlt <;> omega

theorem reassign_of_ne {o : Option α} (h : ∀ u ∈ ts, u.addr ≠ a) : reassign a o ts = ts := by
  calc
    reassign a o ts = ts.map id := List.map_congr_left fun u hu => if_neg (h u hu)
    _ = ts := List.map_id ts

/-- Only the tile at the address changes its owner. -/
theorem Tiled.reassign_eq {o : Option α} (h : Tiled a (L ++ t :: R) e) :
    reassign t.addr o (L ++ t :: R) = L ++ ⟨t.addr, t.size, o⟩ :: R := by
  have hL := reassign_of_ne (o := o) fun u hu => h.addr_ne (List.mem_append_left R hu)
  have hR := reassign_of_ne (o := o) fun u hu => h.addr_ne (List.mem_append_right L hu)
  unfold reassign at hL hR ⊢
  rw [List.map_append, List.map_cons, if_pos rfl, hL, hR]

theorem Tiled.sum (h : Tiled a ts e) : a + (ts.map Tile.size).sum = e := by
  induction ts generalizing a with
  | nil => exact h
  | cons t ts ih =>
    obtain ⟨rfl, _, hr⟩ := h
    rw [List.map_cons, List.sum_cons, ← Nat.add_assoc]
    exact ih hr

/-- What is not free is owned. -/
theorem Tiled.freeBytes_add (h : Tiled a ts e) :
    a + freeBytes ts + ((owned ts).map Tile.size).sum = e := by
  induction ts generalizing a with
  | nil => exact h
  | cons t ts ih =>
    obtain ⟨rfl, _, hr⟩ := h
    have hi := ih hr
    cases hf : t.free with
    | true =>
      rw [freeBytes_cons_free hf, owned_cons_free hf]
      omega
    | false =>
      rw [freeBytes_cons_owned hf, owned_cons_owned hf, List.map_cons, List.sum_cons]
      omega

/-! ## Taking a tile -/

theorem carve_of_lt (h : least < t.size - want) :
    carve least want o t = [⟨t.addr, want, some o⟩, ⟨t.addr + want, t.size - want, none⟩] := by
  rw [carve, takenSize, remainder, if_pos h, if_pos h]

theorem carve_of_not_lt (h : ¬ least < t.size - want) :
    carve least want o t = [⟨t.addr, t.size, some o⟩] := by
  rw [carve, takenSize, remainder, if_neg h, if_neg h]

theorem takenSize_bounds (h : want ≤ t.size) :
    want ≤ takenSize least want t.size ∧ takenSize least want t.size ≤ t.size := by
  unfold takenSize
  split <;> omega

/-- The tile taken stands between the rest and the tiles before it. -/
theorem coalesced_carve (h : Coalesced (L ++ t :: R)) (hf : t.free = true) :
    Coalesced (L ++ carve least want o t ++ R) := by
  have hR := h.right_of_append
  have hrest : Coalesced (remainder least want t ++ R) := by
    unfold remainder
    split
    · cases R with
      | nil => exact List.isChain_singleton _
      | cons r R =>
        obtain ⟨hne, hr⟩ := List.isChain_cons_cons.mp hR
        exact List.isChain_cons_cons.mpr ⟨fun hb => hne ⟨hf, hb.2⟩, hr⟩
    · exact hR.tail
  refine List.append_assoc .. ▸ List.isChain_append.mpr ⟨h.left_of_append, ?_, ?_⟩
  · cases hc : remainder least want t ++ R with
    | nil =>
      rw [carve, List.cons_append, hc]
      exact List.isChain_singleton _
    | cons u us =>
      rw [hc] at hrest
      rw [carve, List.cons_append, hc]
      exact List.isChain_cons_cons.mpr ⟨fun hb => absurd hb.1 (by simp [Tile.free]), hrest⟩
  · rintro l _ u ⟨⟩ hb
    exact absurd hb.2 (by simp [Tile.free])

/-- Free and taken bytes are those there were. -/
theorem freeBytes_carve (least : Nat) (o : α) (hf : t.free = true) (hw : want ≤ t.size) :
    freeBytes (L ++ carve least want o t ++ R) + takenSize least want t.size =
      freeBytes (L ++ t :: R) := by
  rw [freeBytes_append, freeBytes_append, freeBytes_append, freeBytes_cons_free hf]
  by_cases hl : least < t.size - want
  · rw [carve_of_lt hl, freeBytes_cons_owned rfl, freeBytes_cons_free rfl, takenSize, if_pos hl]
    simp only [freeBytes, freeTiles_nil, List.map_nil, List.sum_nil]
    omega
  · rw [carve_of_not_lt hl, freeBytes_cons_owned rfl, takenSize, if_neg hl]
    simp only [freeBytes, freeTiles_nil, List.map_nil, List.sum_nil]
    omega

theorem takeFirst_of_first (hL : ∀ u ∈ L, u.free = true → u.size < want) (hf : t.free = true)
    (hw : want ≤ t.size) :
    takeFirst least want o (L ++ t :: R) = some (t.addr, L ++ carve least want o t ++ R) := by
  induction L with
  | nil =>
    show takeFirst least want o (t :: R) = some (t.addr, carve least want o t ++ R)
    rw [takeFirst, if_pos ⟨hf, hw⟩]
  | cons u L ih =>
    have hu : ¬ (u.free = true ∧ want ≤ u.size) := fun h =>
      Nat.not_le_of_lt (hL u List.mem_cons_self h.1) h.2
    rw [List.cons_append, takeFirst, if_neg hu, ih fun v hv => hL v (List.mem_cons_of_mem _ hv)]
    rfl

/-- Either all free tiles are too small, or there is a first one that is not. -/
theorem first_or_none (want : Nat) (ts : List (Tile α)) :
    (∀ u ∈ ts, u.free = true → u.size < want) ∨
    ∃ L t R, ts = L ++ t :: R ∧ (∀ u ∈ L, u.free = true → u.size < want) ∧ t.free = true ∧
      want ≤ t.size := by
  induction ts with
  | nil => exact .inl fun u hu => absurd hu List.not_mem_nil
  | cons t ts ih =>
    by_cases ht : t.free = true ∧ want ≤ t.size
    · exact .inr ⟨[], t, ts, rfl, fun u hu => absurd hu List.not_mem_nil, ht.1, ht.2⟩
    · have hsmall : t.free = true → t.size < want := fun hf =>
        Nat.lt_of_not_le fun hw => ht ⟨hf, hw⟩
      rcases ih with hall | ⟨L, v, R, rfl, hL, hv⟩
      · exact .inl (List.forall_mem_cons.mpr ⟨hsmall, hall⟩)
      · exact .inr ⟨t :: L, v, R, rfl, List.forall_mem_cons.mpr ⟨hsmall, hL⟩, hv⟩

theorem takeFirst_of_none (h : ∀ u ∈ ts, u.free = true → u.size < want) :
    takeFirst least want o ts = none := by
  induction ts with
  | nil => rfl
  | cons t ts ih =>
    have ht : ¬ (t.free = true ∧ want ≤ t.size) := fun hw =>
      Nat.not_le_of_lt (h t List.mem_cons_self hw.1) hw.2
    rw [takeFirst, if_neg ht, ih fun v hv => h v (List.mem_cons_of_mem _ hv)]
    rfl

/-! ## Giving a tile back -/

theorem join_cons : join t (u :: us) =
    if t.free = true ∧ u.free = true then ⟨t.addr, t.size + u.size, none⟩ :: us
    else t :: u :: us := rfl

theorem join_owned (h : t.free = false) : join t ts = t :: ts := by
  cases ts with
  | nil => rfl
  | cons u us => exact if_neg (by simp [h])

theorem join_cons_owned (h : u.free = false) : join t (u :: us) = t :: u :: us :=
  if_neg (by simp [h])

theorem join_free (ht : t.free = true) (hu : u.free = true) :
    join t (u :: us) = ⟨t.addr, t.size + u.size, none⟩ :: us := if_pos ⟨ht, hu⟩

theorem join_of_head (h : ∀ r ∈ ts.head?, r.free = false) : join t ts = t :: ts := by
  cases ts with
  | nil => rfl
  | cons u us => exact join_cons_owned (h u rfl)

theorem coalesce_cons : coalesce (t :: ts) = join t (coalesce ts) := rfl

theorem coalesced_cons (h : Coalesced (t :: ts)) : join t ts = t :: ts := by
  cases ts with
  | nil => rfl
  | cons u us => exact if_neg (List.isChain_cons_cons.mp h).1

theorem coalesce_of_coalesced (h : Coalesced ts) : coalesce ts = ts := by
  induction ts with
  | nil => rfl
  | cons t ts ih => rw [coalesce_cons, ih (List.IsChain.tail h), coalesced_cons h]

/-- A coalesced part that does not end in a free tile stays as it is. -/
theorem coalesce_append (h : Coalesced L) (hl : ∀ l ∈ L.getLast?, l.free = false) :
    coalesce (L ++ ts) = L ++ coalesce ts := by
  induction L with
  | nil => rfl
  | cons t L ih =>
    cases L with
    | nil => exact join_owned (hl t rfl)
    | cons u L =>
      have hne := (List.isChain_cons_cons.mp h).1
      have ih' := ih (List.IsChain.tail h) hl
      rw [List.cons_append, coalesce_cons, ih']
      exact if_neg hne

/-- Two free tiles before a tiling may be joined first. -/
theorem join_join (ht : t.free = true) (hu : u.free = true) :
    join t (join u ts) = join ⟨t.addr, t.size + u.size, none⟩ ts := by
  cases ts with
  | nil => exact join_free ht hu
  | cons v ts =>
    cases hv : v.free with
    | true =>
      rw [join_free hu hv, join_free ht rfl, join_free rfl hv, Nat.add_assoc]
    | false =>
      rw [join_cons_owned hv, join_cons_owned hv, join_free ht hu]

/-- A free tile put between two coalesced parts is joined with its neighbours only:
with the tile after it, and with the tile before it when that is free. -/
theorem coalesce_insert (hL : Coalesced L) (hR : Coalesced R) (ht : t.free = true) :
    ((∀ l ∈ L.getLast?, l.free = false) → coalesce (L ++ t :: R) = L ++ join t R) ∧
    (∀ L' l, L = L' ++ [l] → l.free = true →
      coalesce (L ++ t :: R) = L' ++ join ⟨l.addr, l.size + t.size, none⟩ R) := by
  constructor
  · intro hl
    rw [coalesce_append hL hl, coalesce_cons, coalesce_of_coalesced hR]
  · rintro L' l rfl hl
    have hL' : Coalesced L' := hL.left_of_append
    have hlast : ∀ k ∈ L'.getLast?, k.free = false := by
      intro k hk
      have hne := (List.isChain_append.mp hL).2.2 k hk l rfl
      simpa [hl] using hne
    rw [List.append_assoc, List.singleton_append, coalesce_append hL' hlast, coalesce_cons,
      coalesce_cons, coalesce_of_coalesced hR, join_join hl ht]

theorem coalesced_join (h : Coalesced ts) : Coalesced (join t ts) := by
  cases ts with
  | nil => exact List.isChain_singleton t
  | cons u us =>
    rw [join_cons]
    split
    · next hf =>
      cases us with
      | nil => exact List.isChain_singleton _
      | cons v us =>
        obtain ⟨hne, hv⟩ := List.isChain_cons_cons.mp h
        exact List.isChain_cons_cons.mpr ⟨fun hb => hne ⟨hf.2, hb.2⟩, hv⟩
    · next hf => exact List.isChain_cons_cons.mpr ⟨hf, h⟩

theorem coalesced_coalesce (ts : List (Tile α)) : Coalesced (coalesce ts) := by
  induction ts with
  | nil => exact .nil
  | cons t ts ih => exact coalesced_join ih

theorem freeBytes_join : freeBytes (join t ts) = freeBytes (t :: ts) := by
  cases ts with
  | nil => rfl
  | cons u us =>
    rw [join_cons]
    split
    · next hf =>
      rw [freeBytes_cons_free rfl, freeBytes_cons_free hf.1, freeBytes_cons_free hf.2,
        Nat.add_assoc]
    · rfl

theorem freeBytes_coalesce : freeBytes (coalesce ts) = freeBytes ts := by
  induction ts with
  | nil => rfl
  | cons t ts ih =>
    rw [coalesce_cons, freeBytes_join]
    cases hf : t.free with
    | true => rw [freeBytes_cons_free hf, freeBytes_cons_free hf, ih]
    | false => rw [freeBytes_cons_owned hf, freeBytes_cons_owned hf, ih]

theorem owned_join : owned (join t ts) = owned (t :: ts) := by
  cases ts with
  | nil => rfl
  | cons u us =>
    rw [join_cons]
    split
    · next hf => rw [owned_cons_free rfl, owned_cons_free hf.1, owned_cons_free hf.2]
    · rfl

theorem owned_coalesce : owned (coalesce ts) = owned ts := by
  induction ts with
  | nil => rfl
  | cons t ts ih =>
    rw [coalesce_cons, owned_join]
    cases hf : t.free with
    | true => rw [owned_cons_free hf, owned_cons_free hf, ih]
    | false => rw [owned_cons_owned hf, owned_cons_owned hf, ih]

/-- A coalesced tiling of which nothing is owned is one free tile. -/
theorem eq_single_of_all_free (h : Tiled a ts e) (hc : Coalesced ts) (ho : owned ts = [])
    (hae : a < e) : ts = [⟨a, e - a, none⟩] := by
  have hfree : ∀ t ∈ ts, t.free = true := fun t ht => by
    cases hf : t.free with
    | true => rfl
    | false => exact absurd (mem_owned.mpr ⟨ht, hf⟩) (by rw [ho]; exact List.not_mem_nil)
  match ts, h with
  | [], h => exact absurd h (Nat.ne_of_lt hae)
  | [t], ⟨ha, _, he⟩ =>
    obtain ⟨addr, size, owner⟩ := t
    obtain rfl : addr = a := ha
    have hnone : owner = none := by
      simpa [Tile.free] using hfree _ (List.mem_singleton_self _)
    have hsize : size = e - addr := by
      have he' : addr + size = e := he
      omega
    rw [hnone, hsize]
  | t :: u :: us, _ =>
    have hne := (List.isChain_cons_cons.mp hc).1
    exact absurd ⟨hfree t (by simp), hfree u (by simp)⟩ hne

end Tilings
