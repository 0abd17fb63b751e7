import BlackPill.Runs
import Mathlib.Data.List.Basic
import Mathlib.Data.List.Nodup
import Mathlib.Data.List.Chain

/-!
# Turns

A ring of waiting members with a mark on the one that has been served last. Members
come in at any place and leave from any place, and each turn goes to the member behind
the mark.

Results:
1. `items_put`, `items_erase`, `upcoming_next`: what the operations do to the ring.
2. `Turns.alternate`: two members that stay are served alternately, whatever the others do.
-/

/-- The members of a ring in order: those up to the last served, and those behind it. -/
structure Turns (α : Type) where
  done : List α
  ahead : List α

namespace Turns

variable {α : Type}

/-! ## Definitions -/

/-- Nobody has been served. -/
def line (xs : List α) : Turns α := ⟨[], xs⟩

/-- The members from the beginning of the ring. -/
def items (t : Turns α) : List α := t.done ++ t.ahead

/-- The members in the order of their next turns. -/
def upcoming (t : Turns α) : List α := t.ahead ++ t.done

/-- A new member with `k` members before it. Between the last served and the rest it is
the next in turn. -/
def put (k : Nat) (z : α) (t : Turns α) : Turns α :=
  if k < t.done.length then ⟨t.done.take k ++ z :: t.done.drop k, t.ahead⟩
  else ⟨t.done, t.ahead.take (k - t.done.length) ++ z :: t.ahead.drop (k - t.done.length)⟩

def erase [DecidableEq α] (y : α) (t : Turns α) : Turns α := ⟨t.done.erase y, t.ahead.erase y⟩

/-- A turn: the member served, and the ring after it. -/
def next (t : Turns α) : Option (α × Turns α) :=
  match t.ahead with
  | x :: rest => some (x, ⟨t.done ++ [x], rest⟩)
  | [] => match t.done with
    | x :: rest => some (x, ⟨[x], rest⟩)
    | [] => none

/-! ## The ring after an operation -/

section Operations

variable {t t' : Turns α} {k : Nat} {x y z : α}

theorem upcoming_perm : t.upcoming.Perm t.items := List.perm_append_comm

theorem mem_upcoming : x ∈ t.upcoming ↔ x ∈ t.items := upcoming_perm.mem_iff

theorem items_put (hk : k ≤ t.items.length) :
    (t.put k z).items = t.items.take k ++ z :: t.items.drop k := by
  obtain ⟨d, a⟩ := t
  unfold put items at *
  by_cases h : k < d.length
  · rw [if_pos h, List.take_append_of_le_length (Nat.le_of_lt h),
      List.drop_append_of_le_length (Nat.le_of_lt h), List.append_assoc, List.cons_append]
  · have hle : d.length ≤ k := Nat.not_lt.mp h
    rw [if_neg h, List.take_append, List.drop_append, List.take_of_length_le hle,
      List.drop_of_length_le hle, List.append_assoc, List.nil_append]

theorem put_perm : (t.put k z).items.Perm (z :: t.items) := by
  obtain ⟨d, a⟩ := t
  unfold put items
  split
  · rw [List.append_assoc, List.cons_append]
    refine List.perm_middle.trans (List.Perm.cons z ?_)
    rw [← List.append_assoc, List.take_append_drop]
  · rw [← List.append_assoc]
    refine List.perm_middle.trans (List.Perm.cons z ?_)
    rw [List.append_assoc, List.take_append_drop]

/-- The others keep their order when a member comes in. -/
theorem upcoming_put_sublist : t.upcoming.Sublist (t.put k z).upcoming := by
  obtain ⟨d, a⟩ := t
  have hins : ∀ (l : List α) (j : Nat), l.Sublist (l.take j ++ z :: l.drop j) := by
    intro l j
    conv_lhs => rw [← List.take_append_drop j l]
    exact (List.sublist_cons_self z _).append_left _
  unfold put upcoming
  split
  · exact (hins d k).append_left a
  · exact (hins a _).append_right d

section Erase

variable [DecidableEq α]

theorem items_erase (hd : t.items.Nodup) : (t.erase y).items = t.items.erase y := by
  obtain ⟨d, a⟩ := t
  obtain ⟨_, _, hdis⟩ := List.nodup_append.mp hd
  show d.erase y ++ a.erase y = (d ++ a).erase y
  by_cases hy : y ∈ d
  · rw [List.erase_append_left _ hy, List.erase_of_not_mem fun ha => hdis _ hy _ ha rfl]
  · rw [List.erase_append_right _ hy, List.erase_of_not_mem hy]

theorem upcoming_erase (hd : t.items.Nodup) : (t.erase y).upcoming = t.upcoming.erase y :=
  items_erase (t := ⟨t.ahead, t.done⟩) (upcoming_perm.nodup_iff.mpr hd)

theorem erase_of_notMem (hy : y ∉ t.items) : t.erase y = t := by
  obtain ⟨hd, ha⟩ := not_or.mp (mt List.mem_append.mpr hy)
  exact congrArg₂ Turns.mk (List.erase_of_not_mem hd) (List.erase_of_not_mem ha)

end Erase

/-- The member served goes to the end of the order. -/
theorem upcoming_next (h : t.next = some (x, t')) :
    ∃ rest, t.upcoming = x :: rest ∧ t'.upcoming = rest ++ [x] := by
  obtain ⟨d, a⟩ := t
  unfold next at h
  cases a with
  | cons y rest =>
    obtain ⟨rfl, rfl⟩ := Prod.mk.inj (Option.some.inj h)
    exact ⟨rest ++ d, rfl, (List.append_assoc rest d [y]).symm⟩
  | nil =>
    cases d with
    | cons y rest =>
      obtain ⟨rfl, rfl⟩ := Prod.mk.inj (Option.some.inj h)
      exact ⟨rest, rfl, rfl⟩
    | nil => cases h

theorem items_next (h : t.next = some (x, t')) : t'.items = t.items := by
  obtain ⟨d, a⟩ := t
  unfold next at h
  cases a with
  | cons y rest =>
    obtain ⟨rfl, rfl⟩ := Prod.mk.inj (Option.some.inj h)
    exact List.append_assoc d [y] rest
  | nil =>
    cases d with
    | cons y rest =>
      obtain ⟨rfl, rfl⟩ := Prod.mk.inj (Option.some.inj h)
      exact (List.append_nil _).symm
    | nil => cases h

theorem next_eq_none_iff : t.next = none ↔ t.items = [] := by
  obtain ⟨d, a⟩ := t
  cases a with
  | cons y rest => simp [next, items]
  | nil =>
    cases d with
    | cons y rest => simp [next, items]
    | nil => simp [next, items]

end Operations

/-! ## Alternation -/

variable {t t' : Turns α} {x y : α}

/-- `y` is served before `x`. -/
def Before (t : Turns α) (y x : α) : Prop := [y, x].Sublist t.upcoming

theorem ne_of_before (hb : Before t y x) (hd : t.items.Nodup) : y ≠ x := by
  have h2 := hb.nodup (upcoming_perm.nodup_iff.mpr hd)
  exact fun he => (List.nodup_cons.mp h2).1 (List.mem_singleton.mpr he)

theorem before_or (hxm : x ∈ t.items) (hym : y ∈ t.items) (hne : x ≠ y) :
    Before t y x ∨ Before t x y := by
  obtain ⟨as, bs, he⟩ := List.append_of_mem (mem_upcoming.mpr hxm)
  have hy : y ∈ as ++ x :: bs := he ▸ mem_upcoming.mpr hym
  unfold Before
  rw [he]
  rcases List.mem_append.mp hy with hy | hy
  · exact .inl (List.Sublist.append (List.singleton_sublist.mpr hy)
      (List.singleton_sublist.mpr List.mem_cons_self))
  · have hy' : y ∈ bs := (List.mem_cons.mp hy).resolve_left hne.symm
    exact .inr (((List.singleton_sublist.mpr hy').cons_cons x).trans
      (List.sublist_append_right as _))

/-- Before two members comes a turn that is neither's, or that of the first. -/
theorem before_turn {w : α} (hb : Before t y x) (hd : t.items.Nodup)
    (hn : t.next = some (w, t')) :
    (w ≠ x ∧ w ≠ y ∧ Before t' y x) ∨ (w = y ∧ Before t' x y) := by
  obtain ⟨rest, hu, hu'⟩ := upcoming_next hn
  have hdu : (w :: rest).Nodup := hu ▸ upcoming_perm.nodup_iff.mpr hd
  obtain ⟨hw, _⟩ := List.nodup_cons.mp hdu
  unfold Before at *
  rw [hu] at hb
  rw [hu']
  cases hb with
  | cons _ hb =>
    refine .inl ⟨fun he => hw ?_, fun he => hw ?_, hb.trans (List.sublist_append_left _ _)⟩
    · exact hb.subset (he ▸ List.mem_cons_of_mem _ List.mem_cons_self)
    · exact hb.subset (he ▸ List.mem_cons_self)
  | cons_cons _ hb =>
    exact .inr ⟨rfl, List.Sublist.append hb (List.Sublist.refl _)⟩

section Alternation

variable [DecidableEq α]

/-- What happens to a ring. `turn` tells who has been served. -/
inductive Event (α : Type)
  | put (k : Nat) (z : α)
  | erase (y : α)
  | turn (x : α)

/-- The events that a ring allows, with the ring after them. -/
inductive Step : Turns α → Event α → Turns α → Prop
  | put {t : Turns α} {k : Nat} {z : α} : z ∉ t.items → Step t (.put k z) (t.put k z)
  | erase {t : Turns α} {y : α} : Step t (.erase y) (t.erase y)
  | turn {t t' : Turns α} {x : α} : t.next = some (x, t') → Step t (.turn x) t'

/-- The turns of the two members, in order. -/
def served (x y : α) : List (Event α) → List α
  | [] => []
  | .turn w :: es => if w = x ∨ w = y then w :: served x y es else served x y es
  | _ :: es => served x y es

/-- Whose turns there were, in order. -/
def turned : List (Event α) → List α
  | [] => []
  | .turn w :: es => w :: turned es
  | _ :: es => turned es

variable {e : Event α} {es : List (Event α)}

theorem nodup_step (h : Step t e t') (hd : t.items.Nodup) : t'.items.Nodup := by
  cases h with
  | put hz => exact put_perm.nodup_iff.mpr (List.nodup_cons.mpr ⟨hz, hd⟩)
  | erase =>
    rw [items_erase hd]
    exact hd.erase _
  | turn hn =>
    rw [items_next hn]
    exact hd

/-- Coming and going of others does not change who of two is first. -/
theorem before_step (h : Step t e t') (hd : t.items.Nodup) (hb : Before t y x)
    (hx : e ≠ .erase x) (hy : e ≠ .erase y) (hturn : ∀ w, e ≠ .turn w) : Before t' y x := by
  cases h with
  | put => exact hb.trans upcoming_put_sublist
  | @erase w =>
    have hxw : x ≠ w := fun he => hx (he ▸ rfl)
    have hyw : y ≠ w := fun he => hy (he ▸ rfl)
    have he := List.Sublist.erase w hb
    rw [List.erase_of_not_mem (by simp [hxw.symm, hyw.symm])] at he
    show [y, x].Sublist (t.erase w).upcoming
    rw [upcoming_erase hd]
    exact he
  | @turn _ w hn => exact absurd rfl (hturn w)

omit [DecidableEq α] in
theorem turned_append {fs : List (Event α)} : turned (es ++ fs) = turned es ++ turned fs := by
  induction es with
  | nil => rfl
  | cons e es ih =>
    cases e with
    | turn w => exact congrArg (w :: ·) ih
    | put k z => exact ih
    | erase w => exact ih

theorem served_eq_filter : served x y es = (turned es).filter fun w => w = x ∨ w = y := by
  induction es with
  | nil => rfl
  | cons e es ih =>
    cases e with
    | turn w =>
      rw [served, turned, List.filter_cons, ih]
      simp only [decide_eq_true_eq]
    | put k z => exact ih
    | erase w => exact ih

/-- A member stays until it leaves. -/
theorem mem_step (h : Step t e t') (hx : e ≠ .erase x) (hm : x ∈ t.items) : x ∈ t'.items := by
  cases h with
  | put => exact put_perm.mem_iff.mpr (List.mem_cons_of_mem _ hm)
  | @erase w =>
    have hne : x ≠ w := fun he => hx (he ▸ rfl)
    have hmem : ∀ {xs : List α}, x ∈ xs → x ∈ xs.erase w := (List.mem_erase_of_ne hne).mpr
    exact List.mem_append.mpr ((List.mem_append.mp hm).imp hmem hmem)
  | turn hn =>
    rw [items_next hn]
    exact hm

theorem mem_run (h : Runs.Run Step t es t') (hx : .erase x ∉ es) (hm : x ∈ t.items) :
    x ∈ t'.items := by
  induction h with
  | nil => exact hm
  | cons hs _ ih =>
    obtain ⟨he, hes⟩ := not_or.mp (mt List.mem_cons.mpr hx)
    exact ih hes (mem_step hs (Ne.symm he) hm)

/-- A member was there before, or has come in. -/
theorem mem_before (h : Step t e t') (hm : x ∈ t'.items) : x ∈ t.items ∨ ∃ k, e = .put k x := by
  cases h with
  | @put k z =>
    rcases List.mem_cons.mp (put_perm.mem_iff.mp hm) with rfl | hm
    · exact .inr ⟨k, rfl⟩
    · exact .inl hm
  | erase =>
    have hmem : ∀ {xs : List α} {w : α}, x ∈ xs.erase w → x ∈ xs := List.mem_of_mem_erase
    exact .inl (List.mem_append.mpr ((List.mem_append.mp hm).imp hmem hmem))
  | turn hn =>
    rw [items_next hn] at hm
    exact .inl hm

/-- Turns go to members: to those of the beginning or to those that have come in since. -/
theorem mem_of_turned {w : α} (h : Runs.Run Step t es t') (hw : w ∈ turned es) :
    w ∈ t.items ∨ ∃ k, .put k w ∈ es := by
  induction h with
  | nil => exact absurd hw List.not_mem_nil
  | @cons t _ _ e es hs _ ih =>
    have hlater : w ∈ turned es → w ∈ t.items ∨ ∃ k, .put k w ∈ e :: es := by
      intro hw
      rcases ih hw with hm | ⟨k, hk⟩
      · rcases mem_before hs hm with hm | ⟨k, rfl⟩
        · exact .inl hm
        · exact .inr ⟨k, List.mem_cons_self⟩
      · exact .inr ⟨k, List.mem_cons_of_mem _ hk⟩
    cases hs with
    | put => exact hlater hw
    | erase => exact hlater hw
    | turn hn =>
      rcases List.mem_cons.mp hw with rfl | hw
      · obtain ⟨rest, hu, _⟩ := upcoming_next hn
        exact .inl (mem_upcoming.mp (hu ▸ List.mem_cons_self))
      · exact hlater hw

theorem served_comm : served x y es = served y x es := by
  induction es with
  | nil => rfl
  | cons e es ih =>
    cases e with
    | turn w => simp only [served, ih, or_comm]
    | put k z => exact ih
    | erase w => exact ih

/-- While neither leaves, two members are served alternately, the first in turn first. -/
theorem alternate_of_before (h : Runs.Run Step t es t') (hd : t.items.Nodup) (hb : Before t y x)
    (hx : .erase x ∉ es) (hy : .erase y ∉ es) :
    List.IsChain (· ≠ ·) (x :: served x y es) := by
  induction h generalizing x y with
  | nil => exact List.isChain_singleton x
  | cons hs _ ih =>
    obtain ⟨hex, hx'⟩ := not_or.mp (mt List.mem_cons.mpr hx)
    obtain ⟨hey, hy'⟩ := not_or.mp (mt List.mem_cons.mpr hy)
    have hd' := nodup_step hs hd
    cases hs with
    | put hz =>
      have hb' := before_step (.put hz) hd hb (Ne.symm hex) (Ne.symm hey) (by simp)
      exact ih hd' hb' hx' hy'
    | erase =>
      have hb' := before_step .erase hd hb (Ne.symm hex) (Ne.symm hey) (by simp)
      exact ih hd' hb' hx' hy'
    | turn hn =>
      rcases before_turn hb hd hn with ⟨hwx, hwy, hb'⟩ | ⟨rfl, hb'⟩
      · rw [served, if_neg (by simp [hwx, hwy])]
        exact ih hd' hb' hx' hy'
      · rw [served, if_pos (.inr rfl), served_comm]
        exact List.isChain_cons_cons.mpr ⟨(ne_of_before hb hd).symm, ih hd' hb' hy' hx'⟩

/-- Two members of a ring are served alternately for as long as neither leaves, whatever the
other members do. -/
theorem alternate (h : Runs.Run Step t es t') (hd : t.items.Nodup) (hxm : x ∈ t.items)
    (hym : y ∈ t.items) (hx : .erase x ∉ es) (hy : .erase y ∉ es) (hne : x ≠ y) :
    List.IsChain (· ≠ ·) (served x y es) := by
  rcases before_or hxm hym hne with hb | hb
  · exact (alternate_of_before h hd hb hx hy).tail
  · rw [served_comm]
    exact (alternate_of_before h hd hb hy hx).tail

end Alternation

end Turns
