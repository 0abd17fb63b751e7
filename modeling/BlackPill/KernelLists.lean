import BlackPill.LinkedRings
import BlackPill.Turns
import Mathlib.Algebra.Ring.Nat
import Mathlib.Data.List.TakeWhile

/-!
# The kernel's lists

`list.c` keeps the tasks and the timers in doubly linked lists. Each list is closed by
an item of its own, `xListEnd`, with the highest value; `pxIndex` is where
`listGET_OWNER_OF_NEXT_ENTRY` has come to. All lists share the memory of the items.

Results:
1. `vListInsertEnd_eq`, `vListInsert_eq`, `uxListRemove_eq`, `listGetOwnerOfNextEntry_eq`: what
   each function does to the ring that the pointers hold.
2. `vListInsert_line`, `sorted_insertBy`: in a list that is in order an insertion by value
   keeps the order, behind the equals.
-/

namespace BlackPill.KernelLists

open LinkedNodes Runs

/-! ## Definitions -/

/-- `portMAX_DELAY`. -/
def portMaxDelay : Nat := 2 ^ 32 - 1

/-- A pointer to an item, or to the end marker of a list. -/
inductive Node (ι κ : Type)
  | item (i : ι)
  | listEnd (l : κ)
deriving DecidableEq, Repr

/-- The fields of the items `ι`, owned by `ω`, and of the lists `κ`. -/
structure Lists (ι κ ω : Type) where
  xItemValue : Node ι κ → Nat
  pxNext : Node ι κ → Node ι κ
  pxPrevious : Node ι κ → Node ι κ
  pvOwner : ι → ω
  pxContainer : ι → Option κ
  uxNumberOfItems : κ → Nat
  pxIndex : κ → Node ι κ

namespace Lists

variable {ι κ ω : Type} [DecidableEq ι] [DecidableEq κ]

/-- `listSET_LIST_ITEM_VALUE`. -/
def setValue (s : Lists ι κ ω) (n : Node ι κ) (v : Nat) : Lists ι κ ω :=
  { s with xItemValue := Function.update s.xItemValue n v }

def setNext (s : Lists ι κ ω) (n m : Node ι κ) : Lists ι κ ω :=
  { s with pxNext := Function.update s.pxNext n m }

def setPrevious (s : Lists ι κ ω) (n m : Node ι κ) : Lists ι κ ω :=
  { s with pxPrevious := Function.update s.pxPrevious n m }

/-- `listSET_LIST_ITEM_OWNER`. -/
def setOwner (s : Lists ι κ ω) (i : ι) (o : ω) : Lists ι κ ω :=
  { s with pvOwner := Function.update s.pvOwner i o }

def setContainer (s : Lists ι κ ω) (i : ι) (l : Option κ) : Lists ι κ ω :=
  { s with pxContainer := Function.update s.pxContainer i l }

def setCount (s : Lists ι κ ω) (l : κ) (n : Nat) : Lists ι κ ω :=
  { s with uxNumberOfItems := Function.update s.uxNumberOfItems l n }

def setIndex (s : Lists ι κ ω) (l : κ) (n : Node ι κ) : Lists ι κ ω :=
  { s with pxIndex := Function.update s.pxIndex l n }

end Lists

section Functions

variable {ι κ ω : Type} [DecidableEq ι] [DecidableEq κ]

/-- `vListInitialise`. -/
def vListInitialise (s : Lists ι κ ω) (pxList : κ) : Lists ι κ ω :=
  let s := s.setIndex pxList (.listEnd pxList)
  let s := s.setValue (.listEnd pxList) portMaxDelay
  let s := s.setNext (.listEnd pxList) (.listEnd pxList)
  let s := s.setPrevious (.listEnd pxList) (.listEnd pxList)
  s.setCount pxList 0

/-- `vListInitialiseItem`. -/
def vListInitialiseItem (s : Lists ι κ ω) (pxItem : ι) : Lists ι κ ω := s.setContainer pxItem none

/-- What initialising every list and every item leaves, for items with the given values and
owners. -/
def Lists.fresh (value : ι → Nat) (owner : ι → ω) : Lists ι κ ω where
  xItemValue
    | .item i => value i
    | .listEnd _ => portMaxDelay
  pxNext := id
  pxPrevious := id
  pvOwner := owner
  pxContainer _ := none
  uxNumberOfItems _ := 0
  pxIndex := .listEnd

/-- `vListInsertEnd`. -/
def vListInsertEnd (s : Lists ι κ ω) (pxList : κ) (pxNewListItem : ι) : Lists ι κ ω :=
  let pxIndex := s.pxIndex pxList
  let s := s.setNext (.item pxNewListItem) pxIndex
  let s := s.setPrevious (.item pxNewListItem) (s.pxPrevious pxIndex)
  let s := s.setNext (s.pxPrevious pxIndex) (.item pxNewListItem)
  let s := s.setPrevious pxIndex (.item pxNewListItem)
  let s := s.setContainer pxNewListItem (some pxList)
  s.setCount pxList (s.uxNumberOfItems pxList + 1)

/-- The loop of `vListInsert`: `none` if it runs on. -/
def insertionPoint (s : Lists ι κ ω) (xValueOfInsertion : Nat) : Nat → Node ι κ → Option (Node ι κ)
  | 0, _ => none
  | fuel + 1, pxIterator =>
    if s.xItemValue (s.pxNext pxIterator) ≤ xValueOfInsertion then
      insertionPoint s xValueOfInsertion fuel (s.pxNext pxIterator)
    else some pxIterator

/-- `vListInsert`. -/
def vListInsert (s : Lists ι κ ω) (pxList : κ) (pxNewListItem : ι) : Option (Lists ι κ ω) :=
  let xValueOfInsertion := s.xItemValue (.item pxNewListItem)
  let found := if xValueOfInsertion = portMaxDelay then some (s.pxPrevious (.listEnd pxList))
    else insertionPoint s xValueOfInsertion (s.uxNumberOfItems pxList + 1) (.listEnd pxList)
  found.map fun pxIterator =>
    let s := s.setNext (.item pxNewListItem) (s.pxNext pxIterator)
    let s := s.setPrevious (s.pxNext (.item pxNewListItem)) (.item pxNewListItem)
    let s := s.setPrevious (.item pxNewListItem) pxIterator
    let s := s.setNext pxIterator (.item pxNewListItem)
    let s := s.setContainer pxNewListItem (some pxList)
    s.setCount pxList (s.uxNumberOfItems pxList + 1)

/-- `uxListRemove`: `none` for an item that is in no list, which has no `pxContainer`. -/
def uxListRemove (s : Lists ι κ ω) (pxItemToRemove : ι) : Option (Lists ι κ ω × Nat) :=
  (s.pxContainer pxItemToRemove).map fun pxList =>
    let n := Node.item pxItemToRemove
    let s := s.setPrevious (s.pxNext n) (s.pxPrevious n)
    let s := s.setNext (s.pxPrevious n) (s.pxNext n)
    let s := if s.pxIndex pxList = n then s.setIndex pxList (s.pxPrevious n) else s
    let s := s.setContainer pxItemToRemove none
    let s := s.setCount pxList (s.uxNumberOfItems pxList - 1)
    (s, s.uxNumberOfItems pxList)

/-- `listGET_OWNER_OF_NEXT_ENTRY`. An end marker has no owner. -/
def listGetOwnerOfNextEntry (s : Lists ι κ ω) (pxList : κ) : Lists ι κ ω × Option ω :=
  let s := s.setIndex pxList (s.pxNext (s.pxIndex pxList))
  let s := if s.pxIndex pxList = .listEnd pxList then
      s.setIndex pxList (s.pxNext (.listEnd pxList))
    else s
  match s.pxIndex pxList with
  | .item i => (s, some (s.pvOwner i))
  | .listEnd _ => (s, none)

/-- `listLIST_IS_EMPTY`. -/
def listIsEmpty (s : Lists ι κ ω) (pxList : κ) : Bool := s.uxNumberOfItems pxList = 0

/-- `listGET_ITEM_VALUE_OF_HEAD_ENTRY`. -/
def listGetItemValueOfHeadEntry (s : Lists ι κ ω) (pxList : κ) : Nat :=
  s.xItemValue (s.pxNext (.listEnd pxList))

/-- `listGET_OWNER_OF_HEAD_ENTRY`. -/
def listGetOwnerOfHeadEntry (s : Lists ι κ ω) (pxList : κ) : Option ω :=
  match s.pxNext (.listEnd pxList) with
  | .item i => some (s.pvOwner i)
  | .listEnd _ => none

end Functions

/-! ## What the pointers hold -/

variable {ι κ ω : Type}

/-- The list `l` holds the ring `t`. -/
structure Holds (s : Lists ι κ ω) (l : κ) (t : Turns ι) : Prop where
  ring : Ring s.pxNext s.pxPrevious (.listEnd l) (t.items.map .item)
  index : s.pxIndex l = lastFrom (.listEnd l) (t.done.map .item)
  count : s.uxNumberOfItems l = t.items.length
  marker : s.xItemValue (.listEnd l) = portMaxDelay

/-- Every list holds its ring, and every item knows the list it is in. -/
structure Kept (s : Lists ι κ ω) (c : κ → Turns ι) : Prop where
  holds : ∀ l, Holds s l (c l)
  container : ∀ i l, s.pxContainer i = some l ↔ i ∈ (c l).items
  values : ∀ i, s.xItemValue (.item i) ≤ portMaxDelay

/-- The fields that insertions and removals leave alone. -/
structure SameFields (s s' : Lists ι κ ω) : Prop where
  value : s'.xItemValue = s.xItemValue
  owner : s'.pvOwner = s.pvOwner

/-- How many items an insertion by value goes past. -/
def place (value : ι → Nat) (v : Nat) (xs : List ι) : Nat :=
  (xs.takeWhile fun i => decide (value i ≤ v)).length

namespace KernelListsLemmas

variable {s s' : Lists ι κ ω} {c : κ → Turns ι} {l l' : κ} {t t' : Turns ι} {i j : ι} {k v : Nat}
  {n : Node ι κ}

/-! ## Nodes -/

/-- The nodes of a list. -/
def nodes (c : κ → Turns ι) (l : κ) : List (Node ι κ) := .listEnd l :: (c l).items.map .item

theorem item_mem_nodes : .item i ∈ nodes c l ↔ i ∈ (c l).items := by
  simp [nodes]

/-- No node is in two lists. -/
theorem nodes_disjoint (hk : Kept s c) (hn : n ∈ nodes c l) (hn' : n ∈ nodes c l') : l = l' := by
  cases n with
  | listEnd m =>
    have h : m = l := by simpa [nodes] using hn
    have h' : m = l' := by simpa [nodes] using hn'
    exact h.symm.trans h'
  | item i =>
    have h := (hk.container i l).mpr (item_mem_nodes.mp hn)
    have h' := (hk.container i l').mpr (item_mem_nodes.mp hn')
    exact Option.some.inj (h.symm.trans h')

theorem nodup_items (h : Holds s l t) : t.items.Nodup :=
  (List.nodup_cons.mp h.ring.nodup).2.of_map _

theorem notMem_of_free (hk : Kept s c) (hi : s.pxContainer i = none) : i ∉ (c l).items := by
  intro hm
  rw [(hk.container i l).mpr hm] at hi
  cases hi

theorem map_put (hle : k ≤ t.items.length) : ((t.put k i).items.map (Node.item (κ := κ))) =
    (t.items.take k).map .item ++ .item i :: (t.items.drop k).map .item := by
  rw [Turns.items_put hle, List.map_append, List.map_cons]

/-- A list whose nodes are not written keeps its ring. -/
theorem holds_congr (h : Holds s l t)
    (hc : ∀ a ∈ Node.listEnd l :: t.items.map .item,
      s'.pxNext a = s.pxNext a ∧ s'.pxPrevious a = s.pxPrevious a)
    (hi : s'.pxIndex l = s.pxIndex l) (hn : s'.uxNumberOfItems l = s.uxNumberOfItems l)
    (hv : s'.xItemValue (.listEnd l) = s.xItemValue (.listEnd l)) : Holds s' l t where
  ring := h.ring.congr hc
  index := hi.trans h.index
  count := hn.trans h.count
  marker := hv.trans h.marker

theorem lastFrom_map_concat {xs : List ι} {e : Node ι κ} :
    lastFrom e ((xs ++ [i]).map .item) = .item i := by
  rw [List.map_append, List.map_singleton, lastFrom_concat]

theorem lastFrom_map {xs : List ι} {e : Node ι κ} :
    lastFrom e (xs.map .item) = (xs.getLast?.map .item).getD e := by
  rcases List.eq_nil_or_concat' xs with rfl | ⟨ys, y, rfl⟩
  · rfl
  · rw [lastFrom_map_concat, List.getLast?_concat]
    rfl

/-! ## Places -/

/-- The mark stays where it is when a member comes in. -/
theorem done_put : lastFrom (Node.listEnd l) ((t.put k i).done.map .item) =
    lastFrom (.listEnd l) (t.done.map (Node.item (κ := κ))) := by
  unfold Turns.put
  split
  · next h =>
    have hne : t.done.drop k ≠ [] := fun he => Nat.not_lt.mpr (List.drop_eq_nil_iff.mp he) h
    have hlast : (t.done.take k ++ i :: t.done.drop k).getLast? = t.done.getLast? := by
      rw [List.getLast?_append_cons, List.getLast?_cons_of_ne_nil hne]
      conv_rhs => rw [← List.take_append_drop k t.done, List.getLast?_append_of_ne_nil _ hne]
    rw [lastFrom_map, lastFrom_map, hlast]
  · rfl

/-- Where `vListInsertEnd` puts an item: right before the mark. -/
def endPlace (t : Turns ι) : Nat :=
  if t.done = [] then t.items.length else t.done.length - 1

theorem endPlace_le : endPlace t ≤ t.items.length := by
  unfold endPlace
  split
  · exact Nat.le_refl _
  · rw [Turns.items, List.length_append]
    omega

theorem headD_endPlace : ((t.items.drop (endPlace t)).map .item).headD (.listEnd l) =
    lastFrom (.listEnd l) (t.done.map (Node.item (κ := κ))) := by
  obtain ⟨d, a⟩ := t
  unfold endPlace Turns.items
  rcases List.eq_nil_or_concat' d with rfl | ⟨ds, x, rfl⟩
  · rw [if_pos rfl, List.drop_length]
    rfl
  · rw [if_neg (by simp), List.length_append, List.length_singleton, Nat.add_sub_cancel,
      List.append_assoc, List.drop_left]
    exact lastFrom_map_concat.symm

/-- The loop of `vListInsert` stops at the last item that is not above the value. -/
theorem insertionPoint_eq {p : Node ι κ} {xs : List ι} (hv : v < portMaxDelay)
    (hm : s.xItemValue (.listEnd l) = portMaxDelay)
    (hc : Chain s.pxNext p (xs.map .item) (.listEnd l)) :
    insertionPoint s v (xs.length + 1) p = some (lastFrom p
      ((xs.takeWhile fun i => decide (s.xItemValue (.item i) ≤ v)).map .item)) := by
  induction xs generalizing p with
  | nil =>
    have hn : s.pxNext p = .listEnd l := hc
    rw [insertionPoint, hn, hm, if_neg (Nat.not_le.mpr hv)]
    rfl
  | cons x xs ih =>
    obtain ⟨hx, hr⟩ := hc
    rw [List.length_cons, insertionPoint, hx]
    by_cases hle : s.xItemValue (.item x) ≤ v
    · rw [if_pos hle, ih hr, List.takeWhile_cons_of_pos (by simpa using hle)]
      rfl
    · rw [if_neg hle, List.takeWhile_cons_of_neg (by simpa using hle)]
      rfl

theorem place_le {value : ι → Nat} {xs : List ι} : place value v xs ≤ xs.length :=
  (List.takeWhile_sublist _).length_le

theorem take_place {value : ι → Nat} {xs : List ι} :
    xs.take (place value v xs) = xs.takeWhile fun i => decide (value i ≤ v) :=
  List.prefix_iff_eq_take.mp (List.takeWhile_prefix _) |>.symm

theorem place_max {value : ι → Nat} {xs : List ι} (h : ∀ i ∈ xs, value i ≤ v) :
    place value v xs = xs.length := by
  rw [place, List.takeWhile_eq_self_iff.mpr fun i hi => decide_eq_true (h i hi)]

/-! ## Insertions -/

section Insertions

variable [DecidableEq ι] [DecidableEq κ]

/-- The memory after a new item has been put behind `p` and before `q`. -/
def linked (s : Lists ι κ ω) (l : κ) (i : ι) (p q : Node ι κ) : Lists ι κ ω :=
  { s with
    pxNext := Function.update (Function.update s.pxNext (.item i) q) p (.item i)
    pxPrevious := Function.update (Function.update s.pxPrevious (.item i) p) q (.item i)
    pxContainer := Function.update s.pxContainer i (some l)
    uxNumberOfItems := Function.update s.uxNumberOfItems l (s.uxNumberOfItems l + 1) }

/-- A free item put at a place of a list. -/
theorem kept_linked (hk : Kept s c) (hi : s.pxContainer i = none) (hle : k ≤ (c l).items.length) :
    Kept (linked s l i (lastFrom (.listEnd l) (((c l).items.take k).map .item))
      ((((c l).items.drop k).map .item).headD (.listEnd l)))
      (Function.update c l ((c l).put k i)) := by
  have hfree : ∀ m, Node.item i ∉ nodes c m := fun m hm =>
    notMem_of_free hk hi (item_mem_nodes.mp hm)
  have hsplit : ((c l).items.take k).map Node.item ++ ((c l).items.drop k).map Node.item =
      (c l).items.map (Node.item (κ := κ)) := by
    rw [← List.map_append, List.take_append_drop]
  have hring := (hk.holds l).ring
  rw [← hsplit] at hring
  have hz := hfree l
  rw [nodes, ← hsplit] at hz
  have hp : lastFrom (.listEnd l) (((c l).items.take k).map .item) ∈ nodes c l := by
    rw [nodes, ← hsplit]
    exact List.mem_cons.mpr ((List.mem_cons.mp lastFrom_mem).imp_right (List.mem_append_left _))
  have hq : (((c l).items.drop k).map .item).headD (.listEnd l) ∈ nodes c l := by
    rw [nodes, ← hsplit]
    exact List.mem_cons.mpr ((List.mem_cons.mp headD_mem).imp_right (List.mem_append_right _))
  refine ⟨fun m => ?_, fun j m => ?_, hk.values⟩
  · by_cases hm : m = l
    · subst hm
      rw [Function.update_self]
      refine ⟨?_, (hk.holds m).index.trans done_put.symm, ?_, (hk.holds m).marker⟩
      · rw [map_put hle]
        exact hring.insert hz
      · rw [Turns.put_perm.length_eq, List.length_cons, ← (hk.holds m).count]
        exact Function.update_self ..
    · rw [Function.update_of_ne hm]
      refine holds_congr (hk.holds m) (fun a ha => ?_) rfl (Function.update_of_ne hm ..) rfl
      have hai : a ≠ .item i := fun he => hfree m (he ▸ ha)
      have hap := fun he : a = _ => hm (nodes_disjoint hk ha (he ▸ hp))
      have haq := fun he : a = _ => hm (nodes_disjoint hk ha (he ▸ hq))
      exact ⟨(Function.update_of_ne hap ..).trans (Function.update_of_ne hai ..),
        (Function.update_of_ne haq ..).trans (Function.update_of_ne hai ..)⟩
  · show Function.update s.pxContainer i (some l) j = some m ↔ _
    by_cases hm : m = l
    · subst hm
      rw [Function.update_self, Turns.put_perm.mem_iff, List.mem_cons]
      by_cases hj : j = i
      · simp [hj]
      · rw [Function.update_of_ne hj, hk.container]
        exact (or_iff_right hj).symm
    · rw [Function.update_of_ne hm]
      by_cases hj : j = i
      · subst hj
        rw [Function.update_self]
        exact iff_of_false (fun he => hm (Option.some.inj he).symm) (notMem_of_free hk hi)
      · rw [Function.update_of_ne hj, hk.container]

end Insertions

/-! ## Removals -/

section Removals

variable [DecidableEq ι] [DecidableEq κ]

/-- The memory after an item has been taken out of its list. -/
def unlinked (s : Lists ι κ ω) (l : κ) (i : ι) : Lists ι κ ω :=
  { s with
    pxNext := Function.update s.pxNext (s.pxPrevious (.item i)) (s.pxNext (.item i))
    pxPrevious := Function.update s.pxPrevious (s.pxNext (.item i)) (s.pxPrevious (.item i))
    pxIndex := if s.pxIndex l = .item i then Function.update s.pxIndex l (s.pxPrevious (.item i))
      else s.pxIndex
    pxContainer := Function.update s.pxContainer i none
    uxNumberOfItems := Function.update s.uxNumberOfItems l (s.uxNumberOfItems l - 1) }

theorem erase_mid {as bs : List ι} (hd : (as ++ i :: bs).Nodup) :
    (as ++ i :: bs).erase i = as ++ bs := by
  have hi : i ∉ as := fun hm =>
    (List.nodup_append.mp hd).2.2 _ hm _ List.mem_cons_self rfl
  rw [List.erase_append_right _ hi, List.erase_cons_head]

/-- The mark goes back if it is on the item, and is left alone otherwise. -/
theorem index_erase (h : Holds s l t) :
    lastFrom (.listEnd l) ((t.erase i).done.map .item) =
      if s.pxIndex l = .item i then s.pxPrevious (.item i) else s.pxIndex l := by
  have hd := nodup_items h
  have hring := h.ring
  rw [h.index]
  obtain ⟨d, a⟩ := t
  show lastFrom (Node.listEnd l) ((d.erase i).map Node.item) =
    if lastFrom (Node.listEnd l) (d.map Node.item) = Node.item i then _
    else lastFrom (Node.listEnd l) (d.map Node.item)
  by_cases hi : i ∈ d
  · obtain ⟨as, bs, rfl⟩ := List.append_of_mem hi
    rw [erase_mid (List.nodup_append.mp hd).1]
    rcases List.eq_nil_or_concat' bs with rfl | ⟨bs, b, rfl⟩
    · have hprev : s.pxPrevious (.item i) = lastFrom (.listEnd l) (as.map .item) := by
        have hsplit : (as ++ [i] ++ a).map (Node.item (κ := κ)) =
            as.map .item ++ .item i :: a.map .item := by simp
        rw [show (Turns.mk (as ++ [i]) a).items = as ++ [i] ++ a from rfl, hsplit] at hring
        exact hring.prev_headD
      rw [List.append_nil, lastFrom_map_concat, if_pos rfl, hprev]
    · have hne : b ≠ i := by
        intro he
        have hd' := (List.nodup_append.mp (List.nodup_append.mp hd).1).2.1
        exact (List.nodup_cons.mp hd').1 (he ▸ by simp)
      rw [← List.append_assoc, ← List.cons_append, ← List.append_assoc]
      rw [lastFrom_map_concat, lastFrom_map_concat, if_neg fun he => hne (Node.item.inj he)]
  · have hne : lastFrom (Node.listEnd l) (d.map Node.item) ≠ .item i := by
      intro he
      have hm : lastFrom (Node.listEnd l) (d.map Node.item) ∈ Node.listEnd l :: d.map Node.item :=
        lastFrom_mem
      rw [he] at hm
      exact hi (by simpa using hm)
    rw [List.erase_of_not_mem hi, if_neg hne]

/-- An item taken out of its list. -/
theorem kept_unlinked (hk : Kept s c) (hi : s.pxContainer i = some l) :
    Kept (unlinked s l i) (Function.update c l ((c l).erase i)) := by
  have hmem := (hk.container i l).mp hi
  have hh := hk.holds l
  have hd := nodup_items hh
  obtain ⟨as, bs, he⟩ := List.append_of_mem hmem
  have herase : ((c l).erase i).items = as ++ bs := by
    rw [Turns.items_erase hd, he, erase_mid (he ▸ hd)]
  have hring := hh.ring
  have hn := hring.next_mem (List.mem_cons_of_mem _ (List.mem_map_of_mem hmem))
  have hp := hring.prev_mem (List.mem_cons_of_mem _ (List.mem_map_of_mem hmem))
  refine ⟨fun m => ?_, fun j m => ?_, hk.values⟩
  · by_cases hm : m = l
    · subst hm
      rw [Function.update_self]
      refine ⟨?_, ?_, ?_, hh.marker⟩
      · rw [he, List.map_append, List.map_cons] at hring
        rw [herase, List.map_append]
        exact hring.remove
      · rw [index_erase hh]
        show (if s.pxIndex m = .item i then _ else s.pxIndex) m = _
        split
        · exact Function.update_self ..
        · rfl
      · show Function.update s.uxNumberOfItems m (s.uxNumberOfItems m - 1) m = _
        rw [Function.update_self, hh.count, herase, he, List.length_append, List.length_append,
          List.length_cons]
        omega
    · rw [Function.update_of_ne hm]
      refine holds_congr (hk.holds m) (fun a ha => ?_) ?_ (Function.update_of_ne hm ..) rfl
      · have hap := fun he : a = _ => hm (nodes_disjoint hk ha (he ▸ hp))
        have han := fun he : a = _ => hm (nodes_disjoint hk ha (he ▸ hn))
        exact ⟨Function.update_of_ne hap .., Function.update_of_ne han ..⟩
      · show (if s.pxIndex l = .item i then _ else s.pxIndex) m = s.pxIndex m
        split
        · exact Function.update_of_ne hm ..
        · rfl
  · show Function.update s.pxContainer i none j = some m ↔ _
    have hother : j ≠ i → (j ∈ ((c l).erase i).items ↔ j ∈ (c l).items) := by
      intro hj
      rw [Turns.items_erase hd]
      exact List.mem_erase_of_ne hj
    by_cases hj : j = i
    · subst hj
      rw [Function.update_self]
      refine iff_of_false (by simp) fun hm => ?_
      by_cases hml : m = l
      · subst hml
        rw [Function.update_self, Turns.items_erase hd] at hm
        exact hd.not_mem_erase hm
      · rw [Function.update_of_ne hml] at hm
        exact hml (Option.some.inj (((hk.container j m).mpr hm).symm.trans hi))
    · rw [Function.update_of_ne hj, hk.container]
      by_cases hml : m = l
      · subst hml
        rw [Function.update_self]
        exact (hother hj).symm
      · rw [Function.update_of_ne hml]

end Removals

/-! ## Turns -/

/-- The mark is then on the member served. -/
theorem done_next {x : ι} (hn : t.next = some (x, t')) :
    lastFrom (Node.listEnd l) (t'.done.map Node.item) = .item x := by
  obtain ⟨d, a⟩ := t
  cases a with
  | cons y rest =>
    obtain ⟨rfl, rfl⟩ := Prod.mk.inj (Option.some.inj hn)
    exact lastFrom_map_concat
  | nil =>
    cases d with
    | cons y rest =>
      obtain ⟨rfl, rfl⟩ := Prod.mk.inj (Option.some.inj hn)
      rfl
    | nil => cases hn

section Marks

variable [DecidableEq κ]

/-- Moving the mark changes no list. -/
theorem kept_setIndex (hk : Kept s c) (ht : t.items = (c l).items)
    (hn : n = lastFrom (.listEnd l) (t.done.map .item)) :
    Kept (s.setIndex l n) (Function.update c l t) := by
  have hitems : ∀ m, (Function.update c l t m).items = (c m).items := by
    intro m
    by_cases hm : m = l
    · subst hm
      rw [Function.update_self, ht]
    · rw [Function.update_of_ne hm]
  refine ⟨fun m => ?_, fun j m => ?_, hk.values⟩
  · have hh := hk.holds m
    refine ⟨(hitems m).symm ▸ hh.ring, ?_, (hitems m).symm ▸ hh.count, hh.marker⟩
    by_cases hm : m = l
    · subst hm
      rw [Function.update_self, ← hn]
      exact Function.update_self ..
    · rw [Function.update_of_ne hm]
      exact (Function.update_of_ne hm ..).trans hh.index
  · rw [hitems m]
    exact hk.container j m

/-- Where the index of a list goes. -/
def nextIndex [DecidableEq ι] (s : Lists ι κ ω) (l : κ) : Node ι κ :=
  if s.pxNext (s.pxIndex l) = .listEnd l then s.pxNext (.listEnd l) else s.pxNext (s.pxIndex l)

theorem nextIndex_eq [DecidableEq ι] (h : Holds s l t) :
    nextIndex s l = (t.next.map fun r => Node.item r.1).getD (.listEnd l) := by
  have hidx : s.pxNext (s.pxIndex l) = (t.ahead.map Node.item).headD (.listEnd l) := by
    have hring := h.ring
    rw [Turns.items, List.map_append] at hring
    rw [h.index, hring.next_lastFrom]
  have hend := h.ring.next_end
  unfold nextIndex
  rw [hidx, hend]
  obtain ⟨d, a⟩ := t
  cases a with
  | cons x rest => exact if_neg (by simp)
  | nil =>
    refine (if_pos rfl).trans ?_
    cases d with
    | cons x rest => rfl
    | nil => rfl

end Marks

end KernelListsLemmas

open KernelListsLemmas

/-! ## The functions -/

section Functions

variable [DecidableEq ι] [DecidableEq κ] {s : Lists ι κ ω} {c : κ → Turns ι} {l : κ} {i : ι}

/-- `vListInsertEnd` makes the item the last in turn but for the one served last. -/
theorem vListInsertEnd_eq (hk : Kept s c) (hi : s.pxContainer i = none) :
    Kept (vListInsertEnd s l i) (Function.update c l ((c l).put (endPlace (c l)) i)) ∧
      SameFields s (vListInsertEnd s l i) := by
  have hh := hk.holds l
  have hq : ((((c l).items.drop (endPlace (c l))).map .item).headD (.listEnd l)) = s.pxIndex l :=
    headD_endPlace.trans hh.index.symm
  have hring := hh.ring
  rw [← List.take_append_drop (endPlace (c l)) (c l).items, List.map_append] at hring
  have hp := hring.prev_headD
  rw [hq] at hp
  have hmem : s.pxIndex l ∈ nodes c l := by
    rw [hh.index, nodes, Turns.items, List.map_append]
    exact List.mem_cons.mpr ((List.mem_cons.mp lastFrom_mem).imp_right (List.mem_append_left _))
  have hne : s.pxIndex l ≠ .item i := fun he =>
    notMem_of_free hk hi (item_mem_nodes.mp (he ▸ hmem))
  have heq : vListInsertEnd s l i = linked s l i (s.pxPrevious (s.pxIndex l)) (s.pxIndex l) := by
    have hself : Function.update s.pxPrevious (.item i) (s.pxPrevious (s.pxIndex l)) (s.pxIndex l) =
        s.pxPrevious (s.pxIndex l) := Function.update_of_ne hne ..
    simp only [vListInsertEnd, Lists.setNext, Lists.setPrevious, Lists.setContainer,
      Lists.setCount, linked, hself]
  have hkept := kept_linked hk hi (endPlace_le (t := c l))
  rw [hq, ← hp, ← heq] at hkept
  exact ⟨hkept, rfl, rfl⟩

/-- `vListInsert` puts the item behind those that are not above its value. -/
theorem vListInsert_eq (hk : Kept s c) (hi : s.pxContainer i = none) :
    ∃ s', vListInsert s l i = some s' ∧
      Kept s' (Function.update c l ((c l).put
        (place (fun j => s.xItemValue (.item j)) (s.xItemValue (.item i)) (c l).items) i)) ∧
      SameFields s s' := by
  have hh := hk.holds l
  let k := place (fun j => s.xItemValue (.item j)) (s.xItemValue (.item i)) (c l).items
  have hring := hh.ring
  rw [← List.take_append_drop k (c l).items, List.map_append] at hring
  have hp : (if s.xItemValue (.item i) = portMaxDelay then some (s.pxPrevious (.listEnd l))
      else insertionPoint s (s.xItemValue (.item i)) (s.uxNumberOfItems l + 1) (.listEnd l)) =
      some (lastFrom (.listEnd l) (((c l).items.take k).map .item)) := by
    by_cases hmax : s.xItemValue (.item i) = portMaxDelay
    · have hall : k = (c l).items.length := place_max fun j _ => hmax ▸ hk.values j
      rw [if_pos hmax, hh.ring.prev_end, hall, List.take_length]
    · have hlt := Nat.lt_of_le_of_ne (hk.values i) hmax
      rw [if_neg hmax, hh.count, insertionPoint_eq hlt hh.marker hh.ring.forth, take_place]
  have hq := hring.next_lastFrom
  have hne : (((c l).items.drop k).map Node.item).headD (.listEnd l) ≠ .item i := by
    have hmem : (((c l).items.drop k).map Node.item).headD (.listEnd l) ∈ nodes c l := by
      refine List.mem_cons.mpr ((List.mem_cons.mp headD_mem).imp_right fun hm => ?_)
      exact (List.drop_sublist _ _).map _ |>.subset hm
    exact fun he => notMem_of_free hk hi (item_mem_nodes.mp (he ▸ hmem))
  refine ⟨_, ?_, kept_linked hk hi (k := k) place_le, ⟨rfl, rfl⟩⟩
  rw [vListInsert, hp, Option.map_some]
  simp only [Lists.setNext, Lists.setPrevious, Lists.setContainer, Lists.setCount, linked,
    Function.update_self, hq, Function.update_comm hne]

/-- `uxListRemove` takes the item out of the list that it is in. -/
theorem uxListRemove_eq (hk : Kept s c) (hi : s.pxContainer i = some l) :
    ∃ s', uxListRemove s i = some (s', ((c l).erase i).items.length) ∧
      Kept s' (Function.update c l ((c l).erase i)) ∧ SameFields s s' := by
  have hmem := (hk.container i l).mp hi
  have hne := (hk.holds l).ring.next_ne_self (List.mem_map_of_mem hmem)
  have hcount : (unlinked s l i).uxNumberOfItems l = ((c l).erase i).items.length := by
    have hh := (kept_unlinked hk hi).holds l
    rw [Function.update_self] at hh
    exact hh.count
  refine ⟨unlinked s l i, ?_, kept_unlinked hk hi, ⟨rfl, rfl⟩⟩
  rw [uxListRemove, hi, Option.map_some, ← hcount]
  by_cases hx : s.pxIndex l = .item i
  · simp [unlinked, Lists.setPrevious, Lists.setNext, Lists.setIndex, Lists.setContainer,
      Lists.setCount, hx, Function.update_of_ne hne.symm]
  · simp [unlinked, Lists.setPrevious, Lists.setNext, Lists.setContainer, Lists.setCount, hx,
      Function.update_of_ne hne.symm]

/-- The index moves on to the member whose turn it is. -/
theorem listGetOwnerOfNextEntry_eq (hk : Kept s c) : SameFields s (listGetOwnerOfNextEntry s l).1 ∧
    Kept (listGetOwnerOfNextEntry s l).1
      (Function.update c l (((c l).next.map Prod.snd).getD (c l))) ∧
    (listGetOwnerOfNextEntry s l).2 = (c l).next.map fun r => s.pvOwner r.1 := by
  have heq : listGetOwnerOfNextEntry s l = (s.setIndex l (nextIndex s l),
      match nextIndex s l with
      | .item i => some (s.pvOwner i)
      | .listEnd _ => none) := by
    unfold listGetOwnerOfNextEntry nextIndex
    by_cases he : s.pxNext (s.pxIndex l) = .listEnd l
    · simp only [Lists.setIndex, Function.update_self, he, if_true, Function.update_idem]
      cases s.pxNext (.listEnd l) <;> rfl
    · simp only [Lists.setIndex, Function.update_self, he, if_false]
      cases s.pxNext (s.pxIndex l) <;> rfl
  rw [heq, nextIndex_eq (hk.holds l)]
  refine ⟨⟨rfl, rfl⟩, ?_⟩
  match hn : (c l).next with
  | some (x, t) =>
    refine ⟨kept_setIndex hk (Turns.items_next hn) ?_, rfl⟩
    exact (done_next hn).symm
  | none =>
    have hnil := Turns.next_eq_none_iff.mp hn
    refine ⟨kept_setIndex hk rfl ?_, rfl⟩
    show Node.listEnd l = lastFrom (.listEnd l) ((c l).done.map .item)
    rw [(List.append_eq_nil_iff.mp hnil).1]
    rfl

/-! ## Lists in the order of their values -/

/-- An insertion by value keeps the order, behind the equals. -/
def insertBy (value : ι → Nat) (i : ι) (xs : List ι) : List ι :=
  xs.take (place value (value i) xs) ++ i :: xs.drop (place value (value i) xs)

omit [DecidableEq ι] in
theorem mem_insertBy {value : ι → Nat} {j : ι} {xs : List ι} :
    j ∈ insertBy value i xs ↔ j = i ∨ j ∈ xs := by
  have hperm : (insertBy value i xs).Perm (i :: xs) := by
    refine List.perm_middle.trans (List.Perm.cons i ?_)
    rw [List.take_append_drop]
  exact hperm.mem_iff.trans List.mem_cons

omit [DecidableEq ι] in
theorem insertBy_cons {value : ι → Nat} {j : ι} {xs : List ι} : insertBy value i (j :: xs) =
    if value j ≤ value i then j :: insertBy value i xs else i :: j :: xs := by
  unfold insertBy place
  by_cases h : value j ≤ value i
  · rw [if_pos h, List.takeWhile_cons_of_pos (by simpa using h)]
    rfl
  · rw [if_neg h, List.takeWhile_cons_of_neg (by simpa using h)]
    rfl

omit [DecidableEq ι] in
theorem sorted_insertBy {value : ι → Nat} {xs : List ι} (h : xs.Pairwise (value · ≤ value ·)) :
    (insertBy value i xs).Pairwise (value · ≤ value ·) := by
  induction xs with
  | nil => exact List.pairwise_singleton _ i
  | cons j xs ih =>
    obtain ⟨hj, hxs⟩ := List.pairwise_cons.mp h
    rw [insertBy_cons]
    by_cases hle : value j ≤ value i
    · rw [if_pos hle]
      refine List.pairwise_cons.mpr ⟨fun m hm => ?_, ih hxs⟩
      rcases mem_insertBy.mp hm with rfl | hm
      · exact hle
      · exact hj m hm
    · rw [if_neg hle]
      have hlt : value i ≤ value j := Nat.le_of_not_le hle
      refine List.pairwise_cons.mpr ⟨fun m hm => ?_, h⟩
      rcases List.mem_cons.mp hm with rfl | hm
      · exact hlt
      · exact Nat.le_trans hlt (hj m hm)

/-- In a list that is not walked, `vListInsert` is an insertion by value. -/
theorem vListInsert_line {xs : List ι} (hk : Kept s c) (hl : c l = .line xs)
    (hi : s.pxContainer i = none) :
    ∃ s', vListInsert s l i = some s' ∧ Kept s' (Function.update c l
      (.line (insertBy (fun j => s.xItemValue (.item j)) i xs))) ∧ SameFields s s' := by
  obtain ⟨s', he, hk', hs⟩ := vListInsert_eq (l := l) hk hi
  rw [hl] at hk'
  exact ⟨s', he, hk', hs⟩

theorem uxListRemove_line {xs : List ι} (hk : Kept s c) (hl : c l = .line xs) (hi : i ∈ xs) :
    ∃ s', uxListRemove s i = some (s', (xs.erase i).length) ∧
      Kept s' (Function.update c l (.line (xs.erase i))) ∧ SameFields s s' := by
  have hcontainer := (hk.container i l).mpr (by rw [hl]; exact hi)
  obtain ⟨s', he, hk', hs⟩ := uxListRemove_eq hk hcontainer
  rw [hl] at he hk'
  exact ⟨s', he, hk', hs⟩

omit [DecidableEq ι] [DecidableEq κ] in
/-- The head of a list that is not walked. -/
theorem head_line {xs : List ι} (hk : Kept s c) (hl : c l = .line xs) :
    listIsEmpty s l = xs.isEmpty ∧ listGetOwnerOfHeadEntry s l = xs.head?.map s.pvOwner ∧
    listGetItemValueOfHeadEntry s l =
      (xs.head?.map fun i => s.xItemValue (.item i)).getD portMaxDelay := by
  have hh := hk.holds l
  have hnext := hh.ring.next_end
  have hcount := hh.count
  rw [hl, show (Turns.line xs).items = xs from rfl] at hnext hcount
  unfold listIsEmpty listGetOwnerOfHeadEntry listGetItemValueOfHeadEntry
  rw [hcount, hnext]
  cases xs with
  | nil => exact ⟨rfl, rfl, hh.marker⟩
  | cons x xs => exact ⟨rfl, rfl, rfl⟩

theorem kept_setValue {v : Nat} (hk : Kept s c) (hv : v ≤ portMaxDelay) :
    Kept (s.setValue (.item i) v) c := by
  refine ⟨fun l => ?_, hk.container, fun j => ?_⟩
  · have hh := hk.holds l
    have hne : Node.listEnd l ≠ Node.item i := by simp
    exact ⟨hh.ring, hh.index, hh.count, (Function.update_of_ne hne v s.xItemValue).trans hh.marker⟩
  · show Function.update s.xItemValue (.item i) v (.item j) ≤ portMaxDelay
    by_cases hj : j = i
    · rw [hj, Function.update_self]
      exact hv
    · rw [Function.update_of_ne fun he => hj (Node.item.inj he)]
      exact hk.values j

omit [DecidableEq κ] in
theorem kept_setOwner {o : ω} (hk : Kept s c) : Kept (s.setOwner i o) c where
  holds l := ⟨(hk.holds l).ring, (hk.holds l).index, (hk.holds l).count, (hk.holds l).marker⟩
  container := hk.container
  values := hk.values

end Functions

end BlackPill.KernelLists
