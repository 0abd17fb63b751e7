import BlackPill.KernelLists

/-!
# Runs of the kernel's lists

The kernel works on its lists with the scheduler suspended or in a critical section,
so the calls of `list.c` come one after the other, on any lists and in any order.

Results:
1. `lists_refine_turns`: in every run the pointers hold exactly the rings of the abstract
   lists.
2. `lists_return`: every call that the kernel may make comes to its end.
3. `entries_alternate`: what is returned are owners of items of the list, and those of two
   items that stay in it alternately.
-/

namespace BlackPill.KernelLists

open LinkedNodes Runs KernelListsLemmas

/-! ## Definitions -/

/-- The calls of `list.c`. `setValue` is `listSET_LIST_ITEM_VALUE`, `next` is
`listGET_OWNER_OF_NEXT_ENTRY`. -/
inductive ListEvent (ι κ : Type)
  | setValue (i : ι) (v : Nat)
  | insertEnd (l : κ) (i : ι)
  | insert (l : κ) (i : ι)
  | remove (i : ι)
  | next (l : κ)

/-- The abstract lists: a ring for each list, and the values of the items. -/
structure Queues (ι κ : Type) where
  turns : κ → Turns ι
  value : ι → Nat

variable {ι κ ω : Type} [DecidableEq ι] [DecidableEq κ]

/-- `none` if the call does not come to its end. -/
def Lists.step (s : Lists ι κ ω) : ListEvent ι κ → Option (Lists ι κ ω)
  | .setValue i v => some (s.setValue (.item i) v)
  | .insertEnd l i => some (vListInsertEnd s l i)
  | .insert l i => vListInsert s l i
  | .remove i => (uxListRemove s i).map Prod.fst
  | .next l => some (listGetOwnerOfNextEntry s l).1

/-- What the kernel keeps to: an item is inserted when it is in no list, and removed when it
is in one. -/
def Lists.Fair (s : Lists ι κ ω) : ListEvent ι κ → Prop
  | .setValue _ v => v ≤ portMaxDelay
  | .insertEnd _ i => s.pxContainer i = none
  | .insert _ i => s.pxContainer i = none
  | .remove i => (s.pxContainer i).isSome
  | .next _ => True

def ListStep (s : Lists ι κ ω) (e : ListEvent ι κ) (s' : Lists ι κ ω) : Prop :=
  s.Fair e ∧ s.step e = some s'

/-- The lists and the items are as `vListInitialise` and `vListInitialiseItem` leave them. -/
structure Initialised (s : Lists ι κ ω) : Prop where
  lists : ∀ l, vListInitialise s l = s
  items : ∀ i, vListInitialiseItem s i = s
  words : ∀ i, s.xItemValue (.item i) ≤ portMaxDelay

def Queues.set (q : Queues ι κ) (l : κ) (t : Turns ι) : Queues ι κ :=
  { q with turns := Function.update q.turns l t }

/-- The abstract lists take an item in behind the leading ones that are not above its value, or
right before the last one served. The first item that is above its value stops the search, so
the item is put in order only if the list is in order. -/
def Queues.step (q : Queues ι κ) : ListEvent ι κ → Queues ι κ
  | .setValue i v => { q with value := Function.update q.value i v }
  | .insertEnd l i => q.set l ((q.turns l).put (endPlace (q.turns l)) i)
  | .insert l i => q.set l ((q.turns l).put (place q.value (q.value i) (q.turns l).items) i)
  | .remove i => { q with turns := fun l => (q.turns l).erase i }
  | .next l => q.set l (((q.turns l).next.map Prod.snd).getD (q.turns l))

def Queues.init (value : ι → Nat) : Queues ι κ := ⟨fun _ => .line [], value⟩

/-- The pointers hold the rings, the items have their values. -/
structure Refines (s : Lists ι κ ω) (q : Queues ι κ) : Prop where
  kept : Kept s q.turns
  value : ∀ i, s.xItemValue (.item i) = q.value i

/-- What `listGET_OWNER_OF_NEXT_ENTRY` returns for a list in the course of the calls. -/
def entries (l : κ) : Lists ι κ ω → List (ListEvent ι κ) → List (Option ω)
  | _, [] => []
  | s, e :: es =>
    match s.step e with
    | none => []
    | some s' =>
      match e with
      | .next m =>
        if m = l then (listGetOwnerOfNextEntry s l).2 :: entries l s' es else entries l s' es
      | _ => entries l s' es

namespace KernelListRunsLemmas

variable {s s' : Lists ι κ ω} {q : Queues ι κ} {e : ListEvent ι κ} {es : List (ListEvent ι κ)}
  {l : κ} {i x y : ι} {v : Nat}

/-! ## One call -/

theorem initialised_fresh {value : ι → Nat} {owner : ι → ω} (hv : ∀ i, value i ≤ portMaxDelay) :
    Initialised (Lists.fresh (κ := κ) value owner) := by
  refine ⟨fun l => ?_, fun i => ?_, hv⟩
  · simp only [vListInitialise, Lists.setIndex, Lists.setValue, Lists.setNext, Lists.setPrevious,
      Lists.setCount, Lists.fresh, Function.update_eq_self_iff, Lists.mk.injEq, id, and_self]
  · exact congrArg (fun c => { Lists.fresh value owner with pxContainer := c })
      (Function.update_eq_self i _)

theorem refines_init (h : Initialised s) :
    Refines s (Queues.init (κ := κ) fun i => s.xItemValue (.item i)) := by
  refine ⟨⟨fun l => ?_, fun i l => ?_, h.words⟩, fun _ => rfl⟩
  · have hl := h.lists l
    have hnext : s.pxNext (.listEnd l) = .listEnd l := by
      conv_lhs => rw [← hl]
      exact Function.update_self ..
    have hprev : s.pxPrevious (.listEnd l) = .listEnd l := by
      conv_lhs => rw [← hl]
      exact Function.update_self ..
    refine ⟨ring_nil hnext hprev, ?_, ?_, ?_⟩
    · conv_lhs => rw [← hl]
      exact Function.update_self ..
    · conv_lhs => rw [← hl]
      exact Function.update_self ..
    · conv_lhs => rw [← hl]
      exact Function.update_self ..
  · have hi : s.pxContainer i = none := by
      conv_lhs => rw [← h.items i]
      exact Function.update_self ..
    rw [hi]
    exact iff_of_false (by simp) (by simp [Queues.init, Turns.line, Turns.items])

omit [DecidableEq ι] [DecidableEq κ] in
theorem refines_of_same {turns : κ → Turns ι} (hr : Refines s q) (hk : Kept s' turns)
    (hs : SameFields s s') : Refines s' { q with turns := turns } :=
  ⟨hk, fun i => (congrFun hs.value _).trans (hr.value i)⟩

/-- A call comes to its end, with the effect of the abstract lists. -/
theorem refines_step (hr : Refines s q) (hf : s.Fair e) :
    ∃ s', s.step e = some s' ∧ Refines s' (q.step e) ∧ s'.pvOwner = s.pvOwner := by
  have hk := hr.kept
  cases e with
  | setValue i v =>
    refine ⟨_, rfl, ⟨kept_setValue hk hf, fun j => ?_⟩, rfl⟩
    show Function.update s.xItemValue (.item i) v (.item j) = Function.update q.value i v j
    by_cases hj : j = i
    · rw [hj, Function.update_self, Function.update_self]
    · rw [Function.update_of_ne hj, Function.update_of_ne fun he => hj (Node.item.inj he)]
      exact hr.value j
  | insertEnd l i =>
    obtain ⟨hk', hs⟩ := vListInsertEnd_eq (l := l) hk hf
    exact ⟨_, rfl, refines_of_same hr hk' hs, hs.owner⟩
  | insert l i =>
    obtain ⟨s', he, hk', hs⟩ := vListInsert_eq (l := l) hk hf
    have hvalue : (fun j => s.xItemValue (.item j)) = q.value := funext hr.value
    rw [hvalue, hr.value i] at hk'
    exact ⟨s', he, refines_of_same hr hk' hs, hs.owner⟩
  | remove i =>
    obtain ⟨l, hl⟩ := Option.isSome_iff_exists.mp hf
    obtain ⟨s', he, hk', hs⟩ := uxListRemove_eq hk hl
    have herase : Function.update q.turns l ((q.turns l).erase i) =
        fun m => (q.turns m).erase i := by
      funext m
      by_cases hm : m = l
      · rw [hm, Function.update_self]
      · rw [Function.update_of_ne hm]
        refine (Turns.erase_of_notMem fun hi => hm ?_).symm
        exact Option.some.inj (((hk.container i m).mpr hi).symm.trans hl)
    rw [herase] at hk'
    exact ⟨s', congrArg (Option.map Prod.fst) he, refines_of_same hr hk' hs, hs.owner⟩
  | next l =>
    obtain ⟨hs, hk', _⟩ := listGetOwnerOfNextEntry_eq (l := l) hk
    exact ⟨_, rfl, refines_of_same hr hk' hs, hs.owner⟩

/-- The same for a step that has been taken. -/
theorem refines_listStep (hr : Refines s q) (hs : ListStep s e s') : Refines s' (q.step e) := by
  obtain ⟨u, hu, hr', _⟩ := refines_step hr hs.1
  obtain rfl := Option.some.inj (hs.2.symm.trans hu)
  exact hr'

theorem refines_run (h : Run ListStep s es s') (hr : Refines s q) :
    Refines s' (es.foldl Queues.step q) := by
  induction h generalizing q with
  | nil => exact hr
  | cons hs _ ih => exact ih (refines_listStep hr hs)

/-! ## Turns in a list -/

/-- What a call is for the ring of one list. -/
def ringEvents (q : Queues ι κ) (l : κ) : ListEvent ι κ → List (Turns.Event ι)
  | .setValue _ _ => []
  | .insertEnd m i => if m = l then [.put (endPlace (q.turns l)) i] else []
  | .insert m i => if m = l then [.put (place q.value (q.value i) (q.turns l).items) i] else []
  | .remove i => [.erase i]
  | .next m => if m = l then ((q.turns l).next.map fun r => Turns.Event.turn r.1).toList else []

theorem ringEvents_run (hr : Refines s q) (hf : s.Fair e) :
    Run Turns.Step (q.turns l) (ringEvents q l e) ((q.step e).turns l) := by
  have hnew : ∀ i, s.pxContainer i = none → i ∉ (q.turns l).items := fun i hi =>
    notMem_of_free hr.kept hi
  cases e with
  | setValue i v => exact .nil
  | insertEnd m i =>
    by_cases hm : m = l
    · subst hm
      simp only [ringEvents, if_true, Queues.step, Queues.set, Function.update_self]
      exact .single (.put (hnew i hf))
    · simp only [ringEvents, if_neg hm, Queues.step, Queues.set, Function.update_of_ne (Ne.symm hm)]
      exact .nil
  | insert m i =>
    by_cases hm : m = l
    · subst hm
      simp only [ringEvents, if_true, Queues.step, Queues.set, Function.update_self]
      exact .single (.put (hnew i hf))
    · simp only [ringEvents, if_neg hm, Queues.step, Queues.set, Function.update_of_ne (Ne.symm hm)]
      exact .nil
  | remove i => exact .single .erase
  | next m =>
    by_cases hm : m = l
    · subst hm
      simp only [ringEvents, if_true, Queues.step, Queues.set, Function.update_self]
      match hn : (q.turns m).next with
      | none => exact .nil
      | some (x, t) => exact .single (.turn hn)
    · simp only [ringEvents, if_neg hm, Queues.step, Queues.set, Function.update_of_ne (Ne.symm hm)]
      exact .nil

/-- The list returns the owners of the members whose turns there are in the ring. -/
theorem entries_ringEvents (hr : Refines s q) (hs : ListStep s e s')
    (hne : (q.turns l).items ≠ []) :
    entries l s (e :: es) =
      (Turns.turned (ringEvents q l e)).map (fun w => some (s.pvOwner w)) ++ entries l s' es := by
  rw [entries, hs.2]
  cases e with
  | setValue i v => rfl
  | insertEnd m i =>
    simp only [ringEvents]
    split <;> rfl
  | insert m i =>
    simp only [ringEvents]
    split <;> rfl
  | remove i => rfl
  | next m =>
    by_cases hm : m = l
    · subst hm
      obtain ⟨_, _, howner⟩ := listGetOwnerOfNextEntry_eq (l := m) hr.kept
      match hn : (q.turns m).next with
      | none => exact absurd (Turns.next_eq_none_iff.mp hn) hne
      | some (w, t) =>
        rw [hn] at howner
        simp only [ringEvents, hn, if_true, howner]
        rfl
    · simp only [ringEvents, if_neg hm]
      rfl

omit [DecidableEq ι] in
/-- Only a removal takes a member out of the ring, only an insertion brings one in. -/
theorem ringEvents_cases {z : ι} : (.erase z ∈ ringEvents q l e → e = .remove z) ∧
    ∀ k, .put k z ∈ ringEvents q l e → e = .insert l z ∨ e = .insertEnd l z := by
  cases e with
  | setValue i v => simp [ringEvents]
  | remove i => simp [ringEvents, eq_comm]
  | insertEnd m i =>
    simp only [ringEvents]
    split <;> simp_all
  | insert m i =>
    simp only [ringEvents]
    split <;> simp_all
  | next m =>
    simp only [ringEvents]
    split
    · cases (q.turns l).next <;> simp
    · simp

/-- The run of one ring that holds `x` all the time. -/
theorem exists_ring_run (h : Run ListStep s es s') (hr : Refines s q)
    (hx : x ∈ (q.turns l).items) (hx' : .remove x ∉ es) :
    ∃ ms t, Run Turns.Step (q.turns l) ms t ∧
      entries l s es = (Turns.turned ms).map (fun w => some (s.pvOwner w)) ∧
      (∀ z, .erase z ∈ ms → .remove z ∈ es) ∧
      ∀ k z, .put k z ∈ ms → .insert l z ∈ es ∨ .insertEnd l z ∈ es := by
  induction h generalizing q with
  | nil => exact ⟨[], _, .nil, rfl, by simp, by simp⟩
  | @cons s _ _ e es hs _ ih =>
    obtain ⟨he, hes⟩ := not_or.mp (mt List.mem_cons.mpr hx')
    have hring := ringEvents_run (l := l) hr hs.1
    have hstay := Turns.mem_run hring (fun hm => he (ringEvents_cases.1 hm).symm) hx
    obtain ⟨u, hu, hr', howner⟩ := refines_step hr hs.1
    obtain rfl := Option.some.inj (hs.2.symm.trans hu)
    obtain ⟨ms, t, hrun, hentries, herase, hput⟩ := ih hr' hstay hes
    refine ⟨_, t, hring.append hrun, ?_, fun z hz => ?_, fun k z hz => ?_⟩
    · rw [entries_ringEvents hr hs (List.ne_nil_of_mem hx), hentries, howner, Turns.turned_append,
        List.map_append]
    · rcases List.mem_append.mp hz with hz | hz
      · exact ringEvents_cases.1 hz ▸ List.mem_cons_self
      · exact List.mem_cons_of_mem _ (herase z hz)
    · rcases List.mem_append.mp hz with hz | hz
      · rcases ringEvents_cases.2 k hz with rfl | rfl
        · exact .inl List.mem_cons_self
        · exact .inr List.mem_cons_self
      · exact (hput k z hz).imp (List.mem_cons_of_mem _) (List.mem_cons_of_mem _)

end KernelListRunsLemmas

open KernelListRunsLemmas

/-! ## Runs -/

/-- In every run on any number of lists, the pointers, the marks and the counts of the lists
are those of the abstract lists. -/
theorem lists_refine_turns (s s' : Lists ι κ ω) (es : List (ListEvent ι κ)) (hi : Initialised s)
    (h : Run ListStep s es s') :
    Refines s' (es.foldl Queues.step (.init fun i => s.xItemValue (.item i))) :=
  refines_run h (refines_init hi)

/-- Two items and one list, before they are used. -/
def freshPair : Lists Bool Unit Bool := .fresh (fun _ => 0) id

theorem initialised_freshPair : Initialised freshPair := initialised_fresh fun _ => Nat.zero_le _

/-- An insertion by value, one at the end, a turn and a removal. -/
theorem lists_refine_turns_four : ∃ s', Run ListStep freshPair
    [.insert () true, .insertEnd () false, .next (), .remove true] s' ∧
    Refines s' ([ListEvent.insert () true, .insertEnd () false, .next (), .remove true].foldl
      Queues.step (.init fun i => freshPair.xItemValue (.item i))) := by
  have hrun : Run ListStep freshPair
      [.insert () true, .insertEnd () false, .next (), .remove true] _ :=
    .cons ⟨rfl, rfl⟩ (.cons ⟨rfl, rfl⟩ (.cons ⟨trivial, rfl⟩ (.single ⟨rfl, rfl⟩)))
  exact ⟨_, hrun, lists_refine_turns _ _ _ initialised_freshPair hrun⟩

/-- In every state of every run a call that the kernel may make comes to its end. -/
theorem lists_return (s : Lists ι κ ω) (es : List (ListEvent ι κ)) (hi : Initialised s) :
    Always ListStep (fun t => ∀ e, t.Fair e → ∃ t', t.step e = some t') s es := by
  intro done rest t _ h e hf
  obtain ⟨t', ht, _⟩ := refines_step (refines_run h (refines_init hi)) hf
  exact ⟨t', ht⟩

theorem lists_return_insertEnd : Always ListStep (fun t => ∀ e, t.Fair e → ∃ t', t.step e = some t')
    freshPair [.insertEnd () true, .insert () false, .next ()] :=
  lists_return _ _ initialised_freshPair

/-- The item is in the list, or comes into it. -/
def Visits (t : Lists ι κ ω) (fs : List (ListEvent ι κ)) (l : κ) (z : ι) : Prop :=
  t.pxContainer z = some l ∨ .insert l z ∈ fs ∨ .insertEnd l z ∈ fs

/-- From any state of any run, for as long as neither of two items of a list is removed, each
call for the next entry returns the owner of an item that is in the list or has come into it,
and the owners of the two alternately, whatever comes into the list and leaves it otherwise.
Nothing else that is in the list has the owner of one of the two. -/
theorem entries_alternate [DecidableEq ω] (s t t' : Lists ι κ ω) (es fs : List (ListEvent ι κ))
    (l : κ) (x y : ι) (hi : Initialised s) (h : Run ListStep s es t) (h' : Run ListStep t fs t')
    (hne : x ≠ y) (hx : t.pxContainer x = some l) (hy : t.pxContainer y = some l)
    (hx' : .remove x ∉ fs) (hy' : .remove y ∉ fs)
    (howner : ∀ z, Visits t fs l z →
      (t.pvOwner z = t.pvOwner x → z = x) ∧ (t.pvOwner z = t.pvOwner y → z = y)) :
    (∀ o ∈ entries l t fs, ∃ z, Visits t fs l z ∧ o = some (t.pvOwner z)) ∧
      List.IsChain (· ≠ ·)
        ((entries l t fs).filter fun o => o = some (t.pvOwner x) ∨ o = some (t.pvOwner y)) := by
  have hr := refines_run h (refines_init hi)
  have hxm := (hr.kept.container x l).mp hx
  have hym := (hr.kept.container y l).mp hy
  obtain ⟨ms, u, hrun, hentries, herase, hput⟩ := exists_ring_run h' hr hxm hx'
  have halt := Turns.alternate hrun (nodup_items (hr.kept.holds l)) hxm hym
    (fun hm => hx' (herase x hm)) (fun hm => hy' (herase y hm)) hne
  have hvisits : ∀ w ∈ Turns.turned ms, Visits t fs l w := by
    intro w hw
    rcases Turns.mem_of_turned hrun hw with hm | ⟨k, hk⟩
    · exact .inl ((hr.kept.container w l).mpr hm)
    · exact .inr (hput k w hk)
  -- among those who have turns the owner tells the item
  have hown : ∀ w ∈ Turns.turned ms, (t.pvOwner w = t.pvOwner x ↔ w = x) ∧
      (t.pvOwner w = t.pvOwner y ↔ w = y) := by
    intro w hw
    obtain ⟨hwx, hwy⟩ := howner w (hvisits w hw)
    exact ⟨⟨hwx, congrArg t.pvOwner⟩, hwy, congrArg t.pvOwner⟩
  rw [hentries]
  constructor
  · intro o ho
    obtain ⟨w, hw, rfl⟩ := List.mem_map.mp ho
    exact ⟨w, hvisits w hw, rfl⟩
  have hfilter : (Turns.turned ms).filter ((fun o => decide (o = some (t.pvOwner x) ∨
      o = some (t.pvOwner y))) ∘ fun w => some (t.pvOwner w)) = Turns.served x y ms := by
    rw [Turns.served_eq_filter]
    refine List.filter_congr fun w hw => ?_
    obtain ⟨hwx, hwy⟩ := hown w hw
    simp only [Function.comp_apply, Option.some.injEq, hwx, hwy]
  rw [List.filter_map, hfilter, List.isChain_map]
  have hmem : ∀ w ∈ Turns.served x y ms, w ∈ Turns.turned ms ∧ (w = x ∨ w = y) := by
    intro w hw
    rwa [Turns.served_eq_filter, List.mem_filter, decide_eq_true_eq] at hw
  refine halt.imp_of_mem_imp fun v w hv hw hvw he => hvw ?_
  have hsame : t.pvOwner w = t.pvOwner v := (Option.some.inj he).symm
  obtain ⟨hwx, hwy⟩ := hown w (hmem w hw).1
  rcases (hmem v hv).2 with rfl | rfl
  · exact (hwx.mp hsame).symm
  · exact (hwy.mp hsame).symm

/-- Two of three items are in the list. -/
def linkedItems : Lists (Fin 3) Unit (Fin 3) :=
  vListInsertEnd (vListInsertEnd (.fresh (fun _ => 0) id) () 0) () 1

theorem linkedItems_run : Run ListStep (.fresh (fun _ => 0) id : Lists (Fin 3) Unit (Fin 3))
    [.insertEnd () 0, .insertEnd () 1] linkedItems :=
  .cons ⟨rfl, rfl⟩ (.single ⟨rfl, rfl⟩)

/-- The third comes in and leaves between the turns. -/
theorem entries_alternate_visitor : ∃ t', Run ListStep linkedItems
    [.next (), .insert () 2, .next (), .remove 2, .next ()] t' ∧
    (∀ o ∈ entries () linkedItems [.next (), .insert () 2, .next (), .remove 2, .next ()],
      ∃ z, Visits linkedItems [.next (), .insert () 2, .next (), .remove 2, .next ()] () z ∧
        o = some z) ∧
    List.IsChain (· ≠ ·) ((entries () linkedItems
      [.next (), .insert () 2, .next (), .remove 2, .next ()]).filter fun o =>
        o = some 0 ∨ o = some 1) := by
  have hrun : Run ListStep linkedItems
      [.next (), .insert () 2, .next (), .remove 2, .next ()] _ :=
    .cons ⟨trivial, rfl⟩ (.cons ⟨rfl, rfl⟩ (.cons ⟨trivial, rfl⟩
      (.cons ⟨rfl, rfl⟩ (.single ⟨trivial, rfl⟩))))
  exact ⟨_, hrun, entries_alternate _ linkedItems _ _ _ () 0 1
    (initialised_fresh fun _ => by decide)
    linkedItems_run hrun (by decide) rfl rfl (by simp) (by simp) fun _ _ => ⟨id, id⟩⟩

end BlackPill.KernelLists
