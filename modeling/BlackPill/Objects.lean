/-!
# Created and deleted objects

A `Pool` counts the objects of one kind that have been created and keeps every
request to delete one, in order. Objects are told apart by the number of their
creation, so a deleted object is never confused with a later one at the same
address. A handle is a variable that is empty or names an object.

Results:
1. `Names`: the handle is empty or names a live object; kept by a creation,
   lost by a deletion that leaves the handle in place (`not_names_delete`).
2. `Owns`: everything alive is named by the handle; kept by a deletion through
   the handle, lost when the handle of a live object is overwritten.
3. `Sound`: each object is deleted at most once, and only after its creation.
-/

namespace Objects

/-- The objects of one kind: how many were created, and which were deleted. -/
structure Pool where
  created : Nat
  deletes : List Nat
deriving DecidableEq, Repr

namespace Pool

/-- No object yet. -/
def empty : Pool := ⟨0, []⟩

/-- The object was created and has not been deleted. -/
def Live (p : Pool) (id : Nat) : Prop := id < p.created ∧ id ∉ p.deletes

instance (p : Pool) (id : Nat) : Decidable (p.Live id) :=
  inferInstanceAs (Decidable (_ ∧ _))

/-- An attempt to create an object, with its result as a handle. -/
def create (p : Pool) (ok : Bool) : Option Nat × Pool :=
  if ok then (some p.created, { p with created := p.created + 1 }) else (none, p)

/-- A request to delete an object, alive or not. -/
def delete (p : Pool) (id : Nat) : Pool := { p with deletes := p.deletes ++ [id] }

/-- `if (handle) delete(handle);` -/
def deleteIf (p : Pool) : Option Nat → Pool
  | none => p
  | some id => p.delete id

/-- The handle is empty or names a live object. -/
def Names (p : Pool) (h : Option Nat) : Prop := ∀ id, h = some id → p.Live id

/-- Every live object is the one the handle names. -/
def Owns (p : Pool) (h : Option Nat) : Prop := ∀ id, p.Live id → h = some id

/-- No object was deleted twice, and none before its creation. -/
structure Sound (p : Pool) : Prop where
  once : p.deletes.Nodup
  after_create : ∀ id ∈ p.deletes, id < p.created

section Lemmas

variable {p : Pool} {h : Option Nat} {id x : Nat} {ok : Bool}

@[simp] theorem create_true : p.create true = (some p.created, ⟨p.created + 1, p.deletes⟩) := rfl

@[simp] theorem create_false : p.create false = (none, p) := rfl

@[simp] theorem deleteIf_none : p.deleteIf none = p := rfl

@[simp] theorem deleteIf_some : p.deleteIf (some x) = p.delete x := rfl

theorem names_none : p.Names none := by
  intro id he
  cases he

theorem names_some : p.Names (some id) ↔ p.Live id := by
  constructor
  · intro hn
    exact hn id rfl
  · rintro hl _ ⟨⟩
    exact hl

theorem live_delete : (p.delete x).Live id ↔ p.Live id ∧ id ≠ x := by
  simp [Live, delete, and_assoc]

theorem not_live_delete_self : ¬ (p.delete x).Live x := fun hl => (live_delete.mp hl).2 rfl

theorem live_create_of_live (hl : p.Live id) : (p.create ok).2.Live id := by
  cases ok with
  | false => exact hl
  | true => exact ⟨Nat.lt_succ_of_lt hl.1, hl.2⟩

/-- What is alive after a creation was alive before it, or is its result. -/
theorem live_create (hl : (p.create ok).2.Live id) : p.Live id ∨ (p.create ok).1 = some id := by
  cases ok with
  | false => exact .inl hl
  | true =>
    rcases Nat.lt_succ_iff_lt_or_eq.mp hl.1 with hlt | rfl
    · exact .inl ⟨hlt, hl.2⟩
    · exact .inr rfl

theorem created_of_live (hl : p.Live id) : (p.create ok).1 ≠ some id := by
  cases ok with
  | false => simp
  | true =>
    simp only [create_true, ne_eq, Option.some.injEq]
    exact Nat.ne_of_gt hl.1

theorem names_create_result (hs : ∀ id ∈ p.deletes, id < p.created) :
    (p.create ok).2.Names (p.create ok).1 := by
  cases ok with
  | false => exact names_none
  | true => exact names_some.mpr ⟨Nat.lt_succ_self _, fun hm => Nat.lt_irrefl _ (hs _ hm)⟩

theorem sound_empty : empty.Sound := ⟨List.nodup_nil, by simp [empty]⟩

theorem sound_create (hs : p.Sound) : (p.create ok).2.Sound := by
  cases ok with
  | false => exact hs
  | true => exact ⟨hs.once, fun id hm => Nat.lt_succ_of_lt (hs.after_create id hm)⟩

theorem sound_delete (hs : p.Sound) (hl : p.Live x) : (p.delete x).Sound := by
  constructor
  · refine List.nodup_append.mpr ⟨hs.once, by simp, ?_⟩
    rintro a ha b hb rfl
    rw [List.mem_singleton.mp hb] at ha
    exact hl.2 ha
  · intro id hm
    rcases List.mem_append.mp hm with hm | hm
    · exact hs.after_create id hm
    · rw [List.mem_singleton.mp hm]
      exact hl.1

theorem sound_deleteIf (hs : p.Sound) (hn : p.Names h) : (p.deleteIf h).Sound := by
  cases h with
  | none => exact hs
  | some id => exact sound_delete hs (hn id rfl)

/-- Once the handle that owns everything has been deleted through, nothing is
alive. -/
theorem not_live_deleteIf (ho : p.Owns h) : ¬ (p.deleteIf h).Live id := by
  intro hl
  cases h with
  | none => exact absurd (ho id hl) (by simp)
  | some x =>
    obtain ⟨hl', hne⟩ := live_delete.mp hl
    exact hne (Option.some.inj (ho id hl')).symm

theorem owns_deleteIf {h' : Option Nat} (ho : p.Owns h) : (p.deleteIf h).Owns h' :=
  fun _ hl => absurd hl (not_live_deleteIf ho)

/-- When nothing is alive, the result of a creation owns everything. -/
theorem owns_create (hnone : ∀ id, ¬ p.Live id) : (p.create ok).2.Owns (p.create ok).1 := by
  intro id hl
  rcases live_create hl with hl | he
  · exact absurd hl (hnone id)
  · exact he

/-- The result of a creation does not own an object that was alive before. -/
theorem not_owns_create (hl : p.Live id) : ¬ (p.create ok).2.Owns (p.create ok).1 :=
  fun ho => created_of_live hl (ho id (live_create_of_live hl))

/-- That object stays unowned when the new one is deleted again. -/
theorem not_owns_create_delete (hl : p.Live id) (hh : h = none ∨ h = (p.create ok).1) :
    ¬ ((p.create ok).2.deleteIf (p.create ok).1).Owns h := by
  intro ho
  have hl' : (p.create ok).2.Live id := live_create_of_live hl
  have hne : (p.create ok).1 ≠ some id := created_of_live hl
  have hd : ((p.create ok).2.deleteIf (p.create ok).1).Live id := by
    cases hr : (p.create ok).1 with
    | none => exact hl'
    | some x => exact live_delete.mpr ⟨hl', fun he => hne (he ▸ hr)⟩
  rcases hh with rfl | rfl
  · exact absurd (ho id hd) (by simp)
  · exact hne (ho id hd)

theorem owns_empty : empty.Owns h := fun id hl => absurd hl.1 (Nat.not_lt_zero id)

theorem Owns.eq (ho : p.Owns h) (hl : p.Live id) (hx : p.Live x) : id = x :=
  Option.some.inj ((ho id hl).symm.trans (ho x hx))

end Lemmas

end Pool

end Objects
