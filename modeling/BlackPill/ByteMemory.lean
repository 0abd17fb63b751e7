import Mathlib.Algebra.Group.Nat.Defs

/-!
# Memory cells, machine words and framed messages

A memory is a function from addresses to cells. This module has the block
operations on it, the little-endian words kept in byte cells, NUL-terminated
strings, and messages framed by their length.

Results:
1. `load_write`, `load_write_of_disjoint`: a block write is read back where it
   was made and changes nothing elsewhere.
2. `leValue_leBytes`: a word is read back from its bytes.
3. `cString_write`: a terminated string is read back from where it was copied.
4. `unframe_flatMap`: a list of messages is read back from its frames.
-/

namespace ByteMemory

/-! ## Blocks -/

section Blocks

variable {α : Type} {m : Nat → α} {a b i j n : Nat} {xs ys : List α}

/-- The `n` cells from address `a` on. -/
def load (m : Nat → α) (a n : Nat) : List α := (List.range n).map fun i => m (a + i)

/-- The memory after the cells `xs` are written from address `a` on. -/
def write (m : Nat → α) (a : Nat) (xs : List α) : Nat → α :=
  fun j => if a ≤ j then (xs[j - a]?).getD (m j) else m j

@[simp] theorem load_length : (load m a n).length = n := by simp [load]

theorem load_getElem (h : i < (load m a n).length) : (load m a n)[i] = m (a + i) := by
  simp [load]

theorem load_add {k : Nat} : load m a (n + k) = load m a n ++ load m (a + n) k := by
  unfold load
  rw [List.range_add, List.map_append, List.map_map]
  congr 1
  apply List.map_congr_left
  intro i _
  simp only [Function.comp_apply, Nat.add_assoc]

theorem load_congr {m' : Nat → α} (h : ∀ i, i < n → m' (a + i) = m (a + i)) :
    load m' a n = load m a n := by
  apply List.map_congr_left
  intro i hi
  exact h i (List.mem_range.mp hi)

@[simp] theorem write_nil : write m a [] = m := by
  funext j
  simp [write]

theorem write_cons {x : α} :
    write m a (x :: xs) = write (fun j => if j = a then x else m j) (a + 1) xs := by
  funext j
  unfold write
  by_cases hj : a + 1 ≤ j
  · have hs : j - a = j - (a + 1) + 1 := by omega
    have hne : j ≠ a := by omega
    simp only [if_pos (show a ≤ j by omega), if_pos hj, hs, List.getElem?_cons_succ, if_neg hne]
  · rw [if_neg hj]
    by_cases ha : j = a
    · simp [ha]
    · simp only [if_neg (show ¬ a ≤ j by omega), if_neg ha]

theorem write_below (h : j < a) : write m a xs j = m j := if_neg (by omega)

theorem write_above (h : a + xs.length ≤ j) : write m a xs j = m j := by
  unfold write
  rw [if_pos (by omega), List.getElem?_eq_none (by omega), Option.getD_none]

theorem write_outside (h : j < a ∨ a + xs.length ≤ j) : write m a xs j = m j := by
  rcases h with h | h
  · exact write_below h
  · exact write_above h

theorem write_inside (h : i < xs.length) : write m a xs (a + i) = xs[i] := by
  unfold write
  rw [if_pos (by omega), Nat.add_sub_cancel_left, List.getElem?_eq_getElem h, Option.getD_some]

/-- Addresses counted from `a`. -/
theorem write_add : write m (a + b) xs (a + i) = write (fun j => m (a + j)) b xs i := by
  unfold write
  simp only [Nat.add_le_add_iff_left, Nat.add_sub_add_left]

theorem write_congr {m' : Nat → α} (h : m i = m' i) : write m a xs i = write m' a xs i := by
  unfold write
  rw [h]

theorem load_write : load (write m a xs) a xs.length = xs := by
  apply List.ext_getElem load_length
  intro i _ h
  rw [load_getElem, write_inside h]

theorem load_write_of_disjoint (h : b + n ≤ a ∨ a + xs.length ≤ b) :
    load (write m a xs) b n = load m b n := by
  apply load_congr
  intro i hi
  exact write_outside (by omega)

end Blocks

/-! ## Little-endian words -/

/-- The `w` bytes of `v`, lowest first. -/
def leBytes : Nat → Nat → List UInt8
  | 0, _ => []
  | w + 1, v => UInt8.ofNat v :: leBytes w (v / 256)

/-- The number with the given bytes, lowest first. -/
def leValue : List UInt8 → Nat
  | [] => 0
  | b :: bs => b.toNat + 256 * leValue bs

@[simp] theorem leBytes_length {w v : Nat} : (leBytes w v).length = w := by
  induction w generalizing v with
  | zero => rfl
  | succ w ih => rw [leBytes, List.length_cons, ih]

theorem leValue_leBytes {w v : Nat} (h : v < 256 ^ w) : leValue (leBytes w v) = v := by
  induction w generalizing v with
  | zero =>
    rw [Nat.pow_zero, Nat.lt_one_iff] at h
    rw [h]
    rfl
  | succ w ih =>
    have hdiv : v / 256 < 256 ^ w := by
      rw [Nat.div_lt_iff_lt_mul (by decide), ← Nat.pow_succ]
      exact h
    rw [leBytes, leValue, ih hdiv, UInt8.toNat_ofNat']
    omega

/-! ## Terminated strings -/

/-- The string at address `a`, terminator included, looking at `n` cells at most. -/
def cString (m : Nat → UInt8) : Nat → Nat → List UInt8
  | _, 0 => []
  | a, n + 1 => if m a = 0 then [0] else m a :: cString m (a + 1) n

theorem cString_of_load {m : Nat → UInt8} {cs : List UInt8} {a n : Nat} (hn : cs.length < n)
    (h0 : 0 ∉ cs) (h : load m a (cs.length + 1) = cs ++ [0]) : cString m a n = cs ++ [0] := by
  induction cs generalizing a n with
  | nil =>
    obtain ⟨n, rfl⟩ := Nat.exists_eq_add_of_lt hn
    rw [cString, if_pos]
    · rfl
    · simpa [load, List.range_one] using h
  | cons c cs ih =>
    obtain ⟨n, rfl⟩ := Nat.exists_eq_add_of_lt (Nat.lt_of_le_of_lt (Nat.zero_le _) hn)
    rw [List.length_cons, Nat.add_comm (cs.length + 1) 1, load_add] at h
    have hc : m a = c ∧ load m (a + 1) (cs.length + 1) = cs ++ [0] := by
      simpa [load, List.range_one] using h
    have hc0 : c ≠ 0 := fun he => h0 (he ▸ List.mem_cons_self)
    rw [Nat.zero_add, cString, hc.1, if_neg hc0,
      ih (by simpa using hn) (fun hm => h0 (List.mem_cons_of_mem _ hm)) hc.2]
    rfl

/-- A terminated string is read back from where it was copied. -/
theorem cString_write {m : Nat → UInt8} {cs : List UInt8} {a n : Nat} (hn : cs.length < n)
    (h0 : 0 ∉ cs) : cString (write m a (cs ++ [0])) a n = cs ++ [0] := by
  refine cString_of_load hn h0 ?_
  have hlen : cs.length + 1 = (cs ++ [0]).length := by simp
  rw [hlen, load_write]

/-! ## Frames -/

/-- A message behind its length in a word of `w` bytes. -/
def frame (w : Nat) (msg : List UInt8) : List UInt8 := leBytes w msg.length ++ msg

@[simp] theorem frame_length {w : Nat} {msg : List UInt8} :
    (frame w msg).length = w + msg.length := by
  rw [frame, List.length_append, leBytes_length]

/-- The messages framed in `bs`, reading `fuel` frames at most. -/
def unframe (w : Nat) : Nat → List UInt8 → List (List UInt8)
  | 0, _ => []
  | fuel + 1, bs =>
    if bs = [] then []
    else
      let len := leValue (bs.take w)
      (bs.drop w).take len :: unframe w fuel (bs.drop (w + len))

theorem unframe_frame_append {w fuel : Nat} {msg rest : List UInt8} (hw : 0 < w)
    (hm : msg.length < 256 ^ w) :
    unframe w (fuel + 1) (frame w msg ++ rest) = msg :: unframe w fuel rest := by
  have hne : frame w msg ++ rest ≠ [] := by
    intro h
    have hl := congrArg List.length h
    simp only [List.length_append, frame_length, List.length_nil] at hl
    omega
  have htake : (frame w msg ++ rest).take w = leBytes w msg.length := by
    rw [frame, List.append_assoc]
    exact List.take_left' leBytes_length
  have hdrop : (frame w msg ++ rest).drop w = msg ++ rest := by
    rw [frame, List.append_assoc]
    exact List.drop_left' leBytes_length
  rw [unframe, if_neg hne]
  simp only [htake, hdrop, leValue_leBytes hm]
  rw [List.take_left, ← List.drop_drop, hdrop, List.drop_left]

/-- The messages of a list of frames, read with enough fuel. -/
theorem unframe_flatMap {w : Nat} {q : List (List UInt8)} (hw : 0 < w)
    (hq : ∀ msg ∈ q, msg.length < 256 ^ w) {fuel : Nat} (hf : q.length ≤ fuel) :
    unframe w fuel (q.flatMap (frame w)) = q := by
  induction q generalizing fuel with
  | nil => cases fuel <;> rfl
  | cons msg q ih =>
    obtain ⟨fuel, rfl⟩ := Nat.exists_eq_add_of_le hf
    rw [List.flatMap_cons, List.length_cons, Nat.add_right_comm,
      unframe_frame_append hw (hq msg List.mem_cons_self),
      ih (fun m hm => hq m (List.mem_cons_of_mem _ hm)) (Nat.le_add_right _ _)]

theorem length_le_flatMap {w : Nat} (hw : 0 < w) (q : List (List UInt8)) :
    q.length ≤ (q.flatMap (frame w)).length := by
  induction q with
  | nil => exact Nat.le_refl _
  | cons msg q ih =>
    rw [List.flatMap_cons, List.length_append, frame_length, List.length_cons]
    omega

end ByteMemory
