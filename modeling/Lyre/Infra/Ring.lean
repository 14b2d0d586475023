import Mathlib.Algebra.Group.Nat.Defs
import Mathlib.Tactic.Common

/-!
# Rings

A ring is a function of which the indices below `cap` are used, one behind the other and the first
behind the last. What is in it are `n` elements from `start` on.

The lemmas are about the two things that one does with a ring: to take elements at its front, and
to put some behind its end. Both are done in at most two pieces (`slice` and `blit`), with the end
of the indices between them.
-/

namespace Infra.Ring

variable {α : Type*} {data data' : Nat → α} {cap start m n : Nat} {elems : List α}

/-- `n` elements at consecutive indices. -/
def slice (data : Nat → α) (start n : Nat) : List α := (List.range n).map fun k => data (start + k)

/-- `n` elements on the ring. -/
def contents (data : Nat → α) (cap start n : Nat) : List α :=
  (List.range n).map fun k => data ((start + k) % cap)

/-- Elements are stored at consecutive indices. -/
def blit (data : Nat → α) (start : Nat) (elems : List α) : Nat → α := fun k =>
  if start ≤ k then elems[k - start]?.getD (data k) else data k

@[simp] theorem length_slice (data : Nat → α) (start n : Nat) : (slice data start n).length = n := by
  rw [slice, List.length_map, List.length_range]

@[simp] theorem length_contents (data : Nat → α) (cap start n : Nat) :
    (contents data cap start n).length = n := by
  rw [contents, List.length_map, List.length_range]

/-! ## Pieces -/

theorem contents_add (data : Nat → α) (cap start m n : Nat) :
    contents data cap start (m + n) =
      contents data cap start m ++ contents data cap ((start + m) % cap) n := by
  unfold contents
  rw [List.range_add, List.map_append, List.map_map]
  congr 1
  refine List.map_congr_left fun k _ => ?_
  rw [Function.comp_apply, Nat.mod_add_mod, Nat.add_assoc]

theorem contents_eq_slice (h : start + n ≤ cap) : contents data cap start n = slice data start n := by
  refine List.map_congr_left fun k hk => ?_
  rw [List.mem_range] at hk
  rw [Nat.mod_eq_of_lt (by omega)]

theorem contents_eq_slices (hstart : start < cap) (hn : n ≤ cap) (h : cap < start + n) :
    contents data cap start n =
      slice data start (cap - start) ++ slice data 0 (n - (cap - start)) := by
  have hsplit : n = (cap - start) + (n - (cap - start)) := by omega
  have hzero : (start + (cap - start)) % cap = 0 := by
    rw [Nat.add_sub_cancel' (Nat.le_of_lt hstart), Nat.mod_self]
  conv_lhs => rw [hsplit]
  rw [contents_add, hzero, contents_eq_slice (by omega), contents_eq_slice (by omega)]

theorem contents_congr (h : ∀ k < n, data' ((start + k) % cap) = data ((start + k) % cap)) :
    contents data' cap start n = contents data cap start n :=
  List.map_congr_left fun k hk => h k (List.mem_range.mp hk)

/-! ## Stores -/

theorem slice_congr (h : ∀ k < n, data' (start + k) = data (start + k)) :
    slice data' start n = slice data start n :=
  List.map_congr_left fun k hk => h k (List.mem_range.mp hk)

theorem blit_apply_of_not {k : Nat} (h : ¬ (start ≤ k ∧ k < start + elems.length)) :
    blit data start elems k = data k := by
  unfold blit
  split
  · rw [List.getElem?_eq_none (by omega), Option.getD_none]
  · rfl

theorem slice_blit (data : Nat → α) (start : Nat) (elems : List α) :
    slice (blit data start elems) start elems.length = elems := by
  refine List.ext_getElem (length_slice _ _ _) fun k hk hk' => ?_
  simp only [slice, List.getElem_map, List.getElem_range]
  rw [blit, if_pos (Nat.le_add_right _ _), Nat.add_sub_cancel_left, List.getElem?_eq_getElem hk',
    Option.getD_some]

theorem blit_apply_of_mem {k : Nat} (h : start ≤ k) (hk : k - start < elems.length) :
    blit data start elems k = elems[k - start] := by
  rw [blit, if_pos h, List.getElem?_eq_getElem hk, Option.getD_some]

theorem slice_add (data : Nat → α) (start m n : Nat) :
    slice data start (m + n) = slice data start m ++ slice data (start + m) n := by
  unfold slice
  rw [List.range_add, List.map_append, List.map_map]
  congr 1
  refine List.map_congr_left fun k _ => ?_
  rw [Function.comp_apply, Nat.add_assoc]

/-! ## Arrays of which the first elements are used -/

theorem slice_succ (data : Nat → α) (start n : Nat) :
    slice data start (n + 1) = data start :: slice data (start + 1) n := by
  rw [Nat.add_comm n 1, slice_add]
  rfl

theorem slice_update_concat (data : Nat → α) (n : Nat) (x : α) :
    slice (Function.update data n x) 0 (n + 1) = slice data 0 n ++ [x] := by
  rw [slice_add]
  congr 1
  · refine slice_congr fun k hk => ?_
    rw [Nat.zero_add, Function.update_of_ne (Nat.ne_of_lt hk)]
  · unfold slice
    rw [List.range_one, List.map_singleton, Nat.zero_add, Nat.add_zero, Function.update_self]

/-- The last element is taken out, whatever is stored in its place. -/
theorem slice_update_dropLast (data : Nat → α) {n : Nat} (hn : n ≠ 0) (x : α) :
    slice (Function.update data (n - 1) x) 0 (n - 1) = (slice data 0 n).dropLast := by
  obtain ⟨m, rfl⟩ := Nat.exists_eq_succ_of_ne_zero hn
  rw [Nat.succ_eq_add_one, slice_add, Nat.add_sub_cancel]
  have hone : slice data (0 + m) 1 = [data (0 + m)] := rfl
  rw [hone, List.dropLast_concat]
  refine slice_congr fun k hk => ?_
  rw [Nat.zero_add, Function.update_of_ne (Nat.ne_of_lt hk)]

theorem blit_append (data : Nat → α) (start : Nat) (xs ys : List α) :
    blit (blit data start xs) (start + xs.length) ys = blit data start (xs ++ ys) := by
  funext k
  by_cases hys : start + xs.length ≤ k ∧ k < start + xs.length + ys.length
  · have hidx : k - start - xs.length = k - (start + xs.length) := Nat.sub_sub _ _ _
    have hlen : k - start < (xs ++ ys).length := by
      rw [List.length_append]
      omega
    rw [blit_apply_of_mem hys.1 (by omega), blit_apply_of_mem (by omega) hlen,
      List.getElem_append_right (by omega)]
    simp only [hidx]
  · rw [blit_apply_of_not hys]
    by_cases hxs : start ≤ k ∧ k < start + xs.length
    · have hlen : k - start < (xs ++ ys).length := by
        rw [List.length_append]
        omega
      rw [blit_apply_of_mem hxs.1 (by omega), blit_apply_of_mem hxs.1 hlen,
        List.getElem_append_left]
    · have hnot : ¬ (start ≤ k ∧ k < start + (xs ++ ys).length) := by
        rw [List.length_append]
        omega
      rw [blit_apply_of_not hxs, blit_apply_of_not hnot]

/-- Elements are stored on the ring. -/
def put (data : Nat → α) (cap ptr : Nat) (elems : List α) : Nat → α :=
  if cap < ptr + elems.length then
    blit (blit data ptr (elems.take (cap - ptr))) 0 (elems.drop (cap - ptr))
  else blit data ptr elems

theorem put_apply_of_not {ptr x : Nat} (h : ¬ (ptr ≤ x ∧ x < ptr + elems.length))
    (hx : x < cap) (h' : ¬ x + cap < ptr + elems.length) : put data cap ptr elems x = data x := by
  unfold put
  split
  · rw [blit_apply_of_not, blit_apply_of_not]
    · rw [List.length_take]
      omega
    · rw [List.length_drop]
      omega
  · exact blit_apply_of_not h

theorem contents_put_self {ptr : Nat} (hptr : ptr < cap) (hlen : elems.length ≤ cap) :
    contents (put data cap ptr elems) cap ptr elems.length = elems := by
  unfold put
  split
  · next h =>
    have htake : (elems.take (cap - ptr)).length = cap - ptr := List.length_take_of_le (by omega)
    have hdrop : (elems.drop (cap - ptr)).length = elems.length - (cap - ptr) := List.length_drop
    rw [contents_eq_slices hptr hlen h]
    -- the second piece ends before the first one begins
    have hfirst : slice (blit (blit data ptr (elems.take (cap - ptr))) 0 (elems.drop (cap - ptr)))
        ptr (cap - ptr) = elems.take (cap - ptr) := by
      have hblit := slice_blit data ptr (elems.take (cap - ptr))
      rw [htake] at hblit
      rw [slice_congr fun k _ => blit_apply_of_not (by omega), hblit]
    rw [hfirst, ← hdrop, slice_blit, List.take_append_drop]
  · next h => rw [contents_eq_slice (by omega), slice_blit]

theorem add_mod_eq {k : Nat} (hstart : start < cap) (hk : k ≤ cap) :
    (start + k) % cap = if start + k < cap then start + k else start + k - cap := by
  split
  · next h => exact Nat.mod_eq_of_lt h
  · next h => rw [Nat.mod_eq_sub_mod (by omega), Nat.mod_eq_of_lt (by omega)]

theorem contents_put_front (hstart : start < cap) (hroom : n + elems.length ≤ cap) :
    contents (put data cap ((start + n) % cap) elems) cap start n = contents data cap start n := by
  refine contents_congr fun k hk => ?_
  have hn := add_mod_eq hstart (show n ≤ cap by omega)
  have hk' := add_mod_eq hstart (show k ≤ cap by omega)
  refine put_apply_of_not ?_ (Nat.mod_lt _ (by omega)) ?_
  · rw [hn, hk']
    split <;> split <;> omega
  · rw [hn, hk']
    split <;> split <;> omega

/-- **Elements that are stored behind the end are the last ones.** -/
theorem contents_put (data : Nat → α) (elems : List α) (hstart : start < cap)
    (hroom : n + elems.length ≤ cap) :
    contents (put data cap ((start + n) % cap) elems) cap start (n + elems.length) =
      contents data cap start n ++ elems := by
  have hcap : 0 < cap := by omega
  rw [contents_add, contents_put_front hstart hroom,
    contents_put_self (Nat.mod_lt _ hcap) (by omega)]

end Infra.Ring
