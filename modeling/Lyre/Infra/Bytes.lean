import Mathlib.Algebra.Group.Nat.Defs
import Mathlib.Algebra.GroupWithZero.Nat
import Mathlib.Data.List.GetD
import Mathlib.Tactic.Common

/-!
# Memory of bytes

Memory is a function from addresses to bytes. Numbers are stored little-endian; `fill` and `copy`
change a whole interval. What a write does is said by two kinds of lemmas: what is read back, and
what does not change because it lies apart.

A linked list in memory (`Chain`) has the address of the next node in the first eight bytes of each
node, and ends with 0.
-/

namespace Infra.Bytes

abbrev Mem := Nat → BitVec 8

variable {m m' : Mem} {a b n k v : Nat}

/-! ## Intervals -/

/-- `[a, a + n)` and `[b, b + k)` have no address in common. -/
def Apart (a n b k : Nat) : Prop := a + n ≤ b ∨ b + k ≤ a

instance : Decidable (Apart a n b k) := inferInstanceAs (Decidable (_ ∨ _))

theorem Apart.symm (h : Apart a n b k) : Apart b k a n := Or.symm h

theorem Apart.mono {a' n' b' k' : Nat} (h : Apart a n b k) (ha : a ≤ a') (hn : a' + n' ≤ a + n)
    (hb : b ≤ b') (hk : b' + k' ≤ b + k) : Apart a' n' b' k' := by
  unfold Apart at *
  omega

/-- Outside of `[a, a + n)` the memories agree. -/
def SameOff (m m' : Mem) (a n : Nat) : Prop := ∀ x, ¬ (a ≤ x ∧ x < a + n) → m' x = m x

namespace SameOff

theorem refl (m : Mem) (a n : Nat) : SameOff m m a n := fun _ _ => rfl

theorem mono (h : SameOff m m' a n) (hb : b ≤ a) (hk : a + n ≤ b + k) : SameOff m m' b k :=
  fun x hx => h x (by omega)

theorem trans {m'' : Mem} (h : SameOff m m' a n) (h' : SameOff m' m'' a n) : SameOff m m'' a n :=
  fun x hx => by rw [h' x hx, h x hx]

theorem trans' {m'' : Mem} {c w : Nat} (h : SameOff m m' a n) (h' : SameOff m' m'' b k)
    (ha : c ≤ a ∧ a + n ≤ c + w) (hb : c ≤ b ∧ b + k ≤ c + w) : SameOff m m'' c w :=
  (h.mono ha.1 ha.2).trans (h'.mono hb.1 hb.2)

end SameOff

/-! ## Numbers -/

/-- `n` bytes from `a` on, the first one being the least significant. -/
def read (m : Mem) : Nat → Nat → Nat
  | _, 0 => 0
  | a, n + 1 => (m a).toNat + 256 * read m (a + 1) n

/-- The `n` low bytes of `v` are stored from `a` on. -/
def write (m : Mem) (a n v : Nat) : Mem := fun x =>
  if a ≤ x ∧ x < a + n then BitVec.ofNat 8 (v / 256 ^ (x - a)) else m x

theorem read_congr : ∀ {n a : Nat}, (∀ x, a ≤ x → x < a + n → m' x = m x) →
    read m' a n = read m a n
  | 0, _, _ => rfl
  | n + 1, a, h => by
    rw [read, read, h a (Nat.le_refl a) (by omega), read_congr fun x hx hx' => h x (by omega) (by omega)]

theorem read_lt (m : Mem) : ∀ (n a : Nat), read m a n < 256 ^ n
  | 0, _ => Nat.zero_lt_one
  | n + 1, a => by
    have hfirst := (m a).isLt
    have hrest := read_lt m n (a + 1)
    rw [read, Nat.pow_succ]
    omega

theorem read_zeros : ∀ {n a : Nat}, (∀ x, a ≤ x → x < a + n → m x = 0) → read m a n = 0
  | 0, _, _ => rfl
  | n + 1, a, h => by
    rw [read, h a (Nat.le_refl a) (by omega), read_zeros fun x hx hx' => h x (by omega) (by omega)]
    rfl

theorem read_sameOff (h : SameOff m m' a n) (hap : Apart a n b k) : read m' b k = read m b k :=
  read_congr fun x hx hx' => h x (by unfold Apart at hap; omega)

theorem write_sameOff (m : Mem) (a n v : Nat) : SameOff m (write m a n v) a n :=
  fun _ hx => if_neg hx

/-- Bytes that hold the digits of `v` are read as `v`. -/
theorem read_digits : ∀ {n a v : Nat},
    (∀ x, a ≤ x → x < a + n → m x = BitVec.ofNat 8 (v / 256 ^ (x - a))) →
    read m a n = v % 256 ^ n
  | 0, _, v, _ => by rw [read, Nat.pow_zero, Nat.mod_one]
  | n + 1, a, v, h => by
    have hfirst : (m a).toNat = v % 256 := by
      rw [h a (Nat.le_refl a) (by omega), Nat.sub_self, Nat.pow_zero, Nat.div_one]
      exact BitVec.toNat_ofNat v 8
    have hrest : read m (a + 1) n = v / 256 % 256 ^ n := by
      refine read_digits fun x hx hx' => ?_
      rw [h x (by omega) (by omega), show x - a = x - (a + 1) + 1 by omega, Nat.pow_succ',
        Nat.div_div_eq_div_mul]
    rw [read, hfirst, hrest, Nat.pow_succ', Nat.mod_mul]

theorem read_byte : ∀ {n a k : Nat}, k < n → BitVec.ofNat 8 (read m a n / 256 ^ k) = m (a + k)
  | 0, _, _, h => absurd h (Nat.not_lt_zero _)
  | n + 1, a, 0, _ => by
    rw [read, Nat.pow_zero, Nat.div_one, Nat.add_zero, BitVec.ofNat_add, BitVec.ofNat_mul,
      BitVec.ofNat_toNat, BitVec.setWidth_eq]
    simp
  | n + 1, a, k + 1, h => by
    have hdiv : ((m a).toNat + 256 * read m (a + 1) n) / 256 = read m (a + 1) n := by
      have := (m a).isLt
      omega
    rw [read, Nat.pow_succ', ← Nat.div_div_eq_div_mul, hdiv, read_byte (Nat.lt_of_succ_lt_succ h),
      Nat.add_assoc, Nat.add_comm 1]

theorem read_write (m : Mem) (a n v : Nat) : read (write m a n v) a n = v % 256 ^ n :=
  read_digits fun _ hx hx' => if_pos ⟨hx, hx'⟩

/-! ## Intervals of bytes -/

/-- Zeros. -/
def fill (m : Mem) (a n : Nat) : Mem := fun x => if a ≤ x ∧ x < a + n then 0 else m x

/-- `n` bytes from `b` on are put at `a`. -/
def copy (m : Mem) (a b n : Nat) : Mem := fun x =>
  if a ≤ x ∧ x < a + n then m (b + (x - a)) else m x

/-- `n` bytes from `a` on become those of `f`. -/
def put (m : Mem) (a n : Nat) (f : Nat → BitVec 8) : Mem := fun x =>
  if a ≤ x ∧ x < a + n then f (x - a) else m x

theorem put_sameOff (m : Mem) (a n : Nat) (f : Nat → BitVec 8) : SameOff m (put m a n f) a n :=
  fun _ hx => if_neg hx

theorem put_at (m : Mem) (a : Nat) (f : Nat → BitVec 8) (hk : k < n) :
    put m a n f (a + k) = f k := by
  rw [put, if_pos (by omega), Nat.add_sub_cancel_left]

theorem fill_sameOff (m : Mem) (a n : Nat) : SameOff m (fill m a n) a n := fun _ hx => if_neg hx

theorem fill_zero (hk : a ≤ k) (hk' : k < a + n) : fill m a n k = 0 := if_pos ⟨hk, hk'⟩

theorem copy_sameOff (m : Mem) (a b n : Nat) : SameOff m (copy m a b n) a n :=
  fun _ hx => if_neg hx

/-- The bytes of a list are in memory from `a` on. -/
def Holds (m : Mem) (a : Nat) (l : List (BitVec 8)) : Prop := ∀ k < l.length, m (a + k) = l.getD k 0

namespace Holds

variable {l l' : List (BitVec 8)}

theorem left (h : Holds m a (l ++ l')) : Holds m a l := fun k hk => by
  rw [h k (by rw [List.length_append]; omega), List.getD_append _ _ _ _ hk]

theorem right (h : Holds m a (l ++ l')) : Holds m (a + l.length) l' := fun k hk => by
  rw [Nat.add_assoc, h (l.length + k) (by rw [List.length_append]; omega),
    List.getD_append_right _ _ _ _ (Nat.le_add_right _ _), Nat.add_sub_cancel_left]

theorem append (h : Holds m a l) (h' : Holds m (a + l.length) l') : Holds m a (l ++ l') := by
  intro k hk
  rw [List.length_append] at hk
  rcases Nat.lt_or_ge k l.length with hlt | hge
  · rw [h k hlt, List.getD_append _ _ _ _ hlt]
  · have hrest := h' (k - l.length) (by omega)
    rw [List.getD_append_right _ _ _ _ hge, ← hrest]
    congr 1
    omega

theorem sameOff (h : Holds m b l) (hs : SameOff m m' a n) (hap : Apart a n b l.length) :
    Holds m' b l := fun k hk => by
  rw [hs (b + k) (by unfold Apart at hap; omega), h k hk]

/-- Addresses are counted from `a` on. -/
theorem shift (h : Holds m a l) : Holds (fun k => m (a + k)) 0 l := fun k hk => by
  rw [Nat.zero_add]
  exact h k hk

theorem map_range (h : Holds m a l) : ((List.range l.length).map fun k => m (a + k)) = l := by
  refine List.ext_getElem (by rw [List.length_map, List.length_range]) fun k _ hk => ?_
  rw [List.getElem_map, List.getElem_range, h k hk, List.getD_eq_getElem l 0 hk]

end Holds

/-! ## Linked lists -/

/-- The nodes of a linked list whose first node is at the address. -/
def Chain (m : Mem) : Nat → List Nat → Prop
  | a, [] => a = 0
  | a, x :: l => a = x ∧ x ≠ 0 ∧ Chain m (read m x 8) l

namespace Chain

theorem congr : ∀ {l : List Nat} {a : Nat}, (∀ x ∈ l, read m' x 8 = read m x 8) →
    Chain m a l → Chain m' a l
  | [], _, _, h => h
  | x :: l, _, hm, ⟨ha, hx, h⟩ =>
    ⟨ha, hx, by
      rw [hm x List.mem_cons_self]
      exact h.congr fun y hy => hm y (List.mem_cons_of_mem x hy)⟩

theorem push {l : List Nat} {x : Nat} (h : Chain m a l) (hx : x ≠ 0) (ha : a < 2 ^ 64)
    (hap : ∀ y ∈ l, Apart x 8 y 8) : Chain (write m x 8 a) x (x :: l) := by
  refine ⟨rfl, hx, ?_⟩
  rw [read_write, Nat.mod_eq_of_lt (by omega)]
  exact h.congr fun y hy => read_sameOff (write_sameOff m x 8 a) (hap y hy)

/-- Nodes `f 0`, …, `f n`, each linked to the next one. -/
theorem of_nodes {f : Nat → Nat} (ha : a = f 0) (hne : ∀ k ≤ n, f k ≠ 0)
    (hlink : ∀ k < n, read m (f k) 8 = f (k + 1)) (hlast : read m (f n) 8 = 0) :
    Chain m a ((List.range (n + 1)).map f) := by
  induction n generalizing a f with
  | zero =>
    rw [List.range_one, List.map_singleton]
    exact ⟨ha, hne 0 (Nat.le_refl 0), hlast⟩
  | succ n ih =>
    rw [List.range_succ_eq_map, List.map_cons, List.map_map]
    refine ⟨ha, hne 0 (Nat.zero_le _), ?_⟩
    have hnext : read m (f 0) 8 = (f ∘ Nat.succ) 0 := hlink 0 (Nat.succ_pos n)
    exact ih hnext (fun k hk => hne (k + 1) (by omega)) (fun k hk => hlink (k + 1) (by omega)) hlast

end Chain

end Infra.Bytes

/-!
## Strings that grow

`splice` puts elements into a string at an offset, also beyond its end: what is missing up to the
offset is padded. A string is looked at with `getD`, which gives the padding behind the end, so
that padding cannot be told from what is not there yet; `length_splice` says how long the string is.
-/

namespace Infra.ByteString

variable {α : Type*}

/-- The string is padded up to the offset, and the elements are put there. -/
def splice (pad : α) (l : List α) (offset : Nat) (elems : List α) : List α :=
  let padded := l ++ List.replicate (offset - l.length) pad
  padded.take offset ++ elems ++ padded.drop (offset + elems.length)

variable {pad : α} {l elems : List α} {offset i : Nat}

theorem length_splice : (splice pad l offset elems).length = max l.length (offset + elems.length) := by
  simp only [splice, List.length_append, List.length_take, List.length_drop, List.length_replicate]
  omega

theorem getD_padded (l : List α) (pad : α) (n i : Nat) :
    (l ++ List.replicate n pad).getD i pad = l.getD i pad := by
  by_cases hi : i < l.length
  · exact List.getD_append _ _ _ _ hi
  · have hle : l.length ≤ i := Nat.le_of_not_lt hi
    rw [List.getD_append_right _ _ _ _ hle, List.getD_eq_default _ _ hle]
    by_cases hn : i - l.length < n
    · exact List.getD_replicate pad hn
    · refine List.getD_eq_default _ _ ?_
      rw [List.length_replicate]
      exact Nat.le_of_not_lt hn

theorem getD_splice : (splice pad l offset elems).getD i pad =
    if offset ≤ i ∧ i < offset + elems.length then elems.getD (i - offset) pad else l.getD i pad := by
  have hlen : ((l ++ List.replicate (offset - l.length) pad).take offset).length = offset := by
    rw [List.length_take, List.length_append, List.length_replicate]
    omega
  rw [splice, List.append_assoc]
  by_cases hbefore : i < offset
  · rw [if_neg (by omega), List.getD_append _ _ _ _ (by rwa [hlen]), List.getD_eq_getElem?_getD,
      List.getElem?_take_of_lt hbefore, ← List.getD_eq_getElem?_getD, getD_padded]
  · rw [List.getD_append_right _ _ _ _ (by rw [hlen]; exact Nat.le_of_not_lt hbefore), hlen]
    by_cases hin : i < offset + elems.length
    · rw [if_pos ⟨Nat.le_of_not_lt hbefore, hin⟩, List.getD_append _ _ _ _ (by omega)]
    · have hidx : offset + elems.length + (i - offset - elems.length) = i := by omega
      rw [if_neg (fun h => hin h.2), List.getD_append_right _ _ _ _ (by omega),
        List.getD_eq_getElem?_getD, List.getElem?_drop, hidx, ← List.getD_eq_getElem?_getD,
        getD_padded]

theorem drop_take_eq (pad : α) {n : Nat} (h : offset + n ≤ l.length) :
    (l.drop offset).take n = (List.range n).map fun k => l.getD (offset + k) pad := by
  refine List.ext_getElem ?_ fun k hk hk' => ?_
  · rw [List.length_take, List.length_drop, List.length_map, List.length_range]
    omega
  · rw [List.length_map, List.length_range] at hk'
    rw [List.getElem_map, List.getElem_range, List.getElem_take, List.getElem_drop,
      List.getD_eq_getElem]

end Infra.ByteString

/-!
## Items below one another

Items of given sizes are placed in memory one below the other, the first one right below `top`.
Their intervals lie apart, and when the items are written as one list, the last one first, each of
them is found at its address (`holds_of_stacked`).
-/

namespace Infra.Downward

open Infra.Bytes (Apart Holds)

variable {top d : Nat} {sizes sizes' : List Nat}

/-- The addresses of items of these sizes. -/
def addrs : Nat → List Nat → List Nat
  | _, [] => []
  | top, n :: sizes => (top - n) :: addrs (top - n) sizes

@[simp] theorem length_addrs : ∀ (top : Nat) (sizes : List Nat),
    (addrs top sizes).length = sizes.length
  | _, [] => rfl
  | _, n :: sizes => by rw [addrs, List.length_cons, List.length_cons, length_addrs]

theorem addrs_append : ∀ (top : Nat) (sizes : List Nat),
    addrs top (sizes ++ sizes') = addrs top sizes ++ addrs (top - sizes.sum) sizes'
  | top, [] => by rw [List.nil_append, List.sum_nil, Nat.sub_zero]; rfl
  | top, n :: sizes => by
    rw [List.cons_append, addrs, addrs, addrs_append (top - n) sizes, List.cons_append, List.sum_cons,
      Nat.sub_sub]

/-- The addresses below another `top`. -/
theorem addrs_add : ∀ {top : Nat} {sizes : List Nat}, sizes.sum ≤ top →
    addrs (top + d) sizes = (addrs top sizes).map (· + d)
  | _, [], _ => rfl
  | top, n :: sizes, h => by
    rw [List.sum_cons] at h
    rw [addrs, addrs, List.map_cons, Nat.sub_add_comm (by omega), addrs_add (by omega)]

theorem bounds : ∀ {top : Nat} {sizes : List Nat}, sizes.sum ≤ top →
    ∀ x ∈ (addrs top sizes).zip sizes, top - sizes.sum ≤ x.1 ∧ x.1 + x.2 ≤ top
  | _, [], _, x, hx => absurd hx List.not_mem_nil
  | top, n :: sizes, h, x, hx => by
    rw [List.sum_cons] at h ⊢
    rw [addrs, List.zip_cons_cons] at hx
    rcases List.mem_cons.mp hx with rfl | hx
    · exact ⟨by omega, by omega⟩
    · obtain ⟨hlow, hhigh⟩ := bounds (show sizes.sum ≤ top - n by omega) x hx
      exact ⟨by omega, by omega⟩

theorem pairwise_apart : ∀ {top : Nat} {sizes : List Nat}, sizes.sum ≤ top →
    ((addrs top sizes).zip sizes).Pairwise fun x y => Apart x.1 x.2 y.1 y.2
  | _, [], _ => List.Pairwise.nil
  | top, n :: sizes, h => by
    rw [List.sum_cons] at h
    rw [addrs, List.zip_cons_cons]
    refine List.pairwise_cons.mpr ⟨fun y hy => ?_, pairwise_apart (by omega)⟩
    exact Or.inr (bounds (show sizes.sum ≤ top - n by omega) y hy).2

/-- Items that are written as one list, the last one first, are at their addresses. -/
theorem holds_of_stacked {m : Bytes.Mem} : ∀ {items : List (List (BitVec 8))} {a top : Nat},
    a + (items.map List.length).sum = top → Holds m a items.reverse.flatten →
    ∀ x ∈ (addrs top (items.map List.length)).zip items, Holds m x.1 x.2
  | [], _, _, _, _, x, hx => absurd hx List.not_mem_nil
  | l :: items, a, top, ha, h, x, hx => by
    rw [List.map_cons, List.sum_cons] at ha
    rw [List.reverse_cons, List.flatten_append, List.flatten_singleton] at h
    have hlen : items.reverse.flatten.length = (items.map List.length).sum := by
      rw [List.length_flatten, List.map_reverse, List.sum_reverse]
    rw [List.map_cons, addrs, List.zip_cons_cons] at hx
    rcases List.mem_cons.mp hx with rfl | hx
    · have hright := h.right
      rw [hlen] at hright
      rwa [show a + (items.map List.length).sum = top - l.length by omega] at hright
    · exact holds_of_stacked (by omega) h.left x hx

end Infra.Downward
