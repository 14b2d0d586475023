import Lyre.Infra.Bytes
import Mathlib.Data.List.Nodup
import Mathlib.Data.List.Perm.Basic
import Mathlib.Logic.Function.Basic

/-!
# `lib/hashmap.k.h`: hash maps with string keys

A bucket is the list of its items. `HASHMAP_INSERT` does not look for the key that it inserts: that
the keys of a map are distinct is up to its users. A key of more than `HASHMAP_KEY_DATA_MAX` bytes is
written over what is behind it, and a map with capacity zero has no bucket, so that an insertion has
no result then.

The entries of a map are those of all its buckets. An insertion adds one to them, a removal takes one
away (`insert_perm`, `remove_perm`), and a lookup finds a key if and only if one of them has it.
-/

namespace Lyre

abbrev Key := List (BitVec 8)

/-- One turn of `hash`. -/
def hashStep (hash : BitVec 32) (c : BitVec 8) : BitVec 32 :=
  c.setWidth 32 + (hash <<< 6) + (hash <<< 16) - hash

/-- `hash`. -/
def hash (data : Key) : Nat := (data.foldl hashStep 0).toNat

/-- `HASHMAP_KEY_DATA_MAX`. -/
def hashmapKeyDataMax : Nat := 256

/-- `HASHMAP_TYPE`. The buckets are allocated with the first insertion. -/
structure Hashmap (V : Type) where
  cap : Nat
  buckets : Option (Nat → List (Key × V))

namespace Hashmap

variable {V : Type} {m m' : Hashmap V} {key : Key} {item : V}

/-- `HASHMAP_INIT`. -/
def init (cap : Nat) : Hashmap V := ⟨cap, none⟩

def index (m : Hashmap V) (key : Key) : Nat := hash key % m.cap

/-- `HASHMAP_SGET`. -/
def get (m : Hashmap V) (key : Key) : Option V :=
  m.buckets.bind fun buckets => ((buckets (m.index key)).find? (·.1 = key)).map Prod.snd

/-- The item at the index `i` is taken out of a bucket: the last one moves to its place. -/
def takeOut (bucket : List (Key × V)) (i : Nat) : List (Key × V) :=
  match bucket.getLast? with
  | some last => (bucket.set i last).dropLast
  | none => bucket

/-- `HASHMAP_SREMOVE`, with `none` if there is no such key. -/
def remove (m : Hashmap V) (key : Key) : Option (Hashmap V) :=
  m.buckets.bind fun buckets =>
    ((buckets (m.index key)).findIdx? (·.1 = key)).map fun i =>
      { m with
        buckets := some (Function.update buckets (m.index key)
          (takeOut (buckets (m.index key)) i)) }

/-- `HASHMAP_SINSERT`. -/
def insert (m : Hashmap V) (key : Key) (item : V) : Option (Hashmap V) :=
  if m.cap = 0 ∨ hashmapKeyDataMax < key.length then none
  else
    let buckets := m.buckets.getD fun _ => []
    some { m with
      buckets := some (Function.update buckets (m.index key)
        (buckets (m.index key) ++ [(key, item)])) }

/-! ## The entries of a map -/

def entries (m : Hashmap V) : List (Key × V) :=
  (List.range m.cap).flatMap (m.buckets.getD fun _ => [])

def names (m : Hashmap V) : List Key := m.entries.map Prod.fst

theorem flatMap_update {b : Nat → List (Key × V)} {i : Nat} {e : Key × V} {l : List (Key × V)}
    (hl : l.Perm (e :: b i)) :
    ∀ {is : List Nat}, is.Nodup → i ∈ is →
      (is.flatMap (Function.update b i l)).Perm (e :: is.flatMap b)
  | [], _, hi => by simp at hi
  | j :: is, hnd, hi => by
    obtain ⟨hj, hnd⟩ := List.nodup_cons.mp hnd
    rw [List.flatMap_cons, List.flatMap_cons]
    by_cases hij : i = j
    · subst hij
      have hsame : is.flatMap (Function.update b i l) = is.flatMap b :=
        List.flatMap_congr fun k hk =>
          Function.update_of_ne (fun h : k = i => hj (by rw [← h]; exact hk)) _ _
      rw [Function.update_self, hsame]
      exact hl.append_right _
    · rw [Function.update_of_ne (Ne.symm hij)]
      have hi' : i ∈ is := (List.mem_cons.mp hi).resolve_left hij
      exact ((flatMap_update hl hnd hi').append_left _).trans List.perm_middle

theorem insert_perm (h : m.insert key item = some m') :
    m'.entries.Perm ((key, item) :: m.entries) := by
  unfold insert at h
  split at h
  · simp at h
  · next hok =>
    obtain rfl := Option.some.inj h
    rw [not_or] at hok
    have hlt : m.index key < m.cap := Nat.mod_lt _ (Nat.pos_of_ne_zero hok.1)
    exact flatMap_update (List.perm_append_singleton _ _) List.nodup_range
      (List.mem_range.mpr hlt)

theorem takeOut_perm {bucket : List (Key × V)} {i : Nat} {e : Key × V} (h : bucket[i]? = some e) :
    bucket.Perm (e :: takeOut bucket i) := by
  rcases List.eq_nil_or_concat bucket with rfl | ⟨first, last, rfl⟩
  · simp at h
  rw [List.concat_eq_append] at h ⊢
  unfold takeOut
  rw [List.getLast?_concat]
  simp only
  rw [List.set_append]
  by_cases hi : i < first.length
  · -- the last item moves
    rw [List.getElem?_append_left hi, List.getElem?_eq_getElem hi] at h
    obtain rfl := Option.some.inj h
    rw [if_pos hi, List.dropLast_concat, List.set_eq_take_append_cons_drop, if_pos hi]
    have hsplit : first = first.take i ++ first[i] :: first.drop (i + 1) := by
      rw [List.getElem_cons_drop, List.take_append_drop]
    have hmoved : (first ++ [last]).Perm (last :: first) := List.perm_append_singleton _ _
    refine hmoved.trans ?_
    refine ((List.Perm.of_eq hsplit).trans List.perm_middle).cons last |>.trans ?_
    exact (List.Perm.swap _ _ _).trans (List.perm_middle.symm.cons _)
  · -- it is the last item
    have hlen : i = first.length := by
      have hlt := (List.getElem?_eq_some_iff.mp h).1
      rw [List.length_append, List.length_singleton] at hlt
      omega
    subst hlen
    rw [if_neg hi, Nat.sub_self, List.set_cons_zero, List.dropLast_concat]
    rw [List.getElem?_concat_length] at h
    obtain rfl := Option.some.inj h
    exact List.perm_append_singleton _ _

theorem remove_perm (hcap : 0 < m.cap) (h : m.remove key = some m') :
    ∃ item, m.entries.Perm ((key, item) :: m'.entries) := by
  obtain ⟨buckets, hbuckets, h⟩ := Option.bind_eq_some_iff.mp h
  obtain ⟨i, hi, rfl⟩ := Option.map_eq_some_iff.mp h
  obtain ⟨hlt, hkey, -⟩ := List.findIdx?_eq_some_iff_getElem.mp hi
  have hget : (buckets (m.index key))[i]? = some (key, (buckets (m.index key))[i].2) := by
    rw [List.getElem?_eq_getElem hlt]
    exact congrArg some (Prod.ext (of_decide_eq_true hkey) rfl)
  refine ⟨(buckets (m.index key))[i].2, ?_⟩
  have hback := flatMap_update (b := Function.update buckets (m.index key)
    (takeOut (buckets (m.index key)) i)) (i := m.index key) (l := buckets (m.index key))
    (by rw [Function.update_self]; exact takeOut_perm hget) List.nodup_range
    (List.mem_range.mpr (Nat.mod_lt _ hcap))
  rw [Function.update_idem, Function.update_eq_self] at hback
  unfold entries
  rw [hbuckets]
  exact hback

/-! ## Well-formed maps -/

/-- Items are in the buckets of their keys, and no two of them have the same key. -/
structure WellFormed (m : Hashmap V) : Prop where
  placed : ∀ buckets, m.buckets = some buckets →
    0 < m.cap ∧ ∀ i, ∀ e ∈ buckets i, m.index e.1 = i
  nodup : m.names.Nodup

theorem init_wellFormed (cap : Nat) : (init cap : Hashmap V).WellFormed where
  placed := fun _ h => by simp [init] at h
  nodup := by
    have hnil : (init cap : Hashmap V).entries = [] :=
      List.flatMap_eq_nil_iff.mpr fun _ _ => rfl
    rw [names, hnil]
    exact List.nodup_nil

theorem WellFormed.mem_bucket (h : m.WellFormed) {buckets : Nat → List (Key × V)}
    (hb : m.buckets = some buckets) {e : Key × V} :
    e ∈ m.entries ↔ e ∈ buckets (m.index e.1) := by
  obtain ⟨hcap, hplaced⟩ := h.placed buckets hb
  unfold entries
  rw [hb, List.mem_flatMap]
  constructor
  · rintro ⟨i, -, hi⟩
    rw [hplaced i e hi]
    exact hi
  · intro he
    exact ⟨m.index e.1, List.mem_range.mpr (Nat.mod_lt _ hcap), he⟩

theorem entries_of_none (hb : m.buckets = none) : m.entries = [] := by
  unfold entries
  rw [hb]
  exact List.flatMap_eq_nil_iff.mpr fun _ _ => rfl

/-- **A lookup finds the only entry with the key.** -/
theorem WellFormed.get_eq_some (h : m.WellFormed) :
    m.get key = some item ↔ (key, item) ∈ m.entries := by
  rcases hb : m.buckets with _ | buckets
  · rw [entries_of_none hb, get, hb]
    simp
  rw [h.mem_bucket hb, get, hb, Option.bind_some, Option.map_eq_some_iff]
  constructor
  · rintro ⟨e, he, rfl⟩
    obtain rfl : e.1 = key := by simpa using List.find?_some he
    exact List.mem_of_find?_eq_some he
  · intro hmem
    rcases hf : (buckets (m.index key)).find? (·.1 = key) with _ | e
    · rw [List.find?_eq_none] at hf
      exact absurd (decide_eq_true rfl) (hf _ hmem)
    · have hkey : e.1 = key := by simpa using List.find?_some hf
      refine ⟨e, hf, ?_⟩
      have he : e ∈ m.entries := by
        rw [h.mem_bucket hb, hkey]
        exact List.mem_of_find?_eq_some hf
      have hitem : (key, item) ∈ m.entries := (h.mem_bucket hb).mpr hmem
      have hsame := List.inj_on_of_nodup_map h.nodup he hitem hkey
      rw [hsame]

theorem WellFormed.get_eq_none (h : m.WellFormed) : m.get key = none ↔ key ∉ m.names := by
  rw [names, List.mem_map]
  constructor
  · rintro hnone ⟨⟨k, item⟩, hmem, rfl⟩
    rw [h.get_eq_some.mpr hmem] at hnone
    simp at hnone
  · intro hno
    rcases hget : m.get key with _ | item
    · rfl
    · exact absurd ⟨_, h.get_eq_some.mp hget, rfl⟩ hno

/-- **A key that is not there is inserted.** -/
theorem WellFormed.insert (h : m.WellFormed) (hno : key ∉ m.names)
    (hi : m.insert key item = some m') : m'.WellFormed where
  nodup := by
    have hperm := (insert_perm hi).map Prod.fst
    exact (hperm.nodup_iff).mpr (List.nodup_cons.mpr ⟨hno, h.nodup⟩)
  placed := by
    unfold Hashmap.insert at hi
    split at hi
    · simp at hi
    next hok =>
    obtain rfl := Option.some.inj hi
    rw [not_or] at hok
    intro buckets hb
    obtain rfl := Option.some.inj hb
    refine ⟨Nat.pos_of_ne_zero hok.1, fun i e he => ?_⟩
    have hold : ∀ i, ∀ e ∈ (m.buckets.getD fun _ => []) i, m.index e.1 = i := by
      rcases hbm : m.buckets with _ | b
      · intro i e he
        simp at he
      · exact (h.placed b hbm).2
    by_cases hi : i = m.index key
    · subst hi
      rw [Function.update_self] at he
      rcases List.mem_append.mp he with he | he
      · exact hold _ e he
      · rw [List.mem_singleton.mp he]
        rfl
    · rw [Function.update_of_ne hi] at he
      exact hold i e he

theorem WellFormed.remove_names (h : m.WellFormed) (hr : m.remove key = some m') {name : Key}
    (hn : name ∈ m'.names) : name ∈ m.names := by
  obtain ⟨buckets, hb, -⟩ := Option.bind_eq_some_iff.mp hr
  obtain ⟨item, hperm⟩ := remove_perm (h.placed buckets hb).1 hr
  exact ((hperm.map Prod.fst).mem_iff).mpr (List.mem_cons_of_mem _ hn)

theorem WellFormed.remove (h : m.WellFormed) (hr : m.remove key = some m') : m'.WellFormed := by
  obtain ⟨buckets, hb, hrest⟩ := Option.bind_eq_some_iff.mp hr
  obtain ⟨hcap, hplaced⟩ := h.placed buckets hb
  obtain ⟨item, hperm⟩ := remove_perm hcap hr
  refine ⟨?_, ?_⟩
  · obtain ⟨i, hi, rfl⟩ := Option.map_eq_some_iff.mp hrest
    intro b hb'
    obtain rfl := Option.some.inj hb'
    refine ⟨hcap, fun j e he => ?_⟩
    by_cases hj : j = m.index key
    · subst hj
      rw [Function.update_self] at he
      obtain ⟨hlt, -⟩ := List.findIdx?_eq_some_iff_getElem.mp hi
      have hmem := (takeOut_perm (List.getElem?_eq_getElem hlt)).mem_iff (a := e)
      exact hplaced _ e (hmem.mpr (List.mem_cons_of_mem _ he))
    · rw [Function.update_of_ne hj] at he
      exact hplaced j e he
  · have hnd := ((hperm.map Prod.fst).nodup_iff).mp h.nodup
    exact (List.nodup_cons.mp hnd).2

end Hashmap

end Lyre

/-!
## The arrays behind a hash map

`Hashmap` takes a bucket for the list of its items. Here a bucket is as in memory: an array of which
the first `filled` places are in use, with `cap` places in all. An item has a buffer for its key, of
which the bytes behind the key are those that were there before.

Allocations succeed. What `alloc` and `realloc` put where nothing has been copied to is an argument of
an insertion.
-/

namespace Lyre

/-- One item of a bucket. -/
structure HashmapItem (V : Type) where
  keyData : Nat → BitVec 8
  keyLength : Nat
  item : V

structure HashmapBucket (V : Type) where
  cap : Nat
  filled : Nat
  items : Nat → HashmapItem V

/-- `HASHMAP_TYPE`. -/
structure HashmapItems (V : Type) where
  cap : Nat
  buckets : Option (Nat → HashmapBucket V)

variable {V : Type}

/-- `memcmp(data, buffer, length) == 0`, for `length` bytes from `i` on. -/
def memcmpEq (buffer : Nat → BitVec 8) : Nat → Key → Bool
  | _, [] => true
  | i, c :: data => c == buffer i && memcmpEq buffer (i + 1) data

/-- `memcpy(buffer, data, length)`, to the places from `i` on. -/
def memcpyKey (buffer : Nat → BitVec 8) : Nat → Key → Nat → BitVec 8
  | _, [] => buffer
  | i, c :: data => Function.update (memcpyKey buffer (i + 1) data) i c

/-- The test that the loops make of an item. -/
def HashmapItem.matches (e : HashmapItem V) (key : Key) : Bool :=
  key.length == e.keyLength && memcmpEq e.keyData 0 key

/-- The loop of `HASHMAP_GET` and `HASHMAP_REMOVE`, for `k` items from `i` on. -/
def findItem (items : Nat → HashmapItem V) (key : Key) : Nat → Nat → Option Nat
  | 0, _ => none
  | k + 1, i => if (items i).matches key then some i else findItem items key k (i + 1)

/-- The item is taken out: the last one is copied to its place. -/
def HashmapBucket.takeOut (b : HashmapBucket V) (i : Nat) : HashmapBucket V :=
  { b with
    items := if i ≠ b.filled - 1 then Function.update b.items i (b.items (b.filled - 1)) else b.items
    filled := b.filled - 1 }

/-- There is a place behind the items; `fresh` is what is in new memory. -/
def HashmapBucket.reserve (b : HashmapBucket V) (fresh : Nat → HashmapItem V) : HashmapBucket V :=
  let b := if b.cap = 0 then { b with cap := 16, items := fresh } else b
  if b.filled = b.cap then
    { b with cap := b.cap * 2, items := fun i => if i < b.cap then b.items i else fresh i }
  else b

/-- The key and the item are written behind the items. -/
def HashmapBucket.put (b : HashmapBucket V) (key : Key) (item : V) : HashmapBucket V :=
  { b with
    items := Function.update b.items b.filled
      ⟨memcpyKey (b.items b.filled).keyData 0 key, key.length, item⟩
    filled := b.filled + 1 }

namespace HashmapItems

def init (cap : Nat) : HashmapItems V := ⟨cap, none⟩

def index (m : HashmapItems V) (key : Key) : Nat := hash key % m.cap

/-- `HASHMAP_GET`. -/
def get (m : HashmapItems V) (key : Key) : Option V :=
  match m.buckets with
  | none => none
  | some buckets =>
    let b := buckets (m.index key)
    (findItem b.items key b.filled 0).map fun i => (b.items i).item

/-- `HASHMAP_REMOVE`; the flag is its value. -/
def remove (m : HashmapItems V) (key : Key) : Bool × HashmapItems V :=
  match m.buckets with
  | none => (false, m)
  | some buckets =>
    let b := buckets (m.index key)
    match findItem b.items key b.filled 0 with
    | none => (false, m)
    | some i =>
      (true, { m with buckets := some (Function.update buckets (m.index key) (b.takeOut i)) })

/-- `HASHMAP_INSERT`; `none` where it divides by zero, or writes behind the buffer for the key. -/
def insert (m : HashmapItems V) (key : Key) (item : V) (fresh : Nat → HashmapItem V) :
    Option (HashmapItems V) :=
  if m.cap = 0 ∨ hashmapKeyDataMax < key.length then none
  else
    -- the memory for the buckets is zeroed
    let buckets := m.buckets.getD fun _ => ⟨0, 0, fresh⟩
    let b := buckets (m.index key)
    some { m with
      buckets := some (Function.update buckets (m.index key) ((b.reserve fresh).put key item)) }

end HashmapItems

end Lyre

/-!
## The bytes of a bucket

In a map of pointers an item is `key_data`, and behind it `key_length` and `item`. Here the items of a
bucket are the memory from address 0 on, with room for one more. Nothing bounds what an insertion
copies: of a key that is too long the first bytes are in `key_data`, and the others where the next two
fields are written afterwards, or in the items behind.
-/

namespace Lyre

open Infra

/-- `sizeof(*bucket->items)`. -/
def hashmapItemSize : Nat := hashmapKeyDataMax + 16

structure BucketBytes where
  filled : Nat
  items : Bytes.Mem

namespace BucketBytes

/-- `&bucket->items[i]`, which is the address of its `key_data`. -/
def place (i : Nat) : Nat := i * hashmapItemSize

/-- `bucket->items[i].key_length`. -/
def keyLength (b : BucketBytes) (i : Nat) : Nat := Bytes.read b.items (place i + hashmapKeyDataMax) 8

/-- `bucket->items[i].item`. -/
def item (b : BucketBytes) (i : Nat) : Nat := Bytes.read b.items (place i + hashmapKeyDataMax + 8) 8

/-- The test that the loops make of an item. -/
def sameKey (b : BucketBytes) (key : Key) (i : Nat) : Bool :=
  key.length == b.keyLength i && memcmpEq b.items (place i) key

/-- `HASHMAP_GET`, in the bucket of the key. -/
def get (b : BucketBytes) (key : Key) : Option Nat :=
  ((List.range b.filled).find? (b.sameKey key)).map b.item

/-- The end of `HASHMAP_INSERT`, in the bucket of the key. -/
def put (b : BucketBytes) (key : Key) (item : Nat) : BucketBytes where
  filled := b.filled + 1
  items :=
    let items := memcpyKey b.items (place b.filled) key
    let items := Bytes.write items (place b.filled + hashmapKeyDataMax) 8 key.length
    Bytes.write items (place b.filled + hashmapKeyDataMax + 8) 8 item

end BucketBytes

end Lyre
