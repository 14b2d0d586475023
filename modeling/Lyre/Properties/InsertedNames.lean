import Lyre.Properties.Hashmap
import Lyre.Properties.VfsGrowth
import Lyre.Properties.VfsOpen

/-!
# Names that are inserted

`HASHMAP_INSERT` copies a key of any length to the `HASHMAP_KEY_DATA_MAX` bytes of `key_data`, and does
not look whether the key is there already (`stored_iff`). `vfs_create`, `vfs_symlink` and
`syscall_linkat` come to it with names of any length, and with names that are in the directory: the
last one does not look at what its new path leads to, and for the others a slash behind the name of a
file makes it look absent. Nothing else goes wrong (`inserted_iff`).
-/

namespace Lyre

open Infra

/-! ## What a bucket holds -/

theorem memcpyKey_behind {buffer : Nat → BitVec 8} : ∀ {i j : Nat} {data : Key},
    i + data.length ≤ j → memcpyKey buffer i data j = buffer j
  | _, _, [], _ => rfl
  | i, j, _ :: data, h => by
    rw [List.length_cons] at h
    rw [memcpyKey, Function.update_of_ne (by omega)]
    exact memcpyKey_behind (by omega)

theorem memcpyKey_at {buffer : Nat → BitVec 8} {i k : Nat} {data : Key} (hk : k < data.length) :
    memcpyKey buffer i data (i + k) = data[k] := by
  have hread := List.getElem_of_eq (@map_memcpyKey buffer i data) (i := k) (by simpa using hk)
  simpa using hread

theorem memcpyKey_sameOff (m : Bytes.Mem) (a : Nat) (data : Key) :
    Bytes.SameOff m (memcpyKey m a data) a data.length := by
  intro x hx
  by_cases hlt : x < a
  · exact memcpyKey_below hlt
  · exact memcpyKey_behind (by omega)

/-- A key stays in `key_data`, whatever is behind. -/
def FitsKeyData (a : Nat) (key : Key) : Prop :=
  ∀ m, Bytes.SameOff m (memcpyKey m a key) a hashmapKeyDataMax

theorem fitsKeyData_iff {a : Nat} {key : Key} :
    FitsKeyData a key ↔ key.length ≤ hashmapKeyDataMax := by
  constructor
  · intro h
    by_contra hlong
    have hlt : hashmapKeyDataMax < key.length := Nat.lt_of_not_le hlong
    -- the byte behind the field was another one
    have hsame := h (fun _ => ~~~ key[hashmapKeyDataMax]) (a + hashmapKeyDataMax) (by omega)
    rw [memcpyKey_at hlt] at hsame
    have hbit := congrArg (BitVec.getLsbD · 0) hsame
    simp at hbit
  · intro hlen m
    exact (memcpyKey_sameOff m a key).mono (Nat.le_refl a) (by omega)

namespace BucketBytes

variable {b : BucketBytes} {key : Key} {i item : Nat}

def keyAt (b : BucketBytes) (i : Nat) : Key := (List.range' (place i) (b.keyLength i)).map b.items

/-- The items of a bucket. -/
def list (b : BucketBytes) : List (Key × Nat) := (List.range b.filled).map fun i => (b.keyAt i, b.item i)

theorem sameKey_iff : b.sameKey key i = true ↔ b.keyAt i = key := by
  rw [sameKey, Bool.and_eq_true, beq_iff_eq, memcmpEq_iff]
  constructor
  · rintro ⟨hlen, hkey⟩
    rwa [hlen] at hkey
  · intro hkey
    have hlen : key.length = b.keyLength i := by simp [← hkey, BucketBytes.keyAt]
    exact ⟨hlen, by rw [hlen]; exact hkey⟩

theorem length_keyAt : (b.keyAt i).length = b.keyLength i := by simp [keyAt]

theorem get_list : b.get key = (b.list.find? (·.1 = key)).map Prod.snd := by
  have hsame : b.sameKey key = fun i => decide (b.keyAt i = key) := by
    funext i
    rw [Bool.eq_iff_iff, sameKey_iff, decide_eq_true_iff]
  rw [BucketBytes.get, hsame, list, List.find?_map, Option.map_map]
  simp only [Function.comp_def]

/-- No key of the bucket is longer than its field. -/
def Fitting (b : BucketBytes) : Prop := ∀ i < b.filled, b.keyLength i ≤ hashmapKeyDataMax

theorem place_add_le {j : Nat} (h : i < j) : place i + hashmapItemSize ≤ place j := by
  unfold place
  calc i * hashmapItemSize + hashmapItemSize = (i + 1) * hashmapItemSize := (Nat.succ_mul ..).symm
    _ ≤ j * hashmapItemSize := Nat.mul_le_mul_right _ h

theorem put_sameOff (hlen : key.length ≤ hashmapKeyDataMax) :
    Bytes.SameOff b.items (b.put key item).items (place b.filled) hashmapItemSize := by
  have hkey : Bytes.SameOff b.items (memcpyKey b.items (place b.filled) key) (place b.filled)
      hashmapItemSize :=
    (memcpyKey_sameOff _ _ _).mono (Nat.le_refl _) (by unfold hashmapItemSize; omega)
  refine (hkey.trans ((Bytes.write_sameOff _ _ 8 key.length).mono (by omega) ?_)).trans
    ((Bytes.write_sameOff _ _ 8 item).mono (by omega) ?_)
  · unfold hashmapItemSize
    omega
  · unfold hashmapItemSize
    omega

theorem put_old (hb : b.Fitting) (hlen : key.length ≤ hashmapKeyDataMax) (hi : i < b.filled) :
    (b.put key item).keyAt i = b.keyAt i ∧ (b.put key item).item i = b.item i := by
  have hoff : Bytes.SameOff b.items (b.put key item).items (place b.filled) hashmapItemSize :=
    put_sameOff hlen
  have hle := place_add_le hi
  have hsize : hashmapItemSize = hashmapKeyDataMax + 16 := rfl
  have hkeyLength : (b.put key item).keyLength i = b.keyLength i :=
    Bytes.read_sameOff hoff (Or.inr (by omega))
  refine ⟨?_, Bytes.read_sameOff hoff (Or.inr (by omega))⟩
  unfold keyAt
  rw [hkeyLength]
  refine List.map_congr_left fun x hx => hoff x ?_
  have hx' := List.mem_range'_1.mp hx
  have hshort := hb i hi
  omega

theorem put_new (hlen : key.length ≤ hashmapKeyDataMax) (hitem : item < 2 ^ 64) :
    (b.put key item).keyAt b.filled = key ∧ (b.put key item).item b.filled = item := by
  have hmax : hashmapKeyDataMax = 256 := rfl
  have hpow : 256 ^ 8 = 2 ^ 64 := by decide
  have hkeyLength : (b.put key item).keyLength b.filled = key.length := by
    have hread : (b.put key item).keyLength b.filled = _ :=
      Bytes.read_sameOff (Bytes.write_sameOff _ _ 8 item) (Or.inr (Nat.le_refl _))
    rw [hread, Bytes.read_write, hpow]
    exact Nat.mod_eq_of_lt (by omega)
  constructor
  · unfold keyAt
    rw [hkeyLength]
    refine Eq.trans (List.map_congr_left fun x hx => ?_)
      (@map_memcpyKey b.items (place b.filled) key)
    have hx' := List.mem_range'_1.mp hx
    have hlast := Bytes.write_sameOff (Bytes.write (memcpyKey b.items (place b.filled) key)
      (place b.filled + hashmapKeyDataMax) 8 key.length)
      (place b.filled + hashmapKeyDataMax + 8) 8 item x (by omega)
    have hlength := Bytes.write_sameOff (memcpyKey b.items (place b.filled) key)
      (place b.filled + hashmapKeyDataMax) 8 key.length x (by omega)
    exact hlast.trans hlength
  · have hread : (b.put key item).item b.filled = item % 256 ^ 8 := Bytes.read_write ..
    rw [hread, hpow]
    exact Nat.mod_eq_of_lt hitem

theorem list_put (hb : b.Fitting) (hlen : key.length ≤ hashmapKeyDataMax) (hitem : item < 2 ^ 64) :
    (b.put key item).list = b.list ++ [(key, item)] := by
  have hold : ∀ i ∈ List.range b.filled,
      ((b.put key item).keyAt i, (b.put key item).item i) = (b.keyAt i, b.item i) := by
    intro i hi
    obtain ⟨hkey, hptr⟩ := @put_old b key i item hb hlen (List.mem_range.mp hi)
    rw [hkey, hptr]
  obtain ⟨hkey, hptr⟩ := put_new (b := b) hlen hitem
  rw [list, show (b.put key item).filled = b.filled + 1 from rfl, List.range_succ, List.map_append,
    List.map_congr_left hold, List.map_singleton, hkey, hptr]
  rfl

/-- A bucket holds the entries of a map, whose items are at these addresses. -/
structure Holds {V : Type} (addr : V → Nat) (b : BucketBytes) (l : List (Key × V)) : Prop where
  list : b.list = l.map fun e => (e.1, addr e.2)
  fits : ∀ e ∈ l, e.1.length ≤ hashmapKeyDataMax

theorem Holds.fitting {V : Type} {addr : V → Nat} {l : List (Key × V)} (h : b.Holds addr l) :
    b.Fitting := by
  intro i hi
  have hmem : (b.keyAt i, b.item i) ∈ b.list :=
    List.mem_map.mpr ⟨i, List.mem_range.mpr hi, rfl⟩
  rw [h.list] at hmem
  obtain ⟨e, he, heq⟩ := List.mem_map.mp hmem
  obtain ⟨hkey, -⟩ := Prod.mk.inj heq
  rw [← length_keyAt, ← hkey]
  exact h.fits e he

theorem Holds.get {V : Type} {addr : V → Nat} {l : List (Key × V)} (h : b.Holds addr l) :
    b.get key = (l.find? (·.1 = key)).map fun e => addr e.2 := by
  rw [get_list, h.list, List.find?_map, Option.map_map]
  rfl

/-- An insertion does what it is for: the key stays in its field, and leads to the item. -/
structure Stored (b : BucketBytes) (key : Key) (item : Nat) : Prop where
  fits : FitsKeyData (place b.filled) key
  found : (b.put key item).get key = some item

/-- **When an insertion does what it is for.** -/
theorem stored_iff (hb : b.Fitting) (hitem : item < 2 ^ 64) :
    b.Stored key item ↔
      key.length ≤ hashmapKeyDataMax ∧ ∀ other, b.get key = some other → other = item := by
  have hfound : key.length ≤ hashmapKeyDataMax →
      (b.put key item).get key = (b.get key).or (some item) := by
    intro hlen
    rw [get_list, get_list, list_put hb hlen hitem, List.find?_append, Option.map_or]
    simp
  constructor
  · rintro ⟨hfits, hget⟩
    have hlen := fitsKeyData_iff.mp hfits
    refine ⟨hlen, fun other hother => ?_⟩
    rw [hfound hlen, hother] at hget
    exact Option.some.inj hget
  · rintro ⟨hlen, hno⟩
    refine ⟨fitsKeyData_iff.mpr hlen, ?_⟩
    rw [hfound hlen]
    cases hget : b.get key with
    | none => rfl
    | some other => rw [hno other hget, Option.some_or]

end BucketBytes

end Lyre

namespace Lyre.Vfs

open Lyre.Vfs.Tree

variable {s s' s₁ : Tree} {n p t : Nat} {v w : VfsNode} {name : Key} {item : Option Nat}
  {disk : Disk} {r : Res} {path : Path} {parent : Option Nat} {depth : Nat} {made : Bool}
  {call : Insertion}

/-! ## Resolution only reads directories -/

theorem reduceFollow_extends {fuel : Nat} {o : Option Nat} (hs : RootRead s)
    (h : s.reduceFollow disk depth fuel n = some (s', o)) : RootRead s' ∧ Extends s s' := by
  induction fuel generalizing s n with
  | zero => simp [Tree.reduceFollow] at h
  | succ fuel ih =>
    unfold Tree.reduceFollow at h
    simp only [Option.bind_eq_bind] at h
    obtain ⟨v, -, h⟩ := Option.bind_eq_some_iff.mp h
    split at h
    · exact ih hs h
    · exact ih hs h
    · split at h
      · simp at h
      obtain ⟨⟨s₂, r⟩, hr, h⟩ := Option.bind_eq_some_iff.mp h
      obtain ⟨hs₂, he₂, -⟩ := path2node_lands hs hr
      simp only at h
      split at h
      · obtain ⟨rfl, -⟩ := Prod.mk.inj (Option.some.inj h)
        exact ⟨hs₂, he₂⟩
      · obtain ⟨hs', he⟩ := ih hs₂ h
        exact ⟨hs', he₂.trans he⟩
    · obtain ⟨rfl, -⟩ := Prod.mk.inj (Option.some.inj h)
      exact ⟨hs, .rfl'⟩

theorem getNode_extends {follow : Bool} {l : Option Path} {o : Option Nat} (hs : RootRead s)
    (h : s.getNode disk depth parent l follow = some (s', o)) : RootRead s' ∧ Extends s s' := by
  unfold Tree.getNode at h
  simp only [Option.bind_eq_bind] at h
  obtain ⟨⟨s₂, r⟩, hr, h⟩ := Option.bind_eq_some_iff.mp h
  obtain ⟨hs₂, he₂, -⟩ := path2node_lands hs hr
  simp only at h
  split at h
  · obtain ⟨rfl, -⟩ := Prod.mk.inj (Option.some.inj h)
    exact ⟨hs₂, he₂⟩
  · split at h
    · obtain ⟨hs', he⟩ := reduceFollow_extends hs₂ h
      exact ⟨hs', he₂.trans he⟩
    · obtain ⟨rfl, -⟩ := Prod.mk.inj (Option.some.inj h)
      exact ⟨hs₂, he₂⟩

/-! ## What a call comes to -/

/-- What the calls do with what they have come to. -/
def Until.finish (call : Insertion) : Until → Option (Tree × Bool)
  | .returned s => some (s, false)
  | .inserting s targetParent basename item => do
    let s ← s.sinsert targetParent basename item
    s.insertEnd targetParent item call

/-- What is known of what a call comes to. -/
inductive Comes (s : Tree) : Until → Prop
  | returned {s' : Tree} : Extends s s' → Comes s (.returned s')
  | made {s' : Tree} {w v : VfsNode} {p : Nat} {name : Key} : Extends s s' → s'.node p = some v →
      Comes s (.inserting (s'.push w) p name (some s'.nodes.length))
  | failed {s' : Tree} {p : Nat} {name : Key} : Extends s s' → Comes s (.inserting s' p name none)

theorem bind_finish {α β : Type} {x : Option α} {f : α → Option β} {g : β → Tree × Bool}
    {f' : α → Option Until} {k : Until → Option (Tree × Bool)}
    (h : ∀ a, x = some a → (f a).map g = (f' a).bind k) : (x.bind f).map g = (x.bind f').bind k := by
  rw [Option.map_bind, Option.bind_assoc]
  exact Option.bind_congr h

theorem create_until {l : Option Path} {kind : Kind} :
    (s.create disk depth parent l kind made).map (fun x => (x.1, x.2.isSome)) =
      (s.createUntil disk depth parent l kind made).bind
        (Until.finish (.create n path kind made)) := by
  unfold Tree.create Tree.createUntil
  simp only [Option.bind_eq_bind]
  refine bind_finish fun x _ => ?_
  obtain ⟨s₁, ⟨targetParent, target, basename⟩⟩ := x
  cases targetParent with
  | none => rfl
  | some p =>
    cases target with
    | some t => rfl
    | none =>
      refine bind_finish fun b _ => bind_finish fun v _ => bind_finish fun fs _ => ?_
      cases made with
      | false =>
        simp only [Bool.false_eq_true, if_false, Option.bind_some, Until.finish, Tree.insertEnd,
          Option.bind_eq_bind]
        simp
      | true =>
        simp only [if_true, Option.bind_some, Until.finish, Option.bind_eq_bind]
        rw [Option.map_bind]
        refine Option.bind_congr fun s₂ _ => ?_
        simp only [Tree.insertEnd, Option.bind_some, Option.bind_eq_bind, Function.comp]
        split
        · rw [Option.map_bind]
          rfl
        · rfl

theorem symlink_until {l : Option Path} {dest : Path} :
    (s.symlink disk depth parent dest l made).map (fun x => (x.1, x.2.isSome)) =
      (s.symlinkUntil disk depth parent dest l made).bind
        (Until.finish (.symlink n dest path made)) := by
  unfold Tree.symlink Tree.symlinkUntil
  simp only [Option.bind_eq_bind]
  refine bind_finish fun x _ => ?_
  obtain ⟨s₁, ⟨targetParent, target, basename⟩⟩ := x
  cases targetParent with
  | none => rfl
  | some p =>
    cases target with
    | some t => rfl
    | none =>
      refine bind_finish fun b _ => bind_finish fun v _ => bind_finish fun fs _ => ?_
      split
      · rfl
      · simp only [Option.bind_some, Until.finish, Option.bind_eq_bind]
        rw [Option.map_bind]
        exact Option.bind_congr fun s₂ _ => rfl

theorem linkat_until {olddir newdir : Option Nat} {oldPath newPath : Option Path}
    {nofollow : Bool} :
    (s.linkat disk depth olddir oldPath newdir newPath nofollow made).map
        (fun x => (x.1, decide (x.2 = 0))) =
      (s.linkatUntil disk depth olddir oldPath newdir newPath nofollow made).bind
        (Until.finish (.linkat olddir oldPath newdir newPath nofollow made)) := by
  unfold Tree.linkat Tree.linkatUntil
  split
  · rfl
  cases s.getParentDir olddir oldPath with
  | none => rfl
  | some oldParent =>
    cases s.getParentDir newdir newPath with
    | none => rfl
    | some newParent =>
      refine bind_finish fun x₁ _ => bind_finish fun x₂ _ => bind_finish fun op _ =>
        bind_finish fun p _ => bind_finish fun old _ => bind_finish fun new _ => ?_
      split
      · rfl
      refine bind_finish fun x₃ _ => ?_
      obtain ⟨s₃, oldNode⟩ := x₃
      cases oldNode with
      | none => rfl
      | some oldNode =>
        refine bind_finish fun b _ => bind_finish fun fs _ => bind_finish fun v _ =>
          bind_finish fun kind _ => ?_
        split
        · rfl
        split
        · rfl
        split
        · rfl
        refine Eq.trans Option.map_bind ?_
        exact Option.bind_congr fun s₂ _ => rfl

/-- **A call is what it comes to, and the rest.** -/
theorem insertName_eq :
    s.insertName disk depth call = (s.insertUntil disk depth call).bind (Until.finish call) := by
  cases call with
  | create parent name kind made => exact create_until
  | symlink parent dest target made => exact symlink_until
  | linkat olddir oldPath newdir newPath nofollow made => exact linkat_until

theorem insertUntil_comes {u : Until} (hs : RootRead s)
    (h : s.insertUntil disk depth call = some u) : Comes s u := by
  cases call with
  | create parent name kind made =>
    simp only [Tree.insertUntil, Tree.createUntil, Option.bind_eq_bind] at h
    obtain ⟨⟨s₁, r⟩, hr, h⟩ := Option.bind_eq_some_iff.mp h
    obtain ⟨-, he, -⟩ := path2node_lands hs hr
    simp only at h
    split at h
    · obtain rfl := Option.some.inj h
      exact .returned he
    · obtain rfl := Option.some.inj h
      exact .returned (he.trans (.setErrno _ _))
    · obtain ⟨b, -, h⟩ := Option.bind_eq_some_iff.mp h
      obtain ⟨v, hv, h⟩ := Option.bind_eq_some_iff.mp h
      obtain ⟨fs, -, h⟩ := Option.bind_eq_some_iff.mp h
      split at h
      · obtain rfl := Option.some.inj h
        exact .made he hv
      · obtain rfl := Option.some.inj h
        exact .failed he
  | symlink parent dest target made =>
    simp only [Tree.insertUntil, Tree.symlinkUntil, Option.bind_eq_bind] at h
    obtain ⟨⟨s₁, r⟩, hr, h⟩ := Option.bind_eq_some_iff.mp h
    obtain ⟨-, he, -⟩ := path2node_lands hs hr
    simp only at h
    split at h
    · obtain rfl := Option.some.inj h
      exact .returned he
    · obtain rfl := Option.some.inj h
      exact .returned (he.trans (.setErrno _ _))
    · obtain ⟨b, -, h⟩ := Option.bind_eq_some_iff.mp h
      obtain ⟨v, hv, h⟩ := Option.bind_eq_some_iff.mp h
      obtain ⟨fs, -, h⟩ := Option.bind_eq_some_iff.mp h
      split at h
      · simp at h
      obtain rfl := Option.some.inj h
      cases made with
      | true => exact .made he hv
      | false => exact .failed he
  | linkat olddir oldPath newdir newPath nofollow made =>
    simp only [Tree.insertUntil, Tree.linkatUntil] at h
    split at h
    · obtain rfl := Option.some.inj h
      exact .returned (.setErrno _ _)
    split at h
    · obtain rfl := Option.some.inj h
      exact .returned .rfl'
    · obtain rfl := Option.some.inj h
      exact .returned .rfl'
    simp only [Option.bind_eq_bind] at h
    obtain ⟨⟨s₁, oldRes⟩, h₁, h⟩ := Option.bind_eq_some_iff.mp h
    obtain ⟨⟨s₂, newRes⟩, h₂, h⟩ := Option.bind_eq_some_iff.mp h
    obtain ⟨hs₁, he₁, -⟩ := path2node_lands hs h₁
    obtain ⟨hs₂, he₂, -⟩ := path2node_lands hs₁ h₂
    obtain ⟨op, -, h⟩ := Option.bind_eq_some_iff.mp h
    obtain ⟨p, -, h⟩ := Option.bind_eq_some_iff.mp h
    obtain ⟨old, -, h⟩ := Option.bind_eq_some_iff.mp h
    obtain ⟨new, hnew, h⟩ := Option.bind_eq_some_iff.mp h
    split at h
    · obtain rfl := Option.some.inj h
      exact .returned ((he₁.trans he₂).trans (.setErrno _ _))
    obtain ⟨⟨s₃, oldNode⟩, h₃, h⟩ := Option.bind_eq_some_iff.mp h
    obtain ⟨-, he₃⟩ := getNode_extends hs₂ h₃
    have he := (he₁.trans he₂).trans he₃
    simp only at h
    split at h
    · obtain rfl := Option.some.inj h
      exact .returned he
    obtain ⟨b, -, h⟩ := Option.bind_eq_some_iff.mp h
    obtain ⟨fs, -, h⟩ := Option.bind_eq_some_iff.mp h
    obtain ⟨v, -, h⟩ := Option.bind_eq_some_iff.mp h
    obtain ⟨kind, -, h⟩ := Option.bind_eq_some_iff.mp h
    split at h
    · simp at h
    split at h
    · obtain rfl := Option.some.inj h
      exact .returned (he.trans (.setErrno _ _))
    split at h
    · obtain rfl := Option.some.inj h
      exact .returned he
    obtain rfl := Option.some.inj h
    obtain ⟨v', hv', -⟩ := he₃.toKeeps.node p new hnew
    exact .made he hv'

/-! ## What is stored -/

/-- The entries in the bucket of a name. -/
def Tree.bucket (s : Tree) (p : Nat) (name : Key) : Option (List (Key × Option Nat)) := do
  let v ← s.node p
  if v.childrenFreed then none
  else some (v.children.buckets.elim [] fun buckets => buckets (v.children.index name))

theorem sget_bucket {l : List (Key × Option Nat)} (h : s.bucket p name = some l) :
    s.sget p name = some ((l.find? (·.1 = name)).map Prod.snd) := by
  unfold Tree.bucket at h
  simp only [Option.bind_eq_bind] at h
  obtain ⟨v, hv, h⟩ := Option.bind_eq_some_iff.mp h
  unfold Tree.sget
  rw [hv, Option.bind_eq_bind, Option.bind_some]
  split at h
  · simp at h
  · next hfreed =>
    obtain rfl := Option.some.inj h
    rw [if_neg hfreed]
    unfold Hashmap.get
    cases v.children.buckets with
    | none => rfl
    | some buckets => rfl

/-- The addresses of nodes: 64 bits each, and another one for each node. -/
structure Addresses (addr : Option Nat → Nat) (l : List (Key × Option Nat)) (item : Option Nat) :
    Prop where
  lt : addr item < 2 ^ 64
  apart : ∀ e ∈ l, addr e.2 = addr item → e.2 = item

/-- No other node is in the directory under the name. -/
def Alone (s : Tree) (p : Nat) (name : Key) (item : Option Nat) : Prop :=
  ∀ other, s.sget p name = some (some other) → other = item

theorem stored_iff_alone {addr : Option Nat → Nat} {b : BucketBytes} {l : List (Key × Option Nat)}
    (hl : s.bucket p name = some l) (hb : b.Holds addr l) (ha : Addresses addr l item) :
    b.Stored name (addr item) ↔ name.length ≤ hashmapKeyDataMax ∧ Alone s p name item := by
  rw [BucketBytes.stored_iff hb.fitting ha.lt, hb.get]
  refine and_congr_right fun _ => ?_
  unfold Alone
  rw [sget_bucket hl]
  constructor
  · intro h other hother
    obtain ⟨e, he, rfl⟩ := Option.map_eq_some_iff.mp (Option.some.inj hother)
    refine ha.apart e (List.mem_of_find?_eq_some he) (h (addr e.2) ?_)
    rw [he, Option.map_some]
  · intro h other hother
    obtain ⟨e, he, rfl⟩ := Option.map_eq_some_iff.mp hother
    rw [h e.2 (by rw [he, Option.map_some])]

theorem sinsert_long (h : hashmapKeyDataMax < name.length) : s.sinsert p name item = none := by
  unfold Tree.sinsert Hashmap.insert
  simp only [h, or_true, if_true, Option.bind_eq_bind, Option.bind_none]
  cases s.node p with
  | none => rfl
  | some v => simp

theorem sget_of_sinsert (h : s.sinsert p name item = some s') : ∃ got, s.sget p name = some got := by
  unfold Tree.sinsert at h
  unfold Tree.sget
  simp only [Option.bind_eq_bind] at h ⊢
  obtain ⟨v, hv, h⟩ := Option.bind_eq_some_iff.mp h
  rw [hv, Option.bind_some]
  split at h
  · simp at h
  · next hfreed => exact ⟨_, if_neg hfreed⟩

/-- What is asked of a call that comes to an insertion: it has rejected a name that is too long, with
nothing changed, and the name of a new node is stored. -/
structure Safe (addr : Option Nat → Nat) (disk : Disk) (depth : Nat) (s : Tree) (call : Insertion)
    (b : BucketBytes) (name : Key) (item : Option Nat) : Prop where
  rejected : hashmapKeyDataMax < name.length →
    ∃ s', s.insertName disk depth call = some (s', false) ∧ Extends s s'
  stored : item ≠ none → b.Stored name (addr item)

theorem safe_iff {addr : Option Nat → Nat} {b : BucketBytes} {l : List (Key × Option Nat)}
    (h : s.insertUntil disk depth call = some (.inserting s₁ p name item))
    (hl : s₁.bucket p name = some l) (hb : b.Holds addr l) (ha : Addresses addr l item) :
    Safe addr disk depth s call b name item ↔
      name.length ≤ hashmapKeyDataMax ∧ (item ≠ none → Alone s₁ p name item) := by
  constructor
  · intro hsafe
    refine ⟨?_, fun hitem => ((stored_iff_alone hl hb ha).mp (hsafe.stored hitem)).2⟩
    by_contra hlong
    obtain ⟨s', hs', -⟩ := hsafe.rejected (Nat.lt_of_not_le hlong)
    rw [insertName_eq, h, Option.bind_some, Until.finish, sinsert_long (Nat.lt_of_not_le hlong)] at hs'
    simp at hs'
  · rintro ⟨hlen, halone⟩
    refine ⟨fun hlong => absurd hlen (Nat.not_le_of_lt hlong), fun hitem => ?_⟩
    exact (stored_iff_alone hl hb ha).mpr ⟨hlen, halone hitem⟩

theorem insertName_sget (hs : RootRead s) (h : s.insertName disk depth call = some (s', true)) :
    ∃ s₁ p name n, s.insertUntil disk depth call = some (.inserting s₁ p name (some n)) ∧
      name.length ≤ hashmapKeyDataMax ∧
      ∃ got, s₁.sget p name = some got ∧ s'.sget p name = some (got.or (some (some n))) := by
  rw [insertName_eq] at h
  obtain ⟨u, hu, h⟩ := Option.bind_eq_some_iff.mp h
  have hcomes := insertUntil_comes hs hu
  cases hcomes with
  | returned he => simp [Until.finish] at h
  | failed he =>
    obtain ⟨s₂, -, h⟩ := Option.bind_eq_some_iff.mp h
    cases call <;> simp [Tree.insertEnd] at h
  | @made s₀ w v p name he hv =>
    obtain ⟨s₂, h₂, h⟩ := Option.bind_eq_some_iff.mp h
    have hlen : name.length ≤ hashmapKeyDataMax := by
      by_contra hlong
      rw [sinsert_long (Nat.lt_of_not_le hlong)] at h₂
      simp at h₂
    have hget := sinsert_sget h₂ p name
    obtain ⟨got, hgot⟩ := sget_of_sinsert h₂
    rw [if_pos ⟨rfl, rfl⟩, hgot, Option.map_some] at hget
    refine ⟨_, p, name, _, hu, hlen, got, hgot, ?_⟩
    rw [← hget]
    -- the names of dots are inserted into the new directory
    have hne : p ≠ s₀.nodes.length := Nat.ne_of_lt (node_lt hv)
    cases call with
    | create parent name kind made =>
      simp only [Tree.insertEnd, Option.bind_eq_bind, Option.bind_some] at h
      split at h
      · obtain ⟨s₃, h₃, h⟩ := Option.bind_eq_some_iff.mp h
        obtain ⟨rfl, -⟩ := Prod.mk.inj (Option.some.inj h)
        obtain ⟨v₂, hv₂, -⟩ := (sinsert_keeps h₂).node p v (push_node hv)
        unfold Tree.sget
        rw [hv₂, (createDotentries_same h₃).node p v₂ hne hv₂]
      · obtain ⟨rfl, -⟩ := Prod.mk.inj (Option.some.inj h)
        rfl
    | symlink parent dest target made =>
      obtain ⟨rfl, -⟩ := Prod.mk.inj (Option.some.inj h)
      rfl
    | linkat olddir oldPath newdir newPath nofollow made =>
      obtain ⟨rfl, -⟩ := Prod.mk.inj (Option.some.inj h)
      rfl

/-- **Names are stored** exactly when they are not too long and new. A call that does not come to an
insertion has failed and has only read directories; one that succeeds leaves a directory where the name
leads to the new node exactly when it led to no other one. -/
theorem names_stored_iff (hs : RootRead s) :
    (∀ s', s.insertUntil disk depth call = some (.returned s') →
      s.insertName disk depth call = some (s', false) ∧ Extends s s') ∧
    (∀ s₁ p name item addr b l,
      s.insertUntil disk depth call = some (.inserting s₁ p name item) →
      s₁.bucket p name = some l → BucketBytes.Holds addr b l → Addresses addr l item →
      (Safe addr disk depth s call b name item ↔
        name.length ≤ hashmapKeyDataMax ∧ (item ≠ none → Alone s₁ p name item))) ∧
    ∀ s', s.insertName disk depth call = some (s', true) →
      ∃ s₁ p name n, s.insertUntil disk depth call = some (.inserting s₁ p name (some n)) ∧
        name.length ≤ hashmapKeyDataMax ∧
        (s'.sget p name = some (some (some n)) ↔ Alone s₁ p name (some n)) := by
  refine ⟨fun s' h => ?_, fun s₁ p name item addr b l h hl hb ha => safe_iff h hl hb ha,
    fun s' h => ?_⟩
  · have hcomes := insertUntil_comes hs h
    rw [insertName_eq, h]
    cases hcomes with
    | returned he => exact ⟨rfl, he⟩
  · obtain ⟨s₁, p, name, n, hu, hlen, got, hgot, hget⟩ := insertName_sget hs h
    refine ⟨s₁, p, name, n, hu, hlen, ?_⟩
    rw [hget]
    unfold Alone
    rw [hgot]
    cases got with
    | none => simp
    | some other => simp

/-- A place for each node. -/
def placeOf (item : Option Nat) : Nat := item.elim 0 (· + 1)

theorem holds_nothing : BucketBytes.Holds placeOf ⟨0, fun _ => 0⟩ ([] : List (Key × Option Nat)) :=
  ⟨rfl, fun _ he => absurd he List.not_mem_nil⟩

theorem addresses_nothing {n : Nat} (h : n + 1 < 2 ^ 64) : Addresses placeOf [] (some n) :=
  ⟨h, fun _ he => absurd he List.not_mem_nil⟩

/-- `/b` beside `/a`. -/
theorem names_stored_file :
    Safe placeOf (fun _ => ⟨[], true⟩) 1 withFile (.create 1 [0x62] .other true) ⟨0, fun _ => 0⟩
      [0x62] (some 5) := by
  have hroot : RootRead withFile := ⟨1, rfl, _, rfl, rfl⟩
  have hbucket : ∀ w, ((withFile.setErrno .enoent).push w).bucket 1 [0x62] = some [] :=
    fun _ => rfl
  obtain ⟨-, hsafe, -⟩ := @names_stored_iff withFile (fun _ => ⟨[], true⟩) 1
    (.create 1 [0x62] .other true) hroot
  refine (hsafe _ 1 [0x62] (some 5) _ _ [] rfl (hbucket _) holds_nothing
    (addresses_nothing (by decide))).mpr ⟨by decide, fun _ other hother => ?_⟩
  rw [sget_bucket (hbucket _)] at hother
  simp at hother

/-- A root directory without names. -/
def bareRoot : Tree where
  nodes := [newNode (some ⟨0, false, true, true⟩) none true (some .dir) none none]
  root := 0
  errno := none

/-- What `vfs_create` makes in it. -/
def bareFile : VfsNode :=
  newNode (some ⟨0, false, true, true⟩) (some 0) false (some .other) none none

theorem bareRoot_until (h : Name name) :
    bareRoot.insertUntil (fun _ => ⟨[], true⟩) 1 (.create 0 name .other true) =
      some (.inserting ((bareRoot.setErrno .enoent).push bareFile) 0 name (some 1)) := by
  have hsettled : Settled bareRoot 0 := ⟨rfl, _, rfl, rfl⟩
  simp only [Tree.insertUntil, Tree.createUntil]
  rw [path2node_absent_again h hsettled rfl]
  rfl

/-- A name of one byte more than there is place for is inserted, too. -/
theorem long_name_inserted :
    ¬ ∀ {s s₁ : Tree} {disk : Disk} {depth p : Nat} {call : Insertion} {name : Key}
      {item : Option Nat} {addr : Option Nat → Nat} {b : BucketBytes} {l : List (Key × Option Nat)},
      RootRead s → s.insertUntil disk depth call = some (.inserting s₁ p name item) →
        s₁.bucket p name = some l → BucketBytes.Holds addr b l → Addresses addr l item →
        Safe addr disk depth s call b name item := by
  intro h
  have hlength : (List.replicate 257 (0x61 : BitVec 8)).length = 257 := List.length_replicate
  have hname : Name (List.replicate 257 (0x61 : BitVec 8)) :=
    ⟨List.ne_nil_of_length_eq_add_one hlength,
      fun hmem => absurd (List.eq_of_mem_replicate hmem) (by decide)⟩
  have hsafe := h ⟨0, rfl, _, rfl, rfl⟩ (bareRoot_until hname) rfl holds_nothing
    (addresses_nothing (by decide))
  have hlen := fitsKeyData_iff.mp (hsafe.stored (Option.some_ne_none 1)).fits
  rw [hlength] at hlen
  exact absurd hlen (by decide)

end Lyre.Vfs
