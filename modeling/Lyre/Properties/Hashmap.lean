import Lyre.Lib.Hashmap

/-!
# A hash map is a finite map

The arrays of a map hold its items (`toHashmap`), and what the macros do to the arrays is what
`Hashmap` says of the lists. A map that is filled through `HASHMAP_INSERT` with new keys only is a
partial function from keys to items.

* `hashmap_refines` — every run of insertions, removals and lookups gives the results of that
  function.
-/

namespace Lyre

variable {V : Type}

/-! ## Keys in their buffers -/

def HashmapItem.key (e : HashmapItem V) : Key := (List.range' 0 e.keyLength).map e.keyData

theorem memcmpEq_iff {buffer : Nat → BitVec 8} : ∀ {i : Nat} {data : Key},
    memcmpEq buffer i data = true ↔ (List.range' i data.length).map buffer = data
  | _, [] => by simp [memcmpEq]
  | i, c :: data => by
    rw [memcmpEq, Bool.and_eq_true, beq_iff_eq, memcmpEq_iff]
    simp only [List.length_cons, List.range'_succ, List.map_cons, List.cons.injEq]
    exact and_congr_left fun _ => eq_comm

theorem memcpyKey_below {buffer : Nat → BitVec 8} : ∀ {i j : Nat} {data : Key}, j < i →
    memcpyKey buffer i data j = buffer j
  | _, _, [], _ => rfl
  | i, j, _ :: _, h => by
    rw [memcpyKey, Function.update_of_ne (Nat.ne_of_lt h)]
    exact memcpyKey_below (Nat.lt_succ_of_lt h)

theorem map_memcpyKey {buffer : Nat → BitVec 8} : ∀ {i : Nat} {data : Key},
    (List.range' i data.length).map (memcpyKey buffer i data) = data
  | _, [] => rfl
  | i, c :: data => by
    have hrest : ∀ j ∈ List.range' (i + 1) data.length,
        memcpyKey buffer i (c :: data) j = memcpyKey buffer (i + 1) data j := by
      intro j hj
      have hlt := (List.mem_range'_1.mp hj).1
      rw [memcpyKey, Function.update_of_ne (by omega)]
    rw [List.length_cons, List.range'_succ, List.map_cons, List.map_congr_left hrest, map_memcpyKey]
    simp [memcpyKey]

theorem matches_iff {e : HashmapItem V} {key : Key} : e.matches key = true ↔ e.key = key := by
  rw [HashmapItem.matches, Bool.and_eq_true, beq_iff_eq, memcmpEq_iff]
  constructor
  · rintro ⟨hlen, hkey⟩
    rwa [hlen] at hkey
  · intro hkey
    have hlen : key.length = e.keyLength := by simp [← hkey, HashmapItem.key]
    exact ⟨hlen, by rw [hlen]; exact hkey⟩

/-! ## Buckets -/

/-- The items from place `i` on. -/
def itemList (items : Nat → HashmapItem V) (i k : Nat) : List (Key × V) :=
  (List.range' i k).map fun j => ((items j).key, (items j).item)

theorem length_itemList {items : Nat → HashmapItem V} {i k : Nat} :
    (itemList items i k).length = k := by simp [itemList]

theorem itemList_congr {items items' : Nat → HashmapItem V} {k : Nat}
    (h : ∀ j < k, items' j = items j) : itemList items' 0 k = itemList items 0 k := by
  refine List.map_congr_left fun j hj => ?_
  rw [h j (by simpa using hj)]

theorem findItem_eq {items : Nat → HashmapItem V} {key : Key} : ∀ {k i : Nat},
    findItem items key k i = ((itemList items i k).findIdx? (·.1 = key)).map (· + i)
  | 0, _ => rfl
  | k + 1, i => by
    rw [findItem, itemList, List.range'_succ, List.map_cons, List.findIdx?_cons]
    by_cases hkey : (items i).key = key
    · simp [matches_iff.mpr hkey, hkey]
    · have hno : (items i).matches key = false := by
        rw [← Bool.not_eq_true, matches_iff]
        exact hkey
      rw [if_neg (by simp [hno]), findItem_eq]
      simp only [hkey, decide_false, Bool.false_eq_true, if_false, Option.map_map]
      congr 1
      funext j
      simp only [Function.comp]
      omega

theorem find?_itemList {items : Nat → HashmapItem V} {key : Key} : ∀ {k i : Nat},
    (itemList items i k).find? (·.1 = key) =
      (findItem items key k i).map fun j => ((items j).key, (items j).item)
  | 0, _ => rfl
  | k + 1, i => by
    rw [findItem, itemList, List.range'_succ, List.map_cons, List.find?_cons]
    by_cases hkey : (items i).key = key
    · simp [matches_iff.mpr hkey, hkey]
    · have hno : (items i).matches key = false := by
        rw [← Bool.not_eq_true, matches_iff]
        exact hkey
      rw [if_neg (by simp [hno]), ← find?_itemList]
      simp [hkey, itemList]

def HashmapBucket.list (b : HashmapBucket V) : List (Key × V) := itemList b.items 0 b.filled

theorem list_update {buckets : Nat → HashmapBucket V} {k : Nat} {b : HashmapBucket V} :
    (fun i => (Function.update buckets k b i).list)
      = Function.update (fun i => (buckets i).list) k b.list :=
  Function.comp_update HashmapBucket.list buckets k b

theorem list_getElem {b : HashmapBucket V} {j : Nat} (hj : j < b.list.length) :
    b.list[j] = ((b.items j).key, (b.items j).item) := by
  simp [HashmapBucket.list, itemList]

theorem list_takeOut {b : HashmapBucket V} {i : Nat} (hi : i < b.filled) :
    (b.takeOut i).list = Hashmap.takeOut b.list i := by
  obtain ⟨n, hn⟩ : ∃ n, b.filled = n + 1 := ⟨b.filled - 1, by omega⟩
  have hlast : b.list.getLast? = some ((b.items n).key, (b.items n).item) := by
    rw [List.getLast?_eq_getElem?, List.getElem?_eq_getElem (by simp [HashmapBucket.list,
      length_itemList, hn]), list_getElem]
    simp [HashmapBucket.list, length_itemList, hn]
  rw [Hashmap.takeOut, hlast]
  refine List.ext_getElem (by simp [HashmapBucket.list, HashmapBucket.takeOut, length_itemList])
    fun j hj hj' => ?_
  rw [list_getElem, List.getElem_dropLast, List.getElem_set, list_getElem]
  have hjn : j < n := by
    simpa [HashmapBucket.list, HashmapBucket.takeOut, length_itemList, hn] using hj
  simp only [HashmapBucket.takeOut, hn, Nat.add_sub_cancel]
  by_cases hlasti : i = n
  · -- the last item is dropped
    rw [if_neg (by simp [hlasti]), if_neg (by omega)]
  · rw [if_pos hlasti]
    by_cases hij : i = j
    · simp [hij]
    · rw [if_neg hij, Function.update_of_ne (Ne.symm hij)]

theorem list_put {b : HashmapBucket V} {key : Key} {item : V} :
    (b.put key item).list = b.list ++ [(key, item)] := by
  have hold : ∀ j < b.filled, (b.put key item).items j = b.items j := fun j hj =>
    Function.update_of_ne (Nat.ne_of_lt hj) ..
  have hnew : (b.put key item).items b.filled =
      ⟨memcpyKey (b.items b.filled).keyData 0 key, key.length, item⟩ := Function.update_self ..
  have hsplit : (b.put key item).list = itemList (b.put key item).items 0 b.filled ++
      [(((b.put key item).items b.filled).key, ((b.put key item).items b.filled).item)] := by
    rw [HashmapBucket.list, itemList,
      show (b.put key item).filled = b.filled + 1 from rfl, List.range'_concat]
    simp [itemList]
  rw [hsplit, itemList_congr hold, hnew]
  simp only [HashmapItem.key, map_memcpyKey]
  rfl

/-- The items of a bucket are inside its array. -/
def HashmapBucket.Sound (b : HashmapBucket V) : Prop := b.filled ≤ b.cap

theorem reserve_spec {b : HashmapBucket V} (h : b.Sound) (fresh : Nat → HashmapItem V) :
    (b.reserve fresh).list = b.list ∧ (b.reserve fresh).filled < (b.reserve fresh).cap := by
  have hle : b.filled ≤ b.cap := h
  unfold HashmapBucket.reserve
  by_cases hcap : b.cap = 0
  · have hzero : b.filled = 0 := by omega
    rw [if_pos hcap]
    simp [hzero, HashmapBucket.list, itemList]
  · rw [if_neg hcap]
    by_cases hfull : b.filled = b.cap
    · simp only [hfull, if_true]
      refine ⟨?_, by omega⟩
      rw [HashmapBucket.list, HashmapBucket.list, hfull]
      exact itemList_congr fun j hj => if_pos hj
    · rw [if_neg hfull]
      exact ⟨rfl, by omega⟩

/-! ## Maps -/

theorem Hashmap.get_of_remove {m : Hashmap V} {key : Key} (h : m.remove key = none) :
    m.get key = none := by
  unfold Hashmap.get
  unfold Hashmap.remove at h
  cases hb : m.buckets with
  | none => rfl
  | some buckets =>
    simp only [hb, Option.bind_some, Option.map_eq_none_iff, List.findIdx?_eq_none_iff] at h ⊢
    exact List.find?_eq_none.mpr fun e he => by simp [h e he]

namespace HashmapItems

variable {m m' : HashmapItems V} {key : Key} {item : V}

def toHashmap (m : HashmapItems V) : Hashmap V :=
  ⟨m.cap, m.buckets.map fun buckets i => (buckets i).list⟩

def Sound (m : HashmapItems V) : Prop := ∀ buckets, m.buckets = some buckets → ∀ i, (buckets i).Sound

theorem get_toHashmap : m.toHashmap.get key = m.get key := by
  unfold get Hashmap.get toHashmap
  cases m.buckets with
  | none => rfl
  | some buckets =>
    simp only [Option.map_some, Option.bind_some]
    rw [HashmapBucket.list, find?_itemList, Option.map_map]
    rfl

theorem remove_toHashmap :
    ((m.remove key).1 = true ∧ m.toHashmap.remove key = some (m.remove key).2.toHashmap) ∨
      ((m.remove key).1 = false ∧ m.toHashmap.remove key = none ∧ (m.remove key).2 = m) := by
  unfold remove Hashmap.remove
  rcases hb : m.buckets with _ | buckets
  · simp [toHashmap, hb]
  simp only [toHashmap, hb, Option.map_some, Option.bind_some]
  have hindex : Hashmap.index ⟨m.cap, some fun i => (buckets i).list⟩ key = m.index key := rfl
  rw [hindex]
  have hfind : findItem (buckets (m.index key)).items key (buckets (m.index key)).filled 0 = _ :=
    findItem_eq
  rcases hi : (buckets (m.index key)).list.findIdx? (·.1 = key) with _ | i
  · have hno : findItem (buckets (m.index key)).items key (buckets (m.index key)).filled 0 = none := by
      rw [hfind]
      exact congrArg (Option.map _) hi
    simp [hno, hi]
  · have hyes : findItem (buckets (m.index key)).items key (buckets (m.index key)).filled 0
        = some i := by
      rw [hfind]
      exact congrArg (Option.map _) hi
    have hlt : i < (buckets (m.index key)).filled := by
      obtain ⟨hlt, -⟩ := List.findIdx?_eq_some_iff_getElem.mp hi
      simpa [HashmapBucket.list, length_itemList] using hlt
    refine Or.inl ?_
    simp only [hyes, hi, Option.map_some, list_update, list_takeOut hlt, true_and]

theorem insert_toHashmap {fresh : Nat → HashmapItem V} (h : m.Sound)
    (hi : m.insert key item fresh = some m') :
    m.toHashmap.insert key item = some m'.toHashmap ∧ m'.Sound := by
  unfold insert at hi
  split at hi
  · simp at hi
  next hok =>
  obtain rfl := Option.some.inj hi
  have hsound : ∀ i, ((m.buckets.getD fun _ => ⟨0, 0, fresh⟩) i).Sound := by
    intro i
    rcases hb : m.buckets with _ | buckets
    · exact Nat.le_refl 0
    · exact h buckets hb i
  have hlist : ∀ i, ((m.buckets.getD fun _ => ⟨0, 0, fresh⟩) i).list =
      (m.toHashmap.buckets.getD fun _ => []) i := by
    intro i
    rcases hb : m.buckets with _ | buckets
    · simp [toHashmap, hb, HashmapBucket.list, itemList]
    · simp [toHashmap, hb]
  constructor
  · generalize hB : (m.buckets.getD fun _ => ⟨0, 0, fresh⟩) = B at hsound hlist
    have hnew : toHashmap { m with
        buckets := some (Function.update B (m.index key)
          (((B (m.index key)).reserve fresh).put key item)) } =
        ⟨m.cap, some fun i => (Function.update B (m.index key)
          (((B (m.index key)).reserve fresh).put key item) i).list⟩ := rfl
    rw [Hashmap.insert, if_neg (show ¬ (m.toHashmap.cap = 0 ∨ _) from hok), hnew, list_update,
      list_put, (reserve_spec (hsound _) fresh).1, funext hlist, hlist]
    rfl
  · intro buckets hb i
    obtain rfl := Option.some.inj hb
    by_cases hi : i = m.index key
    · subst hi
      rw [Function.update_self]
      exact (reserve_spec (hsound _) fresh).2
    · rw [Function.update_of_ne hi]
      exact hsound i

theorem remove_sound (h : m.Sound) : (m.remove key).2.Sound := by
  unfold remove
  rcases hb : m.buckets with _ | buckets
  · exact h
  simp only
  split
  · exact h
  · intro b hb' i
    obtain rfl := Option.some.inj hb'
    by_cases hi : i = m.index key
    · subst hi
      rw [Function.update_self]
      exact Nat.le_trans (Nat.sub_le _ 1) (h buckets hb _)
    · rw [Function.update_of_ne hi]
      exact h buckets hb i

/-! ## Runs -/

end HashmapItems

/-- A use of one of the macros. `fresh` is what is in the memory that an insertion allocates. -/
inductive HashmapOp (V : Type) where
  | insert (key : Key) (item : V) (fresh : Nat → HashmapItem V)
  | remove (key : Key)
  | get (key : Key)

/-- The value of a macro. -/
inductive HashmapResult (V : Type) where
  | done
  | removed (ok : Bool)
  | found (item : Option V)
  deriving DecidableEq

namespace HashmapOp

/-- What a macro is for: the map is a partial function from keys to items. -/
def spec (f : Key → Option V) : HashmapOp V → HashmapResult V × (Key → Option V)
  | .insert key item _ => (.done, Function.update f key (some item))
  | .remove key => (.removed (f key).isSome, Function.update f key none)
  | .get key => (.found (f key), f)

/-- A key that is inserted is new, and fits into the buffer. -/
def Valid (f : Key → Option V) : HashmapOp V → Prop
  | .insert key _ _ => f key = none ∧ key.length ≤ hashmapKeyDataMax
  | _ => True

def exec (m : HashmapItems V) : HashmapOp V → Option (HashmapResult V × HashmapItems V)
  | .insert key item fresh => (m.insert key item fresh).map fun m => (.done, m)
  | .remove key => let (ok, m) := m.remove key; some (.removed ok, m)
  | .get key => some (.found (m.get key), m)

/-- The results of a sequence of uses, and the partial function that is left. -/
def specAll (f : Key → Option V) : List (HashmapOp V) → List (HashmapResult V) × (Key → Option V)
  | [] => ([], f)
  | op :: ops =>
    let (r, f) := op.spec f
    let (rs, f) := specAll f ops
    (r :: rs, f)

def ValidAll (f : Key → Option V) : List (HashmapOp V) → Prop
  | [] => True
  | op :: ops => op.Valid f ∧ ValidAll (op.spec f).2 ops

def execAll (m : HashmapItems V) :
    List (HashmapOp V) → Option (List (HashmapResult V) × HashmapItems V)
  | [] => some ([], m)
  | op :: ops => do
    let (r, m) ← op.exec m
    let (rs, m) ← execAll m ops
    return (r :: rs, m)

end HashmapOp

/-- The arrays are well-formed, and a lookup gives what the partial function gives. -/
structure Represents (m : HashmapItems V) (f : Key → Option V) : Prop where
  cap : 0 < m.cap
  sound : m.Sound
  wellFormed : m.toHashmap.WellFormed
  get : ∀ key, m.get key = f key

namespace Represents

variable {m m' : HashmapItems V} {f : Key → Option V} {key : Key} {item : V}

theorem init {cap : Nat} (h : 0 < cap) : Represents (HashmapItems.init cap : HashmapItems V)
    fun _ => none where
  cap := h
  sound _ hb := by simp [HashmapItems.init] at hb
  wellFormed := Hashmap.init_wellFormed cap
  get _ := rfl

theorem mem_entries (h : Represents m f) :
    (key, item) ∈ m.toHashmap.entries ↔ f key = some item := by
  rw [← h.wellFormed.get_eq_some, HashmapItems.get_toHashmap, h.get]

theorem of_entries (hcap : 0 < m'.cap) (hs : m'.Sound) (hw : m'.toHashmap.WellFormed)
    (hget : ∀ key item, (key, item) ∈ m'.toHashmap.entries ↔ f key = some item) :
    Represents m' f where
  cap := hcap
  sound := hs
  wellFormed := hw
  get key := by
    refine Option.ext fun item => ?_
    rw [← HashmapItems.get_toHashmap, hw.get_eq_some, hget]

theorem insert {fresh : Nat → HashmapItem V} (h : Represents m f) (hno : f key = none)
    (hi : m.insert key item fresh = some m') :
    Represents m' (Function.update f key (some item)) := by
  obtain ⟨hlists, hsound⟩ := HashmapItems.insert_toHashmap h.sound hi
  have hnew : key ∉ m.toHashmap.names := by
    rw [← h.wellFormed.get_eq_none, HashmapItems.get_toHashmap, h.get, hno]
  have hcap : m'.cap = m.cap := by
    unfold HashmapItems.insert at hi
    split at hi
    · simp at hi
    · rw [← Option.some.inj hi]
  refine of_entries (by rw [hcap]; exact h.cap) hsound (h.wellFormed.insert hnew hlists)
    fun k i => ?_
  rw [(Hashmap.insert_perm hlists).mem_iff, List.mem_cons, h.mem_entries]
  by_cases hk : k = key
  · subst hk
    simp [hno, eq_comm]
  · simp [hk]

theorem remove (h : Represents m f) :
    (m.remove key).1 = (f key).isSome ∧
      Represents (m.remove key).2 (Function.update f key none) := by
  have hcap : (m.remove key).2.cap = m.cap := by
    unfold HashmapItems.remove
    split
    · rfl
    · simp only
      split <;> rfl
  rcases @HashmapItems.remove_toHashmap V m key with ⟨hok, hlists⟩ | ⟨hok, hno, hm⟩
  · obtain ⟨item, hperm⟩ := Hashmap.remove_perm h.cap hlists
    have hitem : f key = some item := h.mem_entries.mp (hperm.mem_iff.mpr List.mem_cons_self)
    have hnodup : ((key, item) :: (m.remove key).2.toHashmap.entries).Pairwise
        fun a b => a.1 ≠ b.1 :=
      List.pairwise_map.mp (((hperm.map Prod.fst).nodup_iff).mp h.wellFormed.nodup)
    refine ⟨by simp [hok, hitem], of_entries (by rw [hcap]; exact h.cap)
      (HashmapItems.remove_sound h.sound) (h.wellFormed.remove hlists) fun k i => ?_⟩
    by_cases hk : k = key
    · subst hk
      rw [Function.update_self]
      simp only [reduceCtorEq, iff_false]
      exact fun hmem => (List.pairwise_cons.mp hnodup).1 _ hmem rfl
    · rw [Function.update_of_ne hk, ← h.mem_entries, hperm.mem_iff, List.mem_cons]
      simp [hk]
  · have hnone : f key = none := by
      rw [← h.get, ← HashmapItems.get_toHashmap]
      exact Hashmap.get_of_remove hno
    rw [hok, hm, hnone, ← hnone, Function.update_eq_self]
    exact ⟨by simp [hnone], h⟩

theorem exec {op : HashmapOp V} (h : Represents m f) (hv : op.Valid f) :
    ∃ m', op.exec m = some ((op.spec f).1, m') ∧ Represents m' (op.spec f).2 := by
  cases op with
  | insert key item fresh =>
    obtain ⟨hno, hlen⟩ := hv
    have hok : ¬ (m.cap = 0 ∨ hashmapKeyDataMax < key.length) := by
      have := h.cap
      omega
    have hi : m.insert key item fresh = some _ := if_neg hok
    exact ⟨_, by rw [HashmapOp.exec, hi]; rfl, h.insert hno hi⟩
  | remove key =>
    obtain ⟨hok, hr⟩ : (m.remove key).1 = (f key).isSome ∧ _ := h.remove
    have hexec : HashmapOp.exec m (.remove key)
        = some (.removed (m.remove key).1, (m.remove key).2) := rfl
    exact ⟨_, by rw [hexec, hok]; rfl, hr⟩
  | get key => exact ⟨m, by rw [HashmapOp.exec, h.get]; rfl, h⟩

end Represents

/-- **A hash map is a finite map.** Every sequence of uses on an empty map with a bucket in which no
key is inserted that is there already, or too long, gives the results of a partial function, and so
does a lookup after it. -/
theorem hashmap_refines {cap : Nat} (hcap : 0 < cap) (ops : List (HashmapOp V))
    (hv : HashmapOp.ValidAll (fun _ => none) ops) :
    ∃ m, HashmapOp.execAll (HashmapItems.init cap) ops
        = some ((HashmapOp.specAll (fun _ => none) ops).1, m) ∧
      ∀ key, m.get key = (HashmapOp.specAll (fun _ => none) ops).2 key := by
  have hrun : ∀ (ops : List (HashmapOp V)) (m : HashmapItems V) (f : Key → Option V),
      Represents m f → HashmapOp.ValidAll f ops →
      ∃ m', HashmapOp.execAll m ops = some ((HashmapOp.specAll f ops).1, m') ∧
        Represents m' (HashmapOp.specAll f ops).2 := by
    intro ops
    induction ops with
    | nil => exact fun m f h _ => ⟨m, rfl, h⟩
    | cons op ops ih =>
      intro m f h hv
      obtain ⟨m₁, hop, h₁⟩ := h.exec hv.1
      obtain ⟨m₂, hops, h₂⟩ := ih m₁ _ h₁ hv.2
      exact ⟨m₂, by simp [HashmapOp.execAll, HashmapOp.specAll, hop, hops], h₂⟩
  obtain ⟨m, hm, h⟩ := hrun ops _ _ (Represents.init hcap) hv
  exact ⟨m, hm, h.get⟩

/-- Two keys in the only bucket, of which the first one is removed. -/
theorem hashmap_refines_sample : ∃ m : HashmapItems Nat,
    HashmapOp.execAll (HashmapItems.init 1)
      [.insert [1] 5 fun _ => ⟨fun _ => 0, 0, 0⟩, .insert [2, 0] 6 fun _ => ⟨fun _ => 0, 0, 0⟩,
        .remove [1], .get [2, 0], .get [1]]
      = some ([.done, .done, .removed true, .found (some 6), .found none], m) := by
  obtain ⟨m, hm, -⟩ := hashmap_refines (V := Nat) (show 0 < 1 by decide)
    [.insert [1] 5 fun _ => ⟨fun _ => 0, 0, 0⟩, .insert [2, 0] 6 fun _ => ⟨fun _ => 0, 0, 0⟩,
      .remove [1], .get [2, 0], .get [1]]
    ⟨⟨rfl, by decide⟩, ⟨rfl, by decide⟩, trivial, trivial, trivial, trivial⟩
  exact ⟨m, hm⟩

end Lyre
