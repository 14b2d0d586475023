import Lyre.Fs.Readdir

/-!
# What `readdir` puts into the buffer

The first pass counts the bytes of all records and of the null entry, the second one writes a record
behind the other. It goes on by what it has stored in `d_reclen`; where that is the size of the record
(`Fits`), a record keeps inside of its own bytes and the two passes agree. Then a reader who follows
`d_reclen` comes by all children and stops at the null entry.
-/

namespace Lyre.Readdir

open Infra.Bytes

variable {L : DirentLayout} {m m' : Mem} {a cur offset : Nat} {name : Key} {names names' : List Key}
  {child : Child} {l : List Child}

/-! ## Reading the buffer -/

/-- The C string at an address. -/
def CString (m : Mem) (a : Nat) (name : Key) : Prop :=
  (0 : BitVec 8) ∉ name ∧ (∀ k < name.length, m (a + k) = name.getD k 0) ∧ m (a + name.length) = 0

/-- What a reader finds from `cur` on, who follows `d_reclen` until it is 0. -/
inductive Parses (L : DirentLayout) (m : Mem) : Nat → List Key → Prop
  | stop {cur : Nat} : read m (cur + L.dReclen) L.dReclenBytes = 0 → Parses L m cur []
  | next {cur : Nat} {name : Key} {names : List Key} :
    read m (cur + L.dReclen) L.dReclenBytes ≠ 0 → CString m (cur + L.dName) name →
      Parses L m (cur + read m (cur + L.dReclen) L.dReclenBytes) names →
      Parses L m cur (name :: names)

theorem CString.le (h : CString m a name) {other : Key} (h' : CString m a other) :
    name.length ≤ other.length := by
  obtain ⟨hnot, hbytes, -⟩ := h
  obtain ⟨-, -, hend⟩ := h'
  by_contra hlt
  rw [hbytes _ (Nat.not_le.mp hlt), List.getD_eq_getElem _ _ (Nat.not_le.mp hlt)] at hend
  exact hnot (hend ▸ List.getElem_mem _)

theorem CString.unique (h : CString m a name) {other : Key} (h' : CString m a other) :
    name = other := by
  have hlen : name.length = other.length := Nat.le_antisymm (h.le h') (h'.le h)
  refine List.ext_getElem hlen fun k hk hk' => ?_
  have hbyte := (h.2.1 k hk).symm.trans (h'.2.1 k hk')
  rw [List.getD_eq_getElem _ _ hk, List.getD_eq_getElem _ _ hk'] at hbyte
  exact hbyte

theorem Parses.unique (h : Parses L m cur names) (h' : Parses L m cur names') : names = names' := by
  induction h generalizing names' with
  | stop hzero =>
    cases h' with
    | stop => rfl
    | next hne => exact absurd hzero hne
  | next hne hname hrest ih =>
    cases h' with
    | stop hzero => exact absurd hzero hne
    | next _ hname' hrest' => rw [hname.unique hname', ih hrest']

/-! ## One record -/

/-- `d_reclen` has room for the size of the record. -/
def Fits (L : DirentLayout) (child : Child) : Prop := recordSize L child < 256 ^ L.dReclenBytes

/-- The bytes of a record, with the size that is stored. -/
structure Written (L : DirentLayout) (child : Child) (offset : Nat) (m m' : Mem) : Prop where
  same : SameOff m m' offset (recordSize L child)
  reclen : read m' (offset + L.dReclen) L.dReclenBytes = recordSize L child % 256 ^ L.dReclenBytes
  name : CString m' (offset + L.dName) child.name

theorem putType_sameOff (m : Mem) (a : Nat) (dType : Option Nat) :
    SameOff m (putType m a dType) a 1 := by
  cases dType with
  | none => exact .refl m a 1
  | some type => exact write_sameOff m a 1 type

theorem putEntry_written (L : DirentLayout) (child : Child) (m : Mem) (offset : Nat) :
    Written L child offset m (putEntry L (m, offset) child).1 := by
  have hname := L.name_le
  have hino := L.ino_le
  have hoff := L.off_le
  have hreclen := L.reclen_le
  have htype := L.type_le
  have hsize : recordSize L child = L.size - 1024 + child.name.length + 1 := rfl
  have ho := L.off_apart
  have ht := L.type_apart
  unfold Apart at ho ht
  unfold putEntry
  dsimp only
  have same₁ := write_sameOff m (offset + L.dIno) 8 child.stIno
  generalize write m (offset + L.dIno) 8 child.stIno = m₁ at same₁ ⊢
  have same₂ := write_sameOff m₁ (offset + L.dReclen) L.dReclenBytes (recordSize L child)
  have hread := read_write m₁ (offset + L.dReclen) L.dReclenBytes (recordSize L child)
  generalize write m₁ (offset + L.dReclen) L.dReclenBytes (recordSize L child) = m₂
    at same₂ hread ⊢
  have same₃ := write_sameOff m₂ (offset + L.dOff) 8 0
  generalize write m₂ (offset + L.dOff) 8 0 = m₃ at same₃ ⊢
  have same₄ := putType_sameOff m₃ (offset + L.dType) child.dType
  generalize putType m₃ (offset + L.dType) child.dType = m₄ at same₄ ⊢
  have same₅ := put_sameOff m₄ (offset + L.dName) (child.name.length + 1) fun k => child.name.getD k 0
  refine ⟨?_, ?_, child.nul_notMem, fun k hk => ?_, ?_⟩
  · refine (same₁.mono ?_ ?_).trans <| (same₂.mono ?_ ?_).trans <| (same₃.mono ?_ ?_).trans <|
      (same₄.mono ?_ ?_).trans (same₅.mono ?_ ?_)
    all_goals omega
  · -- the other fields are stored apart from `d_reclen`
    rw [read_sameOff same₅ (by unfold Apart; omega), read_sameOff same₄ (by unfold Apart; omega),
      read_sameOff same₃ (by unfold Apart; omega), hread]
  · exact put_at m₄ _ _ (Nat.lt_succ_of_lt hk)
  · rw [put_at m₄ _ _ (Nat.lt_succ_self _)]
    exact List.getD_eq_default _ _ (Nat.le_refl _)

theorem putEntry_snd (L : DirentLayout) (child : Child) (m : Mem) (offset : Nat) :
    (putEntry L (m, offset) child).2 = offset + recordSize L child % 256 ^ L.dReclenBytes := by
  rw [← (putEntry_written L child m offset).reclen]
  rfl

/-! ## All records -/

theorem overChildren_eq {α : Type} (children : Hashmap Child) (step : α → Child → α) (init : α) :
    overChildren children step init = (children.entries.map Prod.snd).foldl step init := by
  unfold overChildren
  cases hbuckets : children.buckets with
  | none =>
    rw [Hashmap.entries_of_none hbuckets]
    rfl
  | some buckets =>
    unfold Hashmap.entries
    rw [hbuckets, List.foldl_map, List.foldl_flatMap]
    rfl

/-- The sizes of all records. -/
def total (L : DirentLayout) (l : List Child) : Nat := (l.map (recordSize L)).sum

theorem foldl_length (l : List Child) (n : Nat) :
    l.foldl (fun length child => length + recordSize L child) n = n + total L l := by
  induction l generalizing n with
  | nil => rfl
  | cons child l ih =>
    rw [List.foldl_cons, ih]
    unfold total
    rw [List.map_cons, List.sum_cons, Nat.add_assoc]

theorem entriesLength_eq (children : Hashmap Child) :
    entriesLength L children = total L (children.entries.map Prod.snd) + (L.size - 1024) := by
  unfold entriesLength
  rw [overChildren_eq, foldl_length, Nat.zero_add]

theorem Written.parses (h : Written L child offset m m') (hfits : Fits L child) {m'' : Mem}
    (hsame : ∀ x, offset ≤ x → x < offset + recordSize L child → m'' x = m' x)
    (hrest : Parses L m'' (offset + recordSize L child) names) :
    Parses L m'' offset (child.name :: names) := by
  have hname := L.name_le
  have hreclen := L.reclen_le
  have hsize : recordSize L child = L.size - 1024 + child.name.length + 1 := rfl
  have hread : read m'' (offset + L.dReclen) L.dReclenBytes = recordSize L child := by
    rw [read_congr fun x hx hx' => hsame x (by omega) (by omega), h.reclen, Nat.mod_eq_of_lt hfits]
  obtain ⟨hnot, hbytes, hend⟩ := h.name
  refine .next (by omega) ⟨hnot, fun k hk => ?_, ?_⟩ (by rw [hread]; exact hrest)
  · rw [hsame _ (by omega) (by omega)]
    exact hbytes k hk
  · rw [hsame _ (by omega) (by omega)]
    exact hend

/-- **The second pass** goes as far as the first one has counted, stays inside of that, and leaves
what is read as the names. -/
theorem foldl_putEntry (hfits : ∀ child ∈ l, Fits L child) (m : Mem) (offset : Nat) :
    let state := l.foldl (putEntry L) (m, offset)
    state.2 = offset + total L l ∧ SameOff m state.1 offset (total L l) ∧
      ∀ (m'' : Mem) (names : List Key),
        (∀ x, offset ≤ x → x < offset + total L l → m'' x = state.1 x) →
        Parses L m'' (offset + total L l) names →
        Parses L m'' offset (l.map Child.name ++ names) := by
  induction l generalizing m offset with
  | nil => exact ⟨rfl, .refl m offset 0, fun _ _ _ h => h⟩
  | cons child l ih =>
    have hwritten := putEntry_written L child m offset
    have hnext : putEntry L (m, offset) child =
        ((putEntry L (m, offset) child).1, offset + recordSize L child) := by
      refine Prod.ext rfl ?_
      rw [putEntry_snd, Nat.mod_eq_of_lt (hfits child List.mem_cons_self)]
    have htotal : total L (child :: l) = recordSize L child + total L l := rfl
    obtain ⟨hoffset, hsame, hparses⟩ := ih (fun c hc => hfits c (List.mem_cons_of_mem _ hc))
      (putEntry L (m, offset) child).1 (offset + recordSize L child)
    rw [List.foldl_cons, hnext, htotal]
    refine ⟨by rw [hoffset, Nat.add_assoc], ?_, fun m'' names hm hrest => ?_⟩
    · exact (hwritten.same.mono (Nat.le_refl _) (by omega)).trans
        (hsame.mono (by omega) (by omega))
    · refine hwritten.parses (hfits child List.mem_cons_self) (fun x hx hx' => ?_) ?_
      · -- the later records lie behind
        rw [hm x hx (by omega)]
        exact hsame x (by omega)
      · refine hparses m'' names (fun x hx hx' => hm x (by omega) (by omega)) ?_
        rw [Nat.add_assoc]
        exact hrest

/-! ## The call -/

/-- The names of the children, each once, in the order of the table. -/
def childNames (children : Hashmap Child) : List Key := children.entries.map fun e => e.2.name

/-- What is asked of the call: it refuses a buffer that is too small and says how large it has to be;
else it writes no byte past that, and what is read is the names of the children and nothing else. -/
def Exact (L : DirentLayout) (children : Hashmap Child) (buffer : Mem) (size : Nat) : Prop :=
  (size < entriesLength L children ∧
    syscallReaddir L (some ⟨true, children⟩) buffer size
      = .failed .enobufs (entriesLength L children)) ∨
  (entriesLength L children ≤ size ∧ ∃ buffer',
    syscallReaddir L (some ⟨true, children⟩) buffer size = .done buffer' ∧
    (∀ x, entriesLength L children ≤ x → buffer' x = buffer x) ∧
    ∀ names, Parses L buffer' 0 names ↔ names = childNames children)

/-- **Reading a directory** whose records have sizes that fit into `d_reclen`. -/
theorem readdir_exact (L : DirentLayout) (children : Hashmap Child)
    (hfits : ∀ e ∈ children.entries, Fits L e.2) (buffer : Mem) (size : Nat) :
    Exact L children buffer size := by
  unfold Exact syscallReaddir
  simp only [Bool.true_eq_false, if_false]
  rcases Nat.lt_or_ge size (entriesLength L children) with hsmall | hlarge
  · exact .inl ⟨hsmall, if_pos hsmall⟩
  · refine .inr ⟨hlarge, ?_⟩
    rw [if_neg (Nat.not_lt.mpr hlarge), overChildren_eq, entriesLength_eq]
    have hfits' : ∀ child ∈ children.entries.map Prod.snd, Fits L child := by
      intro child hchild
      obtain ⟨e, he, rfl⟩ := List.mem_map.mp hchild
      exact hfits e he
    obtain ⟨hoffset, hsame, hparses⟩ := foldl_putEntry hfits' buffer 0
    have hnames : (children.entries.map Prod.snd).map Child.name = childNames children :=
      List.map_map
    generalize (children.entries.map Prod.snd).foldl (putEntry L) (buffer, 0) = state
      at hoffset hsame hparses ⊢
    rw [Nat.zero_add] at hoffset
    have hreclen := L.reclen_le
    have hname := L.name_le
    have hnull := write_sameOff state.1 (state.2 + L.dReclen) L.dReclenBytes 0
    have hread := read_write state.1 (state.2 + L.dReclen) L.dReclenBytes 0
    rw [Nat.zero_mod] at hread
    have hparse : Parses L (write state.1 (state.2 + L.dReclen) L.dReclenBytes 0) 0
        (childNames children) := by
      rw [← hnames, ← List.append_nil (List.map _ _)]
      refine hparses _ [] (fun x _ hx => hnull x (by omega)) (.stop ?_)
      rw [Nat.zero_add, ← hoffset]
      exact hread
    refine ⟨_, rfl, fun x hx => ?_, fun names => ⟨fun h => h.unique hparse, ?_⟩⟩
    · rw [hnull x (by omega)]
      exact hsame x (by omega)
    · rintro rfl
      exact hparse

/-! ## With `struct dirent` as it is -/

/-- Two numbers of eight bytes, a `d_reclen` of two, a type, and the name. -/
def dirent : DirentLayout where
  size := 1048
  dIno := 0
  dOff := 8
  dReclen := 16
  dReclenBytes := 2
  dType := 18
  dName := 19
  name_le := by decide
  ino_le := by decide
  off_le := by decide
  reclen_le := by decide
  type_le := by decide
  off_apart := by decide
  type_apart := by decide

/-- A map with one bucket. -/
def oneBucket (l : List Child) : Hashmap Child := ⟨1, some fun _ => l.map fun child => (child.name, child)⟩

theorem oneBucket_entries (l : List Child) :
    (oneBucket l).entries = l.map fun child => (child.name, child) := by
  show List.flatMap _ [0] = _
  simp [oneBucket]

/-- A directory with the one entry `a`. -/
def childA : Child := ⟨[0x61], by decide, 7, some 8⟩

/-- The record has 26 bytes and the null entry 24. -/
theorem readdir_exact_one : ∃ buffer',
    syscallReaddir dirent (some ⟨true, oneBucket [childA]⟩) (fun _ => 0xff) 50 = .done buffer' ∧
      ∀ names, Parses dirent buffer' 0 names ↔ names = [[0x61]] := by
  have hfits : ∀ e ∈ (oneBucket [childA]).entries, Fits dirent e.2 := by
    rw [oneBucket_entries]
    intro e he
    obtain rfl := List.mem_singleton.mp he
    show 26 < 256 ^ 2
    decide
  obtain ⟨hsmall, -⟩ | ⟨-, buffer', hdone, -, hparses⟩ :=
    readdir_exact dirent (oneBucket [childA]) hfits (fun _ => 0xff) 50
  · exact absurd hsmall (by decide)
  · exact ⟨buffer', hdone, hparses⟩

/-- The size of a record with a name of 65511 bytes is 0 in two bytes, and the reader stops there. -/
theorem long_name_lost : ∃ children buffer size, ¬ Exact dirent children buffer size := by
  have hnul : (0 : BitVec 8) ∉ List.replicate 65511 (0x61 : BitVec 8) := by
    intro hmem
    exact absurd (List.eq_of_mem_replicate hmem) (by decide)
  obtain ⟨child, hchild⟩ : ∃ child : Child, child.name = List.replicate 65511 0x61 :=
    ⟨⟨_, hnul, 7, some 8⟩, rfl⟩
  have hlen : child.name.length = 65511 := by rw [hchild, List.length_replicate]
  have hsize : recordSize dirent child = 65536 := by
    unfold recordSize
    rw [hlen]
    rfl
  have hlength : entriesLength dirent (oneBucket [child]) = 65560 := by
    rw [entriesLength_eq, oneBucket_entries]
    show recordSize dirent child + 0 + 24 = 65560
    rw [hsize]
  refine ⟨oneBucket [child], fun _ => 0, 65560, ?_⟩
  rintro (⟨hsmall, -⟩ | ⟨-, buffer', hdone, -, hparses⟩)
  · rw [hlength] at hsmall
    exact absurd hsmall (by decide)
  · unfold syscallReaddir at hdone
    simp only [Bool.true_eq_false, if_false] at hdone
    rw [hlength, if_neg (by decide), overChildren_eq, oneBucket_entries] at hdone
    obtain rfl := Result.done.inj hdone
    have hoffset := putEntry_snd dirent child (fun _ => 0) 0
    rw [hsize] at hoffset
    have hstop : Parses dirent (write (putEntry dirent (fun _ => 0, 0) child).1
        ((putEntry dirent (fun _ => 0, 0) child).2 + 16) 2 0) 0 [] := by
      refine .stop ?_
      rw [hoffset]
      exact read_write _ 16 2 0
    have hnone := (hparses []).mp hstop
    unfold childNames at hnone
    rw [oneBucket_entries] at hnone
    cases hnone

end Lyre.Readdir
