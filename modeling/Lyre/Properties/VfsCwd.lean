import Lyre.Properties.VfsOpen

/-!
# The path of a working directory

`vfs_pathname` writes the names of the directories from the top down to a node (`Above`, `written`),
and a slash between them. The path of the root directory is empty.

* `getcwd_written` — what `syscall_getcwd` puts into the buffer;
* `Placed` — the directories on the way up are the entries of their names;
* `getcwd_resolves_iff` — when the path leads back to the directory.
-/

namespace Lyre.Vfs

open Lyre.Vfs.Tree

variable {s s' : Tree} {n m p c r : Nat} {v : VfsNode} {e : Key} {es es' : List Key} {disk : Disk}
  {depth fuel len k : Nat} {names : Nat → Key} {buffer buffer' : List (BitVec 8)} {str : Path}

/-! ## What is written -/

/-- What is written of a name. -/
def piece (e : Key) : Path := if e = [slash] then [] else e

def pieces (es : List Key) : Path := es.flatMap fun e => slash :: piece e

/-- The path of the names from the top. -/
def written : List Key → Path
  | [] => []
  | e :: es => piece e ++ pieces es

theorem pieces_concat (es : List Key) (e : Key) : pieces (es ++ [e]) = pieces es ++ slash :: piece e := by
  simp [pieces]

theorem written_concat (hne : es ≠ []) (e : Key) :
    written (es ++ [e]) = written es ++ slash :: piece e := by
  cases es with
  | nil => exact absurd rfl hne
  | cons e₀ es =>
    rw [List.cons_append, written, written, pieces_concat, List.append_assoc]

/-- The names of the directories from the top down to a node. -/
inductive Above (names : Nat → Key) (s : Tree) : List Key → Nat → Prop
  | top {n : Nat} {v : VfsNode} : s.node n = some v → s.above v = some none → Above names s [names n] n
  | under {n p : Nat} {v : VfsNode} {es : List Key} : Above names s es p → s.node n = some v →
      s.above v = some (some p) → Above names s (es ++ [names n]) n

theorem Above.ne_nil (h : Above names s es n) : es ≠ [] := by
  cases h <;> simp

theorem Above.eq_name (h : Above names s es n) (hmem : e ∈ es) : ∃ m, e = names m := by
  induction h with
  | top => exact ⟨_, List.mem_singleton.mp hmem⟩
  | under _ _ _ ih =>
    rcases List.mem_append.mp hmem with hmem | hmem
    · exact ih hmem
    · exact ⟨_, List.mem_singleton.mp hmem⟩

theorem Above.unique (h : Above names s es n) (h' : Above names s es' n) : es = es' := by
  induction h generalizing es' with
  | top hv ha =>
    cases h' with
    | top => rfl
    | under _ hv' ha' =>
      obtain rfl := Option.some.inj (hv.symm.trans hv')
      cases ha.symm.trans ha'
  | under _ hv ha ih =>
    cases h' with
    | top hv' ha' =>
      obtain rfl := Option.some.inj (hv.symm.trans hv')
      cases ha.symm.trans ha'
    | under habove hv' ha' =>
      obtain rfl := Option.some.inj (hv.symm.trans hv')
      obtain rfl := Option.some.inj (Option.some.inj (ha.symm.trans ha'))
      rw [ih habove]

/-! ## `vfs_pathname` -/

/-- A path in a buffer of `total` bytes, `len` of which may be used. -/
structure Filled (total len : Nat) (path : Path) (buffer : List (BitVec 8)) : Prop where
  /-- The path is followed by zeros. -/
  fits : path.length ≤ len → buffer = path ++ List.replicate (total - path.length) 0
  /-- A path that does not fit is cut, or a slash has been put behind the bytes that may be used. -/
  cut : len < path.length → path.length ≤ total ∨ buffer.take len = path.take len

theorem strncpyAt_some {offset size : Nat} (h : strncpyAt buffer offset e size = some buffer') :
    offset + size ≤ buffer.length ∧ buffer' =
      buffer.take offset ++ (e.take size ++ List.replicate (size - e.length) 0) ++
        buffer.drop (offset + size) := by
  unfold strncpyAt at h
  split at h
  · next hle => exact ⟨hle, (Option.some.inj h).symm⟩
  · cases h

theorem sizeSub_of_le {a b : Nat} (h : b ≤ a) (ha : a < 2 ^ 64) : sizeSub a b = a - b := by
  unfold sizeSub
  omega

theorem sizeSub_of_lt {a b : Nat} (h : a < b) : sizeSub a b = a + 2 ^ 64 - b := by
  unfold sizeSub
  omega

theorem strncpyAt_zeros (path : Path) (total : Nat) {size : Nat}
    (h : strncpyAt (path ++ List.replicate (total - path.length) 0) path.length e size = some buffer')
    (hpath : path.length ≤ total) :
    buffer'.length = total ∧
      (e.length ≤ size → buffer' = path ++ e ++ List.replicate (total - (path ++ e).length) 0) ∧
      (size < e.length → buffer'.take (path.length + size) = (path ++ e).take (path.length + size)) := by
  obtain ⟨hle, rfl⟩ := strncpyAt_some h
  simp only [List.length_append, List.length_replicate] at hle
  have hfirst : (path ++ List.replicate (total - path.length) (0 : BitVec 8)).take path.length = path :=
    List.take_left' rfl
  have hrest : (path ++ List.replicate (total - path.length) (0 : BitVec 8)).drop (path.length + size) =
      List.replicate (total - path.length - size) 0 := by
    rw [List.drop_append, List.drop_eq_nil_of_le (by omega), List.nil_append, Nat.add_sub_cancel_left,
      List.drop_replicate]
  rw [hfirst, hrest]
  refine ⟨?_, fun hfit => ?_, fun hcut => ?_⟩
  · simp only [List.length_append, List.length_take, List.length_replicate]
    omega
  · rw [List.take_of_length_le hfit, List.append_assoc, List.append_assoc, List.append_assoc,
      List.replicate_append_replicate]
    simp only [List.length_append]
    congr 3
    omega
  · have hzeros : size - e.length = 0 := by omega
    have hsize : (e.take size).length = size := by
      rw [List.length_take]
      omega
    rw [hzeros, List.replicate_zero, List.append_nil, List.append_assoc, List.take_append,
      List.take_append, List.take_append, List.take_of_length_le (Nat.le_add_right _ _),
      Nat.add_sub_cancel_left, hsize, Nat.sub_self, List.take_zero, List.append_nil, List.take_take,
      Nat.min_self]

theorem strncpyAt_length {offset size : Nat} (h : strncpyAt buffer offset e size = some buffer') :
    buffer'.length = buffer.length := by
  obtain ⟨hle, rfl⟩ := strncpyAt_some h
  simp only [List.length_append, List.length_take, List.length_replicate, List.length_drop]
  omega

theorem set_slash {path : Path} {total : Nat} (h : path.length < total) :
    (path ++ List.replicate (total - path.length) (0 : BitVec 8)).set path.length slash =
      (path ++ [slash]) ++ List.replicate (total - (path ++ [slash]).length) 0 := by
  have hsucc : total - path.length = total - (path ++ [slash]).length + 1 := by
    simp only [List.length_append, List.length_singleton]
    omega
  rw [hsucc, List.replicate_succ, List.set_append_right _ _ (Nat.le_refl _), Nat.sub_self,
    List.set_cons_zero, List.append_assoc, List.singleton_append]

/-- **`vfs_pathname`.** -/
theorem vfsPathname_spec {total : Nat} (htotal : total < 2 ^ 63) : ∀ {fuel n len k : Nat}
    {buffer' : List (BitVec 8)},
    s.vfsPathname names fuel n (List.replicate total 0) len = some (buffer', k) →
    ∃ es, Above names s es n ∧ k = (written es).length ∧ buffer'.length = total ∧
      (len ≤ total → Filled total len (written es) buffer')
  | 0, _, _, _, _, h => by cases h
  | fuel + 1, n, len, k, buffer', h => by
    rw [Tree.vfsPathname] at h
    simp only [Option.bind_eq_bind] at h
    obtain ⟨v, hv, h⟩ := Option.bind_eq_some_iff.mp h
    obtain ⟨parent, habove, h⟩ := Option.bind_eq_some_iff.mp h
    cases parent with
    | none =>
      refine ⟨[names n], .top hv habove, ?_⟩
      have hw : written [names n] = piece (names n) := List.append_nil _
      rw [hw]
      unfold piece
      simp only [Option.bind_some] at h
      by_cases hname : names n = [slash]
      · rw [if_pos hname] at h ⊢
        obtain ⟨rfl, rfl⟩ := Prod.mk.inj (Option.some.inj h)
        refine ⟨rfl, List.length_replicate, fun _ => ⟨fun _ => rfl, fun hlt => ?_⟩⟩
        exact absurd hlt (Nat.not_lt_zero _)
      · rw [if_neg hname] at h ⊢
        obtain ⟨b, hcopy, h⟩ := Option.bind_eq_some_iff.mp h
        obtain ⟨rfl, rfl⟩ := Prod.mk.inj (Option.some.inj h)
        refine ⟨rfl, (strncpyAt_length hcopy).trans List.length_replicate, fun hlen => ?_⟩
        rw [sizeSub_of_le (Nat.zero_le _) (by omega), Nat.sub_zero] at hcopy
        obtain ⟨-, hfit, hcut⟩ := strncpyAt_zeros [] total hcopy (Nat.zero_le _)
        refine ⟨hfit, fun hlt => .inr ?_⟩
        simpa using hcut hlt
    | some p =>
      simp only at h
      obtain ⟨⟨b, o⟩, hrec, h⟩ := Option.bind_eq_some_iff.mp h
      obtain ⟨es, hes, rfl, hlength, hfilled⟩ := vfsPathname_spec htotal hrec
      refine ⟨es ++ [names n], .under hes hv habove, ?_⟩
      rw [written_concat hes.ne_nil]
      simp only at h
      by_cases ho : (written es).length < b.length
      swap
      · rw [if_neg ho] at h
        cases h
      rw [if_pos ho, Option.bind_some] at h
      simp only at h
      rw [hlength] at ho
      -- Where the slash is inside of what may be used, the path above is whole.
      have hzeros : len ≤ total → (written es).length + 1 ≤ len → b.set (written es).length slash =
          (written es ++ [slash]) ++
            List.replicate (total - (written es ++ [slash]).length) 0 := by
        intro hlen hle
        rw [sizeSub_of_le (by omega) (by omega)] at hfilled
        rw [(hfilled (by omega)).fits (by omega), set_slash ho]
      unfold piece
      by_cases hname : names n = [slash]
      · rw [if_pos hname] at h ⊢
        obtain ⟨rfl, rfl⟩ := Prod.mk.inj (Option.some.inj h)
        refine ⟨by simp, by rw [List.length_set, hlength], fun hlen => ⟨fun hle => ?_, fun _ => .inl ?_⟩⟩
        · rw [List.length_append, List.length_singleton] at hle
          exact hzeros hlen hle
        · rw [List.length_append, List.length_singleton]
          exact ho
      · rw [if_neg hname] at h ⊢
        obtain ⟨b', hcopy, h⟩ := Option.bind_eq_some_iff.mp h
        obtain ⟨rfl, rfl⟩ := Prod.mk.inj (Option.some.inj h)
        have hpath : written es ++ slash :: names n = (written es ++ [slash]) ++ names n := by simp
        refine ⟨?_, ?_, fun hlen => ?_⟩
        · simp only [List.length_append, List.length_cons]
          omega
        · rw [strncpyAt_length hcopy, List.length_set, hlength]
        · rcases Nat.lt_or_ge len ((written es).length + 1) with hlt | hge
          · -- The difference of the lengths wraps around.
            rw [sizeSub_of_lt hlt] at hcopy
            have hle := (strncpyAt_some hcopy).1
            rw [List.length_set, hlength] at hle
            omega
          · rw [hzeros hlen hge, sizeSub_of_le hge (by omega)] at hcopy
            have hone : (written es ++ [slash]).length = (written es).length + 1 := by simp
            rw [← hone] at hcopy
            obtain ⟨-, hfit, hcut⟩ := strncpyAt_zeros _ _ hcopy (by omega)
            rw [hpath]
            refine ⟨fun hle => hfit ?_, fun hlt => .inr ?_⟩
            · rw [List.length_append] at hle
              omega
            · rw [List.length_append] at hlt
              have htake := hcut (by omega)
              rwa [Nat.add_sub_cancel' (by omega)] at htake

theorem written_ne_zero (hnul : ∀ n, 0 ∉ names n) (h : Above names s es n) : 0 ∉ written es := by
  have hpiece : ∀ e ∈ es, 0 ∉ piece e := by
    intro e he
    obtain ⟨m, rfl⟩ := h.eq_name he
    unfold piece
    split
    · simp
    · exact hnul m
  have hpieces : ∀ l : List Key, (∀ e ∈ l, 0 ∉ piece e) → 0 ∉ pieces l := by
    intro l hl hmem
    obtain ⟨e, he, hmem⟩ := List.mem_flatMap.mp hmem
    rcases List.mem_cons.mp hmem with hslash | hmem
    · exact absurd hslash (by decide)
    · exact hl e he hmem
  cases es with
  | nil => exact absurd rfl h.ne_nil
  | cons e es =>
    rw [written, List.mem_append, not_or]
    exact ⟨hpiece e List.mem_cons_self, hpieces es fun x hx => hpiece x (List.mem_cons_of_mem e hx)⟩

/-- **`syscall_getcwd`** returns the path, if it returns one. -/
theorem getcwd_written (hnul : ∀ n, 0 ∉ names n)
    (h : s.getcwd names fuel c len = some (s', some str)) :
    ∃ es, Above names s es c ∧ str = written es := by
  unfold Tree.getcwd at h
  simp only [Option.bind_eq_bind] at h
  obtain ⟨⟨buffer, k⟩, hpath, h⟩ := Option.bind_eq_some_iff.mp h
  obtain ⟨es, hes, rfl, hlength, hfilled⟩ := vfsPathname_spec (by decide) hpath
  refine ⟨es, hes, ?_⟩
  simp only at h
  split at h
  · cases h
  next hlen =>
  obtain ⟨path, hcopy, h⟩ := Option.bind_eq_some_iff.mp h
  obtain rfl : path = str := Option.some.inj (Prod.mk.inj (Option.some.inj h)).2
  have hzero := written_ne_zero hnul hes
  unfold Tree.copyOut at hcopy
  split at hcopy
  swap
  · cases hcopy
  next hcopied =>
  rw [← Option.some.inj hcopy]
  rcases Nat.lt_or_ge 4096 (written es).length with hlong | hshort
  · -- Nothing ends a path that does not fit.
    rcases (hfilled (Nat.le_refl _)).cut hlong with hle | hcut
    · omega
    · rw [List.take_of_length_le (Nat.le_of_eq hlength)] at hcut
      rcases hcopied with hmem | hle
      · rw [hcut] at hmem
        exact absurd (List.mem_of_mem_take hmem) hzero
      · omega
  · rw [(hfilled (Nat.le_refl _)).fits hshort]
    have hwhole : (written es ++ List.replicate (4096 - (written es).length) (0 : BitVec 8)).takeWhile
        (· ≠ 0) = written es := by
      rw [List.takeWhile_append_of_pos fun b hb => by
        simp only [ne_eq, decide_eq_true_eq]
        rintro rfl
        exact hzero hb]
      cases 4096 - (written es).length with
      | zero => exact List.append_nil _
      | succ i => rw [List.replicate_succ, List.takeWhile_cons_of_neg (by simp), List.append_nil]
    rw [hwhole]
    exact List.take_of_length_le (by omega)

/-! ## The way back -/

/-- A name that stands for itself in a path. -/
structure IsName (e : Key) : Prop where
  ne_nil : e ≠ []
  noSlash : slash ∉ e
  noDot : e ≠ dotName
  noDotdot : e ≠ dotdotName

theorem IsName.piece (h : IsName e) : piece e = e := by
  refine if_neg ?_
  rintro rfl
  exact h.noSlash List.mem_cons_self

theorem components_pieces : ∀ {es : List Key}, (∀ e ∈ es, IsName e) → components (pieces es) = es
  | [], _ => rfl
  | e :: es, h => by
    have he := h e List.mem_cons_self
    have ih : components (pieces es) = es :=
      components_pieces fun x hx => h x (List.mem_cons_of_mem e hx)
    have hcons : pieces (e :: es) = slash :: (e ++ pieces es) := by
      simp only [pieces, List.flatMap_cons, he.piece, List.cons_append]
    rw [hcons, components_slash]
    cases es with
    | nil =>
      rw [show pieces [] = [] from rfl, List.append_nil]
      exact components_name he.noSlash he.ne_nil
    | cons e' es =>
      have hrest : pieces (e' :: es) = slash :: (Vfs.piece e' ++ pieces es) := rfl
      rw [hrest, components_slash] at ih
      rw [hrest, components_name_slash he.noSlash he.ne_nil, ih]

/-- The directories on the way from the root directory are read, and each is the entry of its own name
in the one above it. -/
inductive Placed (names : Nat → Key) (s : Tree) : List Key → Nat → Prop
  | root {r : Nat} {v : VfsNode} : s.reduce s.root = some r → s.node r = some v →
      s.above v = some none → names r = [slash] → Placed names s [] r
  | entry {n p : Nat} {v : VfsNode} {es : List Key} : Placed names s es p → s.node n = some v →
      s.above v = some (some p) → s.enter p (names n) = some n → IsName (names n) → IsDir s n →
      Ready s n → Placed names s (es ++ [names n]) n

theorem Placed.above (h : Placed names s es n) : Above names s ([slash] :: es) n := by
  induction h with
  | root _ hv ha hname =>
    rw [← hname]
    exact .top hv ha
  | entry _ hv ha _ _ _ _ ih => exact .under ih hv ha

theorem Placed.isName (h : Placed names s es n) (hmem : e ∈ es) : IsName e := by
  induction h with
  | root => cases hmem
  | entry _ _ _ _ hname _ _ ih =>
    rcases List.mem_append.mp hmem with hmem | hmem
    · exact ih hmem
    · rw [List.mem_singleton.mp hmem]
      exact hname

theorem Placed.way (h : Placed names s es n) : ∃ r, s.reduce s.root = some r ∧ Way s r es n := by
  induction h with
  | root hr => exact ⟨_, hr, .nil _⟩
  | entry _ _ _ henter _ hdir hready ih =>
    obtain ⟨r, hr, hway⟩ := ih
    exact ⟨r, hr, hway.concat henter hdir hready⟩

/-- `vfs_get_node` comes to the directory, from wherever the path is resolved. -/
def LeadsBack (disk : Disk) (s : Tree) (path : Path) (c : Nat) : Prop :=
  path.head? = some slash ∧ ∀ w n, s.reduce w = some n → Ready s n → ∀ depth follow,
    s.getNode disk (depth + 1) (some w) (some path) follow = some (s, some c)

/-- What is known of every working directory. -/
structure WorkingDir (s : Tree) (c : Nat) : Prop where
  isDir : IsDir s c
  ready : Ready s c
  noLink : ∀ v, s.node c = some v → v.symlinkTarget = none

theorem Placed.leadsBack (h : Placed names s es c) (hne : es ≠ []) (hc : WorkingDir s c) :
    LeadsBack disk s (pieces es) c := by
  obtain ⟨r, hr, hway⟩ := h.way
  have hhead : (pieces es).head? = some slash := by
    cases es with
    | nil => exact absurd rfl hne
    | cons e es => rfl
  have hpath : pieces es ≠ [] := by
    intro hnil
    rw [hnil] at hhead
    cases hhead
  refine ⟨hhead, fun w n hn hready depth follow => ?_⟩
  have hstart : s.start w (pieces es) = some r := by
    unfold Tree.start
    rw [if_pos hhead]
    exact hr
  rw [← components_pieces fun e he => h.isName he] at hway
  obtain ⟨p, e, hr'⟩ : ∃ p e, s.path2node disk (depth + 1) (some w) (some (pieces es)) =
      some (s, ⟨some p, some c, some e⟩) := path2node_way hpath hn hready hstart hway depth
  unfold Tree.getNode
  rw [hr', Option.bind_eq_bind, Option.bind_some]
  simp only
  rw [reduceFollow_self (hway.reduced (reduce_idem hr)) hc.noLink, ite_self]

/-! ## Trees without links -/

/-- The names and the parents of directories, as file systems and mounts set them. -/
structure Homed (names : Nat → Key) (s : Tree) : Prop where
  root : ∃ r, s.reduce s.root = some r ∧ Ready s r
  top : ∀ n v, IsDir s n → s.node n = some v → s.above v = some none →
    names n = [slash] ∨ IsName (names n)
  under : ∀ n v p, IsDir s n → s.node n = some v → s.above v = some (some p) →
    IsDir s p ∧ IsName (names n)
  /-- A directory is an entry of the directory above it only. -/
  entry : ∀ n v m, IsDir s n → s.node n = some v → s.reduce m = some m →
    s.enter m (names n) = some n → s.above v = some (some m)

theorem Above.isName (h : Above names s es n) (hhomed : Homed names s) (hdir : IsDir s n) :
    ∀ e ∈ es.tail, IsName e := by
  induction h with
  | top => exact fun e he => absurd he List.not_mem_nil
  | under habove hv ha ih =>
    obtain ⟨hp, hname⟩ := hhomed.under _ _ _ hdir hv ha
    intro e he
    rw [List.tail_append_of_ne_nil habove.ne_nil] at he
    rcases List.mem_append.mp he with he | he
    · exact ih hp e he
    · rw [List.mem_singleton.mp he]
      exact hname

/-- If the names lead from the root directory to the node, each of them is that of an entry on the way. -/
theorem Above.placed (h : Above names s es n) (hlinkless : Linkless s) (hhomed : Homed names s)
    (hdir : IsDir s n) (hr : s.reduce s.root = some r) (hes : es = [slash] :: es')
    (hdescend : s.descend r es' = some n) : Placed names s es' n := by
  induction h generalizing es' with
  | top hv ha =>
    obtain ⟨hname, rfl⟩ := List.cons.inj hes
    obtain rfl := Option.some.inj hdescend
    exact .root hr hv ha hname
  | under habove hv ha ih =>
    obtain ⟨hp, hname⟩ := hhomed.under _ _ _ hdir hv ha
    obtain ⟨e₀, es₀, rfl⟩ := List.exists_cons_of_ne_nil habove.ne_nil
    rw [List.cons_append] at hes
    obtain ⟨rfl, rfl⟩ := List.cons.inj hes
    rw [Tree.descend_concat] at hdescend
    obtain ⟨m, hm, henter⟩ := Option.bind_eq_some_iff.mp hdescend
    have hmm := descend_reduced (reduce_idem hr) hm
    obtain rfl := Option.some.inj (Option.some.inj
      (ha.symm.trans (hhomed.entry _ _ m hdir hv hmm henter)))
    exact .entry (ih hp rfl hm) hv ha henter hname hdir ⟨_, hv, (hlinkless _ _ hv).unread⟩

theorem LeadsBack.placed (h : LeadsBack disk s (written es) c) (hlinkless : Linkless s)
    (hhomed : Homed names s) (hdir : IsDir s c) (habove : Above names s es c) :
    ∃ es, es ≠ [] ∧ Placed names s es c := by
  obtain ⟨hhead, hget⟩ := h
  obtain ⟨e₀, es₀, rfl⟩ := List.exists_cons_of_ne_nil habove.ne_nil
  -- A path that begins with a slash has the name of the root directory on top.
  have htop : ∀ {es n}, Above names s es n → IsDir s n → es.head? = some [slash] ∨
      ∃ e, es.head? = some e ∧ IsName e := by
    intro es n h
    induction h with
    | top hv ha =>
      intro hdir
      exact (hhomed.top _ _ hdir hv ha).imp (fun h => by rw [h]; rfl) fun h => ⟨_, rfl, h⟩
    | under habove hv ha ih =>
      intro hdir
      rw [List.head?_append_of_ne_nil _ habove.ne_nil]
      exact ih (hhomed.under _ _ _ hdir hv ha).1
  have hroot : e₀ = [slash] := by
    rcases htop habove hdir with htop | ⟨e, htop, hname⟩
    · exact Option.some.inj htop
    · obtain rfl := Option.some.inj htop
      rw [written, hname.piece] at hhead
      obtain ⟨b, e₁, rfl⟩ := List.exists_cons_of_ne_nil hname.ne_nil
      obtain rfl := Option.some.inj hhead
      exact absurd List.mem_cons_self hname.noSlash
  subst hroot
  have hpath : written ([slash] :: es₀) = pieces es₀ := rfl
  rw [hpath] at hhead hget
  obtain ⟨r, hr, hready⟩ := hhomed.root
  obtain ⟨-, -, -, -, r', hstart, hdescend⟩ :=
    getNode_followed hlinkless (hget r r (reduce_idem hr) hready 0 false)
  have hnames : ∀ e ∈ es₀, IsName e := habove.isName hhomed hdir
  rw [components_pieces hnames] at hdescend
  unfold Tree.start at hstart
  rw [if_pos hhead, hr] at hstart
  obtain rfl := Option.some.inj hstart
  refine ⟨es₀, ?_, habove.placed hlinkless hhomed hdir hr rfl hdescend⟩
  rintro rfl
  cases hhead

/-! ## `chdir` and `getcwd` -/

theorem reduceFollow_settled : ∀ {fuel n : Nat} {s s' : Tree}, RootRead s → Settled s n →
    s.reduceFollow disk depth fuel n = some (s', some c) →
    Settled s' c ∧ ∀ v, s'.node c = some v → v.symlinkTarget = none
  | 0, _, _, _, _, _, h => by cases h
  | fuel + 1, n, s, s', hs, hn, h => by
    obtain ⟨v, hv, hredir, hmount⟩ := reduceLoop_end hn.1
    unfold Tree.reduceFollow at h
    rw [hv, Option.bind_eq_bind, Option.bind_some, hredir, hmount] at h
    cases hlink : v.symlinkTarget with
    | none =>
      rw [hlink] at h
      obtain ⟨rfl, hnc⟩ := Prod.mk.inj (Option.some.inj h)
      obtain rfl := Option.some.inj hnc
      refine ⟨hn, fun w hw => ?_⟩
      obtain rfl := Option.some.inj (hv.symm.trans hw)
      exact hlink
    | some target =>
      rw [hlink] at h
      simp only [Option.bind_eq_bind] at h
      split at h
      · cases h
      obtain ⟨⟨s₁, r⟩, hr, h⟩ := Option.bind_eq_some_iff.mp h
      obtain ⟨hs₁, -, hlanded⟩ := path2node_lands hs hr
      simp only at h
      split at h
      · cases h
      · next t ht => exact reduceFollow_settled hs₁ (hlanded.target ht) h

/-- `syscall_chdir` leads to such a directory. -/
theorem chdir_workingDir {s₀ : Tree} {cwd : Nat} {path : Option Path} (hs : RootRead s₀)
    (h : s₀.chdir disk depth cwd path = some (s, c, 0)) : WorkingDir s c := by
  unfold Tree.chdir at h
  split at h
  · cases h
  · cases h
  simp only [Option.bind_eq_bind] at h
  obtain ⟨⟨s₁, node⟩, hget, h⟩ := Option.bind_eq_some_iff.mp h
  cases node with
  | none => cases h
  | some node =>
    simp only at h
    obtain ⟨v, hv, h⟩ := Option.bind_eq_some_iff.mp h
    obtain ⟨kind, hkind, h⟩ := Option.bind_eq_some_iff.mp h
    split at h
    · cases h
    next hdir =>
    obtain ⟨rfl, hnode⟩ := Prod.mk.inj (Option.some.inj h)
    obtain ⟨rfl, -⟩ := Prod.mk.inj hnode
    obtain rfl : kind = .dir := by simpa using hdir
    unfold Tree.getNode at hget
    simp only [Option.bind_eq_bind] at hget
    obtain ⟨⟨s₂, r⟩, hr, hget⟩ := Option.bind_eq_some_iff.mp hget
    obtain ⟨hs₂, -, hlanded⟩ := path2node_lands hs hr
    simp only at hget
    split at hget
    · cases hget
    next t ht =>
    obtain ⟨hsettled, hlink⟩ := reduceFollow_settled hs₂ (hlanded.target ht) hget
    exact ⟨⟨v, hv, hkind⟩, hsettled.2, hlink⟩

/-- **`getcwd` and resolution.** The path that `syscall_getcwd` returns is absolute and leads back to the
working directory, if that is not the root directory and all directories on the way are the entries of
their names. In a tree without links, all of which is read, it is the other way round, too. -/
theorem getcwd_resolves_iff (hnul : ∀ n, 0 ∉ names n) (hc : WorkingDir s c)
    (hget : s.getcwd names fuel c len = some (s', some str)) (disk : Disk) :
    ((∃ es, es ≠ [] ∧ Placed names s es c) → LeadsBack disk s str c) ∧
    (Linkless s → Homed names s →
      (LeadsBack disk s str c ↔ ∃ es, es ≠ [] ∧ Placed names s es c)) := by
  obtain ⟨es, habove, rfl⟩ := getcwd_written hnul hget
  have henough : (∃ es, es ≠ [] ∧ Placed names s es c) → LeadsBack disk s (written es) c := by
    rintro ⟨es', hne, hplaced⟩
    obtain rfl := habove.unique hplaced.above
    exact hplaced.leadsBack hne hc
  refine ⟨henough, fun hlinkless hhomed => ⟨fun hback => ?_, henough⟩⟩
  exact hback.placed hlinkless hhomed hc.isDir habove

/-! ### A directory -/

/-- The directory `a` in the root directory. -/
def withA : Tree where
  nodes := [
    { newNode none none false none none none with mountpoint := some 1 },
    { newNode (some ⟨0, false, true, true⟩) (some 0) true (some .dir) none none with
      children := mapOf [(dotName, some 2), (dotdotName, some 3), (pathA, some 4)] },
    newNode (some ⟨0, false, true, true⟩) (some 1) false none (some 1) none,
    newNode (some ⟨0, false, true, true⟩) (some 1) false none (some 0) none,
    { newNode (some ⟨0, false, true, true⟩) (some 1) true (some .dir) none none with
      children := mapOf [(dotName, some 5), (dotdotName, some 6)] },
    newNode (some ⟨0, false, true, true⟩) (some 4) false none (some 4) none,
    newNode (some ⟨0, false, true, true⟩) (some 4) false none (some 1) none]
  root := 0
  errno := none

/-- The names of its nodes. -/
def namesA : Nat → Key
  | 1 => [slash]
  | 2 | 5 => dotName
  | 3 | 6 => dotdotName
  | 4 => pathA
  | _ => []

theorem namesA_nul : ∀ n, 0 ∉ namesA n := by
  intro n
  unfold namesA
  split <;> decide

theorem withA_linkless : Linkless withA := by
  intro n v hv
  have hmem : v ∈ withA.nodes := List.mem_of_getElem? hv
  simp only [withA, List.mem_cons, List.not_mem_nil, or_false] at hmem
  rcases hmem with rfl | rfl | rfl | rfl | rfl | rfl | rfl
  all_goals exact ⟨rfl, rfl, by simp [newNode]⟩

theorem withA_homed : Homed namesA withA := by
  have hdir : ∀ n < 7, withA.isDir n = true → n = 1 ∨ n = 4 := by decide +kernel
  have hcases : ∀ n, IsDir withA n → n = 1 ∨ n = 4 := by
    intro n h
    obtain ⟨v, hv, -⟩ := id h
    exact hdir n (node_lt hv) (isDir_iff.mpr h)
  have hname : IsName (namesA 4) := ⟨by decide, by decide, by decide, by decide⟩
  refine ⟨⟨1, rfl, _, rfl, rfl⟩, fun n v h hv ha => ?_, fun n v p h hv ha => ?_, fun n v m h hv hm he => ?_⟩
  · rcases hcases n h with rfl | rfl
    · exact .inl rfl
    · exact .inr hname
  · rcases hcases n h with rfl | rfl
    · obtain rfl := Option.some.inj hv
      cases ha
    · obtain rfl := Option.some.inj hv
      obtain rfl := Option.some.inj (Option.some.inj ha)
      exact ⟨⟨_, rfl, rfl⟩, hname⟩
  · obtain ⟨u, hu, -, -⟩ := reduceLoop_end hm
    rcases hcases n h with rfl | rfl
    · have hnone : ∀ m < 7, withA.enter m [slash] ≠ some 1 := by decide +kernel
      exact absurd he (hnone m (node_lt hu))
    · have hone : ∀ m < 7, withA.enter m pathA = some 4 → m = 1 := by decide +kernel
      obtain rfl := hone m (node_lt hu) he
      obtain rfl := Option.some.inj hv
      rfl

/-- `/a`. -/
theorem getcwd_resolves_a : ∃ s' str, withA.chdir noDisk 1 0 (some pathA) = some (withA, 4, 0) ∧
    withA.getcwd namesA 2 4 100 = some (s', some str) ∧ str = [slash, 0x61] ∧
    LeadsBack noDisk withA str 4 := by
  have hrun : (withA.getcwd namesA 2 4 100).map Prod.snd = some (some [slash, 0x61]) := by
    decide +kernel
  obtain ⟨⟨s', o⟩, hget, rfl⟩ := Option.map_eq_some_iff.mp hrun
  have hchdir : withA.chdir noDisk 1 0 (some pathA) = some (withA, 4, 0) := rfl
  have hc : WorkingDir withA 4 := chdir_workingDir ⟨1, rfl, _, rfl, rfl⟩ hchdir
  have hname : IsName (namesA 4) := ⟨by decide, by decide, by decide, by decide⟩
  have hplaced : Placed namesA withA ([] ++ [namesA 4]) 4 := by
    have hroot : Placed namesA withA [] 1 := .root rfl rfl rfl rfl
    exact .entry hroot rfl rfl rfl hname hc.isDir hc.ready
  have hiff := (getcwd_resolves_iff namesA_nul hc hget noDisk).2 withA_linkless withA_homed
  exact ⟨s', _, hchdir, hget, rfl, hiff.mpr ⟨_, by simp, hplaced⟩⟩

/-- In the root directory `syscall_getcwd` returns the empty string. -/
theorem getcwd_root_empty : ¬ ∀ (names : Nat → Key) (disk : Disk) (s₀ s s' : Tree) (cwd c depth fuel
    len : Nat) (path : Option Path) (str : Path), (∀ n, 0 ∉ names n) → RootRead s₀ →
    s₀.chdir disk depth cwd path = some (s, c, 0) →
    s.getcwd names fuel c len = some (s', some str) → LeadsBack disk s str c := by
  have hrun : ((mounting.createDotentries 1 0).bind fun s₀ =>
      (s₀.chdir noDisk 1 0 (some [slash])).bind fun r =>
      (r.1.getcwd namesA 1 r.2.1 100).bind fun r' => r'.2.bind fun str =>
      (s₀.node 1).map fun v => (r.2.2, str, s₀.reduce s₀.root, unread v)) =
      some (0, [], some 1, false) := by
    decide +kernel
  obtain ⟨s₀, -, hrun⟩ := Option.bind_eq_some_iff.mp hrun
  obtain ⟨⟨s, c, ret⟩, hchdir, hrun⟩ := Option.bind_eq_some_iff.mp hrun
  obtain ⟨⟨s', o⟩, hget, hrun⟩ := Option.bind_eq_some_iff.mp hrun
  obtain ⟨str, rfl, hrun⟩ := Option.bind_eq_some_iff.mp hrun
  obtain ⟨v, hv, hfacts⟩ := Option.map_eq_some_iff.mp hrun
  simp only [Prod.mk.injEq] at hfacts
  obtain ⟨rfl, rfl, hroot, hread⟩ := hfacts
  intro hclaim
  have hback := hclaim namesA noDisk s₀ s s' 0 c 1 1 100 (some [slash]) [] namesA_nul
    ⟨1, hroot, v, hv, hread⟩ hchdir hget
  exact absurd hback.1 (by decide)

end Lyre.Vfs
