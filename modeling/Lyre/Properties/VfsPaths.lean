import Lyre.Fs.Vfs
import Lyre.Properties.Vfs
import Mathlib.Data.List.TakeWhile

/-!
# The names of a path

In a tree without links, all of which is read, a path leads from its first directory through its
names one by one (`descend`), and nothing in the tree changes meanwhile.
-/

namespace Lyre.Vfs

open Lyre.Vfs.Tree

variable {s s' : Tree} {n m p t c : Nat} {v w : VfsNode} {e : Key} {es : List Key} {disk : Disk}
  {r : Res} {path : Path} {depth : Nat} {ask : Bool} {resolve : Resolve}

/-! ## Names -/

/-- What stands between the slashes. -/
def components (path : Path) : List Key := (path.splitOnP (· = slash)).filter (· ≠ [])

theorem components_nil : components [] = [] := rfl

theorem components_slash (path : Path) : components (slash :: path) = components path := by
  rw [components, List.splitOnP_cons_eq_if_modifyHead, if_pos (by simp)]
  simp [components]

theorem components_append (path rest : Path) :
    components (path ++ slash :: rest) = components path ++ components rest := by
  unfold components
  rw [List.splitOnP_append_cons _ _ (by simp), List.filter_append]

theorem components_name (h : slash ∉ e) (hne : e ≠ []) : components e = [e] := by
  unfold components
  rw [List.splitOnP_eq_singleton (by
    intro x hx
    simp only [decide_eq_false_iff_not]
    rintro rfl
    exact h hx)]
  simp [hne]

theorem components_dropSlashes : ∀ path : Path,
    components (path.dropWhile (· = slash)) = components path
  | [] => rfl
  | b :: path => by
    by_cases hb : b = slash
    · rw [List.dropWhile_cons_of_pos (by simpa using hb), hb, components_slash,
        components_dropSlashes path]
    · rw [List.dropWhile_cons_of_neg (by simpa using hb)]

theorem components_name_slash (h : slash ∉ e) (hne : e ≠ []) (rest : Path) :
    components (e ++ slash :: rest) = e :: components rest := by
  rw [components_append, components_name h hne]
  rfl

/-- The turns of `path2node` take the names one by one. -/
theorem components_turn {b : BitVec 8} (hb : b ≠ slash) (hpath : path.head? = some b) :
    components path = path.takeWhile (· ≠ slash) ::
      components ((path.dropWhile (· ≠ slash)).dropWhile (· = slash)) := by
  have helem : slash ∉ path.takeWhile (· ≠ slash) := fun hmem => by
    simpa using List.mem_takeWhile_imp hmem
  have hne : path.takeWhile (· ≠ slash) ≠ [] := by
    cases path with
    | nil => simp at hpath
    | cons x path =>
      obtain rfl := Option.some.inj hpath
      rw [List.takeWhile_cons_of_pos (by simpa using hb)]
      simp
  rw [components_dropSlashes]
  cases hrest : path.dropWhile (· ≠ slash) with
  | nil =>
    have hall : path.takeWhile (· ≠ slash) = path := by
      have := List.takeWhile_append_dropWhile (p := (· ≠ slash)) (l := path)
      rwa [hrest, List.append_nil] at this
    rw [hall] at helem hne ⊢
    rw [components_name helem hne, components_nil]
  | cons x rest =>
    have hx : x = slash := by
      have hhead := List.head?_dropWhile_not (fun y : BitVec 8 => decide (y ≠ slash)) path
      rw [hrest] at hhead
      simpa using hhead
    subst hx
    have hsplit := List.takeWhile_append_dropWhile (p := (· ≠ slash)) (l := path)
    rw [hrest] at hsplit
    conv_lhs => rw [← hsplit]
    rw [components_name_slash helem hne, components_slash]

/-! ## Going down -/

/-- A node that nothing is to be read for, which is no link, and which has names only if it is a
directory. -/
structure PlainNode (v : VfsNode) : Prop where
  filesystem : ∀ fs, v.filesystem = some fs → fs.populate = false
  childrenFreed : v.childrenFreed = false
  symlinkTarget : v.symlinkTarget = none
  resource : v.resource ≠ some .lnk
  children : v.resource ≠ some .dir → v.children = .init 0

/-- A tree without links, all of which is read. -/
def Plain (s : Tree) : Prop := ∀ n v, s.node n = some v → PlainNode v

def IsDir (s : Tree) (n : Nat) : Prop := ∃ v, s.node n = some v ∧ v.resource = some .dir

namespace Tree

/-- The node under a name. -/
def child (s : Tree) (n : Nat) (e : Key) : Option Nat := (s.sget n e).join.join

/-- The node that a name leads to. -/
def enter (s : Tree) (n : Nat) (e : Key) : Option Nat := (s.child n e).bind s.reduce

/-- Names are entered one by one. -/
def descend (s : Tree) (n : Nat) (es : List Key) : Option Nat := es.foldlM s.enter n

/-- Where a path begins. -/
def start (s : Tree) (parent : Nat) (path : Path) : Option Nat :=
  s.reduce (if path.head? = some slash then s.root else parent)

theorem descend_cons : s.descend n (e :: es) = (s.enter n e).bind fun m => s.descend m es := rfl

theorem descend_append (s : Tree) (n : Nat) (es fs : List Key) :
    s.descend n (es ++ fs) = (s.descend n es).bind fun m => s.descend m fs := List.foldlM_append

theorem descend_concat : s.descend n (es ++ [e]) = (s.descend n es).bind fun m => s.enter m e := by
  rw [descend_append]
  simp [descend]

end Tree

theorem child_eq_some : s.child n e = some m ↔ s.sget n e = some (some (some m)) := by
  unfold Tree.child
  rcases s.sget n e with _ | _ | _ | _ <;> simp

theorem enter_eq_some : s.enter n e = some m ↔ ∃ y, s.child n e = some y ∧ s.reduce y = some m :=
  Option.bind_eq_some_iff

theorem enter_reduced (h : s.enter n e = some m) : s.reduce m = some m := by
  obtain ⟨y, -, hred⟩ := enter_eq_some.mp h
  exact reduce_idem hred

theorem descend_reduced (hn : s.reduce n = some n) (h : s.descend n es = some t) :
    s.reduce t = some t := by
  induction es generalizing n with
  | nil =>
    obtain rfl := Option.some.inj h
    exact hn
  | cons e es ih =>
    rw [Tree.descend_cons, Option.bind_eq_some_iff] at h
    obtain ⟨m, hm, h⟩ := h
    exact ih (enter_reduced hm) h

theorem PlainNode.unread (h : PlainNode v) : unread v = false := by
  unfold Tree.unread
  cases hfs : v.filesystem with
  | none => rfl
  | some fs => simp [h.filesystem fs hfs]

/-- A node that is read, and no link. -/
structure LinklessNode (v : VfsNode) : Prop where
  unread : Tree.unread v = false
  symlinkTarget : v.symlinkTarget = none
  resource : v.resource ≠ some .lnk

/-- A tree without links, all of which is read; what has been taken out of it may be there still. -/
def Linkless (s : Tree) : Prop := ∀ n v, s.node n = some v → LinklessNode v

theorem Plain.linkless (hs : Plain s) : Linkless s := fun n v hv =>
  ⟨(hs n v hv).unread, (hs n v hv).symlinkTarget, (hs n v hv).resource⟩

theorem Linkless.populate (hs : Linkless s) (hred : s.reduce n = some m) :
    s.populate disk m = some (s, true) := by
  obtain ⟨v, hv, -, -⟩ := reduceLoop_end hred
  exact Ready.populate ⟨v, hv, (hs m v hv).unread⟩

theorem Plain.isDir_of_child (hs : Plain s) (h : s.child n e = some m) : IsDir s n := by
  rw [child_eq_some] at h
  unfold Tree.sget at h
  rw [Option.bind_eq_bind, Option.bind_eq_some_iff] at h
  obtain ⟨v, hv, h⟩ := h
  refine ⟨v, hv, ?_⟩
  by_contra hkind
  rw [(hs n v hv).children hkind, (hs n v hv).childrenFreed] at h
  exact absurd h (by simp [Hashmap.get, Hashmap.init])

theorem Plain.isDir_of_descend (hs : Plain s) (h : s.descend n (e :: es) = some t) : IsDir s n := by
  rw [Tree.descend_cons, Option.bind_eq_some_iff] at h
  obtain ⟨m, hm, -⟩ := h
  obtain ⟨y, hy, -⟩ := enter_eq_some.mp hm
  exact hs.isDir_of_child hy

/-! ## One turn of the loop -/

/-- What a turn comes to in such a tree. -/
inductive TurnPlain (s : Tree) (c : Nat) (e : Key) (rest : Path) : Turn → Prop
  | null (errno : Option Errno) : TurnPlain s c e rest (.done { s with errno := errno } .null)
  | absent (errno : Option Errno) : rest = [] → s.sget c e = some none →
      TurnPlain s c e rest (.done { s with errno := errno } ⟨some c, none, some e⟩)
  | found (m : Nat) (v : VfsNode) (kind : Kind) : rest = [] → s.enter c e = some m →
      s.node m = some v → v.resource = some kind → TurnPlain s c e rest (.found s c m kind)
  | down (m : Nat) : rest ≠ [] → s.enter c e = some m → TurnPlain s c e rest (.down s m)

theorem turn_plain {rest : Path} {out : Turn} (hs : Linkless s) (hc : s.reduce c = some c)
    (h : s.turn disk resolve c e rest = some out) : TurnPlain s c e rest out := by
  unfold Tree.turn at h
  simp only [hc, Option.bind_eq_bind, Option.bind_some, Option.bind_eq_some_iff] at h
  obtain ⟨got, hget, h⟩ := h
  cases got with
  | none =>
    by_cases hrest : rest = []
    · rw [if_pos hrest] at h
      obtain rfl := Option.some.inj h
      exact .absent _ hrest hget
    · rw [if_neg hrest] at h
      obtain rfl := Option.some.inj h
      exact .null _
  | some item =>
    simp only [Option.bind_eq_some_iff] at h
    obtain ⟨y, rfl, m, hred, ⟨s₁, ok⟩, hpop, h⟩ := h
    rw [hs.populate hred] at hpop
    obtain ⟨rfl, rfl⟩ := Prod.mk.inj (Option.some.inj hpop)
    have henter : s.enter c e = some m := enter_eq_some.mpr ⟨y, child_eq_some.mpr hget, hred⟩
    simp only [Bool.true_eq_false, if_false, Option.bind_eq_some_iff] at h
    obtain ⟨v, hv, kind, hkind, h⟩ := h
    by_cases hrest : rest = []
    · rw [if_pos hrest] at h
      obtain rfl := Option.some.inj h
      exact .found m v kind hrest henter hv hkind
    · have hlnk : kind ≠ .lnk := by
        rintro rfl
        exact (hs m v hv).resource hkind
      rw [if_neg hrest, if_neg hlnk] at h
      split at h
      · obtain rfl := Option.some.inj h
        exact .down m hrest henter
      · obtain rfl := Option.some.inj h
        exact .null _

theorem Plain.ready (hs : Plain s) (hv : s.node n = some v) : Ready s n := ⟨v, hv, (hs n v hv).unread⟩

theorem turn_enter (hc : s.reduce c = some c) (h : s.enter c e = some m) (hm : IsDir s m)
    (hready : Ready s m) (rest : Path) : s.turn disk resolve c e rest =
      some (if rest = [] then .found s c m .dir else .down s m) := by
  obtain ⟨y, hy, hred⟩ := enter_eq_some.mp h
  obtain ⟨v, hv, hkind⟩ := hm
  unfold Tree.turn
  simp only [hc, child_eq_some.mp hy, hred, hready.populate, hv, hkind, Option.bind_eq_bind,
    Option.bind_some, Bool.true_eq_false, if_false, reduceCtorEq, if_true]
  split <;> rfl

/-- Names that lead from one directory to the next, all of which are read. -/
inductive Way (s : Tree) : Nat → List Key → Nat → Prop
  | nil (c : Nat) : Way s c [] c
  | cons {c m t : Nat} {e : Key} {es : List Key} : s.enter c e = some m → IsDir s m → Ready s m →
      Way s m es t → Way s c (e :: es) t

theorem Way.reduced (h : Way s c es t) (hc : s.reduce c = some c) : s.reduce t = some t := by
  induction h with
  | nil => exact hc
  | cons henter _ _ _ ih => exact ih (enter_reduced henter)

theorem Way.concat (h : Way s c es p) (henter : s.enter p e = some t) (hdir : IsDir s t)
    (hready : Ready s t) : Way s c (es ++ [e]) t := by
  induction h with
  | nil => exact .cons henter hdir hready (.nil _)
  | cons h₁ hm hr _ ih => exact .cons h₁ hm hr (ih henter)

theorem Way.uncons (h : Way s c (e :: es) t) :
    ∃ m, s.enter c e = some m ∧ IsDir s m ∧ Ready s m ∧ Way s m es t := by
  cases h with
  | cons henter hdir hready h => exact ⟨_, henter, hdir, hready, h⟩

theorem Way.eq_of_nil (h : Way s c [] t) : c = t := by
  cases h
  rfl

theorem Plain.way (hs : Plain s) (h : s.descend c es = some t) (hdir : IsDir s t) :
    Way s c es t := by
  induction es generalizing c with
  | nil =>
    obtain rfl := Option.some.inj h
    exact .nil c
  | cons e es ih =>
    rw [Tree.descend_cons, Option.bind_eq_some_iff] at h
    obtain ⟨m, hm, h⟩ := h
    have hmdir : IsDir s m := by
      cases es with
      | nil =>
        obtain rfl := Option.some.inj h
        exact hdir
      | cons e' es => exact hs.isDir_of_descend h
    have hready : Ready s m := by
      obtain ⟨v, hv, -⟩ := hmdir
      exact hs.ready hv
    exact .cons hm hmdir hready (ih h)

/-! ## The loop -/

/-- What a path comes to, if it begins at `c` and has the names `es`. -/
inductive Followed (s : Tree) (ask : Bool) (c : Nat) (es : List Key) : Tree → Res → Prop
  | null (errno : Option Errno) : Followed s ask c es { s with errno := errno } .null
  | start : es = [] → Followed s ask c es s ⟨some c, some c, some [slash]⟩
  | absent (errno : Option Errno) (init : List Key) (p : Nat) (e : Key) : es = init ++ [e] →
      s.descend c init = some p → s.reduce p = some p → s.sget p e = some none →
      Followed s ask c es { s with errno := errno } ⟨some p, none, some e⟩
  | file (errno : Option Errno) (init : List Key) (p t : Nat) (e : Key) : es = init ++ [e] →
      s.descend c init = some p → s.reduce p = some p → s.enter p e = some t → ¬ IsDir s t →
      ask = true → Followed s ask c es { s with errno := errno } ⟨some p, none, some e⟩
  | found (init : List Key) (p t : Nat) (e : Key) : es = init ++ [e] →
      s.descend c init = some p → s.reduce p = some p → s.enter p e = some t →
      Followed s ask c es s ⟨some p, some t, some e⟩

theorem Followed.cons (hm : s.enter c e = some m) (hne : es ≠ [])
    (h : Followed s ask m es s' r) : Followed s ask c (e :: es) s' r := by
  have hinit : ∀ {init p}, s.descend m init = some p → s.descend c (e :: init) = some p := by
    intro init p hp
    rw [Tree.descend_cons, hm, Option.bind_some, hp]
  cases h with
  | null errno => exact .null errno
  | start hes => exact absurd hes hne
  | absent errno init p e' hes hp hred hget =>
    exact .absent errno (e :: init) p e' (by rw [hes]; rfl) (hinit hp) hred hget
  | file errno init p t e' hes hp hred ht hdir hask =>
    exact .file errno (e :: init) p t e' (by rw [hes]; rfl) (hinit hp) hred ht hdir hask
  | found init p t e' hes hp hred ht =>
    exact .found (e :: init) p t e' (by rw [hes]; rfl) (hinit hp) hred ht

theorem head_dropSlashes {rest : Path} (h : path = rest.dropWhile (· = slash)) (hne : path ≠ []) :
    ∃ b, b ≠ slash ∧ path.head? = some b := by
  have hhead := List.head?_dropWhile_not (fun y : BitVec 8 => decide (y = slash)) rest
  rw [← h] at hhead
  cases path with
  | nil => exact absurd rfl hne
  | cons b path => exact ⟨b, by simpa using hhead, rfl⟩

theorem walk_followed {fuel : Nat} (hs : Linkless s) (hc : s.reduce c = some c)
    {b : BitVec 8} (hb : b ≠ slash) (hpath : path.head? = some b)
    (h : s.walk disk resolve ask fuel c path = some (s', r)) :
    Followed s ask c (components path) s' r := by
  induction fuel generalizing c path b with
  | zero => simp [Tree.walk] at h
  | succ fuel ih =>
    simp only [Tree.walk, Option.bind_eq_bind] at h
    obtain ⟨out, hturn, h⟩ := Option.bind_eq_some_iff.mp h
    rw [components_turn hb hpath]
    have hlast : ∀ {rest : Path}, rest = [] → ∀ e : Key, e :: components rest = [] ++ [e] := by
      rintro _ rfl e
      rfl
    cases turn_plain hs hc hturn with
    | null errno =>
      obtain ⟨rfl, rfl⟩ := Prod.mk.inj (Option.some.inj h)
      exact .null errno
    | absent errno hrest hget =>
      obtain ⟨rfl, rfl⟩ := Prod.mk.inj (Option.some.inj h)
      exact .absent errno [] c _ (hlast hrest _) rfl hc hget
    | found m v kind hrest hm hv hkind =>
      simp only at h
      split at h
      · next hask =>
        obtain ⟨rfl, rfl⟩ := Prod.mk.inj (Option.some.inj h)
        refine .file _ [] c m _ (hlast hrest _) rfl hc hm ?_ hask.1
        rintro ⟨w, hw, hdir⟩
        rw [hv] at hw
        obtain rfl := Option.some.inj hw
        exact hask.2 (Option.some.inj (hkind.symm.trans hdir))
      · obtain ⟨rfl, rfl⟩ := Prod.mk.inj (Option.some.inj h)
        exact .found [] c m _ (hlast hrest _) rfl hc hm
    | down m hrest hm =>
      obtain ⟨b', hb', hrest'⟩ := head_dropSlashes rfl hrest
      refine .cons hm ?_ (ih (enter_reduced hm) hb' hrest' h)
      rw [components_turn hb' hrest']
      simp

theorem rest_length_lt {b : BitVec 8} (hb : b ≠ slash) (hpath : path.head? = some b) :
    ((path.dropWhile (· ≠ slash)).dropWhile (· = slash)).length < path.length := by
  have h₁ := List.length_dropWhile_le (· = slash) (path.dropWhile (· ≠ slash))
  cases path with
  | nil => simp at hpath
  | cons x path =>
    obtain rfl := Option.some.inj hpath
    rw [List.dropWhile_cons_of_pos (by simpa using hb)] at h₁ ⊢
    have h₂ := List.length_dropWhile_le (· ≠ slash) path
    simp only [List.length_cons]
    omega

theorem walk_way : ∀ {fuel c : Nat} {path : Path} {b : BitVec 8}, path.length ≤ fuel →
    s.reduce c = some c → b ≠ slash → path.head? = some b → Way s c (components path) t →
    ∃ p e, s.walk disk resolve ask fuel c path = some (s, ⟨some p, some t, some e⟩)
  | 0, c, path, b, hfuel, _, _, hpath, _ => by
    rw [List.eq_nil_of_length_eq_zero (Nat.le_zero.mp hfuel)] at hpath
    simp at hpath
  | fuel + 1, c, path, b, hfuel, hc, hb, hpath, h => by
    have hlen := rest_length_lt hb hpath
    rw [components_turn hb hpath] at h
    obtain ⟨m, hm, hdir, hready, h⟩ := h.uncons
    simp only [Tree.walk, Option.bind_eq_bind]
    rw [turn_enter hc hm hdir hready]
    by_cases hrest : (path.dropWhile (· ≠ slash)).dropWhile (· = slash) = []
    · rw [hrest] at h ⊢
      obtain rfl := h.eq_of_nil
      rw [if_pos rfl]
      exact ⟨c, path.takeWhile (· ≠ slash), by simp⟩
    · obtain ⟨b', hb', hrest'⟩ := head_dropSlashes rfl hrest
      rw [if_neg hrest]
      exact walk_way (by omega) (enter_reduced hm) hb' hrest' h

/-! ## `path2node` and `vfs_get_node` -/

theorem path2node_followed {parent : Nat} (hs : Linkless s)
    (h : s.path2node disk depth (some parent) (some path) = some (s', r)) :
    (∃ errno, s' = { s with errno := errno } ∧ r = .null) ∨ path ≠ [] ∧ (∃ n, s.reduce parent = some n) ∧
      ∃ c, s.start parent path = some c ∧ Followed s (askForDir path) c (components path) s' r := by
  cases depth with
  | zero => simp [Tree.path2node] at h
  | succ depth =>
    unfold Tree.path2node at h
    cases path with
    | nil =>
      obtain ⟨rfl, rfl⟩ := Prod.mk.inj (Option.some.inj h)
      exact .inl ⟨_, rfl, rfl⟩
    | cons b path =>
      refine .inr ⟨by simp, ?_⟩
      simp only [Tree.path2nodeFrom, Option.bind_eq_bind, Option.bind_some] at h
      obtain ⟨n, hn, h⟩ := Option.bind_eq_some_iff.mp h
      rw [hs.populate hn, Option.bind_some] at h
      simp only [Bool.true_eq_false, if_false] at h
      refine ⟨⟨n, hn⟩, ?_⟩
      unfold Tree.start
      by_cases habs : (b :: path).head? = some slash
      · rw [if_pos habs] at h ⊢
        obtain ⟨root, hroot, h⟩ := Option.bind_eq_some_iff.mp h
        refine ⟨root, hroot, ?_⟩
        rw [← components_dropSlashes]
        split at h
        · next hrest =>
          obtain ⟨rfl, rfl⟩ := Prod.mk.inj (Option.some.inj h)
          exact .start (by rw [hrest]; rfl)
        · next hrest =>
          obtain ⟨b', hb', hrest'⟩ := head_dropSlashes rfl hrest
          exact walk_followed hs (reduce_idem hroot) hb' hrest' h
      · rw [if_neg habs] at h ⊢
        refine ⟨n, hn, walk_followed hs (reduce_idem hn) (b := b) ?_ rfl h⟩
        rintro rfl
        exact habs rfl

/-- A path whose names lead from one directory to the next leads to the last one. -/
theorem path2node_way {parent : Nat} (hne : path ≠ []) (hn : s.reduce parent = some n)
    (hready : Ready s n) (hc : s.start parent path = some c) (h : Way s c (components path) t)
    (depth : Nat) :
    ∃ p e, s.path2node disk (depth + 1) (some parent) (some path) =
      some (s, ⟨some p, some t, some e⟩) := by
  unfold Tree.path2node
  cases path with
  | nil => exact absurd rfl hne
  | cons b path =>
    simp only [Tree.path2nodeFrom, Option.bind_eq_bind, Option.bind_some, hn, hready.populate,
      Bool.true_eq_false, if_false]
    unfold Tree.start at hc
    by_cases habs : (b :: path).head? = some slash
    · rw [if_pos habs] at hc ⊢
      rw [hc, Option.bind_some]
      rw [← components_dropSlashes] at h
      have hlen := List.length_dropWhile_le (· = slash) (b :: path)
      split
      · next hrest =>
        rw [hrest] at h
        obtain rfl := h.eq_of_nil
        exact ⟨c, [slash], rfl⟩
      · next hrest =>
        obtain ⟨b', hb', hrest'⟩ := head_dropSlashes rfl hrest
        exact walk_way hlen (reduce_idem hc) hb' hrest' h
    · rw [if_neg habs] at hc ⊢
      rw [hn] at hc
      obtain rfl := Option.some.inj hc
      refine walk_way (Nat.le_refl _) (reduce_idem hn) (b := b) ?_ rfl h
      rintro rfl
      exact habs rfl

theorem path2node_descend {parent : Nat} (hs : Plain s) (hne : path ≠ [])
    (hn : s.reduce parent = some n) (hc : s.start parent path = some c)
    (h : s.descend c (components path) = some t) (hdir : IsDir s t) (depth : Nat) :
    ∃ p e, s.path2node disk (depth + 1) (some parent) (some path) =
      some (s, ⟨some p, some t, some e⟩) := by
  obtain ⟨v, hv, -, -⟩ := reduceLoop_end hn
  exact path2node_way hne hn (hs.ready hv) hc (hs.way h hdir) depth

theorem reduceFollow_self (h : s.reduce n = some n)
    (hlink : ∀ v, s.node n = some v → v.symlinkTarget = none) (fuel : Nat) :
    s.reduceFollow disk depth (fuel + 1) n = some (s, some n) := by
  obtain ⟨v, hv, hredir, hmount⟩ := reduceLoop_end h
  unfold Tree.reduceFollow
  rw [hv, Option.bind_eq_bind, Option.bind_some, hredir, hmount, hlink v hv]

theorem reduceFollow_reduced (hs : Linkless s) (h : s.reduce n = some n) (fuel : Nat) :
    s.reduceFollow disk depth (fuel + 1) n = some (s, some n) :=
  reduceFollow_self h (fun v hv => (hs n v hv).symlinkTarget) fuel

theorem getNode_followed {parent : Nat} {follow : Bool} (hs : Linkless s)
    (h : s.getNode disk depth (some parent) (some path) follow = some (s', some t)) :
    s' = s ∧ 0 < depth ∧ path ≠ [] ∧ (∃ n, s.reduce parent = some n) ∧
      ∃ c, s.start parent path = some c ∧ s.descend c (components path) = some t := by
  unfold Tree.getNode at h
  simp only [Option.bind_eq_bind] at h
  obtain ⟨⟨s₁, r⟩, hr, h⟩ := Option.bind_eq_some_iff.mp h
  cases depth with
  | zero => simp [Tree.path2node] at hr
  | succ depth =>
    rcases path2node_followed hs hr with ⟨errno, rfl, rfl⟩ | ⟨hne, hn, c, hc, hf⟩
    · exact absurd h (by simp [Res.null])
    · have hret : ∀ {u : Nat}, s.reduce u = some u →
          (if follow = true then s.reduceFollow disk (depth + 1) (depth + 1) u
            else some (s, some u)) = some (s', some t) → s' = s ∧ u = t := by
        intro u hu hfollow
        rw [reduceFollow_reduced hs hu, ite_self] at hfollow
        obtain ⟨rfl, hut⟩ := Prod.mk.inj (Option.some.inj hfollow)
        exact ⟨rfl, Option.some.inj hut⟩
      cases hf with
      | null errno => exact absurd h (by simp [Res.null])
      | start hes =>
        obtain ⟨rfl, rfl⟩ := hret (reduce_idem hc) h
        exact ⟨rfl, Nat.succ_pos _, hne, hn, c, hc, by rw [hes]; rfl⟩
      | absent errno init p e hes hp hred hget => exact absurd h (by simp)
      | file errno init p u e hes hp hred hu hdir hask => exact absurd h (by simp)
      | found init p u e hes hp hred hu =>
        obtain ⟨rfl, rfl⟩ := hret (enter_reduced hu) h
        refine ⟨rfl, Nat.succ_pos _, hne, hn, c, hc, ?_⟩
        rw [hes, Tree.descend_concat, hp, Option.bind_some, hu]

theorem getNode_descend {parent : Nat} (hs : Plain s) (hdepth : 0 < depth) (hne : path ≠ [])
    (hn : s.reduce parent = some n) (hc : s.start parent path = some c)
    (h : s.descend c (components path) = some t) (hdir : IsDir s t) (follow : Bool) :
    s.getNode disk depth (some parent) (some path) follow = some (s, some t) := by
  obtain ⟨depth, rfl⟩ := Nat.exists_eq_succ_of_ne_zero (Nat.pos_iff_ne_zero.mp hdepth)
  obtain ⟨p, e, hr⟩ : ∃ p e, s.path2node disk (depth + 1) (some parent) (some path) =
      some (s, ⟨some p, some t, some e⟩) := path2node_descend hs hne hn hc h hdir depth
  have ht := descend_reduced (reduce_idem hc) h
  unfold Tree.getNode
  rw [hr, Option.bind_eq_bind, Option.bind_some]
  simp only
  rw [reduceFollow_reduced hs.linkless ht, ite_self]

end Lyre.Vfs

/-!
## Path resolution as a fold

In a tree without links, all of which is read, `path2node` has a result for every path that is not
empty. It depends on the path only by its names, by whether the path begins with a slash and by
whether it ends with one (`path2node_names`), and it is the fold of the entries under the names
(`path2node_folds`).
-/

namespace Lyre.Vfs

open Lyre.Vfs.Tree

variable {s : Tree} {n m p t c : Nat} {v : VfsNode} {e : Key} {es : List Key} {disk : Disk}
  {path : Path} {ask : Bool} {resolve : Resolve}

/-! ## Trees -/

/-- A tree without links, all of which is read: what is under a name is a node with a resource. A file
system is mounted on `/`. -/
structure Full (s : Tree) : Prop where
  read : ∀ n v, s.node n = some v → unread v = false
  kept : ∀ n v, s.node n = some v → v.childrenFreed = false
  noLink : ∀ n v, s.node n = some v → v.resource ≠ some .lnk
  item : ∀ n v name item, s.node n = some v → v.children.get name = some item →
    ∃ m t w kind, item = some m ∧ s.reduce m = some t ∧ s.node t = some w ∧
      w.resource = some kind
  root : ∃ r, s.reduce s.root = some r ∧ IsDir s r

namespace Tree

def isDir (s : Tree) (n : Nat) : Bool := (s.node n).any (·.resource == some .dir)

/-- What a path comes to that begins at `c` and has the names `es`. -/
def names (s : Tree) (ask : Bool) : Nat → List Key → Tree × Res
  | c, [] => (s, ⟨some c, some c, some [slash]⟩)
  | c, [e] =>
    match s.enter c e with
    | none => (s.setErrno .enoent, ⟨some c, none, some e⟩)
    | some t =>
      if ask = true ∧ s.isDir t = false then (s.setErrno .enotdir, ⟨some c, none, some e⟩)
      else (s, ⟨some c, some t, some e⟩)
  | c, e :: e' :: es =>
    match s.enter c e with
    | none => (s.setErrno .enoent, .null)
    | some t => if s.isDir t then names s ask t (e' :: es) else (s.setErrno .enotdir, .null)

end Tree

theorem isDir_iff : s.isDir n = true ↔ IsDir s n := by
  unfold Tree.isDir IsDir
  rw [Option.any_eq_true]
  simp

theorem isDir_false_iff : s.isDir n = false ↔ ¬ IsDir s n := by
  rw [← isDir_iff, Bool.not_eq_true]

theorem isDir_eq_of_kind {kind : Kind} (hv : s.node n = some v) (hkind : v.resource = some kind) :
    s.isDir n = decide (kind = .dir) := by
  unfold Tree.isDir
  simp only [hv, hkind, Option.any_some]
  cases kind <;> rfl

/-! ## The turns -/

theorem Full.sget_eq_none (hs : Full s) (hc : s.reduce c = some c) (h : s.enter c e = none) :
    s.sget c e = some none := by
  obtain ⟨v, hv, -, -⟩ := reduceLoop_end hc
  have hkept := hs.kept c v hv
  unfold Tree.sget
  rw [hv, Option.bind_eq_bind, Option.bind_some, hkept]
  simp only [Bool.false_eq_true, if_false]
  cases hget : v.children.get e with
  | none => rfl
  | some item =>
    obtain ⟨m, t, w, kind, rfl, hred, -⟩ := hs.item c v e item hv hget
    have hchild : s.child c e = some m := by
      rw [child_eq_some]
      unfold Tree.sget
      rw [hv, Option.bind_eq_bind, Option.bind_some, hkept, hget]
      rfl
    have henter : s.enter c e = some t := enter_eq_some.mpr ⟨m, hchild, hred⟩
    rw [henter] at h
    cases h

theorem Full.populate (hs : Full s) (hv : s.node n = some v) :
    s.populate disk n = some (s, true) := by
  unfold Tree.populate
  rw [hv, Option.bind_eq_bind, Option.bind_some, hs.read n v hv]
  rfl

theorem Full.entered (hs : Full s) (h : s.enter c e = some t) :
    ∃ v kind, s.node t = some v ∧ v.resource = some kind ∧ kind ≠ .lnk := by
  obtain ⟨y, hy, hred⟩ := enter_eq_some.mp h
  rw [child_eq_some] at hy
  unfold Tree.sget at hy
  rw [Option.bind_eq_bind, Option.bind_eq_some_iff] at hy
  obtain ⟨v, hv, hget⟩ := hy
  rw [hs.kept c v hv] at hget
  obtain ⟨m, t', w, kind, hm, hred', hw, hkind⟩ :=
    hs.item c v e (some y) hv (by simpa using hget)
  obtain rfl := Option.some.inj hm
  obtain rfl : t' = t := Option.some.inj (hred'.symm.trans hred)
  refine ⟨w, kind, hw, hkind, ?_⟩
  rintro rfl
  exact hs.noLink t' w hw hkind

theorem Full.turn_absent (hs : Full s) (hc : s.reduce c = some c) (h : s.enter c e = none)
    (rest : Path) : s.turn disk resolve c e rest = some (.done (s.setErrno .enoent)
      (if rest = [] then ⟨some c, none, some e⟩ else .null)) := by
  unfold Tree.turn
  simp only [hc, hs.sget_eq_none hc h, Option.bind_eq_bind, Option.bind_some]
  split <;> rfl

theorem Full.turn_entered (hs : Full s) (hc : s.reduce c = some c) (h : s.enter c e = some t)
    {kind : Kind} (hv : s.node t = some v) (hkind : v.resource = some kind) (hlnk : kind ≠ .lnk)
    (rest : Path) : s.turn disk resolve c e rest = some (if rest = [] then .found s c t kind
      else if kind = .dir then .down s t else .done (s.setErrno .enotdir) .null) := by
  obtain ⟨y, hy, hred⟩ := enter_eq_some.mp h
  unfold Tree.turn
  simp only [hc, child_eq_some.mp hy, hred, hs.populate hv, hv, hkind, Option.bind_eq_bind,
    Option.bind_some, Bool.true_eq_false, if_false, if_neg hlnk]
  split
  · rfl
  · split <;> rfl

/-! ## The loop -/

/-- The loop of `path2node` takes the names one by one. -/
theorem walk_names : ∀ {fuel c : Nat} {path : Path} {b : BitVec 8}, path.length ≤ fuel → Full s →
    s.reduce c = some c → b ≠ slash → path.head? = some b →
    s.walk disk resolve ask fuel c path = some (s.names ask c (components path))
  | 0, c, path, b, hfuel, _, _, _, hpath => by
    rw [List.eq_nil_of_length_eq_zero (Nat.le_zero.mp hfuel)] at hpath
    simp at hpath
  | fuel + 1, c, path, b, hfuel, hs, hc, hb, hpath => by
    have hlen := rest_length_lt hb hpath
    rw [components_turn hb hpath]
    simp only [Tree.walk, Option.bind_eq_bind]
    generalize path.takeWhile (· ≠ slash) = e
    generalize hrest : (path.dropWhile (· ≠ slash)).dropWhile (· = slash) = rest at hlen ⊢
    by_cases hnil : rest = []
    · subst hnil
      simp only [components_nil, Tree.names]
      cases henter : s.enter c e with
      | none =>
        rw [hs.turn_absent hc henter]
        rfl
      | some t =>
        obtain ⟨v, kind, hv, hkind, hlnk⟩ := hs.entered henter
        rw [hs.turn_entered hc henter hv hkind hlnk]
        simp only [if_true, Option.bind_some, isDir_eq_of_kind hv hkind, decide_eq_false_iff_not]
        split <;> rfl
    · obtain ⟨b', hb', hhead⟩ := head_dropSlashes hrest.symm hnil
      obtain ⟨e', es, hes⟩ : ∃ e' es, components rest = e' :: es :=
        ⟨_, _, components_turn hb' hhead⟩
      rw [hes, Tree.names]
      cases henter : s.enter c e with
      | none =>
        rw [hs.turn_absent hc henter, if_neg hnil]
        rfl
      | some t =>
        obtain ⟨v, kind, hv, hkind, hlnk⟩ := hs.entered henter
        rw [hs.turn_entered hc henter hv hkind hlnk, if_neg hnil]
        simp only [isDir_eq_of_kind hv hkind, decide_eq_true_eq]
        by_cases hdir : kind = .dir
        · rw [if_pos hdir, if_pos hdir, ← hes]
          exact walk_names (by omega) hs (enter_reduced henter) hb' hhead
        · rw [if_neg hdir, if_neg hdir]
          rfl

/-- **`path2node`** goes through the names of the path. -/
theorem path2node_names {parent : Nat} (hs : Full s) (hn : s.reduce parent = some n)
    (hne : path ≠ []) (hc : s.start parent path = some c) (depth : Nat) :
    s.path2node disk (depth + 1) (some parent) (some path) =
      some (s.names (askForDir path) c (components path)) := by
  obtain ⟨v, hv, -, -⟩ := reduceLoop_end hn
  unfold Tree.path2node
  cases path with
  | nil => exact absurd rfl hne
  | cons b path =>
    simp only [Tree.path2nodeFrom, Option.bind_eq_bind, Option.bind_some, hn, hs.populate hv,
      Bool.true_eq_false, if_false]
    unfold Tree.start at hc
    by_cases habs : (b :: path).head? = some slash
    · rw [if_pos habs] at hc ⊢
      rw [hc, Option.bind_some, ← components_dropSlashes]
      have hlen := List.length_dropWhile_le (· = slash) (b :: path)
      split
      · next hrest =>
        rw [hrest, components_nil]
        rfl
      · next hrest =>
        obtain ⟨b', hb', hhead⟩ := head_dropSlashes rfl hrest
        exact walk_names hlen hs (reduce_idem hc) hb' hhead
    · rw [if_neg habs] at hc ⊢
      rw [hn] at hc
      obtain rfl := Option.some.inj hc
      refine walk_names (Nat.le_refl _) hs (reduce_idem hn) (b := b) ?_ rfl
      rintro rfl
      exact habs rfl

/-! ## The fold -/

/-- The nodes that the path comes to before its last name are directories. -/
def Between (s : Tree) (c : Nat) (es : List Key) : Prop :=
  ∀ init rest m, es = init ++ rest → init ≠ [] → rest ≠ [] → s.descend c init = some m → IsDir s m

/-- A name is missing. -/
def Missing (s : Tree) (c : Nat) (es : List Key) : Prop :=
  ∃ init e rest p, es = init ++ e :: rest ∧ s.descend c init = some p ∧ s.child p e = none

/-- What a result has to do with the names of a path. -/
structure Folds (s : Tree) (ask : Bool) (c : Nat) (es : List Key) (r : Res) : Prop where
  target : ∀ t, r.target = some t ↔
    s.descend c es = some t ∧ Between s c es ∧ (ask = true → IsDir s t)
  null : r.target = none ↔ Missing s c es ∨ ¬ Between s c es ∨
    ask = true ∧ ∃ t, s.descend c es = some t ∧ ¬ IsDir s t
  targetParent : ∀ p, r.targetParent = some p ↔
    s.descend c es.dropLast = some p ∧ Between s c es

theorem between_cons {e' : Key} (h : s.enter c e = some t) :
    Between s c (e :: e' :: es) ↔ IsDir s t ∧ Between s t (e' :: es) := by
  constructor
  · intro hb
    refine ⟨hb [e] (e' :: es) t rfl (by simp) (by simp) ?_, fun init rest m hes hinit hrest hm => ?_⟩
    · rw [Tree.descend_cons, h]
      rfl
    · refine hb (e :: init) rest m (by rw [hes]; rfl) (by simp) hrest ?_
      rw [Tree.descend_cons, h]
      exact hm
  · rintro ⟨hdir, hb⟩ init rest m hes hinit hrest hm
    cases init with
    | nil => exact absurd rfl hinit
    | cons x init =>
      obtain ⟨rfl, htail⟩ := List.cons.inj hes
      rw [Tree.descend_cons, h, Option.bind_some] at hm
      cases init with
      | nil =>
        obtain rfl := Option.some.inj hm
        exact hdir
      | cons y init => exact hb (y :: init) rest m htail (by simp) hrest hm

theorem between_single (s : Tree) (c : Nat) (e : Key) : Between s c [e] := by
  intro init rest m hes hinit hrest
  have hlen := congrArg List.length hes
  have h₁ := List.length_pos_iff.mpr hinit
  have h₂ := List.length_pos_iff.mpr hrest
  simp only [List.length_append, List.length_singleton] at hlen
  omega

theorem between_nil (s : Tree) (c : Nat) : Between s c [] := by
  intro init rest m hes hinit
  exact absurd (List.append_eq_nil_iff.mp hes.symm).1 hinit

theorem Full.missing_iff (hs : Full s) (hc : s.reduce c = some c) :
    Missing s c es ↔ s.descend c es = none := by
  constructor
  · rintro ⟨init, e, rest, p, rfl, hp, hchild⟩
    rw [Tree.descend_append, hp, Option.bind_some, Tree.descend_cons]
    simp [Tree.enter, hchild]
  · intro h
    induction es generalizing c with
    | nil => cases h
    | cons e es ih =>
      rw [Tree.descend_cons] at h
      cases henter : s.enter c e with
      | none =>
        refine ⟨[], e, es, c, rfl, rfl, ?_⟩
        unfold Tree.child
        rw [hs.sget_eq_none hc henter]
        rfl
      | some t =>
        rw [henter, Option.bind_some] at h
        obtain ⟨init, e', rest, p, rfl, hp, hchild⟩ := ih (enter_reduced henter) h
        refine ⟨e :: init, e', rest, p, rfl, ?_, hchild⟩
        rw [Tree.descend_cons, henter]
        exact hp

/-- A result with these targets is `NULL` for these reasons. -/
theorem Folds.of_targets {r : Res} (hs : Full s) (hc : s.reduce c = some c)
    (htarget : ∀ t, r.target = some t ↔
      s.descend c es = some t ∧ Between s c es ∧ (ask = true → IsDir s t))
    (hparent : ∀ p, r.targetParent = some p ↔
      s.descend c es.dropLast = some p ∧ Between s c es) : Folds s ask c es r where
  target := htarget
  null := by
    rw [hs.missing_iff hc]
    constructor
    · intro hnull
      cases hd : s.descend c es with
      | none => exact .inl rfl
      | some t =>
        by_cases hb : Between s c es
        · refine .inr (.inr ?_)
          by_contra hno
          have ht := (htarget t).mpr ⟨hd, hb, fun hask => by_contra fun hdir =>
            hno ⟨hask, t, rfl, hdir⟩⟩
          rw [hnull] at ht
          cases ht
        · exact .inr (.inl hb)
    · intro hwhy
      cases ht : r.target with
      | none => rfl
      | some t =>
        obtain ⟨hd, hb, hdir⟩ := (htarget t).mp ht
        rcases hwhy with hnone | hnb | ⟨hask, u, hu, hno⟩
        · rw [hnone] at hd
          cases hd
        · exact absurd hb hnb
        · obtain rfl : u = t := Option.some.inj (hu.symm.trans hd)
          exact absurd (hdir hask) hno
  targetParent := hparent

theorem names_folds (hs : Full s) : ∀ {es : List Key} {c : Nat}, s.reduce c = some c →
    IsDir s c → Folds s ask c es (s.names ask c es).2
  | [], c, hc, hdir => by
    refine .of_targets hs hc (fun t => ?_) fun p => ?_
    · refine ⟨fun h => ?_, fun h => h.1⟩
      obtain rfl := Option.some.inj h
      exact ⟨rfl, between_nil s c, fun _ => hdir⟩
    · exact ⟨fun h => ⟨h, between_nil s c⟩, fun h => h.1⟩
  | [e], c, hc, hdir => by
    have hfold : s.descend c [e] = s.enter c e := by
      rw [Tree.descend_cons]
      cases s.enter c e <;> rfl
    refine .of_targets hs hc (fun t => ?_) fun p => ?_
    · rw [hfold, Tree.names]
      cases henter : s.enter c e with
      | none => simp
      | some u =>
        simp only [Option.some.injEq, between_single, true_and]
        by_cases hask : ask = true ∧ s.isDir u = false
        · rw [if_pos hask]
          simp only [reduceCtorEq, false_iff, not_and]
          rintro rfl
          rw [hask.1]
          simpa using isDir_false_iff.mp hask.2
        · rw [if_neg hask]
          simp only [Option.some.injEq]
          refine ⟨?_, And.left⟩
          rintro rfl
          refine ⟨rfl, fun h => ?_⟩
          rw [← isDir_iff, ← Bool.not_eq_false]
          exact fun hu => hask ⟨h, hu⟩
    · have hres : (s.names ask c [e]).2.targetParent = some c := by
        rw [Tree.names]
        cases s.enter c e with
        | none => rfl
        | some u => simp only; split <;> rfl
      rw [hres]
      exact ⟨fun h => ⟨h, between_single s c e⟩, And.left⟩
  | e :: e' :: es, c, hc, _ => by
    have hlast : (e :: e' :: es).dropLast = e :: (e' :: es).dropLast := rfl
    rw [Tree.names]
    cases henter : s.enter c e with
    | none =>
      have hnone : ∀ es, s.descend c (e :: es) = none := by
        intro es
        rw [Tree.descend_cons, henter]
        rfl
      refine .of_targets hs hc (fun t => ?_) fun p => ?_
      · simp [Res.null, hnone]
      · rw [hlast, hnone]
        simp [Res.null]
    | some t =>
      have hcons : ∀ es, s.descend c (e :: es) = s.descend t es := by
        intro es
        rw [Tree.descend_cons, henter]
        rfl
      simp only
      by_cases hdir : IsDir s t
      · rw [if_pos (isDir_iff.mpr hdir)]
        have ih : Folds s ask t (e' :: es) _ := names_folds hs (enter_reduced henter) hdir
        refine .of_targets hs hc (fun u => ?_) fun p => ?_
        · rw [ih.target, hcons, between_cons henter]
          simp [hdir]
        · rw [ih.targetParent, hlast, hcons, between_cons henter]
          simp [hdir]
      · rw [if_neg (fun h => hdir (isDir_iff.mp h))]
        have hno : ¬ Between s c (e :: e' :: es) := fun h => hdir ((between_cons henter).mp h).1
        refine .of_targets hs hc (fun u => ?_) fun p => ?_
        · simp [Res.null, hno]
        · simp [Res.null, hno]

theorem names_tree : ∀ (es : List Key) (c : Nat),
    ∃ errno, (s.names ask c es).1 = { s with errno := errno }
  | [], c => ⟨s.errno, rfl⟩
  | [e], c => by
    rw [Tree.names]
    split
    · exact ⟨_, rfl⟩
    · split
      · exact ⟨_, rfl⟩
      · exact ⟨s.errno, rfl⟩
  | e :: e' :: es, c => by
    rw [Tree.names]
    split
    · exact ⟨_, rfl⟩
    · split
      · exact names_tree (e' :: es) _
      · exact ⟨_, rfl⟩

/-- Two paths with the same names that begin and end alike. -/
structure SameNames (path path' : Path) : Prop where
  names : components path' = components path
  head : path'.head? = some slash ↔ path.head? = some slash
  last : askForDir path' = askForDir path

/-- **`path2node` is a fold.** The target is the fold of the entries under the names of the path, and
`target_parent` that of all names but the last, as far as these lead to directories. -/
theorem path2node_folds {parent : Nat} (hs : Full s) (hn : s.reduce parent = some n)
    (hdir : IsDir s n) (hne : path ≠ []) (disk : Disk) (depth : Nat) :
    ∃ c errno r, s.start parent path = some c ∧
      s.path2node disk (depth + 1) (some parent) (some path) =
        some ({ s with errno := errno }, r) ∧
      Folds s (askForDir path) c (components path) r ∧
      ∀ path', path' ≠ [] → SameNames path path' →
        s.path2node disk (depth + 1) (some parent) (some path') =
          s.path2node disk (depth + 1) (some parent) (some path) := by
  obtain ⟨root, hroot, hrootDir⟩ := hs.root
  obtain ⟨c, hc, hcdir⟩ : ∃ c, s.start parent path = some c ∧ IsDir s c := by
    unfold Tree.start
    split
    · exact ⟨root, hroot, hrootDir⟩
    · exact ⟨n, hn, hdir⟩
  have hcc : s.reduce c = some c := reduce_idem hc
  obtain ⟨errno, herrno⟩ : ∃ errno, (s.names (askForDir path) c (components path)).1 =
      { s with errno := errno } := names_tree _ c
  refine ⟨c, errno, (s.names (askForDir path) c (components path)).2, hc, ?_,
    names_folds hs hcc hcdir, fun path' hne' hsame => ?_⟩
  · rw [path2node_names hs hn hne hc, ← herrno]
  · have hc' : s.start parent path' = some c := by
      unfold Tree.start at hc ⊢
      rw [if_congr hsame.head rfl rfl]
      exact hc
    rw [path2node_names hs hn hne' hc', path2node_names hs hn hne hc, hsame.names, hsame.last]

/-! ### A file -/

/-- A map that holds these entries. -/
def mapOf (l : List (Key × Option Nat)) : Hashmap (Option Nat) where
  cap := 256
  buckets := some fun i => l.filter fun x => decide (hash x.1 % 256 = i)

theorem mapOf_get {l : List (Key × Option Nat)} {name : Key} {item : Option Nat}
    (h : (mapOf l).get name = some item) : (name, item) ∈ l := by
  unfold Hashmap.get at h
  obtain ⟨buckets, hb, h⟩ := Option.bind_eq_some_iff.mp h
  obtain rfl := Option.some.inj hb
  obtain ⟨x, hx, rfl⟩ := Option.map_eq_some_iff.mp h
  have hname := List.find?_some hx
  obtain rfl : x.1 = name := by simpa using hname
  exact List.mem_of_mem_filter (List.mem_of_find?_eq_some hx)

/-- The file `a` in the root directory. -/
def withFile : Tree where
  nodes := [
    { newNode none none false none none none with mountpoint := some 1 },
    { newNode (some ⟨0, false, true, true⟩) (some 0) true (some .dir) none none with
      children := mapOf [(dotName, some 2), (dotdotName, some 3), ([0x61], some 4)] },
    newNode (some ⟨0, false, true, true⟩) (some 1) false none (some 1) none,
    newNode (some ⟨0, false, true, true⟩) (some 1) false none (some 0) none,
    newNode (some ⟨0, false, true, true⟩) (some 1) false (some .other) none none]
  root := 0
  errno := none

theorem withFile_node (h : withFile.node n = some v) : v ∈ withFile.nodes :=
  List.mem_of_getElem? h

theorem withFile_full : Full withFile where
  read := by
    intro n v hv
    have hmem := withFile_node hv
    simp only [withFile, List.mem_cons, List.not_mem_nil, or_false] at hmem
    rcases hmem with rfl | rfl | rfl | rfl | rfl <;> rfl
  kept := by
    intro n v hv
    have hmem := withFile_node hv
    simp only [withFile, List.mem_cons, List.not_mem_nil, or_false] at hmem
    rcases hmem with rfl | rfl | rfl | rfl | rfl <;> rfl
  noLink := by
    intro n v hv
    have hmem := withFile_node hv
    simp only [withFile, List.mem_cons, List.not_mem_nil, or_false] at hmem
    rcases hmem with rfl | rfl | rfl | rfl | rfl <;> simp [newNode]
  item := by
    intro n v name item hv hget
    have hmem := withFile_node hv
    simp only [withFile, List.mem_cons, List.not_mem_nil, or_false] at hmem
    rcases hmem with rfl | rfl | rfl | rfl | rfl
    · simp [newNode, Hashmap.init, Hashmap.get] at hget
    · have hentry := mapOf_get hget
      simp only [List.mem_cons, List.not_mem_nil, or_false, Prod.mk.injEq] at hentry
      rcases hentry with ⟨-, rfl⟩ | ⟨-, rfl⟩ | ⟨-, rfl⟩
      · exact ⟨2, 1, _, .dir, rfl, rfl, rfl, rfl⟩
      · exact ⟨3, 1, _, .dir, rfl, rfl, rfl, rfl⟩
      · exact ⟨4, 4, _, .other, rfl, rfl, rfl, rfl⟩
    · simp [newNode, Hashmap.init, Hashmap.get] at hget
    · simp [newNode, Hashmap.init, Hashmap.get] at hget
    · simp [newNode, Hashmap.init, Hashmap.get] at hget
  root := ⟨1, rfl, _, rfl, rfl⟩

/-- `/a` from the root directory. -/
theorem path2node_folds_file :
    ∃ c errno r, withFile.start 1 [slash, 0x61] = some c ∧
      withFile.path2node (fun _ => ⟨[], true⟩) 1 (some 1) (some [slash, 0x61]) =
        some ({ withFile with errno := errno }, r) ∧
      Folds withFile false c [[0x61]] r := by
  obtain ⟨c, errno, r, hc, hr, hf, -⟩ := path2node_folds withFile_full
    (rfl : withFile.reduce 1 = some 1) ⟨_, rfl, rfl⟩ (by simp : ([slash, 0x61] : Path) ≠ [])
    (fun _ => ⟨[], true⟩) 0
  exact ⟨c, errno, r, hc, hr, hf⟩

/-- For `a/b`, `target_parent` is `NULL`, though the names but the last lead to the file `a`. -/
theorem file_is_no_parent :
    ¬ ∀ (s s' : Tree) (disk : Disk) (parent n c : Nat) (path : Path) (r : Res), Full s →
      s.reduce parent = some n → IsDir s n → path ≠ [] → s.start parent path = some c →
      s.path2node disk 1 (some parent) (some path) = some (s', r) →
      r.targetParent = s.descend c (components path).dropLast := by
  intro h
  have hrun : (withFile.path2node (fun _ => ⟨[], true⟩) 1 (some 1)
      (some [0x61, slash, 0x62])).map (fun x => x.2.targetParent) = some none := by
    decide +kernel
  obtain ⟨⟨s', r⟩, hr, hparent⟩ := Option.map_eq_some_iff.mp hrun
  have hfold : withFile.descend 1 (components [0x61, slash, 0x62]).dropLast = some 4 := by
    decide +kernel
  have heq := h withFile s' (fun _ => ⟨[], true⟩) 1 1 1 [0x61, slash, 0x62] r withFile_full rfl
    ⟨_, rfl, rfl⟩ (by simp) rfl hr
  rw [hfold, hparent] at heq
  cases heq

end Lyre.Vfs
