import Lyre.Infra.Run
import Lyre.Fs.Vfs

/-!
# The nodes between two calls

The maps of all nodes are well-formed, a directory that its file system has not read yet has no
names but the dot entries, and the root directory is read (`Sound`). Path resolution changes nodes
only by reading directories, and never one that is read already (`Extends`).
-/

namespace Lyre.Vfs

open Lyre.Vfs.Tree

variable {s s' s'' : Tree} {n m k : Nat} {v v' w : VfsNode} {name : Key} {item : Option Nat}
  {disk : Disk} {skip : Nat → Prop}

/-! ## Nodes -/

theorem node_lt (h : s.node n = some v) : n < s.nodes.length := (List.getElem?_eq_some_iff.mp h).1

theorem push_node (h : s.node n = some v) : (s.push w).node n = some v := by
  unfold node push at *
  rw [List.getElem?_append_left (node_lt h)]
  exact h

theorem push_node_new : (s.push w).node s.nodes.length = some w := List.getElem?_concat_length

theorem push_node_cases (h : (s.push w).node n = some v) :
    s.node n = some v ∨ (n = s.nodes.length ∧ v = w) := by
  by_cases hn : n < s.nodes.length
  · left
    unfold node push at *
    rw [List.getElem?_append_left hn] at h
    exact h
  · have hlt := node_lt h
    simp only [push, List.length_append, List.length_singleton] at hlt
    obtain rfl : n = s.nodes.length := by omega
    rw [push_node_new] at h
    exact Or.inr ⟨rfl, (Option.some.inj h).symm⟩

theorem setNode_node_self (h : s.node n = some v) : (s.setNode n w).node n = some w := by
  unfold node setNode
  rw [List.getElem?_set_self (node_lt h)]

theorem setNode_node_of_ne (hm : m ≠ n) : (s.setNode n w).node m = s.node m :=
  List.getElem?_set_ne (Ne.symm hm)

@[simp] theorem setErrno_node {e : Errno} : (s.setErrno e).node n = s.node n := rfl

/-- The nodes outside of `P` are as they were. -/
structure SameBut (P : Nat → Prop) (s s' : Tree) : Prop where
  root : s'.root = s.root
  node : ∀ m v, ¬ P m → s.node m = some v → s'.node m = some v

namespace SameBut

variable {P : Nat → Prop}

theorem rfl' : SameBut P s s := ⟨rfl, fun _ _ _ h => h⟩

theorem trans (h : SameBut P s s') (h' : SameBut P s' s'') : SameBut P s s'' :=
  ⟨h'.root.trans h.root, fun m v hm hv => h'.node m v hm (h.node m v hm hv)⟩

theorem push (s : Tree) (w : VfsNode) : SameBut P s (s.push w) :=
  ⟨rfl, fun _ _ _ h => push_node h⟩

theorem setNode (s : Tree) (n : Nat) (w : VfsNode) : SameBut (· = n) s (s.setNode n w) := by
  refine ⟨rfl, fun m v hm hv => ?_⟩
  rw [setNode_node_of_ne hm]
  exact hv

end SameBut

/-! ## The invariant -/

/-- A directory that is not read has no names yet but the dot entries. -/
def Tidy (v : VfsNode) : Prop :=
  unread v = true → ∀ name ∈ v.children.names, name = dotName ∨ name = dotdotName

/-- A node that is read, or that nothing is to be read for. -/
def Ready (s : Tree) (n : Nat) : Prop := ∃ v, s.node n = some v ∧ unread v = false

theorem Ready.populate (h : Ready s n) : s.populate disk n = some (s, true) := by
  obtain ⟨v, hv, hu⟩ := h
  unfold Tree.populate
  rw [hv, Option.bind_eq_bind, Option.bind_some, if_neg (by rw [hu]; decide)]

/-- The invariant, where the nodes in `skip` may be being read. -/
structure SoundBut (skip : Nat → Prop) (s : Tree) : Prop where
  wellFormed : ∀ n v, s.node n = some v → v.children.WellFormed
  tidy : ∀ n v, s.node n = some v → ¬ skip n → Tidy v
  root : ∃ r, s.reduce s.root = some r ∧ Ready s r

/-- What holds between the calls. -/
abbrev Sound : Tree → Prop := SoundBut fun _ => False

/-! ## Chains of redirections -/

theorem reduceLoop_end {fuel : Nat} (h : s.reduceLoop fuel n = some m) :
    ∃ v, s.node m = some v ∧ v.redir = none ∧ v.mountpoint = none := by
  induction fuel generalizing n with
  | zero => simp [reduceLoop] at h
  | succ fuel ih =>
    rw [reduceLoop, Option.bind_eq_bind, Option.bind_eq_some_iff] at h
    obtain ⟨v, hv, h⟩ := h
    split at h
    · exact ih h
    · exact ih h
    · next hr hm =>
      obtain rfl := Option.some.inj h
      exact ⟨v, hv, hr, hm⟩

theorem reduce_idem (h : s.reduce n = some m) : s.reduce m = some m := by
  obtain ⟨v, hv, hr, hm⟩ := reduceLoop_end h
  unfold reduce
  rw [reduceLoop, hv, Option.bind_eq_bind, Option.bind_some, hr, hm]

/-- Redirections and what is read are kept. -/
structure Keeps (s s' : Tree) : Prop where
  root : s'.root = s.root
  node : ∀ n v, s.node n = some v → ∃ v', s'.node n = some v' ∧ v'.redir = v.redir
    ∧ v'.mountpoint = v.mountpoint ∧ (unread v = false → unread v' = false)

theorem Keeps.trans (h : Keeps s s') (h' : Keeps s' s'') : Keeps s s'' where
  root := h'.root.trans h.root
  node := by
    intro n v hv
    obtain ⟨v₁, hv₁, hr₁, hm₁, hu₁⟩ := h.node n v hv
    obtain ⟨v₂, hv₂, hr₂, hm₂, hu₂⟩ := h'.node n v₁ hv₁
    exact ⟨v₂, hv₂, hr₂.trans hr₁, hm₂.trans hm₁, fun hu => hu₂ (hu₁ hu)⟩

theorem Keeps.length_le (h : Keeps s s') : s.nodes.length ≤ s'.nodes.length := by
  by_contra hlt
  have hlast : s'.nodes.length < s.nodes.length := by omega
  obtain ⟨v', hv', -⟩ := h.node s'.nodes.length _ (List.getElem?_eq_getElem hlast)
  exact absurd (node_lt hv') (Nat.lt_irrefl _)

theorem Keeps.ready (h : Keeps s s') (hr : Ready s n) : Ready s' n := by
  obtain ⟨v, hv, hu⟩ := hr
  obtain ⟨v', hv', -, -, hu'⟩ := h.node n v hv
  exact ⟨v', hv', hu' hu⟩

theorem Keeps.reduceLoop {fuel fuel' : Nat} (h : Keeps s s') (hf : fuel ≤ fuel')
    (hr : s.reduceLoop fuel n = some m) : s'.reduceLoop fuel' n = some m := by
  induction fuel generalizing n fuel' with
  | zero => simp [Tree.reduceLoop] at hr
  | succ fuel ih =>
    obtain ⟨fuel', rfl⟩ : ∃ k, fuel' = k + 1 := ⟨fuel' - 1, by omega⟩
    rw [Tree.reduceLoop, Option.bind_eq_bind, Option.bind_eq_some_iff] at hr
    obtain ⟨v, hv, hr⟩ := hr
    obtain ⟨v', hv', hredir, hmount, -⟩ := h.node n v hv
    rw [Tree.reduceLoop, hv', Option.bind_eq_bind, Option.bind_some, hredir, hmount]
    split at hr
    · exact ih (by omega) hr
    · exact ih (by omega) hr
    · exact hr

theorem Keeps.reduce (h : Keeps s s') (hr : s.reduce n = some m) : s'.reduce n = some m :=
  h.reduceLoop (Nat.succ_le_succ h.length_le) hr

theorem Keeps.rootReady (h : Keeps s s') (hr : ∃ r, s.reduce s.root = some r ∧ Ready s r) :
    ∃ r, s'.reduce s'.root = some r ∧ Ready s' r := by
  obtain ⟨r, hred, hready⟩ := hr
  rw [h.root]
  exact ⟨r, h.reduce hred, h.ready hready⟩

theorem Keeps.push (s : Tree) (w : VfsNode) : Keeps s (s.push w) where
  root := rfl
  node := fun _ v hv => ⟨v, push_node hv, rfl, rfl, fun hu => hu⟩

theorem Keeps.setNode (hv : s.node n = some v) (hr : w.redir = v.redir)
    (hm : w.mountpoint = v.mountpoint) (hu : unread v = false → unread w = false) :
    Keeps s (s.setNode n w) where
  root := rfl
  node := by
    intro k u hu'
    by_cases hk : k = n
    · subst hk
      rw [hv] at hu'
      obtain rfl := Option.some.inj hu'
      exact ⟨w, setNode_node_self hv, hr, hm, hu⟩
    · exact ⟨u, by rw [setNode_node_of_ne hk]; exact hu', rfl, rfl, fun h => h⟩

/-! ## Single changes -/

theorem SoundBut.push (h : SoundBut skip s) (hw : w.children.WellFormed) (ht : Tidy w) :
    SoundBut skip (s.push w) where
  wellFormed := by
    intro n v hv
    rcases push_node_cases hv with hv | ⟨-, rfl⟩
    · exact h.wellFormed n v hv
    · exact hw
  tidy := by
    intro n v hv hskip
    rcases push_node_cases hv with hv | ⟨-, rfl⟩
    · exact h.tidy n v hv hskip
    · exact ht
  root := (Keeps.push s w).rootReady h.root

theorem SoundBut.setNode (h : SoundBut skip s) (hv : s.node n = some v) (hr : w.redir = v.redir)
    (hm : w.mountpoint = v.mountpoint) (hu : unread v = false → unread w = false)
    (hw : w.children.WellFormed) (ht : ¬ skip n → Tidy w) : SoundBut skip (s.setNode n w) where
  wellFormed := by
    intro k u hk
    by_cases hkn : k = n
    · subst hkn
      rw [setNode_node_self hv] at hk
      obtain rfl := Option.some.inj hk
      exact hw
    · rw [setNode_node_of_ne hkn] at hk
      exact h.wellFormed k u hk
  tidy := by
    intro k u hk hskip
    by_cases hkn : k = n
    · subst hkn
      rw [setNode_node_self hv] at hk
      obtain rfl := Option.some.inj hk
      exact ht hskip
    · rw [setNode_node_of_ne hkn] at hk
      exact h.tidy k u hk hskip
  root := (Keeps.setNode hv hr hm hu).rootReady h.root

theorem Keeps.setErrno (s : Tree) (e : Errno) : Keeps s (s.setErrno e) where
  root := rfl
  node := fun _ v hv => ⟨v, hv, rfl, rfl, fun hu => hu⟩

theorem SoundBut.setErrno (h : SoundBut skip s) (e : Errno) : SoundBut skip (s.setErrno e) :=
  ⟨h.wellFormed, h.tidy, (Keeps.setErrno s e).rootReady h.root⟩

theorem sinsert_cases (h : s.sinsert n name item = some s') :
    ∃ v children, s.node n = some v ∧ v.children.insert name item = some children
      ∧ s' = s.setNode n { v with children := children } := by
  unfold sinsert at h
  rw [Option.bind_eq_bind, Option.bind_eq_some_iff] at h
  obtain ⟨v, hv, h⟩ := h
  split at h
  · simp at h
  · rw [Option.bind_eq_bind, Option.bind_eq_some_iff] at h
    obtain ⟨children, hc, h⟩ := h
    exact ⟨v, children, hv, hc, (Option.some.inj h).symm⟩

theorem insert_names {c c' : Hashmap (Option Nat)} (h : c.insert name item = some c') {x : Key} :
    x ∈ c'.names ↔ x = name ∨ x ∈ c.names := by
  have hmem := ((Hashmap.insert_perm h).map Prod.fst).mem_iff (a := x)
  rw [List.map_cons, List.mem_cons] at hmem
  exact hmem

/-- **A name that is not there is inserted.** -/
theorem SoundBut.sinsert (h : SoundBut skip s) (hv : s.node n = some v)
    (hno : name ∉ v.children.names)
    (ht : ¬ skip n → unread v = false ∨ name = dotName ∨ name = dotdotName)
    (hi : s.sinsert n name item = some s') :
    SoundBut skip s' ∧ SameBut (· = n) s s'
      ∧ ∃ c, s'.node n = some { v with children := c } ∧ v.children.insert name item = some c := by
  obtain ⟨v₁, c, hv₁, hc, rfl⟩ := sinsert_cases hi
  rw [hv] at hv₁
  obtain rfl := Option.some.inj hv₁
  refine ⟨?_, .setNode s n _, c, setNode_node_self hv, hc⟩
  refine h.setNode hv rfl rfl (fun hu => hu) ((h.wellFormed n v hv).insert hno hc) ?_
  intro hskip hu x hx
  rcases (insert_names hc).mp hx with rfl | hx
  · rcases ht hskip with hu' | hdot
    · exact absurd (hu'.symm.trans hu) (by decide)
    · exact hdot
  · exact h.tidy n v hv hskip hu x hx

/-! ## Directories are read -/

theorem init_names (cap : Nat) : (Hashmap.init cap : Hashmap (Option Nat)).names = [] := by
  have hnil : (Hashmap.init cap : Hashmap (Option Nat)).entries = [] :=
    Hashmap.entries_of_none rfl
  rw [Hashmap.names, hnil, List.map_nil]

section NewNode

variable {fs : Option Filesystem} {parent redir : Option Nat} {dir : Bool} {kind : Option Kind}
  {link : Option Path}

theorem newNode_names : (newNode fs parent dir kind redir link).children.names = [] := init_names _

theorem newNode_wellFormed : (newNode fs parent dir kind redir link).children.WellFormed :=
  Hashmap.init_wellFormed _

theorem newNode_tidy : Tidy (newNode fs parent dir kind redir link) := by
  intro _ name hname
  rw [newNode_names] at hname
  simp at hname

end NewNode

/-- `vfs_create_dotentries` on a node without names. -/
theorem SoundBut.createDotentries {parent : Nat} (h : SoundBut skip s) (hv : s.node n = some v)
    (hempty : v.children.names = []) (hc : s.createDotentries n parent = some s') :
    SoundBut skip s' ∧ SameBut (· = n) s s' := by
  unfold Tree.createDotentries at hc
  simp only [hv, Option.bind_eq_bind, Option.bind_some] at hc
  obtain ⟨s₁, h₁, h₂⟩ := Option.bind_eq_some_iff.mp hc
  have hsound := (h.push (w := newNode v.filesystem (some n) false none (some n) none)
    newNode_wellFormed newNode_tidy).push
    (w := newNode v.filesystem (some n) false none (some parent) none)
    newNode_wellFormed newNode_tidy
  obtain ⟨hs₁, hsame₁, c₁, hn₁, hc₁⟩ := hsound.sinsert (push_node (push_node hv))
    (by rw [hempty]; simp) (fun _ => Or.inr (Or.inl rfl)) h₁
  have hno : dotdotName ∉ c₁.names := by
    rw [insert_names hc₁, hempty]
    decide
  obtain ⟨hs₂, hsame₂, -⟩ := hs₁.sinsert hn₁ hno (fun _ => Or.inr (Or.inr rfl)) h₂
  have hpush := (SameBut.push s (newNode v.filesystem (some n) false none (some n) none)).trans
    (SameBut.push (P := (· = n)) _ (newNode v.filesystem (some n) false none (some parent) none))
  exact ⟨hs₂, hpush.trans (hsame₁.trans hsame₂)⟩

/-- **One entry that is read.** Only its directory changes, which gets the name. -/
theorem populateEntry_spec {e : DiskEntry} (h : SoundBut (· = n) s) (hv : s.node n = some v)
    (hno : e.name ∉ v.children.names) (hdot : ¬ (e.name = dotName ∨ e.name = dotdotName))
    (hp : populateEntry n s e = some s') :
    SoundBut (· = n) s' ∧ SameBut (· = n) s s' ∧ ∃ c, s'.node n = some { v with children := c }
      ∧ ∀ x ∈ c.names, x = e.name ∨ x ∈ v.children.names := by
  unfold populateEntry at hp
  rw [if_neg hdot] at hp
  simp only [hv, Option.bind_eq_bind, Option.bind_some] at hp
  obtain ⟨s₁, h₁, h₂⟩ := Option.bind_eq_some_iff.mp hp
  have hpush := h.push
    (w := newNode v.filesystem (some n) (e.kind = .dir) (some e.kind) none e.symlinkTarget)
    newNode_wellFormed newNode_tidy
  obtain ⟨hs₁, hsame₁, c, hn, hc⟩ := hpush.sinsert (push_node hv) hno (fun hn => absurd rfl hn) h₁
  have hfirst := (SameBut.push s _).trans hsame₁
  have hnames : ∀ x ∈ c.names, x = e.name ∨ x ∈ v.children.names := fun x hx =>
    (insert_names hc).mp hx
  by_cases hkind : e.kind = .dir
  · rw [if_pos hkind] at h₂
    have hne : s.nodes.length ≠ n := fun heq => Nat.lt_irrefl _ (heq ▸ node_lt hv)
    have hnew := hsame₁.node s.nodes.length _ hne push_node_new
    obtain ⟨hs₂, hsame₂⟩ := hs₁.createDotentries hnew newNode_names h₂
    refine ⟨hs₂, ⟨hsame₂.root.trans hfirst.root, fun m w hm hw => ?_⟩, c,
      hsame₂.node n _ (Ne.symm hne) hn, hnames⟩
    exact hsame₂.node m w (Nat.ne_of_lt (node_lt hw)) (hfirst.node m w hm hw)
  · rw [if_neg hkind] at h₂
    obtain rfl := Option.some.inj h₂
    exact ⟨hs₁, hfirst, c, hn, hnames⟩

/-- Names that are read from a disk: all different, and none if the reading breaks off. -/
def DiskOk (disk : Disk) : Prop :=
  ∀ n, ((disk n).entries.map DiskEntry.name).Nodup
    ∧ ((disk n).complete = false → (disk n).entries = [])

theorem populateEntries_spec {es : List DiskEntry} (h : SoundBut (· = n) s)
    (hv : s.node n = some v) (hno : ∀ e ∈ es, ¬ (e.name = dotName ∨ e.name = dotdotName) →
      e.name ∉ v.children.names) (hnd : (es.map DiskEntry.name).Nodup)
    (hp : es.foldlM (populateEntry n) s = some s') :
    SoundBut (· = n) s' ∧ SameBut (· = n) s s' ∧ ∃ c, s'.node n = some { v with children := c } := by
  induction es generalizing s v with
  | nil =>
    obtain rfl := Option.some.inj hp
    exact ⟨h, .rfl', v.children, hv⟩
  | cons e es ih =>
    rw [List.foldlM_cons, Option.bind_eq_bind, Option.bind_eq_some_iff] at hp
    obtain ⟨s₁, h₁, hp⟩ := hp
    rw [List.map_cons, List.nodup_cons] at hnd
    have hrest : ∀ e' ∈ es, ¬ (e'.name = dotName ∨ e'.name = dotdotName) →
        e'.name ∉ v.children.names := fun e' he' => hno e' (List.mem_cons_of_mem e he')
    by_cases hdot : e.name = dotName ∨ e.name = dotdotName
    · rw [populateEntry, if_pos hdot] at h₁
      obtain rfl := Option.some.inj h₁
      exact ih h hv hrest hnd.2 hp
    · obtain ⟨hs₁, hsame₁, c, hn, hnames⟩ :=
        populateEntry_spec h hv (hno e List.mem_cons_self hdot) hdot h₁
      have hrest' : ∀ e' ∈ es, ¬ (e'.name = dotName ∨ e'.name = dotdotName) →
          e'.name ∉ c.names := by
        intro e' he' hdot' hmem
        rcases hnames e'.name hmem with heq | hold
        · exact hnd.1 (List.mem_map.mpr ⟨e', he', heq⟩)
        · exact hrest e' he' hdot' hold
      obtain ⟨hs', hsame', c', hn'⟩ := ih hs₁ hn hrest' hnd.2 hp
      exact ⟨hs', hsame₁.trans hsame', c', hn'⟩

/-- Path resolution keeps every node that is read. -/
structure Extends (s s' : Tree) : Prop extends Keeps s s' where
  same : ∀ n v, s.node n = some v → unread v = false → s'.node n = some v

namespace Extends

theorem rfl' : Extends s s := ⟨⟨rfl, fun _ v hv => ⟨v, hv, rfl, rfl, fun h => h⟩⟩, fun _ _ h _ => h⟩

theorem trans (h : Extends s s') (h' : Extends s' s'') : Extends s s'' :=
  ⟨h.toKeeps.trans h'.toKeeps, fun n v hv hu => h'.same n v (h.same n v hv hu) hu⟩

theorem setErrno (s : Tree) (e : Errno) : Extends s (s.setErrno e) :=
  ⟨.setErrno s e, fun _ _ h _ => h⟩

end Extends

/-! ## Reading a directory changes no other -/

theorem sinsert_same (h : s.sinsert n name item = some s') : SameBut (· = n) s s' := by
  obtain ⟨v, children, -, -, rfl⟩ := sinsert_cases h
  exact .setNode s n _

theorem createDotentries_same (h : s.createDotentries n m = some s') : SameBut (· = n) s s' := by
  unfold Tree.createDotentries at h
  simp only [Option.bind_eq_bind, Option.bind_eq_some_iff] at h
  obtain ⟨v, -, s₁, h₁, h₂⟩ := h
  exact (((SameBut.push s _).trans (.push _ _)).trans (sinsert_same h₁)).trans (sinsert_same h₂)

/-- The directory that is read gets names and is otherwise as it was. -/
def OnlyNames (n : Nat) (s s' : Tree) : Prop :=
  SameBut (· = n) s s' ∧ ∀ v, s.node n = some v → ∃ c, s'.node n = some { v with children := c }

theorem OnlyNames.trans (h : OnlyNames n s s') (h' : OnlyNames n s' s'') : OnlyNames n s s'' := by
  refine ⟨h.1.trans h'.1, fun v hv => ?_⟩
  obtain ⟨c, hc⟩ := h.2 v hv
  obtain ⟨c', hc'⟩ := h'.2 _ hc
  exact ⟨c', hc'⟩

theorem populateEntry_onlyNames {e : DiskEntry} (hn : n < s.nodes.length)
    (h : populateEntry n s e = some s') : OnlyNames n s s' := by
  unfold populateEntry at h
  split at h
  · obtain rfl := Option.some.inj h
    exact ⟨.rfl', fun v hv => ⟨v.children, hv⟩⟩
  simp only [Option.bind_eq_bind, Option.bind_eq_some_iff] at h
  obtain ⟨v, -, s₁, h₁, h⟩ := h
  have hnames : OnlyNames n s s₁ := by
    refine ⟨(SameBut.push s _).trans (sinsert_same h₁), fun u hu => ?_⟩
    obtain ⟨w, children, hw, -, rfl⟩ := sinsert_cases h₁
    rw [push_node hu] at hw
    obtain rfl := Option.some.inj hw
    exact ⟨children, setNode_node_self (push_node hu)⟩
  split at h
  swap
  · obtain rfl := Option.some.inj h
    exact hnames
  -- a directory that is new gets its dot entries
  have hdots := createDotentries_same h
  refine ⟨⟨hdots.root.trans hnames.1.root, fun m u hm hu => ?_⟩, fun u hu => ?_⟩
  · exact hdots.node m u (Nat.ne_of_lt (node_lt hu)) (hnames.1.node m u hm hu)
  · obtain ⟨c, hc⟩ := hnames.2 u hu
    exact ⟨c, hdots.node n _ (Nat.ne_of_lt hn) hc⟩

theorem populateEntries_onlyNames {es : List DiskEntry} (hn : n < s.nodes.length)
    (h : es.foldlM (populateEntry n) s = some s') : OnlyNames n s s' := by
  induction es generalizing s with
  | nil =>
    obtain rfl := Option.some.inj h
    exact ⟨.rfl', fun v hv => ⟨v.children, hv⟩⟩
  | cons e es ih =>
    rw [List.foldlM_cons, Option.bind_eq_bind, Option.bind_eq_some_iff] at h
    obtain ⟨s₁, h₁, h⟩ := h
    have hfirst := populateEntry_onlyNames hn h₁
    obtain ⟨c, hc⟩ := hfirst.2 _ (List.getElem?_eq_getElem hn)
    exact hfirst.trans (ih (node_lt hc) h)

/-- `populate` changes nothing that is read. -/
theorem populate_extends {ok : Bool} (h : s.populate disk n = some (s', ok)) :
    Extends s s' ∧ (ok = true → Ready s' n) := by
  unfold Tree.populate at h
  rw [Option.bind_eq_bind, Option.bind_eq_some_iff] at h
  obtain ⟨v, hv, h⟩ := h
  split at h
  swap
  · next hu =>
    obtain ⟨rfl, rfl⟩ := Prod.mk.inj (Option.some.inj h)
    exact ⟨.rfl', fun _ => ⟨v, hv, Bool.eq_false_iff.mpr hu⟩⟩
  next hu =>
  unfold fsPopulate at h
  simp only [Option.bind_eq_bind, Option.bind_eq_some_iff] at h
  obtain ⟨s₂, ⟨s₁, h₁, v₁, hv₁, hs₂⟩, v₂, hv₂, h⟩ := h
  obtain rfl := Option.some.inj hs₂
  obtain ⟨rfl, rfl⟩ := Prod.mk.inj (Option.some.inj h)
  obtain ⟨hsame, hnames⟩ := populateEntries_onlyNames (node_lt hv) h₁
  obtain ⟨c, hc⟩ := hnames v hv
  obtain rfl := Option.some.inj (hv₁.symm.trans hc)
  rw [setNode_node_self hc] at hv₂
  obtain rfl := Option.some.inj hv₂
  refine ⟨⟨⟨hsame.root, fun m w hw => ?_⟩, fun m w hw hu' => ?_⟩, fun hok => ?_⟩
  · by_cases hm : m = n
    · subst hm
      obtain rfl := Option.some.inj (hv.symm.trans hw)
      exact ⟨_, setNode_node_self hc, rfl, rfl, fun hno => absurd (hno.symm.trans hu) (by decide)⟩
    · exact ⟨w, by rw [setNode_node_of_ne hm]; exact hsame.node m w hm hw, rfl, rfl, fun h => h⟩
  · have hm : m ≠ n := by
      rintro rfl
      obtain rfl := Option.some.inj (hv.symm.trans hw)
      exact absurd (hu'.symm.trans hu) (by decide)
    rw [setNode_node_of_ne hm]
    exact hsame.node m w hm hw
  · refine ⟨_, setNode_node_self hc, ?_⟩
    have hcomplete : (disk n).complete = true := hok
    simp [Tree.unread, hcomplete]

/-! ## The invariant is kept -/

theorem SoundBut.mono {skip' : Nat → Prop} (h : SoundBut skip s) (hs : ∀ n, skip n → skip' n) :
    SoundBut skip' s :=
  ⟨h.wellFormed, fun n v hv hn => h.tidy n v hv fun hskip => hn (hs n hskip), h.root⟩

theorem SoundBut.finish (h : SoundBut (· = n) s) (ht : ∀ v, s.node n = some v → Tidy v) :
    Sound s := by
  refine ⟨h.wellFormed, fun m v hv _ => ?_, h.root⟩
  by_cases hm : m = n
  · subst hm
    exact ht v hv
  · exact h.tidy m v hv hm

/-- **`populate`.** -/
theorem populate_spec {ok : Bool} (hd : DiskOk disk) (h : Sound s)
    (hp : s.populate disk n = some (s', ok)) :
    Sound s' ∧ Extends s s' ∧ (ok = true → Ready s' n) := by
  refine ⟨?_, populate_extends hp⟩
  unfold Tree.populate at hp
  rw [Option.bind_eq_bind, Option.bind_eq_some_iff] at hp
  obtain ⟨v, hv, hp⟩ := hp
  by_cases hu : unread v = true
  swap
  · rw [if_neg hu] at hp
    obtain ⟨rfl, -⟩ := Prod.mk.inj (Option.some.inj hp)
    exact h
  rw [if_pos hu] at hp
  unfold fsPopulate at hp
  simp only [Option.bind_eq_bind, Option.bind_eq_some_iff] at hp
  obtain ⟨s₂, ⟨s₁, h₁, v₁, hv₁, hs₂⟩, v₂, hv₂, hp⟩ := hp
  obtain rfl := Option.some.inj hs₂
  obtain ⟨rfl, rfl⟩ := Prod.mk.inj (Option.some.inj hp)
  have htidy := h.tidy n v hv fun hf => hf
  have hno : ∀ e ∈ (disk n).entries, ¬ (e.name = dotName ∨ e.name = dotdotName) →
      e.name ∉ v.children.names := fun e _ hdot hmem => hdot (htidy hu e.name hmem)
  obtain ⟨hs₁, -, c, hc⟩ :=
    populateEntries_spec (h.mono fun _ hf => hf.elim) hv hno (hd n).1 h₁
  rw [hc] at hv₁
  obtain rfl := Option.some.inj hv₁
  rw [setNode_node_self hc] at hv₂
  obtain rfl := Option.some.inj hv₂
  -- the node when it has been read
  obtain ⟨read, hread⟩ : ∃ read : VfsNode,
      read = { v with children := c, populated := (disk n).complete } := ⟨_, rfl⟩
  have hstate : s₁.setNode n { { v with children := c } with populated := (disk n).complete }
      = s₁.setNode n read := by rw [hread]
  rw [hstate]
  have hnode : (s₁.setNode n read).node n = some read := setNode_node_self hc
  have hunread : unread read = true → (disk n).complete = false := by
    intro hu'
    rw [hread] at hu'
    simp only [unread, Bool.and_eq_true, Bool.not_eq_true'] at hu'
    exact hu'.1.2
  have hset : Tidy read := by
    intro hu'
    -- nothing has been read
    rw [(hd n).2 (hunread hu')] at h₁
    obtain rfl := Option.some.inj h₁
    rw [hv] at hc
    have hcv : v.children = c := congrArg VfsNode.children (Option.some.inj hc)
    rw [hread, ← hcv]
    exact htidy hu
  have hread_u : unread v = false → unread read = false := fun hno =>
    absurd (hno.symm.trans hu) (by decide)
  have hsound : SoundBut (· = n) (s₁.setNode n read) := by
    refine hs₁.setNode hc (by rw [hread]) (by rw [hread]) ?_ ?_ fun hn => absurd rfl hn
    · exact hread_u
    · have hwf := hs₁.wellFormed n _ hc
      rw [hread]
      exact hwf
  exact hsound.finish fun w hw => by
    rw [hnode] at hw
    obtain rfl := Option.some.inj hw
    exact hset

end Lyre.Vfs
