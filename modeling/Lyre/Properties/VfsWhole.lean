import Lyre.Infra.Linked
import Lyre.Properties.VfsGrowth

/-!
# Trees with all their memory

In a tree whose pointers are not `NULL` where they are read, and whose memory is not freed (`Whole`),
path resolution has no reason to have no result but that it does not end. Chains of redirections may
come back to where they were. Reading a directory keeps such a tree (`populate_whole`).
-/

namespace Lyre.Vfs

open Lyre.Vfs.Tree

variable {s s' s'' : Tree} {n m p t c y fuel : Nat} {v w : VfsNode} {name e : Key} {disk : Disk}

/-! ## Chains -/

/-- Where `reduce_node` goes on. -/
def Tree.hop (s : Tree) (n : Nat) : Option Nat := (s.node n).bind fun v => v.redir.or v.mountpoint

theorem hop_eq (hv : s.node n = some v) : s.hop n = v.redir.or v.mountpoint := by
  unfold Tree.hop
  rw [hv, Option.bind_some]

theorem reduceLoop_hop (h : s.hop n = some m) :
    s.reduceLoop (fuel + 1) n = s.reduceLoop fuel m := by
  obtain ⟨v, hv, hm⟩ := Option.bind_eq_some_iff.mp h
  rw [reduceLoop, hv, Option.bind_eq_bind, Option.bind_some]
  cases hr : v.redir with
  | some k =>
    rw [hr] at hm
    obtain rfl := Option.some.inj hm
    rfl
  | none =>
    rw [hr, Option.none_or] at hm
    rw [hm]

theorem reduceLoop_stop (hv : s.node n = some v) (h : s.hop n = none) :
    s.reduceLoop (fuel + 1) n = some n := by
  rw [hop_eq hv, Option.or_eq_none_iff] at h
  rw [reduceLoop, hv, Option.bind_eq_bind, Option.bind_some, h.1, h.2]

theorem reduceLoop_path (h : s.reduceLoop fuel n = some t) :
    ∃ l, Infra.Path (fun x => (s.hop x).getD x) n l t ∧
      (∀ x ∈ l, s.hop x ≠ none ∧ x < s.nodes.length) ∧ s.hop t = none ∧
      ∃ v, s.node t = some v := by
  induction fuel generalizing n with
  | zero => simp [reduceLoop] at h
  | succ fuel ih =>
    cases hhop : s.hop n with
    | some m =>
      obtain ⟨v, hv, -⟩ := Option.bind_eq_some_iff.mp hhop
      rw [reduceLoop_hop hhop] at h
      obtain ⟨l, hp, hl, hend⟩ := ih h
      refine ⟨n :: l, ⟨rfl, ?_⟩, fun x hx => ?_, hend⟩
      · simpa [hhop] using hp
      · rcases List.mem_cons.mp hx with rfl | hx
        · exact ⟨by simp [hhop], node_lt hv⟩
        · exact hl x hx
    | none =>
      obtain ⟨v, hv, hr, hm⟩ := reduceLoop_end h
      cases hn : s.node n with
      | none => simp [reduceLoop, hn] at h
      | some w =>
        rw [reduceLoop_stop hn hhop] at h
        obtain rfl := Option.some.inj h
        exact ⟨[], rfl, fun x hx => absurd hx List.not_mem_nil, hhop, w, hn⟩

theorem reduceLoop_of_path {l : List Nat}
    (h : Infra.Path (fun x => (s.hop x).getD x) n l t) (hl : ∀ x ∈ l, s.hop x ≠ none)
    (hend : s.hop t = none) (hv : s.node t = some v) (hlt : l.length < fuel) :
    s.reduceLoop fuel n = some t := by
  induction l generalizing n fuel with
  | nil =>
    obtain rfl : n = t := h
    obtain ⟨fuel, rfl⟩ := Nat.exists_eq_succ_of_ne_zero (Nat.pos_iff_ne_zero.mp hlt)
    exact reduceLoop_stop hv hend
  | cons x l ih =>
    obtain ⟨rfl, h⟩ := h
    rw [List.length_cons] at hlt
    obtain ⟨fuel, rfl⟩ : ∃ k, fuel = k + 1 := ⟨fuel - 1, by omega⟩
    obtain ⟨m, hm⟩ := Option.ne_none_iff_exists'.mp (hl n List.mem_cons_self)
    rw [reduceLoop_hop hm]
    refine ih ?_ (fun x hx => hl x (List.mem_cons_of_mem _ hx)) (by omega)
    simpa [hm] using h

theorem reduce_of_loop (h : s.reduceLoop fuel n = some t) : s.reduce n = some t := by
  obtain ⟨l, hp, hl, hend, v, hv⟩ := reduceLoop_path h
  have hnd : l.Nodup := hp.nodup hend fun x hx => (hl x hx).1
  have hle := (List.subperm_of_subset hnd fun x hx => List.mem_range.mpr (hl x hx).2).length_le
  rw [List.length_range] at hle
  exact reduceLoop_of_path hp (fun x hx => (hl x hx).1) hend hv (by omega)

theorem reduce_hop (h : s.hop n = some m) : s.reduce n = s.reduce m := by
  cases ht : s.reduce m with
  | some t => exact reduce_of_loop ((reduceLoop_hop h).trans ht)
  | none =>
    cases hn : s.reduce n with
    | none => rfl
    | some t =>
      unfold Tree.reduce at hn
      rw [reduceLoop_hop h] at hn
      rw [reduce_of_loop hn] at ht
      cases ht

theorem reduce_stop (hv : s.node n = some v) (h : s.hop n = none) : s.reduce n = some n :=
  reduceLoop_stop hv h

/-! ## Memory -/

/-- A node that names can be looked up in. -/
def Open (s : Tree) (p : Nat) : Prop :=
  p < s.nodes.length ∧
    ∀ c v, s.reduce p = some c → s.node c = some v → v.childrenFreed = false

/-- A node that can be opened, and followed if it is a link. -/
def Usable (s : Tree) (t : Nat) : Prop :=
  ∃ v kind, s.node t = some v ∧ v.resource = some kind ∧ v.childrenFreed = false ∧
    v.symlinkTargetFreed = false ∧
    (v.symlinkTarget ≠ none → ∃ p, v.parent = some p ∧ Open s p)

/-- A node whose chain leads to a usable one, if it leads anywhere. -/
def Leading (s : Tree) (m : Nat) : Prop :=
  m < s.nodes.length ∧ ∀ t, s.reduce m = some t → Usable s t

theorem Leading.isOpen (h : Leading s p) : Open s p := by
  refine ⟨h.1, fun c v hc hv => ?_⟩
  obtain ⟨u, kind, hu, -, hkept, -⟩ := h.2 c hc
  rw [hv] at hu
  rwa [Option.some.inj hu]

/-- Names have items that are not `NULL`, and they lead to usable nodes, as the root directory does. A
directory that is to be read has room for its names. -/
structure Whole (s : Tree) : Prop where
  pointer : ∀ n m, s.hop n = some m → m < s.nodes.length
  root : Leading s s.root
  item : ∀ n name item, s.sget n name = some (some item) → ∃ m, item = some m ∧ Leading s m
  room : ∀ n v, s.node n = some v → unread v = true →
    v.children.cap ≠ 0 ∧ v.symlinkTarget = none ∧ v.symlinkTargetFreed = false

theorem insert_cap {children children' : Hashmap (Option Nat)} {item : Option Nat}
    (h : children.insert name item = some children') : children'.cap = children.cap := by
  unfold Hashmap.insert at h
  split at h
  · cases h
  · obtain rfl := Option.some.inj h
    rfl

theorem sinsert_length {item : Option Nat} (h : s.sinsert n name item = some s') :
    s'.nodes.length = s.nodes.length := by
  obtain ⟨v, children, -, -, rfl⟩ := sinsert_cases h
  exact List.length_set

/-- Nodes get names, and directories are read; all else is as it was. -/
structure Fills (s s' : Tree) : Prop where
  root : s'.root = s.root
  node : ∀ n v, s.node n = some v → ∃ children populated,
    s'.node n = some { v with children := children, populated := populated } ∧
      children.cap = v.children.cap ∧ (v.populated = true → populated = true)

namespace Fills

theorem refl (s : Tree) : Fills s s :=
  ⟨rfl, fun _ v hv => ⟨v.children, v.populated, hv, rfl, fun h => h⟩⟩

theorem trans (h : Fills s s') (h' : Fills s' s'') : Fills s s'' where
  root := h'.root.trans h.root
  node := by
    intro n v hv
    obtain ⟨c₁, p₁, hv₁, hcap₁, hp₁⟩ := h.node n v hv
    obtain ⟨c₂, p₂, hv₂, hcap₂, hp₂⟩ := h'.node n _ hv₁
    exact ⟨c₂, p₂, hv₂, hcap₂.trans hcap₁, fun hp => hp₂ (hp₁ hp)⟩

theorem setErrno (s : Tree) (e : Errno) : Fills s (s.setErrno e) :=
  ⟨rfl, fun _ v hv => ⟨v.children, v.populated, hv, rfl, fun h => h⟩⟩

theorem push (s : Tree) (w : VfsNode) : Fills s (s.push w) :=
  ⟨rfl, fun _ v hv => ⟨v.children, v.populated, push_node hv, rfl, fun h => h⟩⟩

theorem setNode {children : Hashmap (Option Nat)} {populated : Bool} (hv : s.node n = some v)
    (hcap : children.cap = v.children.cap) (hp : v.populated = true → populated = true) :
    Fills s (s.setNode n { v with children := children, populated := populated }) := by
  refine ⟨rfl, fun k u hu => ?_⟩
  by_cases hk : k = n
  · subst hk
    rw [hv] at hu
    obtain rfl := Option.some.inj hu
    exact ⟨children, populated, setNode_node_self hv, hcap, hp⟩
  · rw [setNode_node_of_ne hk]
    exact ⟨u.children, u.populated, hu, rfl, fun h => h⟩

theorem sinsert (h : s.sinsert n name (some y) = some s') : Fills s s' := by
  obtain ⟨v, children, hv, hc, rfl⟩ := sinsert_cases h
  exact setNode hv (insert_cap hc) fun h => h

theorem keeps (h : Fills s s') : Keeps s s' where
  root := h.root
  node := by
    intro n v hv
    obtain ⟨children, populated, hv', -, hp⟩ := h.node n v hv
    refine ⟨_, hv', rfl, rfl, fun hu => ?_⟩
    unfold unread at hu ⊢
    cases hpop : v.populated with
    | true => simp [hp hpop]
    | false =>
      cases populated with
      | true => simp
      | false => simpa [hpop] using hu

theorem length_le (h : Fills s s') : s.nodes.length ≤ s'.nodes.length := h.keeps.length_le

theorem hop (h : Fills s s') (hn : n < s.nodes.length) : s'.hop n = s.hop n := by
  obtain ⟨children, populated, hv', -, -⟩ := h.node n _ (List.getElem?_eq_getElem hn)
  rw [hop_eq hv', hop_eq (List.getElem?_eq_getElem hn)]

end Fills

theorem Whole.reduceLoop_back (hw : Whole s) (h : Fills s s') (hn : n < s.nodes.length)
    (ht : s'.reduceLoop fuel n = some t) : s.reduceLoop fuel n = some t := by
  induction fuel generalizing n with
  | zero => simp [reduceLoop] at ht
  | succ fuel ih =>
    cases hhop : s.hop n with
    | some m =>
      rw [reduceLoop_hop (by rw [h.hop hn, hhop])] at ht
      rw [reduceLoop_hop hhop]
      exact ih (hw.pointer n m hhop) ht
    | none =>
      obtain ⟨children, populated, hv', -, -⟩ := h.node n _ (List.getElem?_eq_getElem hn)
      rw [reduceLoop_stop hv' (by rw [h.hop hn, hhop])] at ht
      rw [reduceLoop_stop (List.getElem?_eq_getElem hn) hhop]
      exact ht

theorem Whole.reduce_back (hw : Whole s) (h : Fills s s') (hn : n < s.nodes.length)
    (ht : s'.reduce n = some t) : s.reduce n = some t :=
  reduce_of_loop (hw.reduceLoop_back h hn ht)

theorem Whole.keepsOpen (hw : Whole s) (h : Fills s s') (hp : Open s p) : Open s' p := by
  refine ⟨Nat.lt_of_lt_of_le hp.1 h.length_le, fun c v' hc hv' => ?_⟩
  have hc₀ := hw.reduce_back h hp.1 hc
  obtain ⟨v, hv, -, -⟩ := reduceLoop_end hc₀
  obtain ⟨children, populated, hv'', -, -⟩ := h.node c v hv
  rw [hv''] at hv'
  rw [← Option.some.inj hv']
  exact hp.2 c v hc₀ hv

theorem Whole.usable (hw : Whole s) (h : Fills s s') (ht : Usable s t) : Usable s' t := by
  obtain ⟨v, kind, hv, hkind, hkept, hlink, hparent⟩ := ht
  obtain ⟨children, populated, hv', -, -⟩ := h.node t v hv
  refine ⟨_, kind, hv', hkind, hkept, hlink, fun hne => ?_⟩
  obtain ⟨p, hp, ho⟩ := hparent hne
  exact ⟨p, hp, hw.keepsOpen h ho⟩

theorem Whole.leading (hw : Whole s) (h : Fills s s') (hm : Leading s m) : Leading s' m :=
  ⟨Nat.lt_of_lt_of_le hm.1 h.length_le, fun t hred =>
    hw.usable h (hm.2 t (hw.reduce_back h hm.1 hred))⟩

/-! ## What keeps a tree whole -/

theorem Whole.setErrno (hw : Whole s) (e : Errno) : Whole (s.setErrno e) where
  pointer := hw.pointer
  root := hw.leading (.setErrno s e) hw.root
  item := by
    intro n name item hget
    obtain ⟨m, hitem, hm⟩ := hw.item n name item hget
    exact ⟨m, hitem, hw.leading (.setErrno s e) hm⟩
  room := hw.room

theorem Whole.push (hw : Whole s) (hredir : ∀ m, w.redir = some m → m < s.nodes.length)
    (hmount : w.mountpoint = none) (hempty : w.children.buckets = none)
    (hroom : unread w = true →
      w.children.cap ≠ 0 ∧ w.symlinkTarget = none ∧ w.symlinkTargetFreed = false) :
    Whole (s.push w) := by
  have hf := Fills.push s w
  have hlt := hf.length_le
  refine ⟨fun n m hhop => ?_, hw.leading hf hw.root, fun n name item hget => ?_, fun n v hv hu => ?_⟩
  · obtain ⟨v, hv, hm⟩ := Option.bind_eq_some_iff.mp hhop
    rcases push_node_cases hv with hv | ⟨-, rfl⟩
    · exact Nat.lt_of_lt_of_le (hw.pointer n m (by rw [hop_eq hv, hm])) hlt
    · rw [hmount, Option.or_none] at hm
      exact Nat.lt_of_lt_of_le (hredir m hm) hlt
  · obtain ⟨v, hv, hget'⟩ := Option.bind_eq_some_iff.mp hget
    rcases push_node_cases hv with hv | ⟨-, rfl⟩
    · rw [push_sget_old hv] at hget
      obtain ⟨m, hitem, hm⟩ := hw.item n name item hget
      exact ⟨m, hitem, hw.leading hf hm⟩
    · split at hget'
      · simp at hget'
      · simp [Hashmap.get, hempty] at hget'
  · rcases push_node_cases hv with hv | ⟨-, rfl⟩
    · exact hw.room n v hv hu
    · exact hroom hu

theorem Whole.sinsert (hw : Whole s) (hy : Leading s y)
    (h : s.sinsert n name (some y) = some s') : Whole s' := by
  have hf := Fills.sinsert h
  refine ⟨fun k m hhop => ?_, ?_, fun k e item hget => ?_, fun k v' hv' hu => ?_⟩
  · obtain ⟨v', hv', -⟩ := Option.bind_eq_some_iff.mp hhop
    have hk : k < s.nodes.length := by
      rw [← sinsert_length h]
      exact node_lt hv'
    rw [hf.hop hk] at hhop
    exact Nat.lt_of_lt_of_le (hw.pointer k m hhop) hf.length_le
  · rw [hf.root]
    exact hw.leading hf hw.root
  · rw [sinsert_sget h] at hget
    obtain ⟨got, hgot, hget⟩ := Option.map_eq_some_iff.mp hget
    cases got with
    | some old =>
      obtain rfl := Option.some.inj hget
      obtain ⟨m, rfl, hm⟩ := hw.item k e _ hgot
      exact ⟨m, rfl, hw.leading hf hm⟩
    | none =>
      rw [Option.none_or] at hget
      split at hget
      · obtain rfl := Option.some.inj hget
        exact ⟨y, rfl, hw.leading hf hy⟩
      · cases hget
  · have hk : k < s.nodes.length := by
      rw [← sinsert_length h]
      exact node_lt hv'
    have hv := List.getElem?_eq_getElem hk
    obtain ⟨v, children, hvn, hc, rfl⟩ := sinsert_cases h
    by_cases hkn : k = n
    · subst hkn
      rw [setNode_node_self hvn] at hv'
      obtain rfl := Option.some.inj hv'
      have hroom := hw.room k v hvn hu
      refine ⟨?_, hroom.2⟩
      rw [insert_cap hc]
      exact hroom.1
    · rw [setNode_node_of_ne hkn] at hv'
      exact hw.room k v' hv' hu

theorem Whole.setPopulated (hw : Whole s) (hv : s.node n = some v) (hp : v.populated = false)
    (b : Bool) : Whole (s.setNode n { v with populated := b }) ∧
      Fills s (s.setNode n { v with populated := b }) := by
  have hf : Fills s (s.setNode n { v with populated := b }) :=
    .setNode hv rfl (by simp [hp])
  refine ⟨⟨fun k m hhop => ?_, hw.leading hf hw.root, fun k e item hget => ?_, fun k v' hv' hu => ?_⟩,
    hf⟩
  · obtain ⟨v', hv', -⟩ := Option.bind_eq_some_iff.mp hhop
    have hk : k < s.nodes.length := by simpa [Tree.setNode] using node_lt hv'
    rw [hf.hop hk] at hhop
    exact Nat.lt_of_lt_of_le (hw.pointer k m hhop) hf.length_le
  · have hsame : (s.setNode n { v with populated := b }).sget k e = s.sget k e := by
      by_cases hkn : k = n
      · subst hkn
        unfold sget
        rw [setNode_node_self hv, hv]
        rfl
      · exact setNode_sget_of_ne hkn
    rw [hsame] at hget
    obtain ⟨m, rfl, hm⟩ := hw.item k e item hget
    exact ⟨m, rfl, hw.leading hf hm⟩
  · by_cases hkn : k = n
    · subst hkn
      rw [setNode_node_self hv] at hv'
      obtain rfl := Option.some.inj hv'
      refine hw.room k v hv ?_
      unfold unread at hu ⊢
      simp only [Bool.and_eq_true, Bool.not_eq_true'] at hu ⊢
      exact ⟨⟨hu.1.1, hp⟩, hu.2⟩
    · rw [setNode_node_of_ne hkn] at hv'
      exact hw.room k v' hv' hu

/-! ## Directories are read -/

/-- The name of an entry fits into a map, and a directory is no link. -/
def EntryFits (e : DiskEntry) : Prop :=
  e.name.length ≤ hashmapKeyDataMax ∧ (e.kind = .dir → e.symlinkTarget = none)

/-- What the file systems read from their disks fits. -/
def DiskFits (disk : Disk) : Prop := ∀ n, ∀ e ∈ (disk n).entries, EntryFits e

theorem sinsert_total (hv : s.node n = some v) (hkept : v.childrenFreed = false)
    (hcap : v.children.cap ≠ 0) (hlen : name.length ≤ hashmapKeyDataMax) (item : Option Nat) :
    ∃ s', s.sinsert n name item = some s' := by
  unfold Tree.sinsert Hashmap.insert
  rw [hv, Option.bind_eq_bind, Option.bind_some, hkept]
  simp only [Bool.false_eq_true, if_false, not_or.mpr ⟨hcap, Nat.not_lt.mpr hlen⟩,
    Option.bind_eq_bind, Option.bind_some]
  exact ⟨_, rfl⟩

/-- A directory that entries are made in: it leads to itself, and has room. -/
structure Ground (s : Tree) (n : Nat) (v : VfsNode) : Prop where
  node : s.node n = some v
  reduce : s.reduce n = some n
  usable : Usable s n
  cap : v.children.cap ≠ 0

theorem Ground.kept (h : Ground s n v) : v.childrenFreed = false := by
  obtain ⟨u, kind, hu, -, hkept, -⟩ := h.usable
  rw [h.node] at hu
  rwa [Option.some.inj hu]

theorem Ground.leading (h : Ground s n v) : Leading s n := by
  refine ⟨node_lt h.node, fun t hred => ?_⟩
  rw [h.reduce] at hred
  exact Option.some.inj hred ▸ h.usable

theorem Ground.fills (h : Ground s n v) (hw : Whole s) (hf : Fills s s') :
    ∃ children populated, Ground s' n { v with children := children, populated := populated } := by
  obtain ⟨children, populated, hv', hcap, -⟩ := hf.node n v h.node
  refine ⟨children, populated, hv', hf.keeps.reduce h.reduce, hw.usable hf h.usable, ?_⟩
  rw [hcap]
  exact h.cap

/-- A new node that is redirected to `n`. -/
theorem Whole.pushRedir (hw : Whole s) (hn : Leading s n) (fs : Option Filesystem)
    (parent : Option Nat) :
    Whole (s.push (newNode fs parent false none (some n) none)) ∧
      Leading (s.push (newNode fs parent false none (some n) none)) s.nodes.length := by
  have hf := Fills.push s (newNode fs parent false none (some n) none)
  refine ⟨hw.push (fun m hm => Option.some.inj hm ▸ hn.1) rfl rfl fun hu => ?_,
    node_lt push_node_new, fun t hred => ?_⟩
  · simp [unread, newNode] at hu
  · have hhop : (s.push (newNode fs parent false none (some n) none)).hop s.nodes.length =
        some n := hop_eq push_node_new
    rw [reduce_hop hhop] at hred
    exact (hw.leading hf hn).2 t hred

/-- **`vfs_create_dotentries`.** -/
theorem Whole.createDotentries (hw : Whole s) (hg : Ground s n v) (hp : Leading s p) :
    ∃ s', s.createDotentries n p = some s' ∧ Whole s' ∧ Fills s s' := by
  -- the two nodes
  obtain ⟨hw₁, hdot⟩ := hw.pushRedir hg.leading v.filesystem (some n)
  have hf₁ := Fills.push s (newNode v.filesystem (some n) false none (some n) none)
  generalize hs₁ : s.push (newNode v.filesystem (some n) false none (some n) none) = s₁
    at hw₁ hdot hf₁
  obtain ⟨hw₂, hdotdot⟩ := hw₁.pushRedir (hw.leading hf₁ hp) v.filesystem (some n)
  have hf₂ := Fills.push s₁ (newNode v.filesystem (some n) false none (some p) none)
  generalize hs₂ : s₁.push (newNode v.filesystem (some n) false none (some p) none) = s₂
    at hw₂ hdotdot hf₂
  -- their names
  obtain ⟨c₂, p₂, hg₂⟩ := hg.fills hw (hf₁.trans hf₂)
  obtain ⟨s₃, h₃⟩ := sinsert_total hg₂.node hg₂.kept hg₂.cap
    (by decide : dotName.length ≤ hashmapKeyDataMax) (some s.nodes.length)
  have hw₃ := hw₂.sinsert (hw₁.leading hf₂ hdot) h₃
  have hf₃ := Fills.sinsert h₃
  obtain ⟨c₃, p₃, hg₃⟩ := hg₂.fills hw₂ hf₃
  obtain ⟨s₄, h₄⟩ := sinsert_total hg₃.node hg₃.kept hg₃.cap
    (by decide : dotdotName.length ≤ hashmapKeyDataMax) (some s₁.nodes.length)
  refine ⟨s₄, ?_, hw₃.sinsert (hw₂.leading hf₃ hdotdot) h₄,
    ((hf₁.trans hf₂).trans hf₃).trans (Fills.sinsert h₄)⟩
  unfold Tree.createDotentries
  simp only [hg.node, Option.bind_eq_bind, Option.bind_some, hs₁, hs₂, h₃, h₄]

theorem Whole.pushEntry (hw : Whole s) (hg : Ground s n v) (e : DiskEntry) (hfits : EntryFits e)
    (hnew : w = newNode v.filesystem (some n) (decide (e.kind = .dir)) (some e.kind) none
      e.symlinkTarget) :
    Whole (s.push w) ∧ (s.push w).reduce s.nodes.length = some s.nodes.length ∧
      Usable (s.push w) s.nodes.length := by
  have hf := Fills.push s w
  have hself : (s.push w).reduce s.nodes.length = some s.nodes.length := by
    refine reduce_stop push_node_new ?_
    rw [hop_eq push_node_new, hnew]
    rfl
  have hw₁ : Whole (s.push w) := by
    refine hw.push (fun m hm => by simp [hnew, newNode] at hm) (by rw [hnew]; rfl)
      (by rw [hnew]; rfl) fun hu => ?_
    have hdir : e.kind = .dir := by
      simp only [unread, hnew, newNode, Bool.and_eq_true, beq_iff_eq, Option.some.injEq] at hu
      exact hu.2
    rw [hnew]
    simp [newNode, Hashmap.init, hdir, hfits.2 hdir]
  refine ⟨hw₁, hself, w, e.kind, push_node_new, ?_, ?_, ?_, fun _ =>
    ⟨n, ?_, hw.keepsOpen hf hg.leading.isOpen⟩⟩
  · rw [hnew]
    rfl
  · rw [hnew]
    rfl
  · rw [hnew]
    rfl
  · rw [hnew]
    rfl

/-- One turn of `populate` of a file system. -/
theorem Whole.populateEntry (hw : Whole s) (hg : Ground s n v) (e : DiskEntry)
    (hfits : EntryFits e) :
    ∃ s', Tree.populateEntry n s e = some s' ∧ Whole s' ∧ Fills s s' := by
  unfold Tree.populateEntry
  by_cases hdot : e.name = dotName ∨ e.name = dotdotName
  · rw [if_pos hdot]
    exact ⟨s, rfl, hw, .refl s⟩
  rw [if_neg hdot]
  simp only [hg.node, Option.bind_eq_bind, Option.bind_some]
  generalize hnew : newNode v.filesystem (some n) (decide (e.kind = .dir)) (some e.kind) none
    e.symlinkTarget = w
  obtain ⟨hw₁, hself, hu₁⟩ := hw.pushEntry hg e hfits hnew.symm
  have hf₁ := Fills.push s w
  have hnode₁ : (s.push w).node s.nodes.length = some w := push_node_new
  obtain ⟨c₁, p₁, hg₁⟩ := hg.fills hw hf₁
  obtain ⟨s₂, h₂⟩ := sinsert_total hg₁.node hg₁.kept hg₁.cap hfits.1 (some s.nodes.length)
  have hlead : Leading (s.push w) s.nodes.length := by
    refine ⟨node_lt hnode₁, fun t hred => ?_⟩
    rw [hself] at hred
    exact Option.some.inj hred ▸ hu₁
  have hw₂ := hw₁.sinsert hlead h₂
  have hf₂ := Fills.sinsert h₂
  rw [h₂, Option.bind_some]
  by_cases hdir : e.kind = .dir
  · rw [if_pos hdir]
    -- the new directory gets its dot entries
    have hgnew : Ground (s.push w) s.nodes.length w := by
      refine ⟨hnode₁, hself, hu₁, ?_⟩
      rw [← hnew]
      simp [newNode, Hashmap.init, hdir]
    obtain ⟨c₂, p₂, hg₂⟩ := hgnew.fills hw₁ hf₂
    obtain ⟨c₃, p₃, hg₃⟩ := hg₁.fills hw₁ hf₂
    obtain ⟨s₃, h₃, hw₃, hf₃⟩ := hw₂.createDotentries hg₂ hg₃.leading
    exact ⟨s₃, h₃, hw₃, (hf₁.trans hf₂).trans hf₃⟩
  · rw [if_neg hdir]
    exact ⟨s₂, rfl, hw₂, hf₁.trans hf₂⟩

theorem Whole.populateEntries {es : List DiskEntry} (hw : Whole s) (hg : Ground s n v)
    (hfits : ∀ e ∈ es, EntryFits e) :
    ∃ s', es.foldlM (Tree.populateEntry n) s = some s' ∧ Whole s' ∧ Fills s s' := by
  induction es generalizing s v with
  | nil => exact ⟨s, rfl, hw, .refl s⟩
  | cons e es ih =>
    obtain ⟨s₁, h₁, hw₁, hf₁⟩ := hw.populateEntry hg e (hfits e List.mem_cons_self)
    obtain ⟨c₁, p₁, hg₁⟩ := hg.fills hw hf₁
    obtain ⟨s', h', hw', hf'⟩ := ih hw₁ hg₁ fun e he => hfits e (List.mem_cons_of_mem _ he)
    refine ⟨s', ?_, hw', hf₁.trans hf'⟩
    rw [List.foldlM_cons, h₁, Option.bind_eq_bind, Option.bind_some]
    exact h'

/-- **`populate`** comes to an end. -/
theorem populate_whole (hfits : DiskFits disk) (hw : Whole s) (hv : s.node n = some v)
    (hred : s.reduce n = some n) (hkept : v.childrenFreed = false) :
    ∃ s' ok, s.populate disk n = some (s', ok) ∧ Whole s' ∧ Fills s s' := by
  unfold Tree.populate
  rw [hv, Option.bind_eq_bind, Option.bind_some]
  by_cases hu : unread v = true
  swap
  · rw [if_neg hu]
    exact ⟨s, true, rfl, hw, .refl s⟩
  rw [if_pos hu]
  obtain ⟨hcap, hlink, hlinkKept⟩ := hw.room n v hv hu
  have hparts : (v.filesystem.any (·.populate) = true ∧ v.populated = false) ∧
      v.resource = some .dir := by
    simpa [unread] using hu
  have hg : Ground s n v := ⟨hv, hred, ⟨v, .dir, hv, hparts.2, hkept, hlinkKept,
    fun hne => absurd hlink hne⟩, hcap⟩
  obtain ⟨s₁, h₁, hw₁, hf₁⟩ := hw.populateEntries hg (hfits n)
  -- what has been read does not say whether the directory is read
  obtain ⟨-, honly⟩ := populateEntries_onlyNames (node_lt hv) h₁
  obtain ⟨c₁, hv₁⟩ := honly v hv
  have hpop : ({ v with children := c₁ } : VfsNode).populated = false := hparts.1.2
  obtain ⟨hw₂, hf₂⟩ := hw₁.setPopulated hv₁ hpop (disk n).complete
  refine ⟨_, (disk n).complete, ?_, hw₂, hf₁.trans hf₂⟩
  unfold fsPopulate
  simp only [h₁, hv₁, Option.bind_eq_bind, Option.bind_some, setNode_node_self hv₁]

end Lyre.Vfs
