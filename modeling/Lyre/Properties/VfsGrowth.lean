import Lyre.Properties.VfsPaths

/-!
# Trees that grow

What new nodes, new names and new mounts leave as it was (`Grown`), and what they do not add
(`NoMore`).
-/

namespace Lyre.Vfs

open Lyre.Vfs.Tree

variable {s s' s'' : Tree} {n m p t c y : Nat} {v w : VfsNode} {name e : Key} {disk : Disk}
  {r : Res} {path : Path} {depth : Nat} {item : Option Nat} {v' : VfsNode}

/-! ## What the operations leave as it is -/

/-- Nodes keep their names and where they lead, as far as what they lead to is not mounted on. -/
structure Grown (s s' : Tree) : Prop where
  root : s'.root = s.root
  node : ∀ n v, s.node n = some v → ∃ v', s'.node n = some v' ∧ v'.redir = v.redir ∧
    v'.resource = v.resource ∧ ∀ m, v.mountpoint = some m → v'.mountpoint = some m
  child : ∀ n e y, s.child n e = some y → s'.child n e = some y
  reduce : ∀ n m, s.reduce n = some m → ∃ m', s'.reduce n = some m' ∧ s'.reduce m = some m' ∧
    (IsDir s m → IsDir s' m')

theorem Grown.trans (h : Grown s s') (h' : Grown s' s'') : Grown s s'' where
  root := h'.root.trans h.root
  node := by
    intro n v hv
    obtain ⟨v₁, hv₁, hr₁, hk₁, hm₁⟩ := h.node n v hv
    obtain ⟨v₂, hv₂, hr₂, hk₂, hm₂⟩ := h'.node n v₁ hv₁
    exact ⟨v₂, hv₂, hr₂.trans hr₁, hk₂.trans hk₁, fun m hm => hm₂ m (hm₁ m hm)⟩
  child := fun n e y hy => h'.child n e y (h.child n e y hy)
  reduce := by
    intro n m hm
    obtain ⟨m₁, hn₁, hm₁, hdir₁⟩ := h.reduce n m hm
    obtain ⟨m₂, hn₂, hm₂, hdir₂⟩ := h'.reduce n m₁ hn₁
    obtain ⟨m₃, hm₃, hm₁₃, -⟩ := h'.reduce m m₁ hm₁
    obtain rfl : m₃ = m₂ := Option.some.inj (hm₁₃.symm.trans hm₂)
    exact ⟨m₃, hn₂, hm₃, fun hd => hdir₂ (hdir₁ hd)⟩

theorem Grown.of_keeps (h : Keeps s s')
    (hkind : ∀ n v v', s.node n = some v → s'.node n = some v' → v'.resource = v.resource)
    (hchild : ∀ n e y, s.child n e = some y → s'.child n e = some y) : Grown s s' where
  root := h.root
  node := by
    intro n v hv
    obtain ⟨v', hv', hr, hm, -⟩ := h.node n v hv
    exact ⟨v', hv', hr, hkind n v v' hv hv', fun m hmount => hm.trans hmount⟩
  child := hchild
  reduce := by
    intro n m hm
    refine ⟨m, h.reduce hm, h.reduce (reduce_idem hm), fun ⟨v, hv, hdir⟩ => ?_⟩
    obtain ⟨v', hv', -⟩ := h.node m v hv
    exact ⟨v', hv', (hkind m v v' hv hv').trans hdir⟩

/-- Nothing is new but nodes that are no directories, and names of dots. -/
structure NoMore (s s' : Tree) : Prop where
  plain : Plain s → Plain s'
  child : ∀ c e y, e ≠ dotName → e ≠ dotdotName → s'.child c e = some y → s.child c e = some y
  mount : ∀ n v' m, s'.node n = some v' → v'.mountpoint = some m →
    ∃ v, s.node n = some v ∧ v.mountpoint = some m
  dir : ∀ n, IsDir s' n → IsDir s n

theorem NoMore.trans (h : NoMore s s') (h' : NoMore s' s'') : NoMore s s'' where
  plain := fun hs => h'.plain (h.plain hs)
  child := fun c e y hdot hdotdot hy => h.child c e y hdot hdotdot (h'.child c e y hdot hdotdot hy)
  mount := by
    intro n v'' m hv'' hm''
    obtain ⟨v', hv', hm'⟩ := h'.mount n v'' m hv'' hm''
    exact h.mount n v' m hv' hm'
  dir := fun n hdir => h.dir n (h'.dir n hdir)

/-! ### A new node -/

theorem push_sget_old (h : s.node n = some v) : (s.push w).sget n e = s.sget n e := by
  unfold sget
  rw [push_node h, h]

theorem push_child (h : s.child n e = some y) : (s.push w).child n e = some y := by
  rw [child_eq_some] at h ⊢
  obtain ⟨v, hv, -⟩ := Option.bind_eq_some_iff.mp h
  rw [push_sget_old hv]
  exact h

theorem child_of_push (hw : w.children.buckets = none) (h : (s.push w).child n e = some y) :
    s.child n e = some y := by
  rw [child_eq_some] at h ⊢
  obtain ⟨v, hv, hget⟩ := Option.bind_eq_some_iff.mp h
  rcases push_node_cases hv with hv | ⟨-, rfl⟩
  · rwa [push_sget_old hv] at h
  · split at hget
    · simp at hget
    · simp [Hashmap.get, hw] at hget

theorem push_grown (s : Tree) (w : VfsNode) : Grown s (s.push w) := by
  refine .of_keeps (.push s w) (fun n v v' hv hv' => ?_) fun n e y hy => push_child hy
  rw [push_node hv] at hv'
  rw [Option.some.inj hv']

theorem push_plain (hs : Plain s) (hw : PlainNode w) : Plain (s.push w) := by
  intro n v hv
  rcases push_node_cases hv with hv | ⟨-, rfl⟩
  · exact hs n v hv
  · exact hw

theorem push_noMore (hw : PlainNode w) (hchildren : w.children.buckets = none)
    (hmount : w.mountpoint = none) (hdir : w.resource ≠ some .dir) : NoMore s (s.push w) where
  plain := fun hs => push_plain hs hw
  child := fun c e y _ _ h => child_of_push hchildren h
  mount := by
    intro n v' m hv' hm
    rcases push_node_cases hv' with hv | ⟨-, rfl⟩
    · exact ⟨v', hv, hm⟩
    · exact absurd (hmount.symm.trans hm) (by simp)
  dir := by
    rintro n ⟨v, hv, hkind⟩
    rcases push_node_cases hv with hv | ⟨-, rfl⟩
    · exact ⟨v, hv, hkind⟩
    · exact absurd hkind hdir

/-! ### A new name -/

theorem get_insert {V : Type} {c c' : Hashmap V} {item : V} (h : c.insert name item = some c') :
    c'.get e = (c.get e).or (if e = name then some item else none) := by
  have hnew : ([(name, item)].find? (·.1 = e)).map Prod.snd =
      if e = name then some item else none := by
    by_cases he : e = name
    · simp [he]
    · simp [he, Ne.symm he]
  unfold Hashmap.insert at h
  split at h
  · simp at h
  · obtain rfl := Option.some.inj h
    unfold Hashmap.get Hashmap.index
    by_cases hindex : c.index e = c.index name
    · simp only [Hashmap.index] at hindex
      simp only [Option.bind_some, hindex, Function.update_self, List.find?_append, Option.map_or,
        hnew]
      cases c.buckets <;> rfl
    · have hne : e ≠ name := by
        rintro rfl
        exact hindex rfl
      simp only [Hashmap.index] at hindex
      simp only [Option.bind_some, Function.update_of_ne hindex, if_neg hne, Option.or_none]
      cases c.buckets <;> rfl

theorem setNode_sget_of_ne (h : m ≠ n) : (s.setNode n w).sget m e = s.sget m e := by
  unfold sget
  rw [setNode_node_of_ne h]

theorem sinsert_sget (h : s.sinsert n name (some y) = some s') (m : Nat) (e : Key) :
    s'.sget m e = (s.sget m e).map fun got =>
      got.or (if m = n ∧ e = name then some (some y) else none) := by
  have hfreed : ∀ v, s.node n = some v → v.childrenFreed = false := by
    intro v hv
    unfold sinsert at h
    rw [hv, Option.bind_eq_bind, Option.bind_some] at h
    cases hf : v.childrenFreed with
    | false => rfl
    | true => simp [hf] at h
  obtain ⟨v, children, hv, hc, rfl⟩ := sinsert_cases h
  by_cases hm : m = n
  · subst hm
    unfold sget
    simp [setNode_node_self hv, hv, hfreed v hv, get_insert hc]
  · rw [setNode_sget_of_ne hm]
    simp [hm]

theorem sinsert_child_absent (h : s.sinsert n name (some y) = some s')
    (hno : s.sget n name = some none) : s'.child n name = some y := by
  rw [child_eq_some, sinsert_sget h, hno]
  simp

theorem sinsert_child (h : s.sinsert n name (some y) = some s') (hx : s.child m e = some p) :
    s'.child m e = some p := by
  rw [child_eq_some] at hx ⊢
  rw [sinsert_sget h, hx]
  rfl

theorem child_of_sinsert (h : s.sinsert n name (some y) = some s') (hx : s'.child m e = some p) :
    s.child m e = some p ∨ m = n ∧ e = name ∧ p = y := by
  rw [child_eq_some, sinsert_sget h] at hx
  rw [child_eq_some]
  obtain ⟨got, hgot, hx⟩ := Option.map_eq_some_iff.mp hx
  rw [hgot]
  cases got with
  | none =>
    split at hx
    · next hnew => exact .inr ⟨hnew.1, hnew.2, (Option.some.inj (Option.some.inj hx)).symm⟩
    · simp at hx
  | some got => exact .inl (congrArg some hx)

theorem sinsert_node (h : s.sinsert n name item = some s') (hv : s'.node m = some v') :
    ∃ v, s.node m = some v ∧ v' = { v with children := v'.children } := by
  obtain ⟨v, children, hn, -, rfl⟩ := sinsert_cases h
  by_cases hm : m = n
  · subst hm
    rw [setNode_node_self hn] at hv
    obtain rfl := Option.some.inj hv
    exact ⟨v, hn, rfl⟩
  · rw [setNode_node_of_ne hm] at hv
    exact ⟨v', hv, rfl⟩

theorem sinsert_node_of_ne (h : s.sinsert n name item = some s') (hm : m ≠ n) :
    s'.node m = s.node m := by
  obtain ⟨v, children, -, -, rfl⟩ := sinsert_cases h
  exact setNode_node_of_ne hm

theorem sinsert_keeps (h : s.sinsert n name item = some s') : Keeps s s' := by
  obtain ⟨v, children, hv, -, rfl⟩ := sinsert_cases h
  exact .setNode hv rfl rfl fun hu => hu

theorem sinsert_grown (h : s.sinsert n name (some y) = some s') : Grown s s' := by
  refine .of_keeps (sinsert_keeps h) (fun n v v' hv hv' => ?_) fun m e p hp => sinsert_child h hp
  obtain ⟨u, hu, he⟩ := sinsert_node h hv'
  rw [hv] at hu
  rw [he, Option.some.inj hu]

theorem sinsert_plain (hs : Plain s) (h : s.sinsert n name (some y) = some s') : Plain s' := by
  obtain ⟨v, children, hv, hc, rfl⟩ := sinsert_cases h
  intro m v' hv'
  by_cases hm : m = n
  · subst hm
    rw [setNode_node_self hv] at hv'
    obtain rfl := Option.some.inj hv'
    have hp := hs m v hv
    refine ⟨hp.filesystem, hp.childrenFreed, hp.symlinkTarget, hp.resource, fun hkind => ?_⟩
    rw [hp.children hkind] at hc
    exact absurd hc (by simp [Hashmap.insert, Hashmap.init])
  · rw [setNode_node_of_ne hm] at hv'
    exact hs m v' hv'

theorem sinsert_mount (h : s.sinsert n name item = some s') (hv : s'.node m = some v')
    (hm : v'.mountpoint = some p) : ∃ v, s.node m = some v ∧ v.mountpoint = some p := by
  obtain ⟨v, hv, he⟩ := sinsert_node h hv
  rw [he] at hm
  exact ⟨v, hv, hm⟩

theorem sinsert_dir (h : s.sinsert n name item = some s') (hdir : IsDir s' m) : IsDir s m := by
  obtain ⟨v', hv', hkind⟩ := hdir
  obtain ⟨v, hv, he⟩ := sinsert_node h hv'
  rw [he] at hkind
  exact ⟨v, hv, hkind⟩

theorem sinsert_noMore (h : s.sinsert n name (some y) = some s')
    (hname : name = dotName ∨ name = dotdotName) : NoMore s s' where
  plain := fun hs => sinsert_plain hs h
  child := by
    intro c e p hdot hdotdot hp
    rcases child_of_sinsert h hp with hp | ⟨-, rfl, -⟩
    · exact hp
    · exact absurd hname (not_or.mpr ⟨hdot, hdotdot⟩)
  mount := fun n v' m hv' hm => sinsert_mount h hv' hm
  dir := fun n hdir => sinsert_dir h hdir

/-! ### A mount -/

/-- The tree after a new node has been mounted on `t`. -/
def mounted (s : Tree) (t : Nat) (v w : VfsNode) : Tree :=
  (s.push w).setNode t { v with mountpoint := some s.nodes.length }

theorem mounted_node (hv : s.node t = some v) (w : VfsNode) :
    (mounted s t v w).node t = some { v with mountpoint := some s.nodes.length } :=
  setNode_node_self (push_node hv)

theorem mounted_node_of_ne (hm : m ≠ t) : (mounted s t v w).node m = (s.push w).node m :=
  setNode_node_of_ne hm

theorem mounted_sget (hv : s.node t = some v) (m : Nat) (e : Key) :
    (mounted s t v w).sget m e = (s.push w).sget m e := by
  by_cases hm : m = t
  · subst hm
    unfold sget
    rw [mounted_node hv, push_node hv]
    rfl
  · exact setNode_sget_of_ne hm

theorem mounted_new (hv : s.node t = some v) : (mounted s t v w).node s.nodes.length = some w := by
  rw [mounted_node_of_ne (Nat.ne_of_gt (node_lt hv))]
  exact push_node_new

/-- A chain that ended at `t` goes on to the new node. -/
theorem mounted_reduceLoop (hv : s.node t = some v) (hredir : w.redir = none)
    (hmount : w.mountpoint = none) (ht : v.redir = none) (htop : v.mountpoint = none) {fuel : Nat}
    (h : s.reduceLoop fuel n = some m) :
    (mounted s t v w).reduceLoop (fuel + 1) n = some (if m = t then s.nodes.length else m) := by
  induction fuel generalizing n with
  | zero => simp [reduceLoop] at h
  | succ fuel ih =>
    rw [reduceLoop, Option.bind_eq_bind, Option.bind_eq_some_iff] at h
    obtain ⟨u, hu, h⟩ := h
    by_cases hn : n = t
    · subst hn
      rw [hv] at hu
      obtain rfl := Option.some.inj hu
      rw [ht, htop] at h
      obtain rfl := Option.some.inj h
      rw [reduceLoop, mounted_node hv, Option.bind_eq_bind, Option.bind_some]
      simp only [ht]
      rw [reduceLoop, mounted_new hv, Option.bind_eq_bind, Option.bind_some, hredir, hmount]
      simp
    · rw [reduceLoop, mounted_node_of_ne hn, push_node hu, Option.bind_eq_bind, Option.bind_some]
      split at h
      · exact ih h
      · exact ih h
      · obtain rfl := Option.some.inj h
        rw [if_neg hn]

/-- What led to `t` leads to the new directory. -/
theorem mounted_reduce (hv : s.node t = some v) (hredir : w.redir = none)
    (hmount : w.mountpoint = none) (ht : v.redir = none) (htop : v.mountpoint = none)
    (h : s.reduce n = some m) :
    (mounted s t v w).reduce n = some (if m = t then s.nodes.length else m) := by
  have hlen : (mounted s t v w).nodes.length = s.nodes.length + 1 := by
    simp [mounted, Tree.setNode, Tree.push]
  unfold reduce
  rw [hlen]
  exact mounted_reduceLoop hv hredir hmount ht htop h

theorem mounted_grown (hv : s.node t = some v) (hredir : w.redir = none)
    (hmount : w.mountpoint = none) (ht : v.redir = none) (htop : v.mountpoint = none)
    (hdir : w.resource = some .dir) : Grown s (mounted s t v w) where
  root := rfl
  node := by
    intro n u hu
    by_cases hn : n = t
    · subst hn
      rw [hv] at hu
      obtain rfl := Option.some.inj hu
      exact ⟨_, mounted_node hv w, rfl, rfl, fun m hm => by simp [htop] at hm⟩
    · exact ⟨u, by rw [mounted_node_of_ne hn, push_node hu], rfl, rfl, fun m hm => hm⟩
  child := by
    intro n e y hy
    rw [child_eq_some, mounted_sget hv, ← child_eq_some]
    exact push_child hy
  reduce := by
    intro n m hm
    refine ⟨_, mounted_reduce hv hredir hmount ht htop hm,
      mounted_reduce hv hredir hmount ht htop (reduce_idem hm), fun ⟨u, hu, hkind⟩ => ?_⟩
    split
    · exact ⟨w, mounted_new hv, hdir⟩
    · next hne => exact ⟨u, by rw [mounted_node_of_ne hne, push_node hu], hkind⟩

theorem mounted_plain (hs : Plain s) (hv : s.node t = some v) (hw : PlainNode w) :
    Plain (mounted s t v w) := by
  intro n u hu
  by_cases hn : n = t
  · subst hn
    rw [mounted_node hv] at hu
    obtain rfl := Option.some.inj hu
    have hp := hs n v hv
    exact ⟨hp.filesystem, hp.childrenFreed, hp.symlinkTarget, hp.resource, hp.children⟩
  · rw [mounted_node_of_ne hn] at hu
    exact push_plain hs hw n u hu

/-- The only new mount is the one on `t`. -/
theorem mount_of_mounted (hv : s.node t = some v) (hmount : w.mountpoint = none)
    (hu : (mounted s t v w).node n = some v') (hm : v'.mountpoint = some m) :
    (∃ u, s.node n = some u ∧ u.mountpoint = some m) ∨ n = t ∧ m = s.nodes.length := by
  by_cases hn : n = t
  · subst hn
    rw [mounted_node hv] at hu
    obtain rfl := Option.some.inj hu
    exact .inr ⟨rfl, (Option.some.inj hm).symm⟩
  · rw [mounted_node_of_ne hn] at hu
    rcases push_node_cases hu with hu | ⟨-, rfl⟩
    · exact .inl ⟨v', hu, hm⟩
    · exact absurd (hmount.symm.trans hm) (by simp)

theorem child_of_mounted (hv : s.node t = some v) (hw : w.children.buckets = none)
    (h : (mounted s t v w).child n e = some y) : s.child n e = some y := by
  rw [child_eq_some, mounted_sget hv, ← child_eq_some] at h
  exact child_of_push hw h

theorem dir_of_mounted (hv : s.node t = some v) (h : IsDir (mounted s t v w) n) :
    IsDir s n ∨ n = s.nodes.length := by
  obtain ⟨u, hu, hkind⟩ := h
  by_cases hn : n = t
  · subst hn
    rw [mounted_node hv] at hu
    obtain rfl := Option.some.inj hu
    exact .inl ⟨v, hv, hkind⟩
  · rw [mounted_node_of_ne hn] at hu
    rcases push_node_cases hu with hu | ⟨rfl, -⟩
    · exact .inl ⟨u, hu, hkind⟩
    · exact .inr rfl

end Lyre.Vfs
