import Lyre.Fs.Vfs
import Lyre.Properties.VfsNames
import Lyre.Properties.VfsPaths

/-!
# `openat` and `stat`

`stat` resolves a path at once; `openat` resolves it up to its last name, and that name a second time.
As the first resolution reads every directory on its way, the second one finds what the first one has
found. But the slash behind the last name is gone by then, and only `openat` refuses to return a link.
-/

namespace Lyre.Vfs

open Lyre.Vfs.Tree

variable {s s' s'' : Tree} {n m p t : Nat} {v : VfsNode} {name : Key} {item : Option Nat}
  {disk : Disk} {r : Res} {path : Path} {parent : Option Nat} {depth : Nat} {ask : Bool}
  {resolve : Resolve}

/-! ## What a path comes to -/

/-- The root directory is read. -/
def RootRead (s : Tree) : Prop := ∃ root, s.reduce s.root = some root ∧ Ready s root

theorem rootRead_readable : Readable disk RootRead where
  populate hs hp := ⟨(populate_extends hp).1.toKeeps.rootReady hs, populate_extends hp⟩
  setErrno e hs := (Keeps.setErrno _ e).rootReady hs
  root hs := hs

/-- The name of an entry: not empty, and without a slash. -/
def Name (b : Key) : Prop := b ≠ [] ∧ slash ∉ b

theorem Extends.enter (h : Extends s s') (hn : Ready s n) {b : Key} (he : s.enter n b = some m) :
    s'.enter n b = some m := by
  obtain ⟨y, hy, hm⟩ := enter_eq_some.mp he
  refine enter_eq_some.mpr ⟨y, ?_, h.reduce hm⟩
  rwa [child_eq_some, h.sget_eq hn, ← child_eq_some]

theorem name_takeWhile {b : BitVec 8} (hb : b ≠ slash) (hpath : path.head? = some b) :
    Name (path.takeWhile (· ≠ slash)) := by
  refine ⟨?_, fun hmem => by simpa using List.mem_takeWhile_imp hmem⟩
  cases path with
  | nil => simp at hpath
  | cons x path =>
    obtain rfl := Option.some.inj hpath
    rw [List.takeWhile_cons_of_pos (by simpa using hb)]
    exact List.cons_ne_nil _ _

/-- The entry `b` of the directory `p`, which is read, leads to `t`, which is read. -/
structure Entry (s : Tree) (p : Nat) (b : Key) (t : Nat) : Prop where
  name : Name b
  parent : Settled s p
  target : Settled s t
  enter : s.enter p b = some t

theorem Entry.extends {b : Key} (h : Entry s p b t) (he : Extends s s') : Entry s' p b t where
  name := h.name
  parent := he.toKeeps.settled h.parent
  target := he.toKeeps.settled h.target
  enter := he.enter h.parent.2 h.enter

/-- What `path2node` comes to, with the parent and the last name of what it finds. -/
inductive Landed (s : Tree) (ask : Bool) : Res → Prop
  | null : Landed s ask .null
  | root (t : Nat) : Settled s t → s.reduce s.root = some t →
      Landed s ask ⟨some t, some t, some [slash]⟩
  | absent (p : Nat) (b : Key) : Name b → Settled s p → s.sget p b = some none →
      Landed s ask ⟨some p, none, some b⟩
  | file (p t : Nat) (b : Key) (v : VfsNode) (kind : Kind) : ask = true → Entry s p b t →
      s.node t = some v → v.resource = some kind → kind ≠ .dir →
      Landed s ask ⟨some p, none, some b⟩
  | found (p t : Nat) (b : Key) (v : VfsNode) (kind : Kind) : Entry s p b t →
      s.node t = some v → v.resource = some kind → Landed s ask ⟨some p, some t, some b⟩

theorem Landed.target {ask : Bool} (h : Landed s ask r) (ht : r.target = some t) :
    Settled s t := by
  cases h with
  | null => simp [Res.null] at ht
  | root u hu =>
    obtain rfl := Option.some.inj ht
    exact hu
  | absent => simp at ht
  | file => simp at ht
  | found p u b v kind he =>
    obtain rfl := Option.some.inj ht
    exact he.target

/-- The loop of `path2node`, from a directory that is read. -/
theorem walk_lands {fuel current : Nat} (hres : ResolveLands RootRead resolve) (hs : RootRead s)
    (hcur : Settled s current) {b : BitVec 8} (hb : b ≠ slash) (hpath : path.head? = some b)
    (h : s.walk disk resolve ask fuel current path = some (s', r)) :
    RootRead s' ∧ Extends s s' ∧ Landed s' ask r := by
  induction fuel generalizing s current path b with
  | zero => simp [Tree.walk] at h
  | succ fuel ih =>
    simp only [Tree.walk, Option.bind_eq_bind] at h
    obtain ⟨out, hturn, h⟩ := Option.bind_eq_some_iff.mp h
    have hname := name_takeWhile hb hpath
    cases turn_lands rootRead_readable hres hs hcur hturn with
    | null hs' he =>
      obtain ⟨rfl, rfl⟩ := Prod.mk.inj (Option.some.inj h)
      exact ⟨hs', he, .null⟩
    | absent hs' he hp hget =>
      obtain ⟨rfl, rfl⟩ := Prod.mk.inj (Option.some.inj h)
      exact ⟨hs', he, .absent _ _ hname hp hget⟩
    | @found s₁ child new kind v hs' he hp hn hget hred hv hkind =>
      have hentry : Entry s₁ current (path.takeWhile (· ≠ slash)) new :=
        ⟨hname, hp, hn, enter_eq_some.mpr ⟨child, child_eq_some.mpr hget, hred⟩⟩
      have he' := Extends.setErrno s₁ .enotdir
      simp only at h
      split at h
      · next hask =>
        obtain ⟨rfl, rfl⟩ := Prod.mk.inj (Option.some.inj h)
        exact ⟨he'.toKeeps.rootReady hs', he.trans he',
          .file _ _ _ v kind hask.1 (hentry.extends he') hv hkind hask.2⟩
      · obtain ⟨rfl, rfl⟩ := Prod.mk.inj (Option.some.inj h)
        exact ⟨hs', he, .found _ _ _ v kind hentry hv hkind⟩
    | down hrest hs' he hn =>
      obtain ⟨b', hb', hhead⟩ := head_dropSlashes rfl hrest
      obtain ⟨hs'', he', hl⟩ := ih hs' hn hb' hhead h
      exact ⟨hs'', he.trans he', hl⟩

theorem path2nodeFrom_lands (hres : ResolveLands RootRead resolve) (hs : RootRead s)
    (hne : path ≠ []) (h : s.path2nodeFrom disk resolve ask parent path = some (s', r)) :
    RootRead s' ∧ Extends s s' ∧ Landed s' ask r := by
  simp only [Tree.path2nodeFrom, Option.bind_eq_bind] at h
  obtain ⟨parent', -, h⟩ := Option.bind_eq_some_iff.mp h
  obtain ⟨current, hred, h⟩ := Option.bind_eq_some_iff.mp h
  obtain ⟨⟨s₁, ok⟩, hpop, h⟩ := Option.bind_eq_some_iff.mp h
  obtain ⟨hs₁, he₁, hready⟩ := rootRead_readable.populate hs hpop
  cases ok with
  | false =>
    rw [if_pos rfl] at h
    obtain ⟨rfl, rfl⟩ := Prod.mk.inj (Option.some.inj h)
    exact ⟨hs₁, he₁, .null⟩
  | true =>
    simp only [Bool.true_eq_false, if_false] at h
    by_cases habs : path.head? = some slash
    · simp only [if_pos habs] at h
      obtain ⟨root, hroot, h⟩ := Option.bind_eq_some_iff.mp h
      obtain ⟨root', hroot', hread⟩ := hs₁
      obtain rfl := Option.some.inj (hroot.symm.trans hroot')
      have hsettled : Settled s₁ root := ⟨reduce_idem hroot, hread⟩
      by_cases hrest : path.dropWhile (· = slash) = []
      · rw [if_pos hrest] at h
        obtain ⟨rfl, rfl⟩ := Prod.mk.inj (Option.some.inj h)
        exact ⟨⟨root, hroot, hread⟩, he₁, .root root hsettled hroot⟩
      · rw [if_neg hrest] at h
        obtain ⟨b, hb, hhead⟩ := head_dropSlashes rfl hrest
        obtain ⟨hs', he', hl⟩ := walk_lands hres ⟨root, hroot, hread⟩ hsettled hb hhead h
        exact ⟨hs', he₁.trans he', hl⟩
    · rw [if_neg habs] at h
      obtain ⟨b, hhead⟩ : ∃ b, path.head? = some b :=
        Option.isSome_iff_exists.mp (List.isSome_head?.mpr hne)
      have hb : b ≠ slash := fun heq => habs (heq ▸ hhead)
      have hcur : Settled s₁ current := ⟨he₁.reduce (reduce_idem hred), hready rfl⟩
      obtain ⟨hs', he', hl⟩ := walk_lands hres hs₁ hcur hb hhead h
      exact ⟨hs', he₁.trans he', hl⟩

/-- **Where `path2node` lands.** -/
theorem path2node_lands : ∀ {depth : Nat} {s s' : Tree} {parent : Option Nat} {path : Option Path}
    {r : Res}, RootRead s → s.path2node disk depth parent path = some (s', r) →
      RootRead s' ∧ Extends s s' ∧ Landed s' (askForDir (path.getD [])) r
  | 0, _, _, _, _, _, _, h => by simp [Tree.path2node] at h
  | depth + 1, s, s', parent, path, r, hs, h => by
    have hres : ResolveLands RootRead (Tree.path2node disk depth) := by
      intro s s' parent path r hs h
      obtain ⟨hs', he, hl⟩ := path2node_lands hs h
      exact ⟨hs', he, fun t => hl.target⟩
    unfold Tree.path2node at h
    split at h
    · obtain ⟨rfl, rfl⟩ := Prod.mk.inj (Option.some.inj h)
      exact ⟨(rootRead_readable : Readable disk RootRead).setErrno _ hs, .setErrno _ _, .null⟩
    · obtain ⟨rfl, rfl⟩ := Prod.mk.inj (Option.some.inj h)
      exact ⟨(rootRead_readable : Readable disk RootRead).setErrno _ hs, .setErrno _ _, .null⟩
    · next path hne => exact path2nodeFrom_lands hres hs hne h

/-! ## The last name a second time -/

theorem takeWhile_slash {b : Key} (h : slash ∉ b) : b.takeWhile (· ≠ slash) = b :=
  List.takeWhile_eq_self_iff.mpr fun x hx => by
    simpa using fun heq : x = slash => h (heq ▸ hx)

theorem dropWhile_slash {b : Key} (h : slash ∉ b) : b.dropWhile (· ≠ slash) = [] :=
  List.dropWhile_eq_nil_iff.mpr fun x hx => by
    simpa using fun heq : x = slash => h (heq ▸ hx)

theorem path2node_name {b : Key} (hb : Name b) (hp : Settled s p) :
    s.path2node disk (depth + 1) (some p) (some b) =
      s.walk disk (Tree.path2node disk depth) false b.length p b := by
  obtain ⟨hne, hslash⟩ := hb
  have hhead : b.head? ≠ some slash := fun h => hslash (List.mem_of_head? h)
  have hask : askForDir b = false := by
    refine decide_eq_false fun h => ?_
    exact hslash (List.mem_of_getLast? h)
  cases b with
  | nil => exact absurd rfl hne
  | cons x xs =>
    unfold Tree.path2node Tree.path2nodeFrom
    simp only [hp.1, Ready.populate hp.2, Option.bind_eq_bind, Option.bind_some, hask,
      Bool.true_eq_false, if_false, if_neg hhead]

theorem path2node_absent_again {b : Key} (hb : Name b) (hp : Settled s p)
    (hget : s.sget p b = some none) :
    s.path2node disk (depth + 1) (some p) (some b) =
      some (s.setErrno .enoent, ⟨some p, none, some b⟩) := by
  rw [path2node_name hb hp]
  obtain ⟨fuel, hfuel⟩ : ∃ fuel, b.length = fuel + 1 :=
    Nat.exists_eq_succ_of_ne_zero (fun h => hb.1 (List.length_eq_zero_iff.mp h))
  rw [hfuel, Tree.walk]
  simp only [takeWhile_slash hb.2, dropWhile_slash hb.2, List.dropWhile_nil, Tree.turn, hp.1, hget,
    Option.bind_eq_bind, Option.bind_some, if_true]

theorem Entry.path2node {b : Key} {kind : Kind} (he : Entry s p b t) (hv : s.node t = some v)
    (hkind : v.resource = some kind) :
    s.path2node disk (depth + 1) (some p) (some b) = some (s, ⟨some p, some t, some b⟩) := by
  rw [path2node_name he.name he.parent]
  obtain ⟨child, hchild, hred⟩ := enter_eq_some.mp he.enter
  obtain ⟨fuel, hfuel⟩ : ∃ fuel, b.length = fuel + 1 :=
    Nat.exists_eq_succ_of_ne_zero (fun h => he.name.1 (List.length_eq_zero_iff.mp h))
  rw [hfuel, Tree.walk]
  simp only [takeWhile_slash he.name.2, dropWhile_slash he.name.2, List.dropWhile_nil, Tree.turn,
    he.parent.1, child_eq_some.mp hchild, hred, Ready.populate he.target.2, hv, hkind,
    Option.bind_eq_bind, Option.bind_some, Bool.true_eq_false, Bool.false_eq_true, if_true,
    if_false, false_and]

theorem path2node_root_again (ht : Settled s t) (hroot : s.reduce s.root = some t) :
    s.path2node disk (depth + 1) (some t) (some [slash]) =
      some (s, ⟨some t, some t, some [slash]⟩) := by
  unfold Tree.path2node Tree.path2nodeFrom
  simp only [ht.1, Ready.populate ht.2, hroot, Option.bind_eq_bind, Option.bind_some,
    Bool.true_eq_false, if_false, List.head?_cons, if_true]
  rw [if_pos (by decide)]

/-! ## Behind the links -/

theorem reduceFollow_end {fuel : Nat} (h : s.reduceFollow disk depth fuel n = some (s', some m)) :
    ∃ v, s'.node m = some v ∧ v.redir = none ∧ v.mountpoint = none ∧ v.symlinkTarget = none := by
  induction fuel generalizing s n with
  | zero => simp [Tree.reduceFollow] at h
  | succ fuel ih =>
    unfold Tree.reduceFollow at h
    simp only [Option.bind_eq_bind] at h
    obtain ⟨v, hv, h⟩ := Option.bind_eq_some_iff.mp h
    split at h
    · exact ih h
    · exact ih h
    · split at h
      · simp at h
      obtain ⟨⟨s₁, r⟩, -, h⟩ := Option.bind_eq_some_iff.mp h
      simp only at h
      split at h
      · simp at h
      · exact ih h
    · next hredir hmount hlink =>
      obtain ⟨rfl, hm⟩ := Prod.mk.inj (Option.some.inj h)
      obtain rfl := Option.some.inj hm
      exact ⟨v, hv, hredir, hmount, hlink⟩

theorem reduceFollow_again {fuel fuel' : Nat}
    (h : s.reduceFollow disk depth fuel n = some (s', some m)) :
    s'.reduceFollow disk depth (fuel' + 1) m = some (s', some m) := by
  obtain ⟨v, hv, hredir, hmount, hlink⟩ := reduceFollow_end h
  rw [Tree.reduceFollow, hv, Option.bind_eq_bind, Option.bind_some, hredir, hmount, hlink]

/-- The end of `openat` when `vfs_get_node` is done. -/
def openEnd (disk : Disk) (depth : Nat) (x : Tree × Option Nat) : Option (Tree × Option Nat) :=
  x.2.elim (some (x.1.setErrno .enoent, none)) fun n => x.1.openFound disk depth n false true

/-- The end of `stat`. -/
def statEnd (x : Tree × Option Nat) : Option (Tree × Option Nat) :=
  x.2.elim (some (x.1, none)) fun n => do
    let v ← x.1.node n
    let _ ← v.resource
    some (x.1, some n)

/-- Links lead from `t` to a node that is one itself: a hard link to a symbolic link has no target. -/
def ToLink (disk : Disk) (depth : Nat) (s : Tree) (t : Nat) : Prop :=
  ∃ s' n v, s.reduceFollow disk depth depth t = some (s', some n) ∧ s'.node n = some v ∧
    v.resource = some .lnk

/-- Links lead from `t` to nothing. -/
def Dangling (disk : Disk) (depth : Nat) (s : Tree) (t : Nat) : Prop :=
  ∃ s', s.reduceFollow disk depth depth t = some (s', none)

theorem openEnd_found {s' : Tree} (h : s.reduceFollow disk depth depth t = some (s', some n))
    (hv : s'.node n = some v) :
    openEnd disk depth (s', some n) = v.resource.bind fun kind =>
      if kind = .lnk then some (s'.setErrno .eloop, none) else some (s', some n) := by
  obtain ⟨fuel, rfl⟩ : ∃ fuel, depth = fuel + 1 := by
    cases depth with
    | zero => simp [Tree.reduceFollow] at h
    | succ fuel => exact ⟨fuel, rfl⟩
  unfold openEnd Tree.openFound
  simp only [Option.elim_some, hv, reduceFollow_again h, Option.bind_eq_bind, Option.bind_some]
  cases v.resource with
  | none => rfl
  | some kind => simp

theorem openEnd_iff :
    ((s.reduceFollow disk depth depth t).bind (openEnd disk depth)).map Prod.snd =
        ((s.reduceFollow disk depth depth t).bind statEnd).map Prod.snd ↔
      ¬ ToLink disk depth s t := by
  cases h : s.reduceFollow disk depth depth t with
  | none =>
    refine iff_of_true rfl ?_
    rintro ⟨s', n, v, hf, -⟩
    rw [h] at hf
    cases hf
  | some x =>
    obtain ⟨s', o⟩ := x
    cases o with
    | none =>
      refine iff_of_true rfl ?_
      rintro ⟨s'', n, v, hf, -⟩
      rw [h] at hf
      cases hf
    | some n =>
      obtain ⟨v, hv, -⟩ := reduceFollow_end h
      have hlink : ToLink disk depth s t ↔ v.resource = some .lnk := by
        constructor
        · rintro ⟨s'', n', w, hf, hw, hlnk⟩
          rw [h] at hf
          cases hf
          rw [hv] at hw
          rwa [Option.some.inj hw]
        · exact fun hlnk => ⟨s', n, v, h, hv, hlnk⟩
      rw [Option.bind_some, Option.bind_some, openEnd_found h hv, hlink]
      simp only [statEnd, Option.elim_some, hv, Option.bind_eq_bind, Option.bind_some]
      cases v.resource with
      | none => simp
      | some kind => cases kind <;> simp

theorem openEnd_none_iff :
    ((s.reduceFollow disk depth depth t).bind (openEnd disk depth)).map Prod.snd = some none ↔
      Dangling disk depth s t ∨ ToLink disk depth s t := by
  cases h : s.reduceFollow disk depth depth t with
  | none =>
    refine iff_of_false (by simp) ?_
    rintro (⟨s', hf⟩ | ⟨s', n, v, hf, -⟩)
    · rw [h] at hf
      cases hf
    · rw [h] at hf
      cases hf
  | some x =>
    obtain ⟨s', o⟩ := x
    cases o with
    | none => exact iff_of_true rfl (.inl ⟨s', h⟩)
    | some n =>
      obtain ⟨v, hv, -⟩ := reduceFollow_end h
      rw [Option.bind_some, openEnd_found h hv]
      constructor
      · intro heq
        refine .inr ⟨s', n, v, h, hv, ?_⟩
        revert heq
        cases v.resource with
        | none => simp
        | some kind => cases kind <;> simp
      · rintro (⟨s'', hf⟩ | ⟨s'', n', w, hf, hw, hlnk⟩)
        · rw [h] at hf
          cases hf
        · rw [h] at hf
          cases hf
          rw [hv] at hw
          rw [Option.some.inj hw, hlnk]
          rfl

/-! ## The two calls -/

section

variable {dir self : Option Nat} {parent : Nat} {made : Bool}

theorem stat_none (hne : path ≠ []) (hdir : s.getParentDir dir (some path) = some parent)
    (h : s.path2node disk depth (some parent) (some path) = some (s', r)) (ht : r.target = none) :
    s.stat disk depth dir self (some path) ⟨false, false⟩ = some (s', none) := by
  unfold Tree.stat Tree.getNode
  simp only [if_neg hne, hdir, h, ht, Option.bind_eq_bind, Option.bind_some]

theorem stat_some (hne : path ≠ []) (hdir : s.getParentDir dir (some path) = some parent)
    (h : s.path2node disk depth (some parent) (some path) = some (s', r)) (ht : r.target = some t) :
    s.stat disk depth dir self (some path) ⟨false, false⟩ =
      (s'.reduceFollow disk depth depth t).bind statEnd := by
  unfold Tree.stat Tree.getNode
  simp only [if_neg hne, hdir, h, ht, Option.bind_eq_bind, Option.bind_some, Bool.not_false, if_true]
  refine congrArg (Option.bind _) (funext fun x => ?_)
  obtain ⟨s'', o⟩ := x
  cases o <;> rfl

theorem openat_none (hne : path ≠ []) (hdir : s.getParentDir dir (some path) = some parent)
    (h : s.path2node disk depth (some parent) (some path) = some (s', r))
    (hp : r.targetParent = none) :
    s.openat disk depth dir (some path) ⟨false, false, false⟩ made true =
      some (s'.setErrno .enoent, none) := by
  unfold Tree.openat Tree.fdnumPathToNode
  rw [if_neg (by simpa using hne)]
  simp only [hdir, h, hp, Option.bind_eq_bind, Option.bind_some]

theorem openat_some (hne : path ≠ []) (hdir : s.getParentDir dir (some path) = some parent)
    (h : s.path2node disk depth (some parent) (some path) = some (s', r))
    (hp : r.targetParent = some p) :
    s.openat disk depth dir (some path) ⟨false, false, false⟩ made true =
      (s'.getNode disk depth (some p) r.basename true).bind (openEnd disk depth) := by
  unfold Tree.openat Tree.fdnumPathToNode
  rw [if_neg (by simpa using hne)]
  simp only [hdir, h, hp, Option.bind_eq_bind, Option.bind_some, Bool.not_false]
  refine congrArg (Option.bind _) (funext fun x => ?_)
  obtain ⟨s'', o⟩ := x
  cases o <;> rfl

/-- Where the second resolution finds `t`. -/
theorem getNode_some {b : Option Key} {s₂ : Tree} {r₂ : Res}
    (h : s.path2node disk depth (some p) b = some (s₂, r₂)) (ht : r₂.target = some t) :
    s.getNode disk depth (some p) b true = s₂.reduceFollow disk depth depth t := by
  unfold Tree.getNode
  simp only [h, ht, Option.bind_eq_bind, Option.bind_some, if_true]

/-- Where `openat` and `stat` part. -/
inductive Parts (disk : Disk) (depth : Nat) (s : Tree) (dir : Option Nat) (path : Path) : Prop
  /-- `openat` does not notice that there is no directory. -/
  | noDirectory : s.getParentDir dir (some path) = none → Parts disk depth s dir path
  /-- `openat` refuses a hard link to a symbolic link. -/
  | toLink {s' : Tree} {r : Res} {t : Nat} :
      s.path2node disk depth (s.getParentDir dir (some path)) (some path) = some (s', r) →
      r.target = some t → ToLink disk depth s' t → Parts disk depth s dir path
  /-- `openat` looks up the last name without the slash behind it. -/
  | trailingSlash {s' : Tree} {p t : Nat} {b : Key} :
      s.path2node disk depth (s.getParentDir dir (some path)) (some path) =
        some (s', ⟨some p, none, some b⟩) →
      Entry s' p b t → ¬ Dangling disk depth s' t → ¬ ToLink disk depth s' t →
      Parts disk depth s dir path

theorem path2node_null (hne : path ≠ []) : s.path2node disk depth none (some path) = none := by
  cases depth with
  | zero => rfl
  | succ depth =>
    cases path with
    | nil => exact absurd rfl hne
    | cons b path => rfl

/-- With a directory that is found, what parts them is seen where `path2node` lands. -/
theorem parts_iff (hdir : s.getParentDir dir (some path) = some parent)
    (h : s.path2node disk depth (some parent) (some path) = some (s', r)) :
    Parts disk depth s dir path ↔ (∃ t, r.target = some t ∧ ToLink disk depth s' t) ∨
      ∃ p t b, r = ⟨some p, none, some b⟩ ∧ Entry s' p b t ∧ ¬ Dangling disk depth s' t ∧
        ¬ ToLink disk depth s' t := by
  constructor
  · intro hparts
    cases hparts with
    | noDirectory hno =>
      rw [hdir] at hno
      cases hno
    | toLink h' ht hlink =>
      rw [hdir, h] at h'
      cases h'
      exact .inl ⟨_, ht, hlink⟩
    | trailingSlash h' he hd hlink =>
      rw [hdir, h] at h'
      cases h'
      exact .inr ⟨_, _, _, rfl, he, hd, hlink⟩
  · rintro (⟨t, ht, hlink⟩ | ⟨p, t, b, rfl, he, hd, hlink⟩)
    · exact .toLink (by rw [hdir]; exact h) ht hlink
    · exact .trailingSlash (by rw [hdir]; exact h) he hd hlink

/-- **`openat` and `stat` agree exactly where they do not part.** The root directory is read when the
first absolute path is looked up. -/
theorem openat_agrees_iff (hroot : RootRead s) :
    (s.openat disk depth dir (some path) ⟨false, false, false⟩ made true).map Prod.snd =
        (s.stat disk depth dir self (some path) ⟨false, false⟩).map Prod.snd ↔
      path = [] ∨ ¬ Parts disk depth s dir path := by
  by_cases hne : path = []
  · subst hne
    exact iff_of_true rfl (.inl rfl)
  rw [or_iff_right hne]
  cases hdir : s.getParentDir dir (some path) with
  | none =>
    refine iff_of_false ?_ (not_not_intro (.noDirectory hdir))
    have hopen : s.openat disk depth dir (some path) ⟨false, false, false⟩ made true = none := by
      unfold Tree.openat Tree.fdnumPathToNode
      rw [if_neg (by simpa using hne), hdir, path2node_null hne]
      rfl
    have hstat : s.stat disk depth dir self (some path) ⟨false, false⟩ = some (s, none) := by
      unfold Tree.stat
      simp only [Option.bind_eq_bind, Option.bind_some, if_neg hne, hdir]
    rw [hopen, hstat]
    simp
  | some parent =>
    cases h : s.path2node disk depth (some parent) (some path) with
    | none =>
      refine iff_of_true ?_ ?_
      · unfold Tree.openat Tree.fdnumPathToNode Tree.stat Tree.getNode
        rw [if_neg (by simpa using hne)]
        simp only [hdir, h, if_neg hne, Option.bind_eq_bind, Option.bind_some, Option.bind_none]
      · intro hparts
        cases hparts with
        | noDirectory hno =>
          rw [hdir] at hno
          cases hno
        | toLink h' =>
          rw [hdir, h] at h'
          cases h'
        | trailingSlash h' =>
          rw [hdir, h] at h'
          cases h'
    | some x =>
      obtain ⟨s', r⟩ := x
      obtain ⟨fuel, rfl⟩ : ∃ fuel, depth = fuel + 1 := by
        cases depth with
        | zero => simp [Tree.path2node] at h
        | succ fuel => exact ⟨fuel, rfl⟩
      obtain ⟨-, -, hl⟩ := path2node_lands hroot h
      rw [parts_iff hdir h]
      cases hl with
      | null =>
        rw [openat_none hne hdir h rfl, stat_none hne hdir h rfl]
        simp [Res.null]
      | root t ht hred =>
        rw [openat_some hne hdir h rfl, stat_some hne hdir h rfl,
          getNode_some (path2node_root_again ht hred) rfl, openEnd_iff]
        simp
      | absent p b hb hp hget =>
        rw [openat_some hne hdir h rfl, stat_none hne hdir h rfl]
        refine iff_of_true ?_ ?_
        · unfold Tree.getNode
          rw [path2node_absent_again hb hp hget]
          rfl
        · rintro (⟨t, ht, -⟩ | ⟨p', t, b', heq, he, -⟩)
          · simp at ht
          · -- there is no entry of that name
            obtain ⟨rfl, -, rfl⟩ : p = p' ∧ (none : Option Nat) = none ∧ b = b' := by
              simpa using heq
            obtain ⟨child, hchild, -⟩ := enter_eq_some.mp he.enter
            rw [child_eq_some, hget] at hchild
            cases hchild
      | file p t b v kind _ he hv hkind _ =>
        rw [openat_some hne hdir h rfl, stat_none hne hdir h rfl,
          getNode_some (he.path2node hv hkind) rfl]
        refine openEnd_none_iff.trans ⟨?_, fun hno => ?_⟩
        · rintro hor (⟨t', ht, -⟩ | ⟨p', t', b', heq, he', hd, hlink⟩)
          · simp at ht
          · obtain ⟨rfl, -, rfl⟩ : p = p' ∧ (none : Option Nat) = none ∧ b = b' := by
              simpa using heq
            obtain rfl := Option.some.inj (he.enter.symm.trans he'.enter)
            exact hor.elim hd hlink
        · by_contra hor
          obtain ⟨hd, hlink⟩ := not_or.mp hor
          exact hno (.inr ⟨p, t, b, rfl, he, hd, hlink⟩)
      | found p t b v kind he hv hkind =>
        rw [openat_some hne hdir h rfl, stat_some hne hdir h rfl,
          getNode_some (he.path2node hv hkind) rfl, openEnd_iff]
        simp

end

/-- The file `a`, opened by its name. -/
theorem openat_agrees_file :
    ∃ s, mounting.run noDisk 1 (.create 0 pathA .other true) = some s ∧
      ((s.openat noDisk 1 (some 0) (some pathA) ⟨false, false, false⟩ false true).map Prod.snd =
          (s.stat noDisk 1 (some 0) none (some pathA) ⟨false, false⟩).map Prod.snd ↔
        pathA = [] ∨ ¬ Parts noDisk 1 s (some 0) pathA) := by
  have hrun : (mounting.run noDisk 1 (.create 0 pathA .other true)).isSome = true := by
    decide +kernel
  obtain ⟨s, hs⟩ := Option.isSome_iff_exists.mp hrun
  have hgood : Good mounting (noDisk, .create 0 pathA .other true) :=
    ⟨noDisk_ok, fun h => absurd h.1 (by decide)⟩
  have hsound : Sound s := step_sound mounting_sound hgood ⟨1, hs⟩
  exact ⟨s, hs, openat_agrees_iff hsound.root⟩

/-- The same file is opened as `a/`, which `stat` does not find. -/
theorem openat_slash_differs :
    ¬ ∀ (disk : Disk) (depth : Nat) (s : Tree) (dir self : Option Nat) (path : Path) (made : Bool),
      (s.openat disk depth dir (some path) ⟨false, false, false⟩ made true).map Prod.snd =
        (s.stat disk depth dir self (some path) ⟨false, false⟩).map Prod.snd := by
  intro h
  have hrun : (mounting.run noDisk 1 (.create 0 pathA .other true)).map (fun s =>
      ((s.openat noDisk 1 (some 0) (some pathASlash) ⟨false, false, false⟩ false true).map Prod.snd,
        (s.stat noDisk 1 (some 0) none (some pathASlash) ⟨false, false⟩).map Prod.snd)) =
      some (some (some 2), some none) := by
    decide +kernel
  obtain ⟨s, -, heq⟩ := Option.map_eq_some_iff.mp hrun
  obtain ⟨hopen, hstat⟩ := Prod.mk.inj heq
  have := h noDisk 1 s (some 0) none pathASlash false
  rw [hopen, hstat] at this
  cases this

end Lyre.Vfs
