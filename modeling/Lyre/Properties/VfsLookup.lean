import Lyre.Properties.Vfs
import Mathlib.Data.List.TakeWhile

/-!
# Path resolution

When `path2node` returns a directory and no target, the name is not in the directory, unless the
path ends with a slash and names something that is no directory (`path2node_absent`). All directories that
`path2node` gets to are read.
-/

namespace Lyre.Vfs

open Lyre.Vfs.Tree

variable {s s' s'' : Tree} {n m p t : Nat} {v v' : VfsNode} {name : Key} {item : Option Nat}
  {disk : Disk} {r : Res} {path : Path} {parent : Option Nat} {depth : Nat} {ask : Bool}

/-- A node at the end of its chain that is read. -/
def Settled (s : Tree) (n : Nat) : Prop := s.reduce n = some n ∧ Ready s n

theorem Keeps.settled (h : Keeps s s') (hs : Settled s n) : Settled s' n :=
  ⟨h.reduce hs.1, h.ready hs.2⟩

/-- What is known of every result of a resolution. -/
structure Resolved (s s' : Tree) (r : Res) : Prop where
  sound : Sound s'
  extends' : Extends s s'
  parent : ∀ p, r.targetParent = some p → Settled s' p
  target : ∀ t, r.target = some t → Settled s' t
  basename : ∀ b, r.basename = some b → b = [slash] ∨ slash ∉ b

theorem Resolved.null (hs : Sound s') (he : Extends s s') : Resolved s s' .null where
  sound := hs
  extends' := he
  parent := fun _ h => by simp [Res.null] at h
  target := fun _ h => by simp [Res.null] at h
  basename := fun _ h => by simp [Res.null] at h

theorem Resolved.trans (he : Extends s s') (h : Resolved s' s'' r) : Resolved s s'' r :=
  { h with extends' := he.trans h.extends' }

/-- Links are resolved with results of this kind. -/
def ResolveOk (resolve : Resolve) : Prop :=
  ∀ {s s' : Tree} {parent : Option Nat} {path : Option Path} {r : Res},
    Sound s → resolve s parent path = some (s', r) → Resolved s s' r

variable {resolve : Resolve}

theorem entry_spec {ok : Bool} (hd : DiskOk disk) (hs : Sound s) (hred : s.reduce n = some m)
    (hp : s.populate disk m = some (s', ok)) :
    Sound s' ∧ Extends s s' ∧ (ok = true → Settled s' m) := by
  obtain ⟨hs', he, hready⟩ := populate_spec hd hs hp
  exact ⟨hs', he, fun hok => ⟨he.reduce (reduce_idem hred), hready hok⟩⟩

/-! ## One turn of the loop -/

/-- What has to survive the reading of directories for a path to be followed. -/
structure Readable (disk : Disk) (I : Tree → Prop) : Prop where
  populate : ∀ {s s' : Tree} {n : Nat} {ok : Bool}, I s → s.populate disk n = some (s', ok) →
    I s' ∧ Extends s s' ∧ (ok = true → Ready s' n)
  setErrno : ∀ {s : Tree} (e : Errno), I s → I (s.setErrno e)
  root : ∀ {s : Tree}, I s → ∃ r, s.reduce s.root = some r ∧ Ready s r

theorem sound_readable (hd : DiskOk disk) : Readable disk Sound where
  populate := populate_spec hd
  setErrno e hs := hs.setErrno e
  root hs := hs.root

/-- Links lead to nodes that are read. -/
def ResolveLands (I : Tree → Prop) (resolve : Resolve) : Prop :=
  ∀ {s s' : Tree} {parent : Option Nat} {path : Option Path} {r : Res},
    I s → resolve s parent path = some (s', r) →
      I s' ∧ Extends s s' ∧ ∀ t, r.target = some t → Settled s' t

theorem ResolveOk.lands (h : ResolveOk resolve) : ResolveLands Sound resolve := by
  intro s s' parent path r hs hr
  have hr' := h hs hr
  exact ⟨hr'.sound, hr'.extends', hr'.target⟩

theorem Extends.sget_eq (h : Extends s s') (hn : Ready s n) (name : Key) :
    s'.sget n name = s.sget n name := by
  obtain ⟨v, hv, hu⟩ := hn
  unfold Tree.sget
  rw [hv, h.same n v hv hu]

/-- Where one turn leads: the entry of the last name is in the directory that the turn began in. -/
inductive TurnLands (I : Tree → Prop) (s : Tree) (current : Nat) (elem : Key) (rest : Path) :
    Turn → Prop
  | null {s' : Tree} : I s' → Extends s s' → TurnLands I s current elem rest (.done s' .null)
  | absent {s' : Tree} : I s' → Extends s s' → Settled s' current →
      s'.sget current elem = some none →
      TurnLands I s current elem rest (.done s' ⟨some current, none, some elem⟩)
  | found {s' : Tree} {child new : Nat} {kind : Kind} {v : VfsNode} : I s' → Extends s s' →
      Settled s' current → Settled s' new → s'.sget current elem = some (some (some child)) →
      s'.reduce child = some new → s'.node new = some v → v.resource = some kind →
      TurnLands I s current elem rest (.found s' current new kind)
  | down {s' : Tree} {n : Nat} : rest ≠ [] → I s' → Extends s s' → Settled s' n →
      TurnLands I s current elem rest (.down s' n)

theorem turn_lands {I : Tree → Prop} {current : Nat} {elem : Key} {rest : Path} {out : Turn}
    (hI : Readable disk I) (hres : ResolveLands I resolve) (hs : I s) (hcur : Settled s current)
    (h : s.turn disk resolve current elem rest = some out) :
    TurnLands I s current elem rest out := by
  unfold Tree.turn at h
  simp only [hcur.1, Option.bind_eq_bind, Option.bind_some, Option.bind_eq_some_iff] at h
  obtain ⟨got, hget, h⟩ := h
  cases got with
  | none =>
    have he := Extends.setErrno s .enoent
    have hs' := hI.setErrno .enoent hs
    by_cases hrest : rest = []
    · rw [if_pos hrest] at h
      obtain rfl := Option.some.inj h
      exact .absent hs' he (he.toKeeps.settled hcur) hget
    · rw [if_neg hrest] at h
      obtain rfl := Option.some.inj h
      exact .null hs' he
  | some item =>
    simp only [Option.bind_eq_some_iff] at h
    obtain ⟨child, rfl, new, hred, ⟨s₁, ok⟩, hpop, h⟩ := h
    obtain ⟨hs₁, he₁, hready⟩ := hI.populate hs hpop
    cases ok with
    | false =>
      rw [if_pos rfl] at h
      obtain rfl := Option.some.inj h
      exact .null hs₁ he₁
    | true =>
      simp only [Bool.true_eq_false, if_false, Option.bind_eq_some_iff] at h
      obtain ⟨v, hv, kind, hkind, h⟩ := h
      have hnew : Settled s₁ new := ⟨he₁.reduce (reduce_idem hred), hready rfl⟩
      by_cases hrest : rest = []
      · rw [if_pos hrest] at h
        obtain rfl := Option.some.inj h
        refine .found hs₁ he₁ (he₁.toKeeps.settled hcur) hnew ?_ (he₁.reduce hred) hv hkind
        rw [he₁.sget_eq hcur.2]
        exact hget
      rw [if_neg hrest] at h
      by_cases hlnk : kind = .lnk
      · -- a link is resolved
        rw [if_pos hlnk] at h
        split at h
        · simp at h
        simp only [Option.bind_eq_some_iff] at h
        obtain ⟨⟨s₂, r⟩, hr, h⟩ := h
        obtain ⟨hs₂, he₂, htarget⟩ := hres hs₁ hr
        have he := he₁.trans he₂
        cases ht : r.target with
        | none =>
          simp only [ht] at h
          obtain rfl := Option.some.inj h
          exact .null hs₂ he
        | some target =>
          simp only [ht, Option.bind_eq_some_iff] at h
          obtain ⟨w, -, kind', -, h⟩ := h
          split at h
          · obtain rfl := Option.some.inj h
            exact .down hrest hs₂ he (htarget target ht)
          · obtain rfl := Option.some.inj h
            exact .null (hI.setErrno _ hs₂) (he.trans (.setErrno _ _))
      · rw [if_neg hlnk] at h
        split at h
        · obtain rfl := Option.some.inj h
          exact .down hrest hs₁ he₁ hnew
        · obtain rfl := Option.some.inj h
          exact .null (hI.setErrno _ hs₁) (he₁.trans (.setErrno _ _))

/-- What is known after one turn. -/
inductive TurnSpec (s : Tree) (elem : Key) : Turn → Prop
  | null {s' : Tree} : Resolved s s' .null → TurnSpec s elem (.done s' .null)
  | absent {s' : Tree} {current : Nat} : Resolved s s' ⟨some current, none, some elem⟩ →
      s'.sget current elem = some none → TurnSpec s elem (.done s' ⟨some current, none, some elem⟩)
  | found {s' : Tree} {current new : Nat} {kind : Kind} {v : VfsNode} :
      Resolved s s' ⟨some current, some new, some elem⟩ → s'.node new = some v →
      v.resource = some kind → TurnSpec s elem (.found s' current new kind)
  | down {s' : Tree} {n : Nat} : Sound s' → Extends s s' → Settled s' n →
      TurnSpec s elem (.down s' n)

theorem turn_spec {current : Nat} {elem : Key} {rest : Path} {out : Turn} (hd : DiskOk disk)
    (hres : ResolveOk resolve) (hs : Sound s) (hcur : Settled s current) (helem : slash ∉ elem)
    (h : s.turn disk resolve current elem rest = some out) : TurnSpec s elem out := by
  have hname : ∀ b, some elem = some b → b = [slash] ∨ slash ∉ b := fun b hb =>
    Or.inr (Option.some.inj hb ▸ helem)
  cases turn_lands (sound_readable hd) hres.lands hs hcur h with
  | null hs' he => exact .null (.null hs' he)
  | absent hs' he hp hget =>
    refine .absent ⟨hs', he, fun p heq => ?_, fun t ht => by simp at ht, hname⟩ hget
    obtain rfl := Option.some.inj heq
    exact hp
  | found hs' he hp hn _ _ hv hkind =>
    refine .found ⟨hs', he, fun p heq => ?_, fun t ht => ?_, hname⟩ hv hkind
    · obtain rfl := Option.some.inj heq
      exact hp
    · obtain rfl := Option.some.inj ht
      exact hn
  | down _ hs' he hn => exact .down hs' he hn

/-! ## The loop -/

/-- Without asking for a directory the result is the same, and a name without a target is not in its
directory; or something else than a directory is found, and no target is returned for it. -/
def Looked (ask : Bool) (look : Bool → Option (Tree × Res)) (s' : Tree) (r : Res) : Prop :=
  (look false = some (s', r) ∧ ∀ p b, r.targetParent = some p → r.target = none →
      r.basename = some b → s'.sget p b = some none)
    ∨ ask = true ∧ ∃ s'' p t b v kind, look false = some (s'', ⟨some p, some t, some b⟩)
      ∧ s''.node t = some v ∧ v.resource = some kind ∧ kind ≠ .dir

theorem Looked.null {look : Bool → Option (Tree × Res)} (h : look false = some (s', .null)) :
    Looked ask look s' .null :=
  Or.inl ⟨h, fun _ _ hp => by simp [Res.null] at hp⟩

/-- **The loop of `path2node`.** -/
theorem walk_spec {fuel current : Nat} (hd : DiskOk disk) (hres : ResolveOk resolve)
    (hs : Sound s) (hcur : Settled s current)
    (h : s.walk disk resolve ask fuel current path = some (s', r)) :
    Resolved s s' r
      ∧ Looked ask (fun ask => s.walk disk resolve ask fuel current path) s' r := by
  induction fuel generalizing s current path with
  | zero => simp [Tree.walk] at h
  | succ fuel ih =>
    simp only [Tree.walk, Option.bind_eq_bind] at h ⊢
    obtain ⟨out, hturn, h⟩ := Option.bind_eq_some_iff.mp h
    simp only [hturn, Option.bind_some]
    have helem : slash ∉ path.takeWhile (· ≠ slash) := fun hmem => by
      simpa using (List.mem_takeWhile_imp hmem)
    cases turn_spec hd hres hs hcur helem hturn with
    | null hr =>
      obtain ⟨rfl, rfl⟩ := Prod.mk.inj (Option.some.inj h)
      exact ⟨hr, .null rfl⟩
    | absent hr hget =>
      obtain ⟨rfl, rfl⟩ := Prod.mk.inj (Option.some.inj h)
      refine ⟨hr, Or.inl ⟨rfl, fun p b hp _ hb => ?_⟩⟩
      obtain rfl := Option.some.inj hp
      obtain rfl := Option.some.inj hb
      exact hget
    | @found s₁ current' new kind v hr hv hkind =>
      by_cases hask : ask = true ∧ kind ≠ .dir
      · simp only [if_pos hask] at h
        obtain ⟨rfl, rfl⟩ := Prod.mk.inj (Option.some.inj h)
        refine ⟨⟨hr.sound.setErrno _, hr.extends'.trans (.setErrno _ _), ?_, ?_, hr.basename⟩, ?_⟩
        · exact fun p hp => (Keeps.setErrno s₁ _).settled (hr.parent p hp)
        · exact fun t ht => by simp at ht
        · exact Or.inr ⟨hask.1, s₁, current', new, path.takeWhile (· ≠ slash), v, kind, by simp,
            hv, hkind, hask.2⟩
      · simp only [if_neg hask] at h
        obtain ⟨rfl, rfl⟩ := Prod.mk.inj (Option.some.inj h)
        exact ⟨hr, Or.inl ⟨by simp, fun p b _ ht => by simp at ht⟩⟩
    | down hs₁ he₁ hn =>
      obtain ⟨hr, hlook⟩ := ih hs₁ hn h
      exact ⟨hr.trans he₁, hlook⟩

/-! ## `path2node` -/

theorem path2nodeFrom_spec (hd : DiskOk disk) (hres : ResolveOk resolve) (hs : Sound s)
    (h : s.path2nodeFrom disk resolve ask parent path = some (s', r)) :
    Resolved s s' r
      ∧ Looked ask (fun ask => s.path2nodeFrom disk resolve ask parent path) s' r := by
  simp only [Tree.path2nodeFrom, Option.bind_eq_bind] at h ⊢
  obtain ⟨parent', hparent, h⟩ := Option.bind_eq_some_iff.mp h
  obtain ⟨current, hred, h⟩ := Option.bind_eq_some_iff.mp h
  obtain ⟨⟨s₁, ok⟩, hpop, h⟩ := Option.bind_eq_some_iff.mp h
  obtain ⟨hs₁, he₁, hcur⟩ := entry_spec hd hs hred hpop
  simp only [hparent, hred, hpop, Option.bind_some]
  cases ok with
  | false =>
    rw [if_pos rfl] at h
    obtain ⟨rfl, rfl⟩ := Prod.mk.inj (Option.some.inj h)
    exact ⟨.null hs₁ he₁, .null rfl⟩
  | true =>
    simp only [Bool.true_eq_false, if_false] at h ⊢
    by_cases habs : path.head? = some slash
    · simp only [if_pos habs] at h ⊢
      obtain ⟨root, hroot, h⟩ := Option.bind_eq_some_iff.mp h
      simp only [hroot, Option.bind_some]
      have hsettled : Settled s₁ root := by
        obtain ⟨root', hroot', hready⟩ := hs₁.root
        rw [hroot] at hroot'
        obtain rfl := Option.some.inj hroot'
        exact ⟨reduce_idem hroot, hready⟩
      by_cases hrest : path.dropWhile (· = slash) = []
      · simp only [if_pos hrest] at h ⊢
        obtain ⟨rfl, rfl⟩ := Prod.mk.inj (Option.some.inj h)
        refine ⟨⟨hs₁, he₁, fun p hp => ?_, fun t ht => ?_, fun b hb => Or.inl ?_⟩,
          Or.inl ⟨rfl, fun p b _ ht => by simp at ht⟩⟩
        · obtain rfl := Option.some.inj hp
          exact hsettled
        · obtain rfl := Option.some.inj ht
          exact hsettled
        · exact (Option.some.inj hb).symm
      · simp only [if_neg hrest] at h ⊢
        obtain ⟨hr, hab⟩ := walk_spec hd hres hs₁ hsettled h
        exact ⟨hr.trans he₁, hab⟩
    · simp only [if_neg habs] at h ⊢
      obtain ⟨hr, hab⟩ := walk_spec hd hres hs₁ (hcur rfl) h
      exact ⟨hr.trans he₁, hab⟩

theorem path2node_ok (hd : DiskOk disk) (depth : Nat) :
    ResolveOk (Tree.path2node disk depth) := by
  induction depth with
  | zero =>
    intro s s' parent path r _ h
    simp [Tree.path2node] at h
  | succ depth ih =>
    intro s s' parent path r hs h
    unfold Tree.path2node at h
    split at h
    · obtain ⟨rfl, rfl⟩ := Prod.mk.inj (Option.some.inj h)
      exact .null (hs.setErrno _) (.setErrno _ _)
    · obtain ⟨rfl, rfl⟩ := Prod.mk.inj (Option.some.inj h)
      exact .null (hs.setErrno _) (.setErrno _ _)
    · exact (path2nodeFrom_spec hd ih hs h).1

theorem path2node_resolved (hd : DiskOk disk) {p : Option Path} (hs : Sound s)
    (h : s.path2node disk depth parent p = some (s', r)) : Resolved s s' r :=
  path2node_ok hd depth hs h

/-- What a path leads to when no directory is asked for, whatever its last byte. -/
def LeadsTo (disk : Disk) (s : Tree) (parent : Option Nat) (path : Path) (s' : Tree) (t : Nat) :
    Prop :=
  ∃ depth r, s.path2nodeFrom disk (Tree.path2node disk depth) false parent path = some (s', r)
    ∧ r.target = some t

theorem path2node_looked (hd : DiskOk disk) (hs : Sound s)
    (h : s.path2node disk depth parent (some path) = some (s', r)) :
    r = .null ∨ ∃ depth, Looked (askForDir path)
      (fun ask => s.path2nodeFrom disk (Tree.path2node disk depth) ask parent path) s' r := by
  cases depth with
  | zero => simp [Tree.path2node] at h
  | succ depth =>
    unfold Tree.path2node at h
    cases path with
    | nil =>
      obtain ⟨rfl, rfl⟩ := Prod.mk.inj (Option.some.inj h)
      exact Or.inl rfl
    | cons c path =>
      exact Or.inr ⟨depth, (path2nodeFrom_spec hd (path2node_ok hd depth) hs h).2⟩

/-- **What it means that there is no target.** -/
theorem path2node_absent {p : Nat} {b : Key} (hd : DiskOk disk) (hs : Sound s)
    (h : s.path2node disk depth parent (some path) = some (s', r)) (hp : r.targetParent = some p)
    (ht : r.target = none) (hb : r.basename = some b) :
    s'.sget p b = some none
      ∨ askForDir path = true ∧ ∃ s'' t v kind, LeadsTo disk s parent path s'' t
        ∧ s''.node t = some v ∧ v.resource = some kind ∧ kind ≠ .dir := by
  rcases path2node_looked hd hs h with rfl | ⟨d, ⟨-, hno⟩ | ⟨hask, s'', _, t, _, v, kind, hl, hrest⟩⟩
  · simp [Res.null] at hp
  · exact Or.inl (hno p b hp ht hb)
  · exact Or.inr ⟨hask, s'', t, v, kind, ⟨d, _, hl, rfl⟩, hrest⟩

theorem path2node_target {t : Nat} (hd : DiskOk disk) (hs : Sound s)
    (h : s.path2node disk depth parent (some path) = some (s', r)) (ht : r.target = some t) :
    ∃ s'' t', LeadsTo disk s parent path s'' t' := by
  rcases path2node_looked hd hs h with rfl | ⟨d, ⟨hl, -⟩ | ⟨-, s'', _, t', _, _, _, hl, -⟩⟩
  · simp [Res.null] at ht
  · exact ⟨s', t, d, r, hl, ht⟩
  · exact ⟨s'', t', d, _, hl, rfl⟩

theorem path2node_slash (h : s.path2node disk depth parent (some [slash]) = some (s', r))
    (ht : r.target = none) : r.targetParent = none := by
  cases depth with
  | zero => simp [Tree.path2node] at h
  | succ depth =>
    simp only [Tree.path2node, Tree.path2nodeFrom, Option.bind_eq_bind] at h
    obtain ⟨parent', -, h⟩ := Option.bind_eq_some_iff.mp h
    obtain ⟨current, -, h⟩ := Option.bind_eq_some_iff.mp h
    obtain ⟨⟨s₁, ok⟩, -, h⟩ := Option.bind_eq_some_iff.mp h
    simp only at h
    split at h
    · obtain ⟨-, rfl⟩ := Prod.mk.inj (Option.some.inj h)
      rfl
    · rw [if_pos (by decide)] at h
      obtain ⟨root, -, h⟩ := Option.bind_eq_some_iff.mp h
      rw [if_pos (by decide)] at h
      obtain ⟨-, rfl⟩ := Prod.mk.inj (Option.some.inj h)
      simp at ht

/-- `vfs_get_node` resolves as `path2node` does. -/
theorem reduceFollow_spec {fuel : Nat} {o : Option Nat} (hd : DiskOk disk) (hs : Sound s)
    (h : s.reduceFollow disk depth fuel n = some (s', o)) : Sound s' ∧ Extends s s' := by
  induction fuel generalizing s n with
  | zero => simp [Tree.reduceFollow] at h
  | succ fuel ih =>
    unfold Tree.reduceFollow at h
    simp only [Option.bind_eq_bind] at h
    obtain ⟨v, hv, h⟩ := Option.bind_eq_some_iff.mp h
    split at h
    · exact ih hs h
    · exact ih hs h
    · split at h
      · simp at h
      obtain ⟨⟨s₁, r⟩, hr, h⟩ := Option.bind_eq_some_iff.mp h
      have hr' := path2node_resolved hd hs hr
      simp only at h
      split at h
      · obtain ⟨rfl, rfl⟩ := Prod.mk.inj (Option.some.inj h)
        exact ⟨hr'.sound, hr'.extends'⟩
      · obtain ⟨hs', he⟩ := ih hr'.sound h
        exact ⟨hs', hr'.extends'.trans he⟩
    · obtain ⟨rfl, rfl⟩ := Prod.mk.inj (Option.some.inj h)
      exact ⟨hs, .rfl'⟩

theorem getNode_spec {follow : Bool} {p : Option Path} {o : Option Nat} (hd : DiskOk disk)
    (hs : Sound s) (h : s.getNode disk depth parent p follow = some (s', o)) :
    Sound s' ∧ Extends s s' := by
  unfold Tree.getNode at h
  simp only [Option.bind_eq_bind] at h
  obtain ⟨⟨s₁, r⟩, hr, h⟩ := Option.bind_eq_some_iff.mp h
  have hr' := path2node_resolved hd hs hr
  simp only at h
  split at h
  · obtain ⟨rfl, rfl⟩ := Prod.mk.inj (Option.some.inj h)
    exact ⟨hr'.sound, hr'.extends'⟩
  · split at h
    · obtain ⟨hs', he⟩ := reduceFollow_spec hd hr'.sound h
      exact ⟨hs', hr'.extends'.trans he⟩
    · obtain ⟨rfl, rfl⟩ := Prod.mk.inj (Option.some.inj h)
      exact ⟨hr'.sound, hr'.extends'⟩

end Lyre.Vfs
