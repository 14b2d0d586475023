import Lyre.Properties.VfsLinks

/-!
# The calls of a resolution

A resolution asks for other resolutions on its way (`Asks`): chains of redirections and mount points,
and paths of links. In a tree with all its memory it returns if and only if no endless sequence of them
begins with it, each asked for by the one before (`answered_iff`). In a tree that is all read only
something that leads back to itself has no end (`endless_iff_comesBack`).
-/

namespace Lyre.Vfs

open Lyre.Vfs.Tree

variable {s s' s₁ s₂ : Tree} {n m p t c y d fuel : Nat} {v w : VfsNode} {name e : Key} {disk : Disk}
  {kind : Kind} {path : Path} {ask : Bool} {depth : Nat}

/-! ## What a resolution asks for -/

/-- `reduce_node(n, false)`, `path2node(parent, l)` and `reduce_node(n, true)`, each with the tree that
it finds. -/
inductive Query
  | chain (s : Tree) (n : Nat)
  | path (s : Tree) (parent : Option Nat) (l : Option Path)
  | node (s : Tree) (n : Nat)

/-- All nodes. -/
abbrev anywhere : Nat → Prop := fun _ => True

/-- What the loop of `path2node` asks for: the chain of every item that it finds, and every link that is
not the last name. -/
inductive Met (disk : Disk) : Tree → Nat → Path → Query → Prop
  | item {s : Tree} {c m : Nat} {path : Path} : path ≠ [] →
      s.sget c (firstName path) = some (some (some m)) → Met disk s c path (.chain s m)
  | link {s s₁ : Tree} {c n : Nat} {path : Path} {v : VfsNode} : behind path ≠ [] →
      s.look disk c (firstName path) = some (s₁, .entry n v .lnk) →
      Met disk s c path (.path s₁ v.parent v.symlinkTarget)
  | dir {s s₁ : Tree} {c n : Nat} {path : Path} {v : VfsNode} {q : Query} : behind path ≠ [] →
      s.look disk c (firstName path) = some (s₁, .entry n v .dir) →
      Met disk s₁ n (behind path) q → Met disk s c path q
  | past {s s₁ s₂ : Tree} {c n d : Nat} {path : Path} {v : VfsNode} {q : Query} : behind path ≠ [] →
      s.look disk c (firstName path) = some (s₁, .entry n v .lnk) →
      LeadsFrom disk anywhere s₁ v.parent v.symlinkTarget s₂ d → IsDir s₂ d →
      Met disk s₂ d (behind path) q → Met disk s c path q

/-- The calls that a call makes. -/
inductive Asks (disk : Disk) : Query → Query → Prop
  | hop {s : Tree} {n m : Nat} : s.hop n = some m → Asks disk (.chain s n) (.chain s m)
  | start {s : Tree} {parent : Nat} {path : Path} : path ≠ [] →
      Asks disk (.path s (some parent) (some path)) (.chain s parent)
  | root {s s' : Tree} {parent current : Nat} {path : Path} : path.head? = some slash →
      s.reduce parent = some current → s.populate disk current = some (s', true) →
      Asks disk (.path s (some parent) (some path)) (.chain s' s'.root)
  | met {s s' : Tree} {parent : Option Nat} {c : Nat} {path rest : Path} {q : Query} : path ≠ [] →
      s.outset disk parent path = some (s', some (c, rest)) → Met disk s' c rest q →
      Asks disk (.path s parent (some path)) q
  | follow {s : Tree} {n m : Nat} : s.hop n = some m → Asks disk (.node s n) (.node s m)
  | target {s : Tree} {n : Nat} {v : VfsNode} : s.node n = some v → s.hop n = none →
      v.symlinkTarget ≠ none → Asks disk (.node s n) (.path s v.parent v.symlinkTarget)
  | led {s s' : Tree} {n t : Nat} {v : VfsNode} : s.node n = some v → s.hop n = none →
      LeadsFrom disk anywhere s v.parent v.symlinkTarget s' t →
      Asks disk (.node s n) (.node s' t)

/-- A call returns. -/
def Answered (disk : Disk) : Query → Prop
  | .chain s n => ∃ m, s.reduce n = some m
  | .path s parent l => ∃ depth out, s.path2node disk depth parent l = some out
  | .node s n => ∃ depth fuel out, s.reduceFollow disk depth fuel n = some out

/-- There is an endless sequence of calls, each made by the one before. -/
def Endless (disk : Disk) (q : Query) : Prop := Infra.Endless (Asks disk) q

/-! ### What has returned has made no endless calls -/

section Returned

variable {parent : Option Nat} {l : Option Path} {out : Tree × Res} {q : Query}

theorem chain_acc (h : s.reduceLoop fuel n = some m) :
    Acc (fun a b => Asks disk b a) (.chain s n) := by
  induction fuel generalizing n with
  | zero => simp [reduceLoop] at h
  | succ fuel ih =>
    refine ⟨_, fun q hq => ?_⟩
    cases hq with
    | hop hhop =>
      rw [reduceLoop_hop hhop] at h
      exact ih h

theorem Met.answered (h : Met disk s c path q) : ∀ {ask : Bool} {fuel : Nat}, s.reduce c = some c →
    s.walk disk (Tree.path2node disk depth) ask fuel c path = some out →
    (∃ s₁ m t, q = .chain s₁ m ∧ s₁.reduce m = some t) ∨
      ∃ s₁ p l out, q = .path s₁ p l ∧ s₁.path2node disk depth p l = some out := by
  induction h with
  | @item s c m path hne hget =>
    intro ask fuel hc hw
    cases fuel with
    | zero => cases hw
    | succ fuel =>
      cases hm : s.reduce m with
      | some t => exact .inl ⟨s, m, t, rfl, hm⟩
      | none =>
        rw [walk_stuck] at hw
        · cases hw
        · rw [turn_eq hc]
          simp [Tree.look, hget, hm]
  | @link s s₁ c n path v hrest hlook =>
    intro ask fuel hc hw
    cases fuel with
    | zero => cases hw
    | succ fuel =>
      cases hr : s₁.path2node disk depth v.parent v.symlinkTarget with
      | some out => exact .inr ⟨s₁, _, _, out, rfl, hr⟩
      | none =>
        rw [walk_stuck] at hw
        · cases hw
        · rw [turn_look hc hlook, afterLook, if_neg hrest, if_pos rfl, hr]
          split <;> rfl
  | dir hrest hlook _ ih =>
    intro ask fuel hc hw
    cases fuel with
    | zero => cases hw
    | succ fuel =>
      rw [walk_dir hc hrest hlook] at hw
      exact ih (look_reduced hlook) hw
  | @past s s₁ s₂ c n d path v q hrest hlook hlead hdir _ ih =>
    intro ask fuel hc hw
    cases fuel with
    | zero => cases hw
    | succ fuel =>
      have hkept : v.symlinkTargetFreed = false := by
        by_contra hfreed
        rw [walk_stuck] at hw
        · cases hw
        · rw [turn_look hc hlook, afterLook, if_neg hrest, if_pos rfl, if_pos (by simpa using hfreed)]
      cases hr : s₁.path2node disk depth v.parent v.symlinkTarget with
      | none =>
        rw [walk_stuck] at hw
        · cases hw
        · rw [turn_link hc hrest hlook hkept, hr]
          rfl
      | some x =>
        obtain ⟨hs₂, ht⟩ := hlead.eq hr
        obtain ⟨s₂', r⟩ := x
        subst hs₂
        rw [walk_link hc hrest hlook hkept hr ht hdir] at hw
        refine ih ?_ hw
        obtain ⟨_, _, _, _, _, _, hout, _, hin, _⟩ := hlead
        exact hin.reduced (outset_spec hout).1

theorem path_acc (h : s.path2node disk depth parent l = some out) :
    Acc (fun a b => Asks disk b a) (.path s parent l) := by
  induction depth generalizing s parent l out with
  | zero => cases h
  | succ depth ih =>
    refine ⟨_, fun q hq => ?_⟩
    have hsucc : ∀ path, path ≠ [] → s.path2node disk (depth + 1) parent (some path) =
        s.path2nodeFrom disk (Tree.path2node disk depth) (askForDir path) parent path := by
      intro path hne
      cases path with
      | nil => exact absurd rfl hne
      | cons b path => rfl
    cases hq with
    | @start _ p path hne =>
      rw [hsucc path hne, path2nodeFrom_eq _ _ _ _ _ _ hne] at h
      obtain ⟨x, hx, -⟩ := Option.bind_eq_some_iff.mp h
      unfold Tree.outset at hx
      simp only [Option.bind_eq_bind, Option.bind_some, Option.bind_eq_some_iff] at hx
      obtain ⟨current, hred, -⟩ := hx
      exact chain_acc hred
    | @root _ s' p current path habs hred hpop =>
      have hne : path ≠ [] := by
        rintro rfl
        cases habs
      rw [hsucc path hne, path2nodeFrom_eq _ _ _ _ _ _ hne] at h
      obtain ⟨x, hx, -⟩ := Option.bind_eq_some_iff.mp h
      unfold Tree.outset at hx
      simp only [Option.bind_eq_bind, Option.bind_some, hred, hpop, Bool.true_eq_false, if_false,
        if_pos habs, Option.bind_eq_some_iff] at hx
      obtain ⟨root, hroot, -⟩ := hx
      exact chain_acc hroot
    | @met _ s' _ c path rest q hne hout hmet =>
      rw [hsucc path hne, path2nodeFrom_eq _ _ _ _ _ _ hne, hout] at h
      simp only [Option.bind_some, Option.elim_some] at h
      have hrest : rest ≠ [] := by
        rintro rfl
        cases hmet with
        | item hne => exact hne rfl
        | link hne => exact hne rfl
        | dir hne => exact hne rfl
        | past hne => exact hne rfl
      rw [if_neg hrest] at h
      rcases hmet.answered (outset_spec hout).1 h with ⟨s₁, m, t, rfl, hm⟩ | ⟨s₁, p, l, out, rfl, hp⟩
      · exact chain_acc hm
      · exact ih hp

theorem node_acc {out : Tree × Option Nat} (h : s.reduceFollow disk depth fuel n = some out) :
    Acc (fun a b => Asks disk b a) (.node s n) := by
  induction fuel generalizing s n with
  | zero => cases h
  | succ fuel ih =>
    refine ⟨_, fun q hq => ?_⟩
    cases hq with
    | follow hhop =>
      rw [reduceFollow_hop hhop] at h
      exact ih h
    | target hv hhop hlink =>
      obtain ⟨l, hl⟩ := Option.ne_none_iff_exists'.mp hlink
      rw [reduceFollow_link hv hhop hl] at h
      split at h
      · cases h
      · obtain ⟨x, hx, -⟩ := Option.bind_eq_some_iff.mp h
        rw [hl]
        exact path_acc hx
    | @led _ s' _ t v hv hhop hlead =>
      obtain ⟨l, hl⟩ : ∃ l, v.symlinkTarget = some l := by
        obtain ⟨l, _, _, _, hl, -⟩ := hlead
        exact ⟨l, hl⟩
      rw [reduceFollow_link hv hhop hl] at h
      split at h
      · cases h
      · obtain ⟨x, hx, h⟩ := Option.bind_eq_some_iff.mp h
        rw [hl] at hlead
        obtain ⟨hs', ht⟩ := hlead.eq hx
        rw [ht, Option.elim_some, hs'] at h
        exact ih h

end Returned

/-! ### What makes no endless calls returns -/

/-- A call in a tree with all its memory. -/
def Sane : Query → Prop
  | .chain s n => Whole s ∧ n < s.nodes.length
  | .path s parent l =>
    Whole s ∧ ∀ path, l = some path → path ≠ [] → ∃ p, parent = some p ∧ Open s p
  | .node s n => Whole s ∧ Leading s n

/-- What a call has done that has returned. -/
def Done (disk : Disk) : Query → Prop
  | .chain s n => ∃ m, s.reduce n = some m
  | .path s parent l => ∃ depth s' r, s.path2node disk depth parent l = some (s', r) ∧ Whole s' ∧
      Fills s s' ∧ ∀ t, r.target = some t → LeadsFrom disk anywhere s parent l s' t ∧ Leading s' t
  | .node s n => ∃ depth fuel out, s.reduceFollow disk depth fuel n = some out

theorem Done.answered {q : Query} (h : Done disk q) : Answered disk q := by
  cases q with
  | chain s n => exact h
  | path s parent l =>
    obtain ⟨depth, s', r, hr, -⟩ := h
    exact ⟨depth, _, hr⟩
  | node s n => exact h

/-- Names can be looked up in the node. -/
structure Listed (s : Tree) (c : Nat) : Prop where
  reduced : s.reduce c = some c
  kept : ∃ v, s.node c = some v ∧ v.childrenFreed = false

theorem Leading.usable (h : Leading s n) (hn : s.reduce n = some n) : Usable s n := h.2 n hn

theorem Leading.listed (h : Leading s n) (hn : s.reduce n = some n) : Listed s n := by
  obtain ⟨v, kind, hv, -, hkept, -⟩ := h.usable hn
  exact ⟨hn, v, hv, hkept⟩

theorem outset_total {parent : Nat} (hfits : DiskFits disk) (hw : Whole s) (hp : Open s parent)
    (hne : path ≠ []) (hasks : ∀ s' n, Asks disk (.path s (some parent) (some path)) (.chain s' n) →
      Sane (.chain s' n) → ∃ m, s'.reduce n = some m) :
    ∃ s' o, s.outset disk (some parent) path = some (s', o) ∧ Whole s' ∧ Fills s s' ∧
      ∀ c rest, o = some (c, rest) → Listed s' c ∧ (rest = [] → Leading s' c) := by
  obtain ⟨current, hred⟩ := hasks _ _ (.start hne) ⟨hw, hp.1⟩
  obtain ⟨v, hv, -, -⟩ := reduceLoop_end hred
  have hkept := hp.2 current v hred hv
  obtain ⟨s₁, ok, hpop, hw₁, hf₁⟩ := populate_whole hfits hw hv (reduce_idem hred) hkept
  unfold Tree.outset
  simp only [Option.bind_eq_bind, Option.bind_some, hred, hpop]
  cases ok with
  | false => exact ⟨s₁, none, rfl, hw₁, hf₁, fun c rest h => by cases h⟩
  | true =>
    simp only [Bool.true_eq_false, if_false]
    by_cases habs : path.head? = some slash
    · obtain ⟨root, hroot⟩ := hasks _ _ (.root habs hred hpop) ⟨hw₁, hw₁.root.1⟩
      rw [if_pos habs, hroot]
      refine ⟨s₁, _, rfl, hw₁, hf₁, fun c rest h => ?_⟩
      obtain ⟨rfl, -⟩ := Prod.mk.inj (Option.some.inj h)
      have hlead : Leading s₁ root := by
        obtain ⟨u, hu, -, -⟩ := reduceLoop_end hroot
        refine ⟨node_lt hu, fun t ht => ?_⟩
        rw [reduce_idem hroot] at ht
        obtain rfl := Option.some.inj ht
        exact hw₁.root.2 root hroot
      exact ⟨hlead.listed (reduce_idem hroot), fun _ => hlead⟩
    · rw [if_neg habs]
      refine ⟨s₁, _, rfl, hw₁, hf₁, fun c rest h => ?_⟩
      obtain ⟨rfl, rfl⟩ := Prod.mk.inj (Option.some.inj h)
      obtain ⟨children, populated, hv', -, -⟩ := hf₁.node current v hv
      exact ⟨⟨hf₁.keeps.reduce (reduce_idem hred), _, hv', hkept⟩, fun h => absurd h hne⟩

theorem look_total (hfits : DiskFits disk) (hw : Whole s) (hc : Listed s c) (e : Key)
    (hasks : ∀ m, s.sget c e = some (some (some m)) → m < s.nodes.length →
      ∃ t, s.reduce m = some t) :
    ∃ s' l, s.look disk c e = some (s', l) ∧ Whole s' ∧ Fills s s' ∧
      ∀ n v kind, l = .entry n v kind → s'.reduce n = some n ∧ Leading s' n ∧ s'.node n = some v ∧
        v.resource = some kind := by
  obtain ⟨u, hu, hkept⟩ := hc.kept
  have hsome : s.sget c e = some (u.children.get e) := by
    unfold Tree.sget
    rw [hu, Option.bind_eq_bind, Option.bind_some, hkept]
    rfl
  unfold Tree.look
  cases hget : u.children.get e with
  | none =>
    rw [hsome, hget, Option.bind_eq_bind, Option.bind_some]
    exact ⟨_, _, rfl, hw.setErrno _, .setErrno s _, fun n v kind h => by cases h⟩
  | some item =>
    rw [hget] at hsome
    obtain ⟨m, rfl, hm⟩ := hw.item c e item hsome
    obtain ⟨t, hred⟩ := hasks m hsome hm.1
    obtain ⟨v, kind, hv, hkind, hvkept, hrest⟩ := hm.2 t hred
    obtain ⟨s₁, ok, hpop, hw₁, hf₁⟩ := populate_whole hfits hw hv (reduce_idem hred) hvkept
    simp only [hsome, hred, hpop, Option.bind_eq_bind, Option.bind_some]
    cases ok with
    | false => exact ⟨s₁, _, rfl, hw₁, hf₁, fun n v kind h => by cases h⟩
    | true =>
      obtain ⟨v₁, hv', hkind'⟩ : ∃ v₁, s₁.node t = some v₁ ∧ v₁.resource = some kind := by
        obtain ⟨children, populated, hv', -, -⟩ := hf₁.node t v hv
        exact ⟨_, hv', hkind⟩
      simp only [Bool.true_eq_false, if_false, hv', hkind', Option.bind_some]
      refine ⟨s₁, _, rfl, hw₁, hf₁, fun n w kind' h => ?_⟩
      cases h
      have hself : s₁.reduce t = some t := hf₁.keeps.reduce (reduce_idem hred)
      refine ⟨hself, ⟨node_lt hv', fun t' ht' => ?_⟩, hv', hkind'⟩
      rw [hself] at ht'
      obtain rfl := Option.some.inj ht'
      exact hw.usable hf₁ ⟨v, kind, hv, hkind, hvkept, hrest⟩

/-- The loop of `path2node` has returned. -/
def WalkDone (disk : Disk) (ask : Bool) (fuel : Nat) (s : Tree) (c : Nat) (path : Path) : Prop :=
  ∃ depth s' r, s.walk disk (Tree.path2node disk depth) ask fuel c path = some (s', r) ∧ Whole s' ∧
    Fills s s' ∧ ∀ t, r.target = some t → Leads disk anywhere s c path s' t ∧
      (ask = true → IsDir s' t) ∧ Leading s' t

theorem WalkDone.null {r : Res} (hw : Whole s') (hf : Fills s s') (hr : r.target = none)
    (h : s.walk disk (Tree.path2node disk depth) ask fuel c path = some (s', r)) :
    WalkDone disk ask fuel s c path := by
  refine ⟨depth, s', r, h, hw, hf, fun t ht => ?_⟩
  rw [hr] at ht
  cases ht

theorem WalkDone.step {ask : Bool} (depth : Nat) (hf : Fills s s')
    (h : WalkDone disk ask fuel s' d (behind path))
    (hlead : ∀ s'' t, Leads disk anywhere s' d (behind path) s'' t →
      Leads disk anywhere s c path s'' t)
    (hwalk : ∀ depth', depth ≤ depth' →
      s.walk disk (Tree.path2node disk depth') ask (fuel + 1) c path =
        s'.walk disk (Tree.path2node disk depth') ask fuel d (behind path)) :
    WalkDone disk ask (fuel + 1) s c path := by
  obtain ⟨depth₂, s'', r, hw, hwhole, hf', ht⟩ := h
  refine ⟨max depth depth₂, s'', r, ?_, hwhole, hf.trans hf', fun t htarget => ?_⟩
  · rw [hwalk _ (Nat.le_max_left _ _)]
    refine walk_finer (fun s parent path out h => ?_) hw
    exact path2node_mono (Nat.le_max_right _ _) h
  · obtain ⟨hl, hdir, hlead'⟩ := ht t htarget
    exact ⟨hlead s'' t hl, hdir, hlead'⟩

/-- The loop of `path2node` returns if all that it asks for returns. -/
theorem walk_total (hfits : DiskFits disk) {ask : Bool} : ∀ {fuel : Nat} {s : Tree} {c : Nat}
    {path : Path}, Whole s → Listed s c → path ≠ [] → Clean path → path.length ≤ fuel →
    (∀ q, Met disk s c path q → Sane q → Done disk q) → WalkDone disk ask fuel s c path
  | 0, s, c, path, _, _, hne, _, hfuel, _ =>
    absurd (List.eq_nil_of_length_eq_zero (Nat.le_zero.mp hfuel)) hne
  | fuel + 1, s, c, path, hw, hc, hne, hclean, hfuel, hmet => by
    have hlen := behind_length hne hclean
    have hcc := hc.reduced
    obtain ⟨s₁, l, hlook, hw₁, hf₁, hentry⟩ := look_total hfits hw hc (firstName path)
      fun m hget hm => hmet _ (.item hne hget) ⟨hw, hm⟩
    have hdone : ∀ {s' : Tree} {r : Res}, s₁.afterLook (Tree.path2node disk 0) c (firstName path)
        (behind path) l = some (.done s' r) →
        s.walk disk (Tree.path2node disk 0) ask (fuel + 1) c path = some (s', r) :=
      fun h => walk_done (by rw [turn_look hcc hlook, h])
    cases l with
    | absent =>
      refine .null hw₁ hf₁ ?_ (hdone rfl)
      split <;> rfl
    | unreadable => exact .null hw₁ hf₁ rfl (hdone rfl)
    | entry n v kind =>
      obtain ⟨hnn, hlead, hv, hkind⟩ := hentry n v kind rfl
      obtain ⟨u, kind', hu, -, -, hkept, hparent⟩ := hlead.usable hnn
      rw [hv] at hu
      obtain rfl := Option.some.inj hu
      by_cases hrest : behind path = []
      · -- the last name
        have hwalk : s.walk disk (Tree.path2node disk 0) ask (fuel + 1) c path = _ :=
          walk_last hcc hrest hlook
        by_cases hask : ask = true ∧ kind ≠ .dir
        · rw [if_pos hask] at hwalk
          exact .null (hw₁.setErrno _) (hf₁.trans (.setErrno _ _)) rfl hwalk
        · rw [if_neg hask] at hwalk
          refine ⟨0, s₁, _, hwalk, hw₁, hf₁, fun t ht => ?_⟩
          obtain rfl := Option.some.inj ht
          refine ⟨.last hne hrest hlook trivial, fun ha => ⟨v, hv, ?_⟩, hlead⟩
          by_contra hk
          refine hask ⟨ha, ?_⟩
          rintro rfl
          exact hk hkind
      cases kind with
      | dir =>
        have ih : WalkDone disk ask fuel s₁ n (behind path) :=
          walk_total hfits hw₁ (hlead.listed hnn) hrest (behind_clean path) (by omega)
            fun q hq => hmet q (.dir hrest hlook hq)
        exact .step 0 hf₁ ih (fun s'' t h => .dir hrest hlook trivial h)
          fun depth' _ => walk_dir hcc hrest hlook
      | other =>
        have hlast : s₁.afterLook (Tree.path2node disk 0) c (firstName path) (behind path)
            (.entry n v .other) = some (.done (s₁.setErrno .enotdir) .null) := by
          rw [afterLook, if_neg hrest, if_neg (by decide), if_neg (by decide)]
        exact .null (hw₁.setErrno .enotdir) (hf₁.trans (.setErrno _ _)) rfl (hdone hlast)
      | lnk =>
        -- the link is resolved
        have hsane : Sane (.path s₁ v.parent v.symlinkTarget) := by
          refine ⟨hw₁, fun l hl _ => hparent ?_⟩
          rw [hl]
          simp
        obtain ⟨depth₁, s₂, r, hr, hw₂, hf₂, htarget⟩ := hmet _ (.link hrest hlook) hsane
        have hturn : s.turn disk (Tree.path2node disk depth₁) c (firstName path) (behind path) = _ :=
          turn_link hcc hrest hlook hkept
        rw [hr, Option.bind_some] at hturn
        cases ht : r.target with
        | none =>
          rw [ht] at hturn
          exact .null hw₂ (hf₁.trans hf₂) rfl (walk_done hturn)
        | some d =>
          rw [ht] at hturn
          obtain ⟨hfrom, hlead₂⟩ := htarget d ht
          have hdd : s₂.reduce d = some d := by
            obtain ⟨_, _, _, _, _, _, hout, _, hin, _⟩ := hfrom
            exact hin.reduced (outset_spec hout).1
          obtain ⟨w, kind, hwd, hwkind, -⟩ := hlead₂.usable hdd
          by_cases hdir : kind = .dir
          · subst hdir
            have hisDir : IsDir s₂ d := ⟨w, hwd, hwkind⟩
            have ih : WalkDone disk ask fuel s₂ d (behind path) :=
              walk_total hfits hw₂ (hlead₂.listed hdd) hrest (behind_clean path) (by omega)
                fun q hq => hmet q (.past hrest hlook hfrom hisDir hq)
            refine .step depth₁ (hf₁.trans hf₂) ih (fun s'' t h => ?_) fun depth' hle =>
              walk_link hcc hrest hlook hkept (path2node_mono hle hr) ht hisDir
            obtain ⟨l, s₃, c', rest, hl, hlne, hout, hok, hin, -⟩ := hfrom
            exact .link hrest hlook trivial hkept hl hlne hout hok hin hisDir h
          · have hfile : s₂.afterLink (some d) = some (.done (s₂.setErrno .enotdir) .null) := by
              simp [afterLink, hwd, hwkind, hdir]
            exact .null (hw₂.setErrno .enotdir) ((hf₁.trans hf₂).trans (.setErrno _ _)) rfl
              (walk_done (hturn.trans hfile))

/-- `path2node` returns if all that it asks for returns. -/
theorem path_total {parent : Option Nat} {l : Option Path} (hfits : DiskFits disk)
    (hsane : Sane (.path s parent l))
    (hasks : ∀ q, Asks disk (.path s parent l) q → Sane q → Done disk q) :
    Done disk (.path s parent l) := by
  obtain ⟨hw, hparent⟩ := hsane
  have hnothing : l = none ∨ l = some [] → Done disk (.path s parent l) := by
    intro h
    refine ⟨1, s.setErrno .enoent, .null, ?_, hw.setErrno _, .setErrno s _, fun t ht => by cases ht⟩
    rcases h with rfl | rfl <;> rfl
  cases l with
  | none => exact hnothing (.inl rfl)
  | some path =>
    by_cases hne : path = []
    · exact hnothing (.inr (by rw [hne]))
    obtain ⟨p, rfl, hp⟩ := hparent path rfl hne
    obtain ⟨s₁, o, hout, hw₁, hf₁, ho⟩ := outset_total hfits hw hp hne fun s' n hq hs =>
      hasks _ hq hs
    have hsucc : ∀ depth, s.path2node disk (depth + 1) (some p) (some path) =
        s.path2nodeFrom disk (Tree.path2node disk depth) (askForDir path) (some p) path := by
      intro depth
      cases path with
      | nil => exact absurd rfl hne
      | cons b path => rfl
    cases o with
    | none =>
      refine ⟨1, s₁, .null, ?_, hw₁, hf₁, fun t ht => by cases ht⟩
      rw [hsucc, path2nodeFrom_eq _ _ _ _ _ _ hne, hout]
      rfl
    | some y =>
      obtain ⟨c, rest⟩ := y
      obtain ⟨hlisted, hleading⟩ := ho c rest rfl
      obtain ⟨hc, hclean, hlen, habs⟩ := outset_spec hout
      by_cases hrest : rest = []
      · refine ⟨1, s₁, ⟨some c, some c, some [slash]⟩, ?_, hw₁, hf₁, fun t ht => ?_⟩
        · rw [hsucc, path2nodeFrom_eq _ _ _ _ _ _ hne, hout]
          simp [hrest]
        · obtain rfl := Option.some.inj ht
          refine ⟨⟨path, s₁, c, rest, rfl, hne, hout, trivial, ?_, fun _ h => absurd hrest h⟩,
            hleading hrest⟩
          rw [hrest]
          exact .here
      · obtain ⟨depth, s', r, hwalk, hw', hf', ht⟩ := (walk_total hfits hw₁ hlisted hrest
          hclean hlen fun q hq hs => hasks q (.met hne hout hq) hs :
            WalkDone disk (askForDir path) path.length s₁ c rest)
        refine ⟨depth + 1, s', r, ?_, hw', hf₁.trans hf', fun t htarget => ?_⟩
        · rw [hsucc, path2nodeFrom_eq _ _ _ _ _ _ hne, hout]
          simp only [Option.bind_some, Option.elim_some, if_neg hrest]
          exact hwalk
        · obtain ⟨hin, hdir, hlead⟩ := ht t htarget
          exact ⟨⟨path, s₁, c, rest, rfl, hne, hout, trivial, hin, fun ha _ => hdir ha⟩, hlead⟩

/-- `reduce_node(n, true)` returns if all that it asks for returns. -/
theorem node_total (hsane : Sane (.node s n))
    (hasks : ∀ q, Asks disk (.node s n) q → Sane q → Done disk q) : Done disk (.node s n) := by
  obtain ⟨hw, hlead⟩ := hsane
  cases hhop : s.hop n with
  | some m =>
    have hm : Leading s m := ⟨hw.pointer n m hhop, fun t ht => hlead.2 t (by rwa [reduce_hop hhop])⟩
    obtain ⟨depth, fuel, out, h⟩ := hasks _ (.follow hhop) ⟨hw, hm⟩
    exact ⟨depth, fuel + 1, out, by rwa [reduceFollow_hop hhop]⟩
  | none =>
    have hnn : s.reduce n = some n := reduce_stop (List.getElem?_eq_getElem hlead.1) hhop
    obtain ⟨v, kind, hv, -, -, hkept, hparent⟩ := hlead.usable hnn
    cases hl : v.symlinkTarget with
    | none => exact ⟨0, 1, _, reduceFollow_end' hv hhop hl⟩
    | some l =>
      have hsane : Sane (.path s v.parent v.symlinkTarget) :=
        ⟨hw, fun path hpath _ => hparent (by simp [hpath])⟩
      obtain ⟨depth₁, s', r, hr, hw', -, htarget⟩ :=
        hasks _ (.target hv hhop (by simp [hl])) hsane
      rw [hl] at hr htarget
      cases ht : r.target with
      | none =>
        refine ⟨depth₁, 1, (s', none), ?_⟩
        rw [reduceFollow_link hv hhop hl, hkept, hr]
        simp [ht]
      | some t =>
        obtain ⟨hfrom, hleadt⟩ := htarget t ht
        obtain ⟨depth₂, fuel, out, h⟩ := hasks _ (.led hv hhop (by rwa [hl])) ⟨hw', hleadt⟩
        refine ⟨max depth₁ depth₂, fuel + 1, out, ?_⟩
        rw [reduceFollow_link hv hhop hl, hkept, path2node_mono (Nat.le_max_left _ _) hr]
        simp only [Bool.false_eq_true, if_false, Option.bind_some, ht, Option.elim_some]
        exact reduceFollow_mono (Nat.le_max_right _ _) (Nat.le_refl _) h

theorem done_of_acc {q : Query} (hfits : DiskFits disk)
    (hacc : Acc (fun a b => Asks disk b a) q) : Sane q → Done disk q := by
  induction hacc with
  | intro q _ ih =>
    intro hsane
    cases q with
    | chain s n =>
      obtain ⟨hw, hn⟩ := hsane
      cases hhop : s.hop n with
      | some m =>
        obtain ⟨t, ht⟩ := ih _ (.hop hhop) ⟨hw, hw.pointer n m hhop⟩
        exact ⟨t, (reduce_hop hhop).trans ht⟩
      | none => exact ⟨n, reduce_stop (List.getElem?_eq_getElem hn) hhop⟩
    | path s parent l => exact path_total hfits hsane fun q hq hs => ih q hq hs
    | node s n => exact node_total hsane fun q hq hs => ih q hq hs

/-- **A call returns if and only if no endless sequence of calls begins with it.** -/
theorem answered_iff {q : Query} (hfits : DiskFits disk) (hsane : Sane q) :
    Answered disk q ↔ ¬ Endless disk q := by
  rw [Endless, Infra.endless_iff_not_acc, not_not]
  constructor
  · cases q with
    | chain s n => exact fun ⟨m, h⟩ => chain_acc h
    | path s parent l => exact fun ⟨depth, out, h⟩ => path_acc h
    | node s n => exact fun ⟨depth, fuel, out, h⟩ => node_acc h
  · exact fun hacc => (done_of_acc hfits hacc hsane).answered

/-! ## Trees that are all read -/

def AllRead (s : Tree) : Prop := ∀ n v, s.node n = some v → unread v = false

section AllRead

variable {o : Option (Nat × Path)} {parent : Option Nat} {l : Option Path} {ok : Nat → Prop}
  {q q' : Query}

theorem AllRead.populate {done : Bool} (hr : AllRead s) (h : s.populate disk n = some (s', done)) :
    s' = s := by
  unfold Tree.populate at h
  obtain ⟨v, hv, h⟩ := Option.bind_eq_some_iff.mp h
  rw [hr n v hv] at h
  cases h
  rfl

theorem AllRead.look (hr : AllRead s) (h : s.look disk c e = some (s', .entry n v kind)) :
    s' = s := by
  obtain ⟨m, -, -, hpop, -⟩ := look_entry h
  exact hr.populate hpop

theorem AllRead.outset (hr : AllRead s) (h : s.outset disk parent path = some (s', o)) : s' = s := by
  unfold Tree.outset at h
  simp only [Option.bind_eq_bind, Option.bind_eq_some_iff] at h
  obtain ⟨p, -, current, -, ⟨s₁, done⟩, hpop, h⟩ := h
  obtain rfl := hr.populate hpop
  split at h
  · cases h
    rfl
  split at h
  · obtain ⟨root, -, h⟩ := Option.bind_eq_some_iff.mp h
    cases h
    rfl
  · cases h
    rfl

theorem AllRead.leads (h : Leads disk ok s c path s' t) (hr : AllRead s) : s' = s := by
  induction h with
  | here => rfl
  | last _ _ hlook _ => exact hr.look hlook
  | dir _ hlook _ _ ih =>
    obtain rfl := hr.look hlook
    exact ih hr
  | link _ hlook _ _ _ _ hout _ _ _ _ ih₁ ih₂ =>
    obtain rfl := hr.look hlook
    obtain rfl := hr.outset hout
    obtain rfl := ih₁ hr
    exact ih₂ hr

theorem AllRead.leadsFrom (h : LeadsFrom disk ok s parent l s' t) (hr : AllRead s) : s' = s := by
  obtain ⟨path, s₁, c, rest, -, -, hout, -, hin, -⟩ := h
  obtain rfl := hr.outset hout
  exact AllRead.leads hin hr

/-- The nodes, and where paths may begin. -/
def places (s : Tree) (parent : Option Nat) : Set Nat :=
  {m | m < s.nodes.length ∨ parent = some m ∨ ∃ n v, s.node n = some v ∧ v.parent = some m}

/-- The calls on a tree, among those on paths only that on `l` and those on its links. -/
def Nearby (s : Tree) (parent : Option Nat) (l : Option Path) : Query → Prop
  | .chain s' n => s' = s ∧ n ∈ places s parent
  | .path s' p l' => s' = s ∧ (p = parent ∧ l' = l ∨
      ∃ n v, s.node n = some v ∧ p = v.parent ∧ l' = v.symlinkTarget)
  | .node s' n => s' = s ∧ n ∈ places s parent

theorem places_finite (s : Tree) (parent : Option Nat) : (places s parent).Finite := by
  refine ((Set.finite_lt_nat s.nodes.length).union ((Set.finite_singleton (parent.getD 0)).union
    ((Set.finite_lt_nat s.nodes.length).image
      fun n => ((s.node n).bind (·.parent)).getD 0))).subset fun m hm => ?_
  rcases hm with hlt | rfl | ⟨n, v, hv, hp⟩
  · exact .inl hlt
  · exact .inr (.inl rfl)
  · exact .inr (.inr ⟨n, node_lt hv, by simp [hv, hp]⟩)

theorem nearby_finite (s : Tree) (parent : Option Nat) (l : Option Path) :
    {q | Nearby s parent l q}.Finite := by
  have hplaces := places_finite s parent
  refine ((hplaces.image (Query.chain s)).union ((hplaces.image (Query.node s)).union
    ((Set.finite_singleton (Query.path s parent l)).union ((Set.finite_lt_nat s.nodes.length).image
      fun n => .path s ((s.node n).bind (·.parent)) ((s.node n).bind (·.symlinkTarget)))))).subset
    fun q hq => ?_
  cases q with
  | chain s' n =>
    obtain ⟨rfl, hn⟩ := hq
    exact .inl ⟨n, hn, rfl⟩
  | node s' n =>
    obtain ⟨rfl, hn⟩ := hq
    exact .inr (.inl ⟨n, hn, rfl⟩)
  | path s' p l' =>
    obtain ⟨rfl, ⟨rfl, rfl⟩ | ⟨n, v, hv, rfl, rfl⟩⟩ := hq
    · exact .inr (.inr (.inl rfl))
    · exact .inr (.inr (.inr ⟨n, node_lt hv, by simp [hv]⟩))

theorem Met.nearby (h : Met disk s c path q) (hw : Whole s) (hr : AllRead s) (parent : Option Nat)
    (l : Option Path) : Nearby s parent l q := by
  induction h with
  | item _ hget =>
    obtain ⟨m, hm, hlead⟩ := hw.item _ _ _ hget
    obtain rfl := Option.some.inj hm
    exact ⟨rfl, .inl hlead.1⟩
  | link _ hlook =>
    obtain rfl := hr.look hlook
    obtain ⟨_, _, _, _, hv, _⟩ := look_entry hlook
    exact ⟨rfl, .inr ⟨_, _, hv, rfl, rfl⟩⟩
  | dir _ hlook _ ih =>
    obtain rfl := hr.look hlook
    exact ih hw hr
  | past _ hlook hlead _ _ ih =>
    obtain rfl := hr.look hlook
    obtain rfl := hr.leadsFrom hlead
    exact ih hw hr

theorem Asks.nearby (h : Asks disk q q') (hw : Whole s) (hr : AllRead s)
    (hq : Nearby s parent l q) : Nearby s parent l q' := by
  cases h with
  | hop hhop =>
    obtain ⟨rfl, -⟩ := hq
    exact ⟨rfl, .inl (hw.pointer _ _ hhop)⟩
  | start =>
    obtain ⟨rfl, ⟨rfl, -⟩ | ⟨n, v, hv, hp, -⟩⟩ := hq
    · exact ⟨rfl, .inr (.inl rfl)⟩
    · exact ⟨rfl, .inr (.inr ⟨n, v, hv, hp.symm⟩)⟩
  | root _ _ hpop =>
    obtain ⟨rfl, -⟩ := hq
    obtain rfl := hr.populate hpop
    exact ⟨rfl, .inl hw.root.1⟩
  | met _ hout hmet =>
    obtain ⟨rfl, -⟩ := hq
    obtain rfl := hr.outset hout
    exact hmet.nearby hw hr parent l
  | follow hhop =>
    obtain ⟨rfl, -⟩ := hq
    exact ⟨rfl, .inl (hw.pointer _ _ hhop)⟩
  | target hv _ _ =>
    obtain ⟨rfl, -⟩ := hq
    exact ⟨rfl, .inr ⟨_, _, hv, rfl, rfl⟩⟩
  | led hv _ hlead =>
    obtain ⟨rfl, -⟩ := hq
    obtain rfl := hr.leadsFrom hlead
    obtain ⟨_, _, _, _, _, _, hout, _, hin, _⟩ := hlead
    obtain ⟨u, hu, -, -⟩ := reduceLoop_end (hin.reduced (outset_spec hout).1)
    exact ⟨rfl, .inl (node_lt hu)⟩

/-- A call comes to one that is made again while it is answered. -/
def ComesBack (disk : Disk) (q : Query) : Prop :=
  ∃ q', Relation.ReflTransGen (Asks disk) q q' ∧ Relation.TransGen (Asks disk) q' q'

/-- **Only what comes back has no end.** -/
theorem endless_iff_comesBack (hw : Whole s) (hr : AllRead s) (hq : Nearby s parent l q) :
    Endless disk q ↔ ComesBack disk q := by
  have hall : ∀ q', Relation.ReflTransGen (Asks disk) q q' → Nearby s parent l q' := by
    intro q' h
    induction h with
    | refl => exact hq
    | tail _ hasks ih => exact hasks.nearby hw hr ih
  exact Infra.endless_iff_cycle (nearby_finite s parent l) fun b c hb hc =>
    hc.nearby hw hr (hall b hb)

end AllRead

/-! ## `path2node`, `reduce_node` and `vfs_get_node` -/

theorem getNode_returns_iff {l : Option Path} {parent : Option Nat} (hfits : DiskFits disk)
    (hsane : Sane (.path s parent l)) (follow : Bool) :
    (∃ depth out, s.getNode disk depth parent l follow = some out) ↔
      ¬ Endless disk (.path s parent l) ∧ (follow = true → ∀ s' t,
        LeadsFrom disk anywhere s parent l s' t → ¬ Endless disk (.node s' t)) := by
  rw [← answered_iff hfits hsane]
  have hget : ∀ depth x, s.path2node disk depth parent l = some x →
      s.getNode disk depth parent l follow = x.2.target.elim (some (x.1, none)) fun t =>
        if follow then x.1.reduceFollow disk depth depth t else some (x.1, some t) := by
    rintro depth ⟨s', r⟩ hx
    unfold Tree.getNode
    rw [hx, Option.bind_eq_bind, Option.bind_some]
    cases ht : r.target with
    | none => simp only [ht, Option.elim_none]
    | some t => simp only [ht, Option.elim_some]
  constructor
  · rintro ⟨depth, out, h⟩
    cases hx : s.path2node disk depth parent l with
    | none => simp [Tree.getNode, hx] at h
    | some x =>
      refine ⟨⟨depth, x, hx⟩, fun hfollow s' t hlead => ?_⟩
      obtain ⟨rfl, ht⟩ := hlead.eq hx
      rw [hget depth x hx, ht, Option.elim_some, if_pos hfollow] at h
      unfold Endless
      rw [Infra.endless_iff_not_acc, not_not]
      exact node_acc h
  · rintro ⟨⟨depth, x, hx⟩, hnode⟩
    have hacc := path_acc hx
    obtain ⟨depth₁, s', r, hr, hw', hf', htarget⟩ := done_of_acc hfits hacc hsane
    cases ht : r.target with
    | none => exact ⟨depth₁, _, by rw [hget depth₁ _ hr, ht]; rfl⟩
    | some t =>
      obtain ⟨hlead, hleading⟩ := htarget t ht
      cases follow with
      | false => exact ⟨depth₁, _, by rw [hget depth₁ _ hr, ht]; rfl⟩
      | true =>
        have hsane' : Sane (.node s' t) := ⟨hw', hleading⟩
        obtain ⟨depth₂, fuel, out, h⟩ := (answered_iff hfits hsane').mpr (hnode rfl s' t hlead)
        refine ⟨max depth₁ (max depth₂ fuel), out, ?_⟩
        rw [hget _ _ (path2node_mono (Nat.le_max_left _ _) hr), ht, Option.elim_some, if_pos rfl]
        exact reduceFollow_mono (by omega) (by omega) h

/-- **Resolution returns** if and only if no endless sequence of redirections, mount points and links
is followed, each of them while the one before is followed. In a tree that is all read this means that
nothing leads back to itself. What it returns is where the path leads, and `NULL` if it leads
nowhere. -/
theorem resolution_returns_iff (hfits : DiskFits disk) (hw : Whole s) (hp : Open s p)
    (path : Path) :
    ((∃ m, s.reduce p = some m) ↔ ¬ Endless disk (.chain s p)) ∧
    ((∃ depth out, s.path2node disk depth (some p) (some path) = some out) ↔
      ¬ Endless disk (.path s (some p) (some path))) ∧
    (Leading s p → ((∃ depth fuel out, s.reduceFollow disk depth fuel p = some out) ↔
      ¬ Endless disk (.node s p))) ∧
    (∀ follow, (∃ depth out, s.getNode disk depth (some p) (some path) follow = some out) ↔
      ¬ Endless disk (.path s (some p) (some path)) ∧ (follow = true → ∀ s' t,
        LeadsFrom disk anywhere s (some p) (some path) s' t → ¬ Endless disk (.node s' t))) ∧
    (∀ depth s' r, s.path2node disk depth (some p) (some path) = some (s', r) → ∀ t,
      r.target = some t ↔ LeadsFrom disk anywhere s (some p) (some path) s' t) ∧
    (AllRead s → ∀ q, Nearby s (some p) (some path) q → (Endless disk q ↔ ComesBack disk q)) := by
  have hsane : Sane (.path s (some p) (some path)) := ⟨hw, fun _ _ _ => ⟨p, rfl, hp⟩⟩
  refine ⟨answered_iff (q := .chain s p) hfits ⟨hw, hp.1⟩, answered_iff hfits hsane,
    fun hlead => answered_iff (q := .node s p) hfits ⟨hw, hlead⟩,
    getNode_returns_iff hfits hsane, fun depth s' r hr t => ⟨fun ht => ?_, fun hlead => ?_⟩,
    fun hread q hq => endless_iff_comesBack hw hread hq⟩
  · obtain ⟨depth', s'', r', hr', -, -, htarget⟩ := done_of_acc hfits (path_acc hr) hsane
    have h₁ := path2node_mono (Nat.le_max_left depth depth') hr
    have h₂ := path2node_mono (Nat.le_max_right depth depth') hr'
    obtain ⟨rfl, rfl⟩ := Prod.mk.inj (Option.some.inj (h₁.symm.trans h₂))
    exact (htarget t ht).1
  · exact (hlead.eq hr).2

/-! ### A link -/

/-- The name `l`. -/
def nameL : Key := [0x6c]

/-- The link `l` in the root directory. -/
def withLink (target : Path) : Tree where
  nodes := [
    { newNode none none false none none none with mountpoint := some 1 },
    { newNode (some ⟨0, false, true, true⟩) (some 0) true (some .dir) none none with
      children := mapOf [(dotName, some 2), (dotdotName, some 3), (nameL, some 4)] },
    newNode (some ⟨0, false, true, true⟩) (some 1) false none (some 1) none,
    newNode (some ⟨0, false, true, true⟩) (some 1) false none (some 0) none,
    newNode (some ⟨0, false, true, true⟩) (some 1) false (some .lnk) none (some target)]
  root := 0
  errno := none

section WithLink

variable {target : Path}

theorem withLink_node (h : (withLink target).node n = some v) :
    n = 0 ∨ n = 1 ∨ n = 2 ∨ n = 3 ∨ n = 4 := by
  have hlt : n < 5 := node_lt h
  omega

theorem withLink_reduce (target : Path) :
    (withLink target).reduce 0 = some 1 ∧ (withLink target).reduce 1 = some 1 ∧
      (withLink target).reduce 2 = some 1 ∧ (withLink target).reduce 3 = some 1 ∧
      (withLink target).reduce 4 = some 4 := ⟨rfl, rfl, rfl, rfl, rfl⟩

theorem withLink_open (target : Path) : Open (withLink target) 1 := by
  refine ⟨by simp [withLink], fun c v hc hv => ?_⟩
  rw [(withLink_reduce target).2.1] at hc
  obtain rfl := Option.some.inj hc
  obtain rfl := Option.some.inj hv
  rfl

theorem withLink_usable (target : Path) :
    Usable (withLink target) 1 ∧ Usable (withLink target) 4 :=
  ⟨⟨_, .dir, rfl, rfl, rfl, rfl, fun h => absurd rfl h⟩,
    ⟨_, .lnk, rfl, rfl, rfl, rfl, fun _ => ⟨1, rfl, withLink_open target⟩⟩⟩

theorem withLink_leading (hn : n < 5) : Leading (withLink target) n := by
  obtain ⟨h₀, h₁, h₂, h₃, h₄⟩ := withLink_reduce target
  obtain ⟨hdir, hlink⟩ := withLink_usable target
  refine ⟨hn, fun t ht => ?_⟩
  have hcases : n = 0 ∨ n = 1 ∨ n = 2 ∨ n = 3 ∨ n = 4 := by omega
  rcases hcases with rfl | rfl | rfl | rfl | rfl
  · rw [h₀] at ht
    exact Option.some.inj ht ▸ hdir
  · rw [h₁] at ht
    exact Option.some.inj ht ▸ hdir
  · rw [h₂] at ht
    exact Option.some.inj ht ▸ hdir
  · rw [h₃] at ht
    exact Option.some.inj ht ▸ hdir
  · rw [h₄] at ht
    exact Option.some.inj ht ▸ hlink

theorem withLink_read (target : Path) : AllRead (withLink target) := by
  intro n v hv
  rcases withLink_node hv with rfl | rfl | rfl | rfl | rfl <;>
    (obtain rfl := Option.some.inj hv; rfl)

theorem withLink_whole (target : Path) : Whole (withLink target) where
  pointer := by
    intro n m h
    obtain ⟨v, hv, hm⟩ := Option.bind_eq_some_iff.mp h
    change m < 5
    rcases withLink_node hv with rfl | rfl | rfl | rfl | rfl <;> obtain rfl := Option.some.inj hv
    · obtain rfl := Option.some.inj hm
      decide
    · cases hm
    · obtain rfl := Option.some.inj hm
      decide
    · obtain rfl := Option.some.inj hm
      decide
    · cases hm
  root := withLink_leading (Nat.zero_lt_succ 4)
  item := by
    intro n name item h
    obtain ⟨v, hv, hget⟩ := Option.bind_eq_some_iff.mp h
    rcases withLink_node hv with rfl | rfl | rfl | rfl | rfl <;> obtain rfl := Option.some.inj hv
    · cases hget
    · have hentry := mapOf_get (Option.some.inj hget)
      simp only [List.mem_cons, List.not_mem_nil, or_false, Prod.mk.injEq] at hentry
      rcases hentry with ⟨-, rfl⟩ | ⟨-, rfl⟩ | ⟨-, rfl⟩
      · exact ⟨2, rfl, withLink_leading (by decide)⟩
      · exact ⟨3, rfl, withLink_leading (by decide)⟩
      · exact ⟨4, rfl, withLink_leading (by decide)⟩
    · cases hget
    · cases hget
    · cases hget
  room := by
    intro n v hv hu
    rw [withLink_read target n v hv] at hu
    cases hu

end WithLink

/-- A link to the root directory is followed. -/
theorem resolution_returns_slash :
    (∃ depth out, (withLink [slash]).path2node (fun _ => ⟨[], true⟩) depth (some 1)
      (some (nameL ++ [slash])) = some out) ↔
      ¬ Endless (fun _ => ⟨[], true⟩)
        (.path (withLink [slash]) (some 1) (some (nameL ++ [slash]))) := by
  have hfits : DiskFits fun _ => ⟨[], true⟩ := fun _ _ he => absurd he List.not_mem_nil
  exact (resolution_returns_iff hfits (withLink_whole _) (withLink_open _) _).2.1

/-- The link `l` to `l/l` leads back to itself: neither `path2node` nor `vfs_get_node` returns. -/
theorem link_to_itself_never_returns :
    ¬ ∀ (disk : Disk) (s : Tree) (p : Nat) (path : Path), DiskFits disk → Whole s → Open s p →
      (∃ depth out, s.path2node disk depth (some p) (some path) = some out) ∧
        ∃ depth out, s.getNode disk depth (some p) (some path) true = some out := by
  intro h
  obtain ⟨disk, hdisk⟩ : ∃ disk : Disk, disk = fun _ => ⟨[], true⟩ := ⟨_, rfl⟩
  have hfits : DiskFits disk := by
    rw [hdisk]
    exact fun _ _ he => absurd he List.not_mem_nil
  obtain ⟨⟨depth, out, hout⟩, -⟩ := h disk (withLink (nameL ++ slash :: nameL)) 1
    (nameL ++ slash :: nameL) hfits (withLink_whole _) (withLink_open _)
  have hself : Asks disk (.path (withLink (nameL ++ slash :: nameL)) (some 1)
        (some (nameL ++ slash :: nameL)))
      (.path (withLink (nameL ++ slash :: nameL)) (some 1) (some (nameL ++ slash :: nameL))) := by
    have hrest : behind (nameL ++ slash :: nameL) ≠ [] := by decide
    have hout : (withLink (nameL ++ slash :: nameL)).outset disk (some 1)
        (nameL ++ slash :: nameL) = some (withLink (nameL ++ slash :: nameL),
          some (1, nameL ++ slash :: nameL)) := rfl
    have hlook : (withLink (nameL ++ slash :: nameL)).look disk 1
        (firstName (nameL ++ slash :: nameL)) = some (withLink (nameL ++ slash :: nameL),
          .entry 4 (newNode (some ⟨0, false, true, true⟩) (some 1) false (some .lnk) none
            (some (nameL ++ slash :: nameL))) .lnk) := rfl
    exact .met (by simp [nameL]) hout (.link hrest hlook)
  have hend := Infra.endless_of_cycle .refl (.single hself)
  exact (Infra.endless_iff_not_acc.mp hend) (path_acc hout)

end Lyre.Vfs
