import Lyre.Properties.VfsWhole

/-!
# Links that are followed

`path2node` and `reduce_node` taken apart: what is known of each name and each link, without fuel.
Where a path leads is a relation (`Leads`), and `path2node` finds it (`LeadsFrom.path2node`).
-/

namespace Lyre.Vfs

open Lyre.Vfs.Tree

variable {s s' s₁ s₂ : Tree} {n m p t c y d fuel : Nat} {v w : VfsNode} {name e : Key} {disk : Disk}
  {kind : Kind} {path : Path} {ask : Bool} {resolve resolve' : Resolve} {depth : Nat}

/-! ## The parts of a resolution -/

/-- The first name of a path. -/
def firstName (path : Path) : Key := path.takeWhile (· ≠ slash)

/-- What is left of a path behind its first name. -/
def behind (path : Path) : Path := (path.dropWhile (· ≠ slash)).dropWhile (· = slash)

/-- What a name is: there is none, or it cannot be read, or it leads to a node with a resource. -/
inductive Look
  | absent
  | unreadable
  | entry (n : Nat) (v : VfsNode) (kind : Kind)

namespace Tree

/-- The part of a turn that looks for its name. -/
def look (disk : Disk) (s : Tree) (c : Nat) (e : Key) : Option (Tree × Look) := do
  match ← s.sget c e with
  | none => some (s.setErrno .enoent, .absent)
  | some item => do
    let new ← item
    let new ← s.reduce new
    let (s, ok) ← s.populate disk new
    if ok = false then some (s, .unreadable)
    else
      let v ← s.node new
      let kind ← v.resource
      some (s, .entry new v kind)

/-- A turn goes on where a link leads. -/
def afterLink (s : Tree) : Option Nat → Option Turn
  | none => some (.done s .null)
  | some target => do
    let v ← s.node target
    let kind ← v.resource
    if kind = .dir then some (.down s target) else some (.done (s.setErrno .enotdir) .null)

/-- The rest of a turn. -/
def afterLook (resolve : Resolve) (s : Tree) (c : Nat) (e : Key) (rest : Path) : Look → Option Turn
  | .absent => some (.done s (if rest = [] then ⟨some c, none, some e⟩ else .null))
  | .unreadable => some (.done s .null)
  | .entry n v kind =>
    if rest = [] then some (.found s c n kind)
    else if kind = .lnk then
      if v.symlinkTargetFreed then none
      else do
        let (s, r) ← resolve s v.parent v.symlinkTarget
        s.afterLink r.target
    else if kind = .dir then some (.down s n)
    else some (.done (s.setErrno .enotdir) .null)

/-- Where the loop begins, and with what path. -/
def outset (disk : Disk) (s : Tree) (parent : Option Nat) (path : Path) :
    Option (Tree × Option (Nat × Path)) := do
  let parent ← parent
  let current ← s.reduce parent
  let (s, ok) ← s.populate disk current
  if ok = false then some (s, none)
  else if path.head? = some slash then
    let current ← s.reduce s.root
    some (s, some (current, path.dropWhile (· = slash)))
  else some (s, some (current, path))

end Tree

theorem turn_eq (hc : s.reduce c = some c) (e : Key) (rest : Path) :
    s.turn disk resolve c e rest =
      (s.look disk c e).bind fun x => x.1.afterLook resolve c e rest x.2 := by
  unfold Tree.turn Tree.look
  simp only [hc, Option.bind_eq_bind, Option.bind_some]
  rcases s.sget c e with _ | _ | _ | m
  · rfl
  · simp only [Option.bind_some, afterLook]
    split <;> rfl
  · rfl
  · simp only [Option.bind_some]
    cases s.reduce m with
    | none => rfl
    | some n =>
      simp only [Option.bind_some]
      cases s.populate disk n with
      | none => rfl
      | some x =>
        obtain ⟨s₁, ok⟩ := x
        cases ok with
        | false => rfl
        | true =>
          simp only [Option.bind_some, Bool.true_eq_false, if_false]
          cases s₁.node n with
          | none => rfl
          | some v =>
            simp only [Option.bind_some]
            cases v.resource with
            | none => rfl
            | some kind =>
              simp only [Option.bind_some, afterLook, Option.bind_eq_bind]
              split
              · rfl
              split
              · split
                · rfl
                congr 1
              · rfl

theorem path2nodeFrom_eq (disk : Disk) (resolve : Resolve) (ask : Bool) (s : Tree)
    (parent : Option Nat) (path : Path) (hne : path ≠ []) :
    s.path2nodeFrom disk resolve ask parent path =
      (s.outset disk parent path).bind fun x => x.2.elim (some (x.1, .null)) fun y =>
        if y.2 = [] then some (x.1, ⟨some y.1, some y.1, some [slash]⟩)
        else x.1.walk disk resolve ask path.length y.1 y.2 := by
  unfold Tree.path2nodeFrom Tree.outset
  simp only [Option.bind_eq_bind]
  cases parent with
  | none => rfl
  | some parent =>
    simp only [Option.bind_some]
    cases s.reduce parent with
    | none => rfl
    | some current =>
      simp only [Option.bind_some]
      cases s.populate disk current with
      | none => rfl
      | some x =>
        simp only [Option.bind_some]
        split
        · rfl
        split
        · cases x.1.reduce x.1.root with
          | none => rfl
          | some root => rfl
        · simp only [Option.bind_some, Option.elim_some, if_neg hne]

theorem look_entry (h : s.look disk c e = some (s', .entry n v kind)) :
    ∃ m, s.sget c e = some (some (some m)) ∧ s.reduce m = some n ∧
      s.populate disk n = some (s', true) ∧ s'.node n = some v ∧ v.resource = some kind := by
  unfold Tree.look at h
  rw [Option.bind_eq_bind, Option.bind_eq_some_iff] at h
  obtain ⟨got, hget, h⟩ := h
  cases got with
  | none => cases h
  | some item =>
    simp only [Option.bind_eq_bind, Option.bind_eq_some_iff] at h
    obtain ⟨m, rfl, n', hred, ⟨s₁, ok⟩, hpop, h⟩ := h
    cases ok with
    | false => cases h
    | true =>
      simp only [Bool.true_eq_false, if_false, Option.bind_eq_some_iff] at h
      obtain ⟨v', hv, kind', hkind, h⟩ := h
      cases h
      exact ⟨m, hget, hred, hpop, hv, hkind⟩

theorem look_reduced (h : s.look disk c e = some (s', .entry n v kind)) :
    s'.reduce n = some n := by
  obtain ⟨m, -, hred, hpop, -⟩ := look_entry h
  exact (populate_extends hpop).1.reduce (reduce_idem hred)

/-! ### One turn of the loop -/

section Turns

variable {r : Res} {kind' : Kind}

theorem walk_done (h : s.turn disk resolve c (firstName path) (behind path) = some (.done s' r)) :
    s.walk disk resolve ask (fuel + 1) c path = some (s', r) := by
  unfold firstName behind at h
  simp only [Tree.walk, Option.bind_eq_bind]
  rw [h]
  rfl

theorem walk_found
    (h : s.turn disk resolve c (firstName path) (behind path) = some (.found s' c n kind)) :
    s.walk disk resolve ask (fuel + 1) c path = some (if ask = true ∧ kind ≠ .dir then
        (s'.setErrno .enotdir, ⟨some c, none, some (firstName path)⟩)
      else (s', ⟨some c, some n, some (firstName path)⟩)) := by
  unfold firstName behind at h
  simp only [Tree.walk, Option.bind_eq_bind]
  rw [h]
  simp only [Option.bind_some, firstName]
  split <;> rfl

theorem walk_down
    (h : s.turn disk resolve c (firstName path) (behind path) = some (.down s' n)) :
    s.walk disk resolve ask (fuel + 1) c path = s'.walk disk resolve ask fuel n (behind path) := by
  unfold firstName at h
  unfold behind at h ⊢
  simp only [Tree.walk, Option.bind_eq_bind]
  rw [h]
  rfl

theorem walk_stuck (h : s.turn disk resolve c (firstName path) (behind path) = none) :
    s.walk disk resolve ask (fuel + 1) c path = none := by
  unfold firstName behind at h
  simp only [Tree.walk, Option.bind_eq_bind]
  rw [h]
  rfl

theorem turn_look {l : Look} (hc : s.reduce c = some c) (h : s.look disk c e = some (s', l))
    (rest : Path) :
    s.turn disk resolve c e rest = s'.afterLook resolve c e rest l := by
  rw [turn_eq hc, h, Option.bind_some]

theorem walk_last (hc : s.reduce c = some c) (hrest : behind path = [])
    (h : s.look disk c (firstName path) = some (s', .entry n v kind)) :
    s.walk disk resolve ask (fuel + 1) c path = some (if ask = true ∧ kind ≠ .dir then
        (s'.setErrno .enotdir, ⟨some c, none, some (firstName path)⟩)
      else (s', ⟨some c, some n, some (firstName path)⟩)) := by
  refine walk_found ?_
  rw [turn_look hc h, afterLook, if_pos hrest]

theorem walk_dir (hc : s.reduce c = some c) (hrest : behind path ≠ [])
    (h : s.look disk c (firstName path) = some (s', .entry n v .dir)) :
    s.walk disk resolve ask (fuel + 1) c path = s'.walk disk resolve ask fuel n (behind path) := by
  refine walk_down ?_
  rw [turn_look hc h, afterLook, if_neg hrest, if_neg (by decide), if_pos rfl]

theorem turn_link (hc : s.reduce c = some c) (hrest : behind path ≠ [])
    (h : s.look disk c (firstName path) = some (s₁, .entry n v .lnk))
    (hkept : v.symlinkTargetFreed = false) :
    s.turn disk resolve c (firstName path) (behind path) =
      (resolve s₁ v.parent v.symlinkTarget).bind fun x => x.1.afterLink x.2.target := by
  rw [turn_look hc h, afterLook, if_neg hrest, if_pos rfl, hkept]
  rfl

theorem walk_link (hc : s.reduce c = some c) (hrest : behind path ≠ [])
    (h : s.look disk c (firstName path) = some (s₁, .entry n v .lnk))
    (hkept : v.symlinkTargetFreed = false)
    (hr : resolve s₁ v.parent v.symlinkTarget = some (s₂, r)) (ht : r.target = some d)
    (hdir : IsDir s₂ d) :
    s.walk disk resolve ask (fuel + 1) c path = s₂.walk disk resolve ask fuel d (behind path) := by
  obtain ⟨w, hw, hkind⟩ := hdir
  refine walk_down ?_
  rw [turn_link hc hrest h hkept, hr, Option.bind_some, ht, afterLink]
  simp [hw, hkind]

end Turns

/-! ### More depth -/

/-- What is resolved is resolved by another function, too. -/
def Finer (resolve resolve' : Resolve) : Prop :=
  ∀ s parent path out, resolve s parent path = some out → resolve' s parent path = some out

theorem turn_finer {rest : Path} {out : Turn} (hf : Finer resolve resolve')
    (h : s.turn disk resolve c e rest = some out) : s.turn disk resolve' c e rest = some out := by
  obtain ⟨c', hc⟩ : ∃ c', s.reduce c = some c' := by
    cases hc : s.reduce c with
    | some c' => exact ⟨c', rfl⟩
    | none => simp [Tree.turn, hc] at h
  have hsame : ∀ resolve, s.turn disk resolve c e rest = s.turn disk resolve c' e rest := by
    intro resolve
    unfold Tree.turn
    simp only [hc, reduce_idem hc]
  rw [hsame, turn_eq (reduce_idem hc), Option.bind_eq_some_iff] at h ⊢
  obtain ⟨⟨s', l⟩, hlook, h⟩ := h
  refine ⟨(s', l), hlook, ?_⟩
  cases l with
  | absent => exact h
  | unreadable => exact h
  | entry n v kind =>
    simp only [afterLook] at h ⊢
    by_cases hrest : rest = []
    · rw [if_pos hrest] at h ⊢
      exact h
    rw [if_neg hrest] at h ⊢
    by_cases hlnk : kind = .lnk
    · rw [if_pos hlnk] at h ⊢
      split at h
      · cases h
      next hkept =>
      rw [if_neg hkept]
      obtain ⟨x, hx, h⟩ := Option.bind_eq_some_iff.mp h
      exact Option.bind_eq_some_iff.mpr ⟨x, hf _ _ _ _ hx, h⟩
    · rw [if_neg hlnk] at h ⊢
      exact h

theorem walk_finer {out : Tree × Res} (hf : Finer resolve resolve')
    (h : s.walk disk resolve ask fuel c path = some out) :
    s.walk disk resolve' ask fuel c path = some out := by
  induction fuel generalizing s c path with
  | zero => simp [Tree.walk] at h
  | succ fuel ih =>
    cases hturn : s.turn disk resolve c (firstName path) (behind path) with
    | none =>
      rw [walk_stuck hturn] at h
      cases h
    | some t =>
      have hturn' := turn_finer hf hturn
      cases t with
      | done s' r =>
        rw [walk_done hturn] at h
        rw [walk_done hturn']
        exact h
      | found s' current new kind =>
        unfold firstName behind at hturn hturn'
        simp only [Tree.walk, Option.bind_eq_bind, hturn, hturn', Option.bind_some] at h ⊢
        exact h
      | down s' n =>
        rw [walk_down hturn] at h
        rw [walk_down hturn']
        exact ih h

theorem path2node_finer (disk : Disk) (depth : Nat) :
    Finer (Tree.path2node disk depth) (Tree.path2node disk (depth + 1)) := by
  induction depth with
  | zero =>
    intro s parent path out h
    cases h
  | succ depth ih =>
    intro s parent path out h
    unfold Tree.path2node at h ⊢
    cases path with
    | none => exact h
    | some path =>
      cases path with
      | nil => exact h
      | cons b path =>
        simp only at h ⊢
        rw [path2nodeFrom_eq _ _ _ _ _ _ (List.cons_ne_nil _ _), Option.bind_eq_some_iff] at h ⊢
        obtain ⟨⟨s', y⟩, hout, h⟩ := h
        refine ⟨_, hout, ?_⟩
        cases y with
        | none =>
          simp only [Option.elim_none] at h ⊢
          exact h
        | some y =>
          simp only [Option.elim_some] at h ⊢
          by_cases hy : y.2 = []
          · rw [if_pos hy] at h ⊢
            exact h
          · rw [if_neg hy] at h ⊢
            exact walk_finer ih h

theorem path2node_mono {parent : Option Nat} {l : Option Path} {out : Tree × Res} {depth' : Nat}
    (hle : depth ≤ depth') (h : s.path2node disk depth parent l = some out) :
    s.path2node disk depth' parent l = some out := by
  induction depth' with
  | zero =>
    obtain rfl : depth = 0 := by omega
    exact h
  | succ depth' ih =>
    by_cases heq : depth = depth' + 1
    · rw [← heq]
      exact h
    · exact path2node_finer disk depth' _ _ _ _ (ih (by omega))

/-! ## Where paths lead -/

/-- A path that does not begin with a slash. -/
def Clean (path : Path) : Prop := path.head? ≠ some slash

theorem clean_dropSlashes (path : Path) : Clean (path.dropWhile (· = slash)) := by
  intro h
  have hhead := List.head?_dropWhile_not (fun y : BitVec 8 => decide (y = slash)) path
  rw [h] at hhead
  simp at hhead

theorem behind_clean (path : Path) : Clean (behind path) := clean_dropSlashes _

theorem behind_length (hne : path ≠ []) (hclean : Clean path) :
    (behind path).length < path.length := by
  cases path with
  | nil => exact absurd rfl hne
  | cons b path =>
    refine rest_length_lt (b := b) ?_ rfl
    rintro rfl
    exact hclean rfl

theorem outset_spec {parent : Option Nat} {rest : Path}
    (h : s.outset disk parent path = some (s', some (c, rest))) :
    s'.reduce c = some c ∧ Clean rest ∧ rest.length ≤ path.length ∧ (rest = [] → path.head? ≠ none →
      path.head? = some slash) := by
  unfold Tree.outset at h
  simp only [Option.bind_eq_bind, Option.bind_eq_some_iff] at h
  obtain ⟨p, -, current, hred, ⟨s₁, ok⟩, hpop, h⟩ := h
  split at h
  · cases h
  split at h
  · next habs =>
    obtain ⟨root, hroot, h⟩ := Option.bind_eq_some_iff.mp h
    cases h
    exact ⟨reduce_idem hroot, clean_dropSlashes path, List.length_dropWhile_le _ _, fun _ _ => habs⟩
  · next habs =>
    cases h
    refine ⟨(populate_extends hpop).1.reduce (reduce_idem hred), habs, Nat.le_refl _, ?_⟩
    rintro rfl hne
    exact absurd rfl hne

/-- A path leads from a directory to a node, through nodes that are `ok`, and through links. -/
inductive Leads (disk : Disk) (ok : Nat → Prop) : Tree → Nat → Path → Tree → Nat → Prop
  | here {s : Tree} {c : Nat} : Leads disk ok s c [] s c
  | last {s s' : Tree} {c n : Nat} {path : Path} {v : VfsNode} {kind : Kind} : path ≠ [] →
      behind path = [] → s.look disk c (firstName path) = some (s', .entry n v kind) → ok n →
      Leads disk ok s c path s' n
  | dir {s s₁ s' : Tree} {c n t : Nat} {path : Path} {v : VfsNode} : behind path ≠ [] →
      s.look disk c (firstName path) = some (s₁, .entry n v .dir) → ok n →
      Leads disk ok s₁ n (behind path) s' t → Leads disk ok s c path s' t
  | link {s s₁ s₂ s₃ s' : Tree} {c n c' d t : Nat} {path l rest : Path} {v : VfsNode} :
      behind path ≠ [] → s.look disk c (firstName path) = some (s₁, .entry n v .lnk) → ok n →
      v.symlinkTargetFreed = false → v.symlinkTarget = some l → l ≠ [] →
      s₁.outset disk v.parent l = some (s₂, some (c', rest)) → ok c' →
      Leads disk ok s₂ c' rest s₃ d → IsDir s₃ d → Leads disk ok s₃ d (behind path) s' t →
      Leads disk ok s c path s' t

/-- A path leads from a directory, or from the root directory. -/
def LeadsFrom (disk : Disk) (ok : Nat → Prop) (s : Tree) (parent : Option Nat) (l : Option Path)
    (s' : Tree) (t : Nat) : Prop :=
  ∃ path s₁ c rest, l = some path ∧ path ≠ [] ∧
    s.outset disk parent path = some (s₁, some (c, rest)) ∧ ok c ∧ Leads disk ok s₁ c rest s' t ∧
    (askForDir path = true → rest ≠ [] → IsDir s' t)

section Leads

variable {ok : Nat → Prop} {r : Res}

theorem Leads.reduced (h : Leads disk ok s c path s' t) (hc : s.reduce c = some c) :
    s'.reduce t = some t := by
  induction h with
  | here => exact hc
  | last _ _ hlook _ => exact look_reduced hlook
  | dir _ hlook _ _ ih => exact ih (look_reduced hlook)
  | link _ _ _ _ _ _ hout _ _ _ _ ih₁ ih₂ => exact ih₂ (ih₁ (outset_spec hout).1)

theorem Leads.nil_inv (h : Leads disk ok s c [] s' t) : s' = s ∧ t = c := by
  cases h with
  | here => exact ⟨rfl, rfl⟩
  | last hne => exact absurd rfl hne
  | dir hne => exact absurd rfl hne
  | link hne => exact absurd rfl hne

/-- What the loop finds, `path2node` finds. -/
theorem path2node_of_walk {parent : Option Nat} {rest : Path} (hne : path ≠ [])
    (hout : s.outset disk parent path = some (s₁, some (c, rest)))
    (hnil : rest = [] → s' = s₁ ∧ t = c)
    (hwalk : rest ≠ [] → ∃ depth r, s₁.walk disk (Tree.path2node disk depth) (askForDir path)
      path.length c rest = some (s', r) ∧ r.target = some t) :
    ∃ depth r, s.path2node disk depth parent (some path) = some (s', r) ∧ r.target = some t := by
  have hsucc : ∀ depth, s.path2node disk (depth + 1) parent (some path) =
      s.path2nodeFrom disk (Tree.path2node disk depth) (askForDir path) parent path := by
    intro depth
    cases path with
    | nil => exact absurd rfl hne
    | cons b path => rfl
  by_cases hrest : rest = []
  · obtain ⟨rfl, rfl⟩ := hnil hrest
    refine ⟨1, ⟨some t, some t, some [slash]⟩, ?_, rfl⟩
    rw [hsucc, path2nodeFrom_eq _ _ _ _ _ _ hne, hout]
    simp [hrest]
  · obtain ⟨depth, r, hw, ht⟩ := hwalk hrest
    refine ⟨depth + 1, r, ?_, ht⟩
    rw [hsucc, path2nodeFrom_eq _ _ _ _ _ _ hne, hout]
    simp only [Option.bind_some, Option.elim_some, if_neg hrest]
    exact hw

/-- **The loop of `path2node` follows the path.** -/
theorem Leads.walk (h : Leads disk ok s c path s' t) : ∀ {ask : Bool} {fuel : Nat},
    s.reduce c = some c → path ≠ [] → Clean path → path.length ≤ fuel →
    (ask = true → IsDir s' t) → ∃ depth r,
      s.walk disk (Tree.path2node disk depth) ask fuel c path = some (s', r) ∧
        r.target = some t := by
  induction h with
  | here =>
    intro ask fuel _ hne
    exact absurd rfl hne
  | @last s s' c n path v kind _ hrest hlook _ =>
    intro ask fuel hc hne _ hfuel hask
    obtain ⟨fuel, rfl⟩ : ∃ k, fuel = k + 1 :=
      ⟨fuel - 1, by have := List.length_pos_iff.mpr hne; omega⟩
    obtain ⟨-, -, -, -, hv, hkind⟩ := look_entry hlook
    have hno : ¬ (ask = true ∧ kind ≠ .dir) := by
      rintro ⟨ha, hk⟩
      obtain ⟨w, hw, hdir⟩ := hask ha
      rw [hv] at hw
      obtain rfl := Option.some.inj hw
      exact hk (Option.some.inj (hkind.symm.trans hdir))
    refine ⟨0, ⟨some c, some n, some (firstName path)⟩, ?_, rfl⟩
    rw [walk_last hc hrest hlook, if_neg hno]
  | @dir s s₁ s' c n t path v hrest hlook _ _ ih =>
    intro ask fuel hc hne hclean hfuel hask
    have hlen := behind_length hne hclean
    obtain ⟨fuel, rfl⟩ : ∃ k, fuel = k + 1 := ⟨fuel - 1, by omega⟩
    obtain ⟨depth, r, hw, ht⟩ := ih (look_reduced hlook) hrest (behind_clean path)
      (by omega : _ ≤ fuel) hask
    refine ⟨depth, r, ?_, ht⟩
    rw [walk_dir hc hrest hlook]
    exact hw
  | @link s s₁ s₂ s₃ s' c n c' d t path l rest v hrest hlook _ hkept hl hlne hout _ hin hdir _ ih₁
      ih₂ =>
    intro ask fuel hc hne hclean hfuel hask
    have hlen := behind_length hne hclean
    obtain ⟨fuel, rfl⟩ : ∃ k, fuel = k + 1 := ⟨fuel - 1, by omega⟩
    obtain ⟨hc', hclean', hlen', -⟩ := outset_spec hout
    -- the link
    obtain ⟨depth₁, r₁, hp, ht₁⟩ := path2node_of_walk hlne hout
      (fun hnil => Leads.nil_inv (hnil ▸ hin)) fun hne' => ih₁ hc' hne' hclean' hlen' fun _ => hdir
    -- what is behind it
    obtain ⟨depth₂, r₂, hw, ht₂⟩ := ih₂ (hin.reduced hc') hrest (behind_clean path)
      (by omega : _ ≤ fuel) hask
    refine ⟨max depth₁ depth₂, r₂, ?_, ht₂⟩
    rw [← hl] at hp
    rw [walk_link hc hrest hlook hkept (path2node_mono (Nat.le_max_left _ _) hp) ht₁ hdir]
    refine walk_finer (fun s parent path out h => ?_) hw
    exact path2node_mono (Nat.le_max_right _ _) h

/-- **`path2node` finds where a path leads.** -/
theorem LeadsFrom.path2node {parent : Option Nat} {l : Option Path}
    (h : LeadsFrom disk ok s parent l s' t) :
    ∃ depth r, s.path2node disk depth parent l = some (s', r) ∧ r.target = some t := by
  obtain ⟨path, s₁, c, rest, rfl, hne, hout, -, hin, hask⟩ := h
  obtain ⟨hc, hclean, hlen, -⟩ := outset_spec hout
  exact path2node_of_walk hne hout (fun hnil => Leads.nil_inv (hnil ▸ hin)) fun hne' =>
    hin.walk hc hne' hclean hlen fun ha => hask ha hne'

theorem LeadsFrom.eq {parent : Option Nat} {l : Option Path} {out : Tree × Res}
    (h : LeadsFrom disk ok s parent l s' t) (hout : s.path2node disk depth parent l = some out) :
    out.1 = s' ∧ out.2.target = some t := by
  obtain ⟨depth', r, hr, ht⟩ := h.path2node
  have h₁ := path2node_mono (Nat.le_max_left depth depth') hout
  have h₂ := path2node_mono (Nat.le_max_right depth depth') hr
  obtain rfl := Option.some.inj (h₁.symm.trans h₂)
  exact ⟨rfl, ht⟩

end Leads

/-! ## `reduce_node(n, true)` -/

theorem reduceFollow_hop (h : s.hop n = some m) :
    s.reduceFollow disk depth (fuel + 1) n = s.reduceFollow disk depth fuel m := by
  obtain ⟨v, hv, hm⟩ := Option.bind_eq_some_iff.mp h
  rw [Tree.reduceFollow, hv, Option.bind_eq_bind, Option.bind_some]
  cases hr : v.redir with
  | some k =>
    rw [hr] at hm
    obtain rfl := Option.some.inj hm
    rfl
  | none =>
    rw [hr, Option.none_or] at hm
    rw [hm]

theorem reduceFollow_link {l : Path} (hv : s.node n = some v) (h : s.hop n = none)
    (hl : v.symlinkTarget = some l) :
    s.reduceFollow disk depth (fuel + 1) n =
      if v.symlinkTargetFreed then none
      else (s.path2node disk depth v.parent (some l)).bind fun x =>
        x.2.target.elim (some (x.1, none)) fun t => x.1.reduceFollow disk depth fuel t := by
  rw [hop_eq hv, Option.or_eq_none_iff] at h
  rw [Tree.reduceFollow, hv, Option.bind_eq_bind, Option.bind_some, h.1, h.2, hl]
  simp only
  split
  · rfl
  · rw [Option.bind_eq_bind]
    congr 1
    funext x
    cases x.2.target <;> rfl

theorem reduceFollow_end' (hv : s.node n = some v) (h : s.hop n = none)
    (hl : v.symlinkTarget = none) :
    s.reduceFollow disk depth (fuel + 1) n = some (s, some n) := by
  rw [hop_eq hv, Option.or_eq_none_iff] at h
  rw [Tree.reduceFollow, hv, Option.bind_eq_bind, Option.bind_some, h.1, h.2, hl]

theorem reduceFollow_mono {out : Tree × Option Nat} {depth' fuel' : Nat} (hd : depth ≤ depth')
    (hf : fuel ≤ fuel') (h : s.reduceFollow disk depth fuel n = some out) :
    s.reduceFollow disk depth' fuel' n = some out := by
  induction fuel generalizing s n fuel' with
  | zero => cases h
  | succ fuel ih =>
    obtain ⟨fuel', rfl⟩ : ∃ k, fuel' = k + 1 := ⟨fuel' - 1, by omega⟩
    cases hhop : s.hop n with
    | some m =>
      rw [reduceFollow_hop hhop] at h ⊢
      exact ih (by omega) h
    | none =>
      cases hv : s.node n with
      | none => simp [Tree.reduceFollow, hv] at h
      | some v =>
        cases hl : v.symlinkTarget with
        | none =>
          rw [reduceFollow_end' hv hhop hl] at h ⊢
          exact h
        | some l =>
          rw [reduceFollow_link hv hhop hl] at h ⊢
          split at h
          · cases h
          next hkept =>
          rw [if_neg hkept]
          obtain ⟨x, hx, h⟩ := Option.bind_eq_some_iff.mp h
          refine Option.bind_eq_some_iff.mpr ⟨x, path2node_mono hd hx, ?_⟩
          cases ht : x.2.target with
          | none =>
            rw [ht] at h
            exact h
          | some t =>
            rw [ht] at h
            exact ih (by omega) h

end Lyre.Vfs
