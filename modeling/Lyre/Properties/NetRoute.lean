import Lyre.Dev.Net
import Mathlib.Data.List.Basic

/-!
# The route that `net_route` finds

Without an adapter to begin with, the adapters that the local address allows are looked through
once. An adapter in the network of the remote address takes the place of any other one; an adapter
with a gateway takes that of another one like it.
-/

namespace Lyre.Net

/-- The local address allows the adapter. -/
def Adapter.Eligible (adapter : Adapter) (localAddr : BitVec 32) : Prop :=
  localAddr = inaddrAny ∨ adapter.ip = localAddr

variable {localAddr remote : BitVec 32}

/-- An adapter and the address that it resolves, if there is a route at all. -/
inductive Chosen (adapters : List Adapter) (localAddr remote : BitVec 32) :
    Option (Adapter × BitVec 32) → Prop where
  | onLink {a : Adapter} (hmem : a ∈ adapters) (heligible : a.Eligible localAddr)
      (hreaches : a.reaches remote = true) : Chosen adapters localAddr remote (some (a, remote))
  | gateway {a : Adapter} (hmem : a ∈ adapters) (heligible : a.Eligible localAddr)
      (hgateway : a.gateway ≠ 0)
      (hfar : ∀ b ∈ adapters, b.Eligible localAddr → b.reaches remote = false) :
      Chosen adapters localAddr remote (some (a, a.gateway))
  | unreachable
      (hfar : ∀ b ∈ adapters, b.Eligible localAddr → b.reaches remote = false)
      (hgateway : ∀ b ∈ adapters, b.Eligible localAddr → b.gateway = 0) :
      Chosen adapters localAddr remote none

theorem Chosen.perm {adapters adapters' : List Adapter} {c : Option (Adapter × BitVec 32)}
    (hperm : adapters'.Perm adapters) (h : Chosen adapters' localAddr remote c) :
    Chosen adapters localAddr remote c := by
  cases h with
  | onLink hmem heligible hreaches => exact .onLink (hperm.mem_iff.mp hmem) heligible hreaches
  | gateway hmem heligible hgateway hfar =>
    exact .gateway (hperm.mem_iff.mp hmem) heligible hgateway fun b hb =>
      hfar b (hperm.mem_iff.mpr hb)
  | unreachable hfar hgateway =>
    exact .unreachable (fun b hb => hfar b (hperm.mem_iff.mpr hb)) fun b hb =>
      hgateway b (hperm.mem_iff.mpr hb)

/-! ## The loop -/

theorem not_eligible_iff {a : Adapter} :
    ¬ a.Eligible localAddr ↔ localAddr ≠ inaddrAny ∧ a.ip ≠ localAddr :=
  not_or

/-- What the loop makes of the choice so far: an adapter in the network of the remote address is
kept; a provisional choice gives way to any other one. -/
inductive Scanned (localAddr remote : BitVec 32) (rest : List Adapter)
    (before : Option Adapter × Bool) : Option Adapter × Bool → Prop where
  | onLink {a : Adapter} (hmem : a ∈ rest) (heligible : a.Eligible localAddr)
      (hreaches : a.reaches remote = true) : Scanned localAddr remote rest before (some a, true)
  | gateway {a : Adapter} (hbefore : before.2 = false) (hmem : a ∈ rest)
      (heligible : a.Eligible localAddr) (hgateway : a.gateway ≠ 0)
      (hfar : ∀ b ∈ rest, b.Eligible localAddr → b.reaches remote = false) :
      Scanned localAddr remote rest before (some a, false)
  | same (hfar : ∀ b ∈ rest, b.Eligible localAddr → b.reaches remote = false)
      (hgateway : before.2 = false → ∀ b ∈ rest, b.Eligible localAddr → b.gateway = 0) :
      Scanned localAddr remote rest before before

namespace Scanned

variable {it : Adapter} {rest : List Adapter} {before r : Option Adapter × Bool}

theorem skip (h : Scanned localAddr remote rest before r)
    (hfar : it.Eligible localAddr → it.reaches remote = false)
    (hgateway : before.2 = false → it.Eligible localAddr → it.gateway = 0) :
    Scanned localAddr remote (it :: rest) before r := by
  cases h with
  | onLink hmem heligible hreaches =>
    exact .onLink (List.mem_cons_of_mem it hmem) heligible hreaches
  | gateway hbefore hmem heligible hgw hrest =>
    exact .gateway hbefore (List.mem_cons_of_mem it hmem) heligible hgw
      (List.forall_mem_cons.mpr ⟨hfar, hrest⟩)
  | same hrest hgw =>
    exact .same (List.forall_mem_cons.mpr ⟨hfar, hrest⟩) fun hb =>
      List.forall_mem_cons.mpr ⟨hgateway hb, hgw hb⟩

theorem take (h : Scanned localAddr remote rest (some it, true) r)
    (heligible : it.Eligible localAddr) (hreaches : it.reaches remote = true) :
    Scanned localAddr remote (it :: rest) before r := by
  cases h with
  | onLink hmem heligible' hreaches' =>
    exact .onLink (List.mem_cons_of_mem it hmem) heligible' hreaches'
  | gateway hbefore => cases hbefore
  | same => exact .onLink List.mem_cons_self heligible hreaches

theorem provisional (h : Scanned localAddr remote rest (some it, false) r)
    (hbefore : before.2 = false) (heligible : it.Eligible localAddr) (hgateway : it.gateway ≠ 0)
    (hfar : it.reaches remote = false) : Scanned localAddr remote (it :: rest) before r := by
  cases h with
  | onLink hmem heligible' hreaches =>
    exact .onLink (List.mem_cons_of_mem it hmem) heligible' hreaches
  | gateway _ hmem heligible' hgateway' hrest =>
    exact .gateway hbefore (List.mem_cons_of_mem it hmem) heligible' hgateway'
      (List.forall_mem_cons.mpr ⟨fun _ => hfar, hrest⟩)
  | same hrest =>
    exact .gateway hbefore List.mem_cons_self heligible hgateway
      (List.forall_mem_cons.mpr ⟨fun _ => hfar, hrest⟩)

end Scanned

theorem routeLoop_scanned (localAddr remote : BitVec 32) :
    ∀ (rest : List Adapter) (before : Option Adapter × Bool),
      Scanned localAddr remote rest before (routeLoop localAddr remote rest before)
  | [], before => .same (fun b hb => nomatch hb) fun _ b hb => nomatch hb
  | it :: rest, (adapter, islocal) => by
    rw [routeLoop]
    by_cases heligible : it.Eligible localAddr
    · rw [if_neg (mt not_eligible_iff.mpr (not_not_intro heligible))]
      cases hreaches : it.reaches remote
      · rw [if_neg Bool.false_ne_true]
        by_cases hgateway : !islocal ∧ it.gateway ≠ 0
        · rw [if_pos hgateway]
          have hislocal : islocal = false := by simpa using hgateway.1
          subst hislocal
          exact (routeLoop_scanned localAddr remote rest _).provisional rfl heligible hgateway.2
            hreaches
        · rw [if_neg hgateway]
          refine (routeLoop_scanned localAddr remote rest _).skip (fun _ => hreaches) ?_
          intro hislocal _
          dsimp only at hislocal
          subst hislocal
          simpa using hgateway
      · rw [if_pos rfl]
        exact (routeLoop_scanned localAddr remote rest _).take heligible hreaches
    · rw [if_pos (not_eligible_iff.mp heligible)]
      exact (routeLoop_scanned localAddr remote rest _).skip (fun h => absurd h heligible)
        fun _ h => absurd h heligible

/-! ## The route -/

/-- What `net_route` does with its choice. -/
def resolve (adapters : List Adapter) (reply : Option MacAddr) :
    Option (Adapter × BitVec 32) → Except Errno (Adapter × MacAddr) × List (List Byte)
  | none => (.error .enetunreach, [])
  | some (a, hop) =>
    ((netLookup adapters a hop reply).1.map (a, ·), (netLookup adapters a hop reply).2)

theorem netRoute_none (adapters : List Adapter) (localAddr remote : BitVec 32)
    (reply : Option MacAddr) :
    netRoute adapters none localAddr remote reply =
      resolve adapters reply ((routeLoop localAddr remote adapters (none, false)).1.map fun a =>
        (a, if (routeLoop localAddr remote adapters (none, false)).2 then remote
          else a.gateway)) := by
  unfold netRoute
  dsimp only
  rcases routeLoop localAddr remote adapters (none, false) with ⟨_ | a, islocal⟩
  · rfl
  · unfold resolve
    dsimp only [Option.map_some]
    generalize netLookup adapters a (if islocal then remote else a.gateway) reply = l
    rcases l with ⟨_ | _, _⟩ <;> rfl

theorem netRoute_chosen (adapters : List Adapter) (localAddr remote : BitVec 32)
    (reply : Option MacAddr) :
    ∃ c, Chosen adapters localAddr remote c ∧
      netRoute adapters none localAddr remote reply = resolve adapters reply c := by
  have hscan := routeLoop_scanned localAddr remote adapters (none, false)
  rw [netRoute_none]
  generalize routeLoop localAddr remote adapters (none, false) = r at hscan ⊢
  cases hscan with
  | onLink hmem heligible hreaches => exact ⟨_, .onLink hmem heligible hreaches, rfl⟩
  | gateway _ hmem heligible hgateway hfar =>
    exact ⟨_, .gateway hmem heligible hgateway hfar, rfl⟩
  | same hfar hgateway => exact ⟨none, .unreachable hfar (hgateway rfl), rfl⟩

/-- A resolution fails with `ENETUNREACH` only. -/
theorem netLookup_error {adapters : List Adapter} {a : Adapter} {hop : BitVec 32}
    {reply : Option MacAddr} {errno : Errno}
    (h : (netLookup adapters a hop reply).1 = .error errno) : errno = .enetunreach := by
  unfold netLookup at h
  split at h
  · cases h
  · split at h
    · cases h
    · split at h
      · cases h
      · cases h
        rfl

theorem resolve_error_iff (adapters : List Adapter) (reply : Option MacAddr)
    (c : Option (Adapter × BitVec 32)) (errno : Errno) :
    (resolve adapters reply c).1 = .error errno ↔
      errno = .enetunreach ∧
        ∀ a hop, c = some (a, hop) → (netLookup adapters a hop reply).1 = .error .enetunreach := by
  cases c with
  | none =>
    unfold resolve
    simp [eq_comm]
  | some choice =>
    obtain ⟨a, hop⟩ := choice
    unfold resolve
    dsimp only
    cases hlookup : (netLookup adapters a hop reply).1 with
    | error e =>
      obtain rfl := netLookup_error hlookup
      simp [Except.map, hlookup, eq_comm]
    | ok mac => simp [Except.map, hlookup]

/-- `net_route` without an adapter, in whichever order the adapters have been registered. -/
theorem netRoute_spec (adapters adapters' : List Adapter) (hperm : adapters'.Perm adapters)
    (localAddr remote : BitVec 32) (reply : Option MacAddr) :
    ∃ c, Chosen adapters localAddr remote c ∧
      netRoute adapters' none localAddr remote reply = resolve adapters' reply c ∧
      ∀ errno, (netRoute adapters' none localAddr remote reply).1 = .error errno ↔
        errno = .enetunreach ∧
          ((∀ a ∈ adapters, a.Eligible localAddr → a.reaches remote = false ∧ a.gateway = 0) ∨
            ∃ a hop, c = some (a, hop) ∧
              (netLookup adapters' a hop reply).1 = .error .enetunreach) := by
  obtain ⟨c, hc, hroute⟩ := netRoute_chosen adapters' localAddr remote reply
  refine ⟨c, hc.perm hperm, hroute, fun errno => ?_⟩
  rw [hroute, resolve_error_iff]
  refine and_congr_right fun _ => ?_
  cases hc.perm hperm with
  | unreachable hfar hgateway =>
    exact iff_of_true (fun a hop h => nomatch h)
      (.inl fun a ha heligible => ⟨hfar a ha heligible, hgateway a ha heligible⟩)
  | @onLink a hmem heligible hreaches =>
    constructor
    · exact fun h => .inr ⟨a, remote, rfl, h a remote rfl⟩
    · rintro (hnone | ⟨b, hop, heq, hfail⟩) b' hop' heq'
      · rw [(hnone a hmem heligible).1] at hreaches
        cases hreaches
      · cases heq
        cases heq'
        exact hfail
  | @gateway a hmem heligible hgateway hfar =>
    constructor
    · exact fun h => .inr ⟨a, a.gateway, rfl, h a a.gateway rfl⟩
    · rintro (hnone | ⟨b, hop, heq, hfail⟩) b' hop' heq'
      · exact absurd (hnone a hmem heligible).2 hgateway
      · cases heq
        cases heq'
        exact hfail

/-- An adapter with a gateway. -/
def wan : Adapter where
  mac := fun _ => 0x52
  ip := 0x0f02000a
  gateway := 0x0202000a
  subnetmask := 0x00ffffff
  ipframe := 0
  mtu := 1500
  addrcache := []

/-- An adapter of another network, without one. -/
def lan : Adapter := { wan with ip := 0x0201a8c0, gateway := 0 }

theorem netRoute_spec_lan :
    ∃ c, Chosen [wan, lan] inaddrAny 0x0701a8c0 c ∧
      netRoute [lan, wan] none inaddrAny 0x0701a8c0 none = resolve [lan, wan] none c ∧
      ∀ errno, (netRoute [lan, wan] none inaddrAny 0x0701a8c0 none).1 = .error errno ↔
        errno = .enetunreach ∧
          ((∀ a ∈ [wan, lan], a.Eligible inaddrAny →
              a.reaches 0x0701a8c0 = false ∧ a.gateway = 0) ∨
            ∃ a hop, c = some (a, hop) ∧
              (netLookup [lan, wan] a hop none).1 = .error .enetunreach) :=
  netRoute_spec [wan, lan] [lan, wan] (List.Perm.swap wan lan []) inaddrAny 0x0701a8c0 none

end Lyre.Net
