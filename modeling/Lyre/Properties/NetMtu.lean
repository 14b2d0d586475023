import Lyre.Dev.Net
import Lyre.Properties.FragmentTiles

/-!
# Which MTU an adapter can have

The loop of `net_fragment` needs room for 8 bytes behind the headers. With an MTU from 34 to 41 it
takes nothing off `left` and does not end; with a smaller one, the room is computed modulo the size
of a `size_t`, and the datagram is sent whole. `SIOCSIFMTU` compares the MTU that the adapter has
with the maximum of the hardware, and not the one that is asked for, so that all of them can be
reached.
-/

namespace Lyre.Net

open Infra.Bytes Infra.Ring Slabs

variable {mtu n fuel buffer : Nat} {mf : BitVec 16} {page : Nat → Nat} {v : Fragmenting}

/-! ## The loop, whatever is in memory -/

theorem fragmentPass_left (mtu buffer : Nat) (mf : BitVec 16) (p : Nat) (v : Fragmenting) :
    (fragmentPass mtu buffer mf p v).2.left = v.left - cop mtu v.left := rfl

theorem fragmentPass_length (mtu buffer : Nat) (mf : BitVec 16) (p : Nat) (v : Fragmenting) :
    (fragmentPass mtu buffer mf p v).1.length = linkSize + inetSize + cop mtu v.left :=
  length_slice _ _ _

/-- With room for 8 bytes the loop ends, and its frames are no longer than the MTU. -/
theorem fragmentLoop_ends (hc : Cuts mtu n) (buffer : Nat) (mf : BitVec 16) :
    ∀ (page : Nat → Nat) {fuel : Nat} {v : Fragmenting}, v.left ≤ fuel →
      (fragmentLoop mtu buffer mf fuel page v).2.left = 0 ∧
        ∀ frame ∈ (fragmentLoop mtu buffer mf fuel page v).1, frame.length ≤ mtu
  | page, fuel, v, hfuel => by
    by_cases hne : v.left = 0
    · rw [fragmentLoop_zero _ _ _ _ _ hne, fragmentLoop_zero_state _ _ _ _ _ hne]
      exact ⟨hne, fun frame hmem => nomatch hmem⟩
    · cases fuel with
      | zero => omega
      | succ fuel =>
        have hpos := hc.cop_pos hne
        have hleft := fragmentPass_left mtu buffer mf (page 0) v
        have hfuel' : (fragmentPass mtu buffer mf (page 0) v).2.left ≤ fuel := by omega
        obtain ⟨hend, hfits⟩ := fragmentLoop_ends hc buffer mf (fun k => page (k + 1)) hfuel'
        rw [fragmentLoop_succ _ _ _ _ _ hne, fragmentLoop_succ_state _ _ _ _ _ hne]
        refine ⟨hend, fun frame hmem => ?_⟩
        rcases List.mem_cons.mp hmem with rfl | hmem
        · rw [fragmentPass_length]
          exact hc.cop_fits v.left
        · exact hfits frame hmem

theorem fragmentLoop_stuck (hge : 34 ≤ mtu) (hlt : mtu < 42) (buffer : Nat) (mf : BitVec 16) :
    ∀ {fuel : Nat} {page : Nat → Nat} {v : Fragmenting}, 8 ≤ v.left →
      (fragmentLoop mtu buffer mf fuel page v).2.left = v.left
  | 0, _, _, _ => rfl
  | fuel + 1, page, v, hleft => by
    have hroom : room mtu = mtu - 34 := by
      unfold room u64 linkSize inetSize
      omega
    have hcop : cop mtu v.left = 0 := by
      unfold cop nfb
      rw [hroom, if_neg (by omega)]
      omega
    have hsame : (fragmentPass mtu buffer mf (page 0) v).2.left = v.left := by
      rw [fragmentPass_left, hcop, Nat.sub_zero]
    rw [fragmentLoop_succ_state _ _ _ _ _ (by omega),
      fragmentLoop_stuck hge hlt buffer mf (hsame ▸ hleft), hsame]

theorem fragmentLoop_wraps (hlt : mtu < 34) (buffer : Nat) (mf : BitVec 16)
    (page : Nat → Nat) (hleft : v.left < 2 ^ 16) (hfuel : v.left ≤ fuel) :
    (fragmentLoop mtu buffer mf fuel page v).2.left = 0 ∧
      ((fragmentLoop mtu buffer mf fuel page v).1.map List.length =
        if v.left = 0 then [] else [linkSize + inetSize + v.left]) := by
  have hroom : v.left ≤ room mtu := by
    unfold room u64 linkSize inetSize
    omega
  by_cases hne : v.left = 0
  · rw [fragmentLoop_zero _ _ _ _ _ hne, fragmentLoop_zero_state _ _ _ _ _ hne, if_pos hne]
    exact ⟨hne, rfl⟩
  · cases fuel with
    | zero => omega
    | succ fuel =>
      have hdone : (fragmentPass mtu buffer mf (page 0) v).2.left = 0 := by
        rw [fragmentPass_left, cop_last hroom, Nat.sub_self]
      rw [fragmentLoop_succ _ _ _ _ _ hne, fragmentLoop_succ_state _ _ _ _ _ hne,
        fragmentLoop_zero _ _ _ _ _ hdone, fragmentLoop_zero_state _ _ _ _ _ hdone, if_neg hne,
        List.map_singleton, fragmentPass_length, cop_last hroom]
      exact ⟨hdone, rfl⟩

/-! ## A datagram -/

/-- The loop of `net_fragment` ends, if it is run. -/
def Output.Ends (mtu : Nat) (heap : Slabs.State) (page : Nat → Nat) : Output → Prop
  | .fragmented frame => FragmentEnds mtu (frameHeap heap (page 0) frame) (fun k => page (k + 1))
    (slabAlloc heap frame.length (page 0)).1 frame.length
  | _ => True

/-- The hardware can transmit the frame. -/
def Device.Within (d : Device) (frame : List Byte) : Prop :=
  d.hwmtu ≠ 0 → frame.length ≤ d.hwmtu

/-- Every datagram to a remote address is sent, in frames that the hardware can transmit. -/
def Device.Serves (d : Device) : Prop :=
  ∀ (adapters : List Adapter) (reply : Option MacAddr) (src dest : BitVec 32)
    (protocol : BitVec 8) (data : List Byte) (heap : Slabs.State) (page : Nat → Nat),
    d.adapter ∈ adapters → netFindadapterbyip adapters dest = none → data.length ≤ 65501 →
    (∀ frame ∈ arpTransmitted adapters d.adapter reply src dest, d.Within frame) ∧
    ∀ a out, netSendinet adapters d.adapter reply src dest protocol data = .ok (a, out) →
      out.Ends a.mtu heap page ∧ ∀ frame ∈ out.transmitted a.mtu heap page, d.Within frame

/-- The loop ends, and the longest frame of all datagrams is in the limit. -/
def MtuFits (hwmtu mtu : Nat) : Prop :=
  ¬ (34 ≤ mtu ∧ mtu < 42) ∧ (hwmtu = 0 ∨ 65535 ≤ hwmtu ∨ 42 ≤ mtu ∧ mtu ≤ hwmtu)

instance (hwmtu mtu : Nat) : Decidable (MtuFits hwmtu mtu) :=
  inferInstanceAs (Decidable (_ ∧ _))

variable {adapters : List Adapter} {adapter a : Adapter} {reply : Option MacAddr}
  {src dest : BitVec 32} {protocol : BitVec 8} {data frame : List Byte} {out : Output}
  {heap : Slabs.State}

/-- A datagram to a remote address goes to `txpacket` or to `net_fragment`. -/
theorem netSendinet_remote (hremote : netFindadapterbyip adapters dest = none)
    (h : netSendinet adapters adapter reply src dest protocol data = .ok (a, out)) :
    a.mtu = adapter.mtu ∧ out =
      if adapter.mtu ≠ 0 ∧ adapter.mtu < linkSize + inetSize + data.length then
        .fragmented out.frame else .whole out.frame := by
  unfold netSendinet at h
  dsimp only at h
  rw [hremote] at h
  split at h
  · cases h
  · next b mac hb =>
    obtain rfl := hop_adapter hb
    dsimp only at h
    split at h
    · next hmtu =>
      cases h
      exact ⟨rfl, (if_pos hmtu).symm⟩
    · next hmtu =>
      cases h
      exact ⟨rfl, (if_neg hmtu).symm⟩

theorem netSendinet_length
    (h : netSendinet adapters adapter reply src dest protocol data = .ok (a, out)) :
    out.frame.length = linkSize + inetSize + data.length := by
  obtain ⟨⟨mac, hframe⟩, -⟩ := netSendinet_ok h
  rw [hframe, length_etherFrame, List.length_append, length_bytes, Nat.add_assoc]

theorem length_arpRequest (adapter : Adapter) (ip : BitVec 32) :
    (arpRequest adapter ip).length = 42 := by
  unfold arpRequest
  rw [length_etherFrame]
  rfl

theorem netLookup_length (adapters : List Adapter) (adapter : Adapter) (ip : BitVec 32)
    (reply : Option MacAddr) :
    ∀ frame ∈ (netLookup adapters adapter ip reply).2, frame.length = 42 := by
  intro frame hmem
  unfold netLookup at hmem
  split at hmem
  · cases hmem
  · split at hmem
    · cases hmem
    · split at hmem <;>
      · rw [List.mem_singleton.mp hmem]
        exact length_arpRequest adapter ip

theorem arpTransmitted_length (adapters : List Adapter) (adapter : Adapter)
    (reply : Option MacAddr) (src dest : BitVec 32) :
    ∀ frame ∈ arpTransmitted adapters adapter reply src dest, frame.length = 42 := by
  intro frame hmem
  unfold arpTransmitted netRoute at hmem
  dsimp only at hmem
  split at hmem
  · cases hmem
  · split at hmem
    · cases hmem
    · cases hmem
    · next a islocal _ =>
      have hlookup := netLookup_length adapters a (if islocal then dest else a.gateway) reply
      split at hmem
      · next heq =>
        rw [heq] at hlookup
        exact hlookup frame hmem
      · next heq =>
        rw [heq] at hlookup
        exact hlookup frame hmem

/-- What `net_fragment` does with the frame: the loop, for as many passes as it needs. -/
theorem sendFragments_loop (mtu : Nat) (heap : Slabs.State) (page : Nat → Nat)
    (hlen : frame.length = linkSize + inetSize + n) (hfits : n < 2 ^ 16) :
    ∃ mf v, v.left = n ∧
      (sendFragments mtu heap page frame).1 =
        (fragmentLoop mtu (slabAlloc heap frame.length (page 0)).1 mf n
          (fun k => page (k + 1)) v).1 ∧
      ((Output.fragmented frame).Ends mtu heap page ↔
        ∃ fuel, (fragmentLoop mtu (slabAlloc heap frame.length (page 0)).1 mf fuel
          (fun k => page (k + 1)) v).2.left = 0) := by
  have hleft : (frame.length - inetSize - linkSize) % 2 ^ 16 = n := by omega
  have hframes : (sendFragments mtu heap page frame).1 =
      (netFragment mtu (frameHeap heap (page 0) frame) (fun k => page (k + 1))
        (slabAlloc heap frame.length (page 0)).1 frame.length).1 := rfl
  rw [netFragment_eq_run, hleft] at hframes
  unfold Output.Ends FragmentEnds
  dsimp only
  rw [hframes]
  unfold fragmentRun
  dsimp only
  rw [hleft]
  exact ⟨_, _, rfl, rfl, Iff.rfl⟩

/-! ## Which MTU serves -/

variable {d : Device}

theorem fragmented_served (hmtu : MtuFits d.hwmtu mtu) (hlt : mtu < linkSize + inetSize + n)
    (hn : n ≤ 65501) (hlen : frame.length = linkSize + inetSize + n) :
    (Output.fragmented frame).Ends mtu heap page ∧
      ∀ sent ∈ (Output.fragmented frame).transmitted mtu heap page, d.Within sent := by
  obtain ⟨hnot, hlimit⟩ := hmtu
  have htotal : linkSize + inetSize + n ≤ 65535 := by
    unfold linkSize inetSize
    omega
  obtain ⟨mf, v, hleft, hframes, hends⟩ := sendFragments_loop mtu heap page hlen
    (by omega)
  unfold Output.transmitted
  dsimp only
  rw [hends, hframes]
  by_cases hsmall : mtu < 34
  · obtain ⟨hend, hlens⟩ := fragmentLoop_wraps (v := v) hsmall
      (slabAlloc heap frame.length (page 0)).1 mf (fun k => page (k + 1)) (by omega)
      (Nat.le_of_eq hleft)
    refine ⟨⟨n, hend⟩, fun sent hmem hne => ?_⟩
    have hmem := List.mem_map_of_mem (f := List.length) hmem
    rw [hlens, hleft] at hmem
    split at hmem
    · cases hmem
    · rw [List.mem_singleton.mp hmem]
      omega
  · have hc : Cuts mtu n := ⟨by unfold linkSize inetSize; omega, hlt, by omega⟩
    obtain ⟨hend, hlens⟩ := fragmentLoop_ends hc (slabAlloc heap frame.length (page 0)).1 mf
      (fun k => page (k + 1)) (Nat.le_of_eq hleft)
    refine ⟨⟨n, hend⟩, fun sent hmem hne => ?_⟩
    have hle := hlens sent hmem
    omega

theorem serves_of_fits (h : MtuFits d.hwmtu d.adapter.mtu) : d.Serves := by
  intro adapters reply src dest protocol data heap page _ hremote hdata
  refine ⟨fun frame hmem hne => ?_, fun a out hsend => ?_⟩
  · rw [arpTransmitted_length _ _ _ _ _ frame hmem]
    have hlimit := h.2
    omega
  · obtain ⟨hmtu, hout⟩ := netSendinet_remote hremote hsend
    have hlen := netSendinet_length hsend
    rw [hmtu, hout]
    split
    · next hcut => exact fragmented_served h hcut.2 hdata hlen
    · next hwhole =>
      refine ⟨trivial, fun sent hmem hne => ?_⟩
      rw [List.mem_singleton.mp hmem, hlen]
      have hlimit := h.2
      unfold linkSize inetSize at *
      omega

theorem netLookup_reply (adapters : List Adapter) (adapter : Adapter) (ip : BitVec 32)
    (mac : MacAddr) : ∃ mac', (netLookup adapters adapter ip (some mac)).1 = .ok mac' := by
  unfold netLookup
  split
  · next a _ => exact ⟨a.mac, rfl⟩
  · split
    · next mac' _ => exact ⟨mac', rfl⟩
    · exact ⟨mac, rfl⟩

theorem netRoute_reply (adapters : List Adapter) (adapter : Adapter) (dest : BitVec 32)
    (mac : MacAddr) : ∃ mac',
      (netRoute adapters (some adapter) inaddrAny dest (some mac)).1 = .ok (adapter, mac') := by
  obtain ⟨mac', hmac⟩ := netLookup_reply adapters adapter
    (if adapter.reaches dest then dest else adapter.gateway) mac
  refine ⟨mac', ?_⟩
  unfold netRoute
  dsimp only
  rw [if_neg fun hany => hany.1 rfl]
  dsimp only
  rcases hlookup : netLookup adapters adapter
    (if adapter.reaches dest then dest else adapter.gateway) (some mac) with ⟨r, sent⟩
  rw [hlookup] at hmac
  dsimp only at hmac
  rw [hmac]

theorem exists_netSendinet (adapter : Adapter) (data : List Byte) :
    ∃ dest a out, netFindadapterbyip [adapter] dest = none ∧
      netSendinet [adapter] adapter (some macBroadcast) inaddrAny dest protoUDP data =
        .ok (a, out) := by
  have hne : adapter.ip ≠ adapter.ip + 1 := by
    intro heq
    have hnat := congrArg BitVec.toNat heq
    rw [BitVec.toNat_add] at hnat
    have hlt := adapter.ip.isLt
    have hone : (1 : BitVec 32).toNat = 1 := rfl
    omega
  have hremote : netFindadapterbyip [adapter] (adapter.ip + 1) = none := by
    unfold netFindadapterbyip
    rw [List.find?_singleton, if_neg fun hdec => hne (of_decide_eq_true hdec)]
  obtain ⟨mac, hmac⟩ := netRoute_reply [adapter] adapter (adapter.ip + 1) macBroadcast
  have hhop : ∃ mac, (if adapter.ip + 1 = inaddrBroadcast then .ok (adapter, macBroadcast)
      else (netRoute [adapter] (some adapter) inaddrAny (adapter.ip + 1) (some macBroadcast)).1) =
        .ok (adapter, mac) := by
    split
    · exact ⟨_, rfl⟩
    · exact ⟨mac, hmac⟩
  obtain ⟨mac', hmac'⟩ := hhop
  refine ⟨adapter.ip + 1, { adapter with ipframe := adapter.ipframe + 1 }, ?_⟩
  unfold netSendinet
  dsimp only
  rw [hremote, hmac']
  dsimp only
  split
  · exact ⟨_, rfl, rfl⟩
  · exact ⟨_, rfl, rfl⟩

theorem Device.Serves.send (h : d.Serves) (hn : n ≤ 65501) (heap : Slabs.State)
    (page : Nat → Nat) :
    ∃ out : Output, out.frame.length = linkSize + inetSize + n ∧
      (out = if d.adapter.mtu ≠ 0 ∧ d.adapter.mtu < linkSize + inetSize + n then
        .fragmented out.frame else .whole out.frame) ∧
      out.Ends d.adapter.mtu heap page ∧
      ∀ sent ∈ out.transmitted d.adapter.mtu heap page, d.Within sent := by
  obtain ⟨dest, a, out, hremote, hsend⟩ :=
    exists_netSendinet d.adapter (List.replicate n (0 : Byte))
  obtain ⟨hmtu, hout⟩ := netSendinet_remote hremote hsend
  have hlen := netSendinet_length hsend
  have hserved := (h [d.adapter] (some macBroadcast) inaddrAny dest protoUDP
    (List.replicate n (0 : Byte)) heap page (List.mem_singleton_self _) hremote
    (by rw [List.length_replicate]; exact hn)).2 a out hsend
  rw [List.length_replicate] at hout hlen
  rw [hmtu] at hserved
  exact ⟨out, hlen, hout, hserved⟩

theorem Device.Serves.not_stuck (h : d.Serves) : ¬ (34 ≤ d.adapter.mtu ∧ d.adapter.mtu < 42) := by
  rintro ⟨hge, hlt⟩
  obtain ⟨out, hlen, hout, hends, -⟩ := h.send (n := 100) (by decide) sampleBoot.st fun _ => 0
  rw [if_pos ⟨by omega, by unfold linkSize inetSize; omega⟩] at hout
  rw [hout] at hends
  obtain ⟨mf, v, hleft, -, hiff⟩ := sendFragments_loop d.adapter.mtu sampleBoot.st (fun _ => 0)
    hlen (by decide)
  obtain ⟨fuel, hend⟩ := hiff.mp hends
  rw [fragmentLoop_stuck hge hlt _ _ (by omega)] at hend
  omega

theorem Device.Serves.whole_le (h : d.Serves) (hne : d.hwmtu ≠ 0) (hn : n ≤ 65501)
    (hwhole : d.adapter.mtu = 0 ∨ linkSize + inetSize + n ≤ d.adapter.mtu) :
    linkSize + inetSize + n ≤ d.hwmtu := by
  obtain ⟨out, hlen, hout, -, hwithin⟩ := h.send hn sampleBoot.st fun _ => 0
  rw [if_neg (by omega)] at hout
  rw [hout] at hwithin
  rw [← hlen]
  exact hwithin out.frame (List.mem_singleton_self _) hne

theorem Device.Serves.wraps_le (h : d.Serves) (hne : d.hwmtu ≠ 0) (hpos : d.adapter.mtu ≠ 0)
    (hlt : d.adapter.mtu < 34) : 65535 ≤ d.hwmtu := by
  obtain ⟨out, hlen, hout, -, hwithin⟩ := h.send (Nat.le_refl 65501) sampleBoot.st fun _ => 0
  rw [if_pos ⟨hpos, by unfold linkSize inetSize; omega⟩] at hout
  rw [hout] at hwithin
  obtain ⟨mf, v, hleft, hframes, -⟩ := sendFragments_loop d.adapter.mtu sampleBoot.st (fun _ => 0)
    hlen (by decide)
  obtain ⟨-, hlens⟩ := fragmentLoop_wraps (v := v) hlt
    (slabAlloc sampleBoot.st out.frame.length 0).1 mf (fun _ => 0) (by omega)
    (Nat.le_of_eq hleft)
  rw [hleft, if_neg (by decide), ← hframes] at hlens
  obtain ⟨sent, hmem, hsent⟩ := List.mem_map.mp (hlens ▸ List.mem_singleton_self _)
  have hle := hwithin sent hmem hne
  rw [hsent] at hle
  exact hle

/-- **Which MTU serves.** -/
theorem serves_iff (d : Device) : d.Serves ↔ MtuFits d.hwmtu d.adapter.mtu := by
  refine ⟨fun h => ⟨h.not_stuck, ?_⟩, serves_of_fits⟩
  have hstuck := h.not_stuck
  by_contra hlimit
  rw [not_or, not_or] at hlimit
  obtain ⟨hne, hsmall, hmtu⟩ := hlimit
  by_cases hzero : d.adapter.mtu = 0
  · exact hsmall (h.whole_le hne (Nat.le_refl 65501) (.inl hzero))
  · by_cases hlt : d.adapter.mtu < 34
    · exact hsmall (h.wraps_le hne hzero hlt)
    · have hle := h.whole_le (n := min d.adapter.mtu 65535 - 34) hne (by omega)
        (.inr (by unfold linkSize inetSize; omega))
      unfold linkSize inetSize at hle
      omega

/-! ## Requests -/

def mtuNext (this : Device) (ifruMtu : BitVec 32) : Device := (siocsifmtu this ifruMtu).2

/-- The adapter serves after the request: the MTU that is asked for fits, or the one that there is
fits and the request is refused. -/
def Device.Allows (this : Device) (ifruMtu : BitVec 32) : Prop :=
  if this.hwmtu ≠ 0 ∧ (this.hwmtu < this.adapter.mtu ∨ ifruMtu = 0) then
    MtuFits this.hwmtu this.adapter.mtu
  else MtuFits this.hwmtu (mtuOf ifruMtu)

/-- The MTU that `net_register` sets. -/
theorem netRegister_mtu (this : Device) :
    (netRegister this).hwmtu = this.hwmtu ∧ (netRegister this).adapter.mtu =
      if this.type &&& netAdapterLo ≠ 0 then 0 else 1500 := by
  have hether := this.ether
  unfold netRegister Device.setMtu
  dsimp only
  split
  · exact ⟨rfl, rfl⟩
  · exact ⟨rfl, rfl⟩

theorem mtuNext_fits_iff (this : Device) (ifruMtu : BitVec 32) :
    MtuFits (mtuNext this ifruMtu).hwmtu (mtuNext this ifruMtu).adapter.mtu ↔
      this.Allows ifruMtu := by
  unfold mtuNext siocsifmtu Device.Allows
  by_cases hmax : this.hwmtu ≠ 0
  · rw [if_pos hmax]
    by_cases hover : this.hwmtu < this.adapter.mtu
    · rw [if_pos hover, if_pos ⟨hmax, .inl hover⟩]
    · rw [if_neg hover]
      by_cases hzero : ifruMtu = 0
      · rw [if_neg (not_not_intro hzero), if_pos ⟨hmax, .inr hzero⟩]
      · rw [if_pos hzero, if_neg fun hrefused => not_or.mpr ⟨hover, hzero⟩ hrefused.2]
        rfl
  · rw [if_neg hmax, if_neg fun hrefused => hmax hrefused.1]
    rfl

/-- **Which requests an adapter survives**, in every run from `net_register`. -/
theorem mtu_serves_iff (this : Device) :
    ((netRegister this).Serves ↔
      MtuFits this.hwmtu (if this.type &&& netAdapterLo ≠ 0 then 0 else 1500)) ∧
    ∀ (requests : List (BitVec 32)) (ifruMtu : BitVec 32),
      (siocsifmtu (requests.foldl mtuNext (netRegister this)) ifruMtu).2.Serves ↔
        (requests.foldl mtuNext (netRegister this)).Allows ifruMtu := by
  constructor
  · obtain ⟨hhwmtu, hmtu⟩ := netRegister_mtu this
    rw [serves_iff, hhwmtu, hmtu]
  · intro requests ifruMtu
    rw [serves_iff]
    exact mtuNext_fits_iff _ ifruMtu

/-- An adapter of `e8254x`. -/
def sampleDevice : Device := ⟨smallAdapter, netAdapterEth, 1522, by decide⟩

/-- An MTU of 40 is accepted, and so is one of 9000. -/
theorem mtu_not_served :
    ¬ (mtuNext (netRegister sampleDevice) 40).Serves ∧
      ¬ (mtuNext (netRegister sampleDevice) 9000).Serves := by
  rw [serves_iff, serves_iff]
  decide

end Lyre.Net
