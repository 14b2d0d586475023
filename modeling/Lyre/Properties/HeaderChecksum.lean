import Lyre.Properties.Checksum
import Lyre.Properties.FragmentRuns

/-!
# The checksums of IPv4 headers

`net_oninet` computes the checksum of a header again, with the field taken out, and compares. Where
RFC 1071 would accept two checksums, of which one is all ones, this accepts the other one only,
which is what the header is sent with.
-/

namespace Lyre.Net

open Infra.Bytes Infra.Ring Infra.OnesComplement Slabs

/-- The comparison of `net_oninet`. -/
def InetHeader.Verifies (h : InetHeader) : Prop := h.csum = h.cleared.checksum

/-! ## What is emitted -/

theorem sealed_verifies (h : InetHeader) : h.sealed.Verifies := rfl

/-- The header of an Ethernet frame. -/
def frameHeader (frame : List Byte) : InetHeader := loadInet (memOf (frame.drop linkSize))

theorem frameHeader_etherFrame (dest src : MacAddr) (type : BitVec 16) (h : InetHeader)
    (data : List Byte) : frameHeader (etherFrame dest src type (h.bytes ++ data)) = h := by
  unfold frameHeader
  rw [drop_etherFrame]
  refine loadInet_of_bytes h fun k hk => ?_
  have hlen : k < h.bytes.length := hk
  rw [memOf, List.getD_eq_getElem?_getD, List.getD_eq_getElem?_getD,
    List.getElem?_append_left hlen]

theorem frameHeader_slice (mem : Mem) (buf n : Nat) :
    frameHeader (slice mem buf (linkSize + inetSize + n)) =
      loadInet fun k => mem (buf + linkSize + k) := by
  refine loadInet_congr fun k hk => ?_
  have hlt : linkSize + k < linkSize + inetSize + n := by omega
  have hdrop : ((slice mem buf (linkSize + inetSize + n)).drop linkSize).getD k 0 =
      (slice mem buf (linkSize + inetSize + n)).getD (linkSize + k) 0 := by
    rw [List.getD_eq_getElem?_getD, List.getElem?_drop, ← List.getD_eq_getElem?_getD]
  rw [memOf, hdrop, getD_slice hlt, ← Nat.add_assoc]

theorem fillFragment_verifies (mem : Mem) (buf buffer inetheader poff cop : Nat)
    (tmp : BitVec 16) :
    (loadInet fun k => fillFragment mem buf buffer inetheader poff cop tmp
      (buf + linkSize + k)).Verifies := by
  unfold fillFragment
  rw [loadInet_seal]
  exact sealed_verifies _

theorem netSendinet_verifies {adapters : List Adapter} {adapter a : Adapter}
    {reply : Option MacAddr} {src dest : BitVec 32} {protocol : BitVec 8} {data : List Byte}
    {out : Output} (h : netSendinet adapters adapter reply src dest protocol data = .ok (a, out)) :
    (frameHeader out.frame).Verifies := by
  obtain ⟨⟨mac, hframe⟩, -⟩ := netSendinet_ok h
  rw [hframe, frameHeader_etherFrame]
  exact sealed_verifies _

theorem fragmentLoop_verifies (mtu buffer : Nat) (mf : BitVec 16) :
    ∀ (fuel : Nat) (page : Nat → Nat) (v : Fragmenting),
      ∀ frame ∈ (fragmentLoop mtu buffer mf fuel page v).1, (frameHeader frame).Verifies
  | 0, _, _, frame, h => nomatch h
  | fuel + 1, page, v, frame, h => by
    by_cases hne : v.left = 0
    · rw [fragmentLoop_zero _ _ _ _ _ hne] at h
      nomatch h
    · rw [fragmentLoop_succ _ _ _ _ _ hne] at h
      rcases List.mem_cons.mp h with rfl | h
      · unfold fragmentPass
        dsimp only
        rw [frameHeader_slice]
        exact fillFragment_verifies ..
      · exact fragmentLoop_verifies mtu buffer mf fuel _ _ frame h

theorem netFragment_verifies (mtu : Nat) (heap : State) (page : Nat → Nat) (buffer length : Nat) :
    ∀ frame ∈ (netFragment mtu heap page buffer length).1, (frameHeader frame).Verifies := by
  intro frame h
  unfold netFragment at h
  exact fragmentLoop_verifies _ _ _ _ _ _ frame h

theorem netReassemble_verifies {metas : List Reassmetadata} {header : InetHeader}
    {data fresh beyond : Mem} {d : Datagram}
    (h : (netReassemble metas header data fresh beyond).1 = some d) : d.header.Verifies := by
  rcases netReassemble_cases metas header data fresh beyond with ⟨-, hnone⟩ | ⟨metas', i, m, -, hget, -, hsome⟩
  · rw [hnone] at h
    cases h
  · rw [hsome] at h
    unfold reassembleAt at h
    rw [hget] at h
    dsimp only at h
    split at h
    · cases h
    · cases h
      exact sealed_verifies _

/-! ## What is accepted -/

theorem littleSum_bytes16 (x : BitVec 16) : littleSum (bytes16 x) = x.toNat := by
  have h := x.isLt
  unfold bytes16
  simp only [littleSum, BitVec.extractLsb'_toNat, Nat.shiftRight_eq_div_pow]
  omega

theorem bytes_split (h : InetHeader) : ∃ before behind : List Byte, before.length = 10 ∧
    ∀ c, { h with csum := c }.bytes = before ++ bytes16 c ++ behind :=
  ⟨[h.version ++ h.ihl, h.dscp ++ h.ecn] ++ bytes16 h.len ++ bytes16 h.id ++ bytes16 h.fragoff ++
    [h.ttl, h.protocol], bytes32 h.src ++ bytes32 h.dest, rfl, fun _ => List.append_assoc ..⟩

theorem littleSum_cleared (h : InetHeader) :
    littleSum h.bytes = littleSum h.cleared.bytes + h.csum.toNat := by
  obtain ⟨before, behind, hten, hsplit⟩ := bytes_split h
  have hsum : ∀ c : BitVec 16, littleSum (before ++ bytes16 c ++ behind) =
      littleSum before + c.toNat + littleSum behind := by
    intro c
    have htwelve : (before ++ bytes16 c).length = 12 := by
      rw [List.length_append, hten]
      rfl
    rw [littleSum_append (by rw [htwelve]), littleSum_append (by rw [hten]), littleSum_bytes16]
  have hself : h.bytes = before ++ bytes16 h.csum ++ behind := hsplit h.csum
  have hcleared : h.cleared.bytes = before ++ bytes16 0#16 ++ behind := hsplit 0#16
  rw [hself, hcleared, hsum, hsum, BitVec.toNat_zero]
  omega

theorem littleSum_version {h : InetHeader} (hv : h.version = 4) : littleSum h.bytes ≠ 0 := by
  have hbyte : (h.version ++ h.ihl).toNat = 64 + h.ihl.toNat := by
    have hfour : BitVec.toNat (4 : BitVec 4) <<< 4 = 2 ^ 4 * 4 := rfl
    rw [hv, BitVec.toNat_append, hfour, ← Nat.two_pow_add_eq_or_of_lt h.ihl.isLt]
  have hsum : ∃ rest, littleSum h.bytes = (h.version ++ h.ihl).toNat + rest :=
    ⟨_, Nat.add_assoc ..⟩
  obtain ⟨rest, hrest⟩ := hsum
  omega

/-- A header with version 4 passes if it passes the test of RFC 1071 and its checksum is not all
ones. -/
theorem verifies_iff {h : InetHeader} (hv : h.version = 4) :
    h.Verifies ↔ sum h.bytes = 0xffff ∧ h.csum ≠ 0xffff := by
  have hlt := h.csum.isLt
  have hres := residue_lt (littleSum h.cleared.bytes)
  have hsum : littleSum h.cleared.bytes ≠ 0 := littleSum_version (h := h.cleared) hv
  have hbytes : slice (memOf h.cleared.bytes) 0 (2 * (inetSize / 2)) = h.cleared.bytes := rfl
  have hcsum : h.cleared.checksum = ~~~ BitVec.ofNat 16 (residue (littleSum h.cleared.bytes)) := by
    show netChecksum (memOf h.cleared.bytes) inetSize = _
    rw [Tcp.netChecksum_eq _ (by decide), hbytes]
  have hones : h.csum ≠ 0xffff ↔ h.csum.toNat ≠ 65535 := not_congr BitVec.toNat_inj.symm
  unfold InetHeader.Verifies
  rw [hcsum, ← BitVec.toNat_inj, BitVec.toNat_not, BitVec.toNat_ofNat, Nat.mod_eq_of_lt hres,
    hones, sum_eq_swap, swap_eq_ones_iff (residue_lt _), littleSum_cleared h,
    ← eq_complement_iff hsum hlt]

/-- What is sent or put together passes the comparison, and what passes it is as RFC 1071 says, with
one of the two zeros. -/
theorem headers_verify :
    (∀ adapters adapter reply src dest protocol data a out,
      netSendinet adapters adapter reply src dest protocol data = .ok (a, out) →
        (frameHeader out.frame).Verifies) ∧
    (∀ mtu heap page buffer length, ∀ frame ∈ (netFragment mtu heap page buffer length).1,
      (frameHeader frame).Verifies) ∧
    (∀ metas header data fresh beyond d,
      (netReassemble metas header data fresh beyond).1 = some d → d.header.Verifies) ∧
    ∀ buf, (loadInet buf).version = 4 →
      ((loadInet buf).Verifies ↔
        sum (slice buf 0 inetSize) = 0xffff ∧ (loadInet buf).csum ≠ 0xffff) := by
  refine ⟨fun _ _ _ _ _ _ _ _ _ h => netSendinet_verifies h, netFragment_verifies,
    fun _ _ _ _ _ _ h => netReassemble_verifies h, fun buf hv => ?_⟩
  rw [verifies_iff hv, bytes_loadInet]

end Lyre.Net
