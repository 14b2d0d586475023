import Lyre.Dev.NetInput
import Lyre.Properties.Reassembly

/-!
# What is read of a frame

The handlers believe the lengths in the headers. `Packet.Fits` says which headers go together with
the number of bytes that were received: exactly then no handler reads beyond them, and no one is
told that there are more.

A datagram that has been reassembled is in a block of its own, and is judged by the bytes that are
in it.
-/

namespace Lyre.Net

open Infra.Bytes Infra.Ring

variable {env : Env} {host : Host} {ip : BitVec 32} {header : InetHeader} {data : Mem}
  {len n size : Nat}

/-! ## Accesses -/

/-- The access stays within the `n` bytes that there are. -/
def Access.Within (n : Nat) (a : Access) : Prop := a.len ≤ n - a.off

/-- All accesses to a frame with `n` bytes, and to what has been reassembled, stay within. -/
def Outcome.InBounds (o : Outcome) (n : Nat) : Prop :=
  (∀ a ∈ o.packet, a.Within n) ∧ ∀ a ∈ o.datagram.2, a.Within o.datagram.1

theorem within_read {off len : Nat} : Access.Within n (.read off len) ↔ len ≤ n - off := Iff.rfl

theorem within_told {handler : Handler} {off len : Nat} :
    Access.Within n (.told handler off len) ↔ len ≤ n - off := Iff.rfl

theorem forall_within_nil : (∀ a ∈ ([] : List Access), a.Within n) ↔ True :=
  iff_true_intro fun _ ha => nomatch ha

theorem forall_within_read {off len : Nat} {l : List Access} :
    (∀ a ∈ .read off len :: l, a.Within n) ↔ len ≤ n - off ∧ ∀ a ∈ l, a.Within n :=
  List.forall_mem_cons

theorem forall_within_told {handler : Handler} {off len : Nat} {l : List Access} :
    (∀ a ∈ .told handler off len :: l, a.Within n) ↔ len ≤ n - off ∧ ∀ a ∈ l, a.Within n :=
  List.forall_mem_cons

theorem within_shift (k : Nat) (a : Access) : (a.shift k).Within n ↔ a.Within (n - k) := by
  cases a with
  | read off len => rw [Access.shift, within_read, within_read, Nat.sub_sub]
  | told handler off len => rw [Access.shift, within_told, within_told, Nat.sub_sub]

/-! ## Lengths in headers -/

/-- The length in an IPv4 header counts the header, and nothing that has not been received. -/
def Covered (length size : Nat) : Prop := inetSize ≤ length ∧ length ≤ inetSize + size

/-- A segment of which `size` bytes have been received and `length` were announced has a header,
and it has as many options as the header says. -/
def TcpFits (sockets : List Tcp.Socket) (header : InetHeader) (data : Mem) (length size : Nat) :
    Prop :=
  13 ≤ size ∧ (5 ≤ (Tcp.loadHeader data).doff →
    match Tcp.receiver sockets (Tcp.segmentConn header data) with
    | none => 14 ≤ size
    | some _ => (Tcp.loadHeader data).doff * 4 ≤ length ∨ 2 ^ 32 + length ≤ size)

/-- What is copied of a datagram with its header has been received. -/
def UdpFits (sockets : List Udp.Socket) (data : Mem) (length size : Nat) : Prop :=
  let payload := (bswap16 (Udp.loadHeader data).length).toNat
  Udp.headerSize ≤ length → payload ≤ length →
    match Udp.udpGrabsocket sockets (Udp.loadHeader data).destport with
    | some _ => Udp.headerSize + payload ≤ size
    | none => inetSize + length ≤ size

def Datagram.Fits (host : Host) (d : Datagram) : Prop :=
  let length := d.header.length
  if d.header.protocol = protoICMP then Covered length d.size
  else if d.header.protocol = protoTCP then
    Covered length d.size ∧
      TcpFits host.tcpSockets d.header d.data (length - inetSize) d.size
  else if d.header.protocol = protoUDP then
    Covered length d.size ∧ UdpFits host.udpSockets d.data (length - inetSize) d.size
  else length ≤ d.size

/-! ## Handlers -/

theorem sub64_le_iff (hn : n < 2 ^ 16) (hlen : len < 2 ^ 64) (hsize : size < 2 ^ 64 - n) :
    sub64 len n ≤ size ↔ n ≤ len ∧ len ≤ n + size := by
  unfold sub64 u64
  omega

theorem length_lt (header : InetHeader) : header.length < 2 ^ 16 := BitVec.isLt _

theorem told_iff {handler : Handler} (hsize : size < 2 ^ 64 - 20) :
    Access.Within (inetSize + size) (.told handler inetSize (sub64 header.length inetSize)) ↔
      Covered header.length size := by
  have hlen := length_lt header
  rw [within_told, Nat.add_sub_cancel_left]
  exact sub64_le_iff (by decide) (by omega) hsize

theorem told_cons {handler : Handler} {accesses : List Access} (hsize : size < 2 ^ 64 - 20) {p : Prop}
    (h : Covered header.length size → ((∀ a ∈ accesses, a.Within (inetSize + size)) ↔ p)) :
    (∀ a ∈ .told handler inetSize (sub64 header.length inetSize) :: accesses,
      a.Within (inetSize + size)) ↔ Covered header.length size ∧ p := by
  rw [List.forall_mem_cons, told_iff hsize]
  exact and_congr_right h

theorem netOnicmp_within (hsize : size < 2 ^ 64 - 20) :
    (∀ a ∈ (netOnicmp ip header data (sub64 header.length inetSize)).2,
      a.Within (inetSize + size)) ↔ Covered header.length size := by
  have hlen := length_lt header
  rw [← and_true (Covered _ _)]
  unfold netOnicmp
  split
  · exact told_cons hsize fun _ => by simp
  · next hlong =>
    split
    · refine told_cons hsize fun hc => ?_
      rw [sub64_of_le hc.1 (by omega)] at hlong ⊢
      unfold Covered at hc
      simp only [forall_within_read, forall_within_nil, and_true, iff_true, inetSize, icmpSize] at *
      omega
    · refine told_cons hsize fun hc => ?_
      rw [sub64_of_le hc.1 (by omega)] at hlong
      unfold Covered at hc
      simp only [forall_within_read, forall_within_nil, and_true, iff_true, inetSize, icmpSize] at *
      omega

theorem udpOnudp_within {uenv : Udp.Env} {sockets : List Udp.Socket} (hsize : size < 2 ^ 64 - 20) :
    (∀ a ∈ (Udp.udpOnudp uenv sockets header data (sub64 header.length inetSize)).2.2,
      a.Within (inetSize + size)) ↔
    Covered header.length size ∧ UdpFits sockets data (header.length - inetSize) size := by
  have hlen := length_lt header
  unfold Udp.udpOnudp UdpFits
  split
  · next hshort =>
    refine told_cons hsize fun hc => ?_
    rw [sub64_of_le hc.1 (by omega)] at hshort
    refine iff_of_true (fun a ha => nomatch ha) fun hle => ?_
    omega
  · next hlong =>
    dsimp only
    have hpayload := (bswap16 (Udp.loadHeader data).length).isLt
    split
    · next hdrop =>
      refine told_cons hsize fun hc => ?_
      rw [sub64_of_le hc.1 (by omega)] at hlong hdrop
      unfold Covered at hc
      simp only [forall_within_read, forall_within_nil, and_true, inetSize, Udp.headerSize] at *
      refine iff_of_true (by omega) fun _ hle => ?_
      omega
    · next hkeep =>
      cases Udp.udpGrabsocket sockets (Udp.loadHeader data).destport with
      | some i =>
        refine told_cons hsize fun hc => ?_
        rw [sub64_of_le hc.1 (by omega)] at hlong hkeep
        unfold Covered at hc
        simp only [forall_within_read, forall_within_nil, and_true, inetSize, Udp.headerSize] at *
        omega
      | none =>
        refine told_cons hsize fun hc => ?_
        rw [sub64_of_le hc.1 (by omega)] at hlong hkeep
        unfold Covered at hc
        simp only [forall_within_read, forall_within_nil, and_true, inetSize, Udp.headerSize] at *
        omega

theorem doff_lt (data : Mem) : (Tcp.loadHeader data).doff < 16 := by
  have hbyte := (data 12).isLt
  have heq : (Tcp.loadHeader data).doff = (data 12).toNat / 16 := rfl
  omega

/-- The length of the payload: the options are taken off, and if there are too many of them it
becomes a very large number of 32 bits. -/
theorem len_loadPacket (hdoff : 5 ≤ (Tcp.loadHeader data).doff) (hlen : len < 2 ^ 16) :
    (Tcp.loadPacket data (sub64 len Tcp.headerSize)).len =
      if (Tcp.loadHeader data).doff * 4 ≤ len then len - (Tcp.loadHeader data).doff * 4
      else 2 ^ 32 + len - (Tcp.loadHeader data).doff * 4 := by
  have hdoff' := doff_lt data
  unfold Tcp.Packet.len Tcp.loadPacket sub64 u64 Tcp.headerSize
  simp only [List.length_map, List.length_range]
  split <;> omega

theorem tcpOntcp_within {tenv : Nat → Tcp.Env} {sockets : List Tcp.Socket}
    (hsize : size < 2 ^ 64 - 20) :
    (∀ a ∈ (Tcp.tcpOntcp tenv sockets header data (sub64 header.length inetSize)).2,
      a.Within (inetSize + size)) ↔
    Covered header.length size ∧
      TcpFits sockets header data (header.length - inetSize) size := by
  have hlen := length_lt header
  unfold Tcp.tcpOntcp TcpFits
  simp only [List.cons_append, List.nil_append]
  split
  · next hshort =>
    refine told_cons hsize fun hc => ?_
    simp only [forall_within_read, forall_within_nil, and_true, inetSize, Tcp.headerSize] at *
    omega
  · next hdoff =>
    have hdoff : 5 ≤ (Tcp.loadHeader data).doff := by
      unfold Tcp.headerSize at hdoff
      omega
    rw [imp_iff_right hdoff]
    cases Tcp.receiver sockets (Tcp.segmentConn header data) with
    | none =>
      dsimp only
      split
      · refine told_cons hsize fun hc => ?_
        simp only [forall_within_read, forall_within_nil, and_true, inetSize] at *
        omega
      · split
        · refine told_cons hsize fun hc => ?_
          simp only [forall_within_read, forall_within_nil, and_true, inetSize] at *
          omega
        · refine told_cons hsize fun hc => ?_
          simp only [forall_within_read, forall_within_nil, and_true, inetSize] at *
          omega
    | some r =>
      refine told_cons hsize fun hc => ?_
      rw [sub64_of_le hc.1 (by omega), len_loadPacket hdoff (by omega)]
      have hdoff' := doff_lt data
      unfold Covered at hc
      by_cases hopts : (Tcp.loadHeader data).doff * 4 ≤ header.length - inetSize
      · rw [if_pos hopts]
        simp only [forall_within_read, forall_within_told, forall_within_nil, and_true, inetSize,
          Tcp.headerSize] at *
        omega
      · rw [if_neg hopts]
        simp only [forall_within_read, forall_within_told, forall_within_nil, and_true, inetSize,
          Tcp.headerSize] at *
        omega

/-! ## Packets -/

theorem dispatch_within (env : Env) (host : Host) (d : Datagram) (hsize : d.size < 2 ^ 64 - 20) :
    (∀ a ∈ (dispatch env host d).2, a.Within (inetSize + d.size)) ↔ d.Fits host := by
  unfold dispatch Datagram.Fits
  dsimp only
  split
  · exact netOnicmp_within hsize
  · split
    · exact tcpOntcp_within hsize
    · split
      · exact udpOnudp_within hsize
      · simp only [forall_within_read, forall_within_nil, and_true, inetSize]
        omega

/-- A fragment that is accepted has the bytes that it announces, and if it is the last one the
whole datagram is looked at. -/
def InetFits (env : Env) (host : Host) (buf : Mem) (length : Nat) : Prop :=
  let header := (loadInet buf).cleared
  let data : Mem := fun k => buf (inetSize + k)
  Valid buf length →
    if (loadInet buf).isFragment then
      ∀ m ∈ accepting host.metas header, inetSize + header.dataLen.toNat ≤ length ∧
        (header.moreFragments = false →
          (reassembled (addFragment m header data env.fresh) env.beyond).Fits host)
    else Datagram.Fits host ⟨header, data, length - inetSize⟩

/-- The lengths in the headers of a frame agree with the number of bytes that were received. -/
def Packet.Fits (env : Env) (host : Host) (packet : Packet) : Prop :=
  linkSize ≤ packet.len ∧ (bswap16 (load16 packet.data 12) = ethProtoIPv4 →
    InetFits env host (fun k => packet.data (linkSize + k)) (packet.len - linkSize))

theorem within_of_add_le {a : Access} (h : a.off + a.len ≤ n) : a.Within n := by
  unfold Access.Within
  omega

theorem dispatch_datagram (env : Env) (host : Host) (d : Datagram) :
    (dispatch env host d).1.datagram = (0, []) := by
  unfold dispatch
  dsimp only
  split
  · rfl
  · split
    · rfl
    · split <;> rfl

theorem whole_inBounds_iff (env : Env) (host : Host) {buf : Mem} {length : Nat}
    (hlen : length < 2 ^ 64) (hv : Valid buf length) (hwhole : (loadInet buf).isFragment = false) :
    (netOninet env host buf length).InBounds length ↔
      Datagram.Fits host ⟨(loadInet buf).cleared, fun k => buf (inetSize + k), length - inetSize⟩ := by
  have hlong := hv.long
  have hd := dispatch_within env host
    ⟨(loadInet buf).cleared, fun k => buf (inetSize + k), length - inetSize⟩
    (by unfold inetSize at *; dsimp only; omega)
  dsimp only at hd
  rw [Nat.add_sub_cancel' hlong] at hd
  unfold netOninet Outcome.InBounds
  rw [inetAccept_whole _ _ _ hv hwhole]
  dsimp only
  rw [if_neg (Bool.eq_false_iff.mp hwhole), dispatch_datagram, ← hd]
  simp only [List.singleton_append, List.forall_mem_cons, List.not_mem_nil, false_imp_iff,
    implies_true, and_true, within_read, Nat.sub_zero, hlong, true_and]

theorem size_reassembled_lt (m : Reassmetadata) (beyond : Mem) :
    (reassembled m beyond).size < 2 ^ 64 - 20 := by
  have hlen := m.len.isLt
  unfold reassembled
  dsimp only
  omega

theorem fragment_inBounds_iff (env : Env) (host : Host) {buf : Mem} {length : Nat}
    (hv : Valid buf length) (hfrag : (loadInet buf).isFragment = true) :
    (netOninet env host buf length).InBounds length ↔
      ∀ m ∈ accepting host.metas (loadInet buf).cleared,
        inetSize + (loadInet buf).cleared.dataLen.toNat ≤ length ∧
        ((loadInet buf).cleared.moreFragments = false →
          (reassembled (addFragment m (loadInet buf).cleared (fun k => buf (inetSize + k)) env.fresh)
            env.beyond).Fits host) := by
  have hlong := hv.long
  unfold netOninet
  rw [inetAccept_fragment _ _ _ hv hfrag]
  dsimp only
  obtain ⟨hacc, heq⟩ | ⟨metas', i, m, hacc, hget, -, heq⟩ := netReassemble_cases host.metas
    (loadInet buf).cleared (fun k => buf (inetSize + k)) env.fresh env.beyond
  · rw [heq, hacc]
    refine iff_of_true ⟨?_, fun a ha => nomatch ha⟩ fun m hm => nomatch hm
    intro a ha
    rw [List.mem_singleton.mp ha]
    exact within_of_add_le hlong
  · rw [heq, hacc, reassembleAt, hget]
    dsimp only
    simp only [Option.mem_some_iff, forall_eq']
    have hread : (loadInet buf).cleared.dataLen.toNat ≤ length - inetSize ↔
        inetSize + (loadInet buf).cleared.dataLen.toNat ≤ length := by omega
    cases hmore : (loadInet buf).cleared.moreFragments with
    | true =>
      rw [if_pos rfl]
      unfold Outcome.InBounds
      simp only [forall_within_read, forall_within_nil, and_true, Nat.sub_zero, hlong, true_and,
        hread, Bool.true_eq_false, false_imp_iff]
    | false =>
      rw [if_neg Bool.false_ne_true]
      dsimp only
      rw [if_pos hfrag]
      have hd := dispatch_within env
        { host with metas := metas'.eraseIdx i }
        (reassembled (addFragment m (loadInet buf).cleared (fun k => buf (inetSize + k)) env.fresh)
          env.beyond) (size_reassembled_lt _ _)
      unfold Outcome.InBounds
      dsimp only
      rw [hd]
      simp only [forall_within_read, forall_within_nil, and_true, Nat.sub_zero, hlong, true_and, hread]
      exact and_congr_right fun _ => ⟨fun h _ => h, fun h => h trivial⟩

theorem netOninet_inBounds_iff (env : Env) (host : Host) (buf : Mem) {length : Nat}
    (hlen : length < 2 ^ 64) :
    (netOninet env host buf length).InBounds length ↔ InetFits env host buf length := by
  by_cases hv : Valid buf length
  · rw [InetFits, imp_iff_right hv]
    by_cases hfrag : (loadInet buf).isFragment
    · rw [if_pos hfrag]
      exact fragment_inBounds_iff env host hv hfrag
    · rw [if_neg hfrag]
      exact whole_inBounds_iff env host hlen hv (Bool.eq_false_iff.mpr hfrag)
  · obtain ⟨accesses, heq, hacc⟩ := inetAccept_not_valid host.metas env.fresh env.beyond hv
    unfold netOninet
    rw [heq]
    refine iff_of_true ⟨fun a ha => ?_, fun a ha => nomatch ha⟩ fun h => absurd h hv
    obtain ⟨hle, hlong⟩ := hacc a ha
    exact within_of_add_le (by omega)

theorem netOnarp_inBounds (host : Host) (self : Nat) (buf : Mem) (length : Nat) :
    (netOnarp host self buf length).InBounds length := by
  unfold netOnarp
  split
  · exact ⟨fun a ha => (nomatch ha), fun a ha => nomatch ha⟩
  · next hlong =>
    refine ⟨fun a ha => ?_, fun a ha => nomatch ha⟩
    rw [List.mem_singleton.mp ha]
    exact within_of_add_le (by dsimp only [Access.off, Access.len]; omega)

/-- The handler of a frame is told the right length, and its accesses are some of the frame. -/
theorem inBounds_pass (handler : Handler) (o : Outcome) (hlink : linkSize ≤ n) :
    ({ o with packet := .read 12 2 :: .told handler linkSize (n - linkSize) ::
        o.packet.map (Access.shift linkSize) } : Outcome).InBounds n ↔
      o.InBounds (n - linkSize) := by
  have htype : (2 : Nat) ≤ n - 12 := by
    unfold linkSize at hlink
    omega
  unfold Outcome.InBounds
  simp only [List.forall_mem_cons, List.forall_mem_map, within_read, within_told, within_shift,
    htype, Nat.le_refl, true_and]

/-- **No byte beyond a frame is read exactly if the lengths in its headers fit.** -/
theorem netIfhandler_inBounds_iff (env : Env) (host : Host) (self : Nat) (packet : Packet) :
    (netIfhandler env host self packet).InBounds packet.len ↔ packet.Fits env host := by
  have hlt := packet.lt
  unfold Packet.Fits
  by_cases hlink : linkSize ≤ packet.len
  · have hlen : sub64 packet.len linkSize = packet.len - linkSize := sub64_of_le hlink hlt
    unfold netIfhandler
    dsimp only
    rw [and_iff_right hlink, hlen]
    split
    · next htype =>
      rw [inBounds_pass _ _ hlink, netOninet_inBounds_iff _ _ _ (by omega), imp_iff_right htype]
    · next htype =>
      refine iff_of_true ?_ fun h => absurd h htype
      split
      · exact (inBounds_pass _ _ hlink).mpr (netOnarp_inBounds _ _ _ _)
      · refine ⟨fun a ha => ?_, fun a ha => nomatch ha⟩
        rw [List.mem_singleton.mp ha]
        exact within_of_add_le hlink
  · refine iff_of_false (fun h => hlink ?_) fun h => hlink h.1
    -- the type is read first of all
    have hread : Access.read 12 2 ∈ (netIfhandler env host self packet).packet := by
      unfold netIfhandler
      dsimp only
      split
      · exact List.mem_cons_self
      · split <;> exact List.mem_cons_self
    have hle := within_read.mp (h.1 _ hread)
    unfold linkSize
    omega

/-- A frame that ends behind its IPv4 header, which announces 8 more bytes. -/
def truncatedPacket : Packet where
  data := memOf (etherFrame macBroadcast macBroadcast ethProtoIPv4
    (InetHeader.sealed ⟨5, 4, 0, 0, bswap16 28, 0, 0, 64, protoICMP, 0, 1, 2⟩).bytes)
  len := 34
  lt := by decide

/-- `net_onicmp` is told that there are 8 bytes, where there are none. -/
theorem netIfhandler_truncated :
    ¬ ∀ env host self packet, (netIfhandler env host self packet).InBounds packet.len := by
  intro hall
  let env : Env := ⟨⟨0, 0, []⟩, fun _ => ⟨0, 0, none, fun _ => 0, 0⟩, fun _ => 0, fun _ => 0⟩
  have hmem : Access.told .onicmp 34 8 ∈
      (netIfhandler env ⟨[], [], [], []⟩ 0 truncatedPacket).packet := by
    decide +kernel
  have hwithin := (hall env ⟨[], [], [], []⟩ 0 truncatedPacket).1 _ hmem
  exact absurd (within_told.mp hwithin) (by decide)

end Lyre.Net
