import Lyre.Dev.NetInput
import Lyre.Properties.NetSend

/-!
# UDP from the sender to the socket

`udp_sendpacket` stores a length that counts the header, and `udp_onudp` passes it on to
`udp_netpacket` as the length of what is behind the header. So every packet that is queued has 8
bytes too many.
-/

namespace Lyre.Udp

open Infra.Bytes Infra.Ring Net

variable {adapters : List Adapter} {adapter a : Adapter} {reply : Option MacAddr}
  {src dest : BitVec 32} {srcport destport : BitVec 16} {payload : List Byte} {out : Output}
  {env : Net.Env} {host : Host} {socket after : Socket} {i : Nat}

/-! ## The datagram -/

@[simp] theorem length_header (h : Header) : h.bytes.length = headerSize := rfl

theorem loadHeader_of_bytes {buf : Mem} (h : Header)
    (hbuf : ∀ k < headerSize, buf k = h.bytes.getD k 0) : loadHeader buf = h := by
  have hsrc : load16 buf 0 = h.srcport :=
    load16_of_bytes (hbuf 0 (by decide)) (hbuf 1 (by decide))
  have hdest : load16 buf 2 = h.destport :=
    load16_of_bytes (hbuf 2 (by decide)) (hbuf 3 (by decide))
  have hlen : load16 buf 4 = h.length :=
    load16_of_bytes (hbuf 4 (by decide)) (hbuf 5 (by decide))
  have hcsum : load16 buf 6 = h.csum :=
    load16_of_bytes (hbuf 6 (by decide)) (hbuf 7 (by decide))
  rw [loadHeader, hsrc, hdest, hlen, hcsum]

/-- The header in front of a payload that fits. -/
def sendHeader (srcport destport : BitVec 16) (n : Nat) : Header :=
  ⟨srcport, destport, bswap16 (BitVec.ofNat 16 (headerSize + n)), 0⟩

theorem sendData_eq (h : payload.length ≤ 65507) :
    sendData srcport destport payload =
      (sendHeader srcport destport payload.length).bytes ++ payload := by
  unfold sendData
  refine List.take_of_length_le ?_
  rw [List.length_append, length_header, BitVec.toNat_ofNat, Nat.mod_eq_of_lt]
  unfold headerSize
  omega

theorem length_sendData (srcport destport : BitVec 16) (h : payload.length ≤ 65507) :
    (sendData srcport destport payload).length = headerSize + payload.length := by
  rw [sendData_eq h, List.length_append, length_header]

/-- `net_oninet` finds a datagram for `udp_onudp`. -/
theorem dispatch_sent {n : Nat} (env : Net.Env) (host : Host) (h : inetSize + n < 2 ^ 16)
    (data : Mem) (size : Nat) :
    (dispatch env host ⟨(Net.sendHeader adapter dest protoUDP n).cleared, data, size⟩).1.host.udpSockets
      = (udpOnudp env.udp host.udpSockets (Net.sendHeader adapter dest protoUDP n).cleared data n).1 := by
  have hlen : sub64 (Net.sendHeader adapter dest protoUDP n).cleared.length inetSize = n := by
    have hlength := length_sendHeader adapter dest protoUDP h
    have hcleared : (Net.sendHeader adapter dest protoUDP n).cleared.length = inetSize + n := hlength
    rw [hcleared, sub64_of_le (Nat.le_add_right _ _) (by omega), Nat.add_sub_cancel_left]
  have hproto : (Net.sendHeader adapter dest protoUDP n).cleared.protocol = protoUDP := rfl
  unfold dispatch
  dsimp only
  rw [hproto, if_neg (by decide), if_neg (by decide), if_pos rfl, hlen]

theorem udpGrabsocket_eq {sockets : List Socket} (hget : sockets[i]? = some socket)
    (honly : ∀ j s, sockets[j]? = some s → (s.port = socket.port ↔ j = i)) :
    udpGrabsocket sockets socket.port = some i := by
  obtain ⟨hlt, rfl⟩ := List.getElem?_eq_some_iff.mp hget
  unfold udpGrabsocket
  rw [List.findIdx?_eq_some_iff_getElem]
  refine ⟨hlt, by simp, fun j hj => ?_⟩
  rw [decide_eq_true_eq, honly j _ (List.getElem?_eq_getElem (by omega))]
  omega

/-! ## The queue -/

theorem slice_payload {buf behind : Mem} {n start : Nat}
    (hbuf : ∀ k, buf k = payload[k]?.getD (behind (start + k))) :
    slice buf 0 (n + payload.length) = payload ++ slice behind (start + payload.length) n := by
  rw [Nat.add_comm, slice_add, slice_of_getD hbuf, Nat.zero_add]
  congr 1
  refine List.map_congr_left fun k _ => ?_
  rw [hbuf, List.getElem?_eq_none (by omega), Option.getD_none, Nat.add_assoc]

theorem udpOnudp_sent {sockets : List Socket} {inetheader : InetHeader} {data behind : Mem}
    {start : Nat} (uenv : Env) (h : payload.length ≤ 65507)
    (hdata : ∀ k, data k = (sendData srcport destport payload)[k]?.getD (behind (start + k)))
    (hi : udpGrabsocket sockets destport = some i) :
    (udpOnudp uenv sockets inetheader data (headerSize + payload.length)).1 =
      sockets.modify i fun socket =>
        { socket with
          packets := socket.packets ++ [⟨inetheader.src, srcport,
            payload ++ slice behind (start + headerSize + payload.length) headerSize⟩]
          pollin := true
          recenttimestamp := uenv.now } := by
  have hheader : loadHeader data = sendHeader srcport destport payload.length := by
    refine loadHeader_of_bytes _ fun k hk => ?_
    have hlt : k < (sendHeader srcport destport payload.length).bytes.length := hk
    rw [hdata, sendData_eq h, List.getElem?_append_left hlt, List.getD_eq_getElem?_getD,
      List.getElem?_eq_getElem hlt, Option.getD_some, Option.getD_some]
  have hlen : (bswap16 (sendHeader srcport destport payload.length).length).toNat =
      headerSize + payload.length := by
    unfold sendHeader headerSize
    dsimp only
    rw [bswap16_bswap16, BitVec.toNat_ofNat, Nat.mod_eq_of_lt (by omega)]
  have hpayload : ∀ k, data (headerSize + k) =
      payload[k]?.getD (behind (start + headerSize + k)) := by
    intro k
    rw [hdata, sendData_eq h, List.getElem?_append_right (by rw [length_header]; omega),
      length_header, Nat.add_sub_cancel_left, Nat.add_assoc]
  unfold udpOnudp
  rw [if_neg (by omega)]
  dsimp only
  rw [hheader, hlen, if_neg (Nat.lt_irrefl _)]
  have hport : (sendHeader srcport destport payload.length).destport = destport := rfl
  rw [hport, hi]
  dsimp only
  unfold udpNetpacket
  rw [slice_payload hpayload]
  rfl

/-- The payload has been queued, and the address and port of the sender with it. -/
def Delivered (before after : Socket) (srcip : BitVec 32) (srcport : BitVec 16)
    (payload : List Byte) : Prop :=
  after.packets = before.packets ++ [⟨srcip, srcport, payload⟩]

/-- `udp_recvmsg` returns everything that is queued, if the buffers are large enough. -/
theorem udpRecvmsg_packet {srcip : BitVec 32} {data : List Byte} {lens : List Nat}
    (nonblock dontwait : Bool) (hp : socket.packets.head? = some ⟨srcip, srcport, data⟩)
    (hlens : data.length ≤ lens.sum) (hsum : lens.sum < 2 ^ 64) :
    (udpRecvmsg socket nonblock dontwait lens).1 = .bytes data srcip srcport := by
  obtain ⟨packets, hcons⟩ := List.head?_eq_some_iff.mp hp
  unfold udpRecvmsg
  rw [hcons]
  dsimp only
  rw [Nat.mod_eq_of_lt hsum, Nat.min_eq_right hlens, List.take_length, Tcp.scatter_flatten hlens]

/-- `net_oninet` and the packet that `udp_sendpacket` makes. -/
theorem netOninet_sent (adapter : Adapter) (dest : BitVec 32) (srcport : BitVec 16) (env : Net.Env)
    (h : payload.length ≤ 65507) (behind : Mem)
    (hi : udpGrabsocket host.udpSockets destport = some i) :
    let data := sendData srcport destport payload
    (netOninet env host
        (blit behind 0 ((Net.sendHeader adapter dest protoUDP data.length).bytes ++ data))
        (inetSize + data.length)).host.udpSockets =
      host.udpSockets.modify i fun socket =>
        { socket with
          packets := socket.packets ++ [⟨adapter.ip, srcport,
            payload ++ slice behind (28 + payload.length) 8⟩]
          pollin := true
          recenttimestamp := env.udp.now } := by
  intro data
  have hlen : data.length = headerSize + payload.length := length_sendData srcport destport h
  have hvalid := sendHeader_valid adapter dest protoUDP data behind
  have hload := loadInet_blit (Net.sendHeader adapter dest protoUDP data.length) data behind
  have hfrag : (loadInet (blit behind 0
      ((Net.sendHeader adapter dest protoUDP data.length).bytes ++ data))).isFragment = false := by
    rw [hload]
    exact isFragment_sendHeader _ _ _ _
  have hdata : ∀ k, blit behind 0 ((Net.sendHeader adapter dest protoUDP data.length).bytes ++ data)
      (inetSize + k) = data[k]?.getD (behind (inetSize + k)) := blit_data _ _ _
  unfold netOninet
  rw [inetAccept_whole _ _ _ hvalid hfrag]
  dsimp only
  rw [if_neg (Bool.eq_false_iff.mp hfrag), hload]
  dsimp only
  rw [dispatch_sent env host (by unfold inetSize headerSize at *; omega)]
  rw [hlen] at hdata ⊢
  exact udpOnudp_sent env.udp h hdata hi

/-- **No payload is delivered as it was sent.** What is queued for the socket ends with 8 bytes
that are behind the datagram in memory, and `udp_recvmsg` returns them. -/
theorem queues_more (hlen : payload.length ≤ 65507)
    (hsend : udpSendpacket adapters adapter reply src dest srcport destport payload = .ok (a, out))
    (env : Net.Env) (hget : host.udpSockets[i]? = some socket) (hport : socket.port = destport)
    (honly : ∀ j s, host.udpSockets[j]? = some s → (s.port = destport ↔ j = i)) (behind : Mem) :
    ∃ after, (netOninet env host (blit behind 0 (out.frame.drop linkSize))
        (out.frame.length - linkSize)).host.udpSockets[i]? = some after ∧
      Delivered socket after adapter.ip srcport
        (payload ++ slice behind (28 + payload.length) 8) ∧
      ¬ Delivered socket after adapter.ip srcport payload ∧
      ∀ nonblock dontwait lens, socket.packets = [] → payload.length + 8 ≤ lens.sum →
        lens.sum < 2 ^ 64 →
        (udpRecvmsg after nonblock dontwait lens).1 =
          .bytes (payload ++ slice behind (28 + payload.length) 8) adapter.ip srcport := by
  subst hport
  obtain ⟨⟨mac, hframe⟩, -⟩ := netSendinet_ok hsend
  have hsockets := netOninet_sent adapter dest srcport env hlen behind
    (udpGrabsocket_eq hget honly)
  rw [hframe, drop_etherFrame, length_etherFrame, Nat.add_sub_cancel_left, List.length_append,
    length_bytes, hsockets, List.getElem?_modify_eq, hget]
  refine ⟨_, rfl, rfl, fun hdel => ?_, fun nonblock dontwait lens hempty hlens hsum => ?_⟩
  · have hpacket := List.append_cancel_left hdel
    have hdata : payload ++ slice behind (28 + payload.length) 8 = payload :=
      congrArg Packet.data (List.head_eq_of_cons_eq hpacket)
    have hlength := congrArg List.length hdata
    rw [List.length_append, length_slice] at hlength
    omega
  · refine udpRecvmsg_packet nonblock dontwait ?_ ?_ hsum
    · dsimp only
      rw [hempty, List.nil_append, List.head?_cons]
    · rw [List.length_append, length_slice]
      exact hlens

/-- One adapter, at 10.0.0.1. -/
def sampleAdapter : Adapter where
  mac := macBroadcast
  ip := 0x0100000a
  gateway := 0
  subnetmask := 0xff
  ipframe := 0
  mtu := 1500
  addrcache := [(0x0200000a, macBroadcast)]

/-- A host with a socket at port 53. -/
def sampleHost : Host := ⟨[], [], [⟨bswap16 53, [], false, 0⟩], []⟩

def sampleEnv : Net.Env :=
  ⟨⟨0, 0x0200000a, []⟩, fun _ => ⟨0, 0, none, fun _ => 0, 0⟩, fun _ => 0, fun _ => 0⟩

/-- The frame that carries three bytes from the adapter to the host. -/
def sampleFrame : List Byte :=
  etherFrame macBroadcast macBroadcast ethProtoIPv4
    ((Net.sendHeader sampleAdapter 0x0200000a protoUDP 11).bytes ++
      sendData (bswap16 1024) (bswap16 53) [1, 2, 3])

theorem sampleFrame_sent :
    udpSendpacket [sampleAdapter] sampleAdapter none inaddrAny 0x0200000a (bswap16 1024)
      (bswap16 53) [1, 2, 3] = .ok ({ sampleAdapter with ipframe := 1 }, .whole sampleFrame) := by
  rfl

theorem sampleHost_only (j : Nat) (s : Socket) (h : sampleHost.udpSockets[j]? = some s) :
    s.port = bswap16 53 ↔ j = 0 := by
  match j with
  | 0 =>
    obtain rfl := Option.some.inj h
    exact iff_of_true rfl rfl
  | _ + 1 => cases h

theorem queues_more_sample :
    ∃ after, (netOninet sampleEnv sampleHost (blit (fun _ => 0xff) 0 (sampleFrame.drop linkSize))
        (sampleFrame.length - linkSize)).host.udpSockets[0]? = some after ∧
      ¬ Delivered ⟨bswap16 53, [], false, 0⟩ after 0x0100000a (bswap16 1024) [1, 2, 3] := by
  obtain ⟨after, hafter, -, hnot, -⟩ := queues_more (by decide) sampleFrame_sent sampleEnv
    (show sampleHost.udpSockets[0]? = some _ from rfl) rfl sampleHost_only fun _ => 0xff
  exact ⟨after, hafter, hnot⟩

/-- Three bytes are sent, and eleven are queued. -/
theorem queues_eleven :
    ¬ ∀ (adapters : List Adapter) (adapter a : Adapter) (reply : Option MacAddr)
      (src dest : BitVec 32) (srcport destport : BitVec 16) (payload : List Byte) (out : Output)
      (env : Net.Env) (host : Host) (i : Nat) (socket : Socket) (behind : Mem),
      payload.length ≤ 65507 →
      udpSendpacket adapters adapter reply src dest srcport destport payload = .ok (a, out) →
      host.udpSockets[i]? = some socket → socket.port = destport →
      (∀ j s, host.udpSockets[j]? = some s → (s.port = destport ↔ j = i)) →
      ∃ after, (netOninet env host (blit behind 0 (out.frame.drop linkSize))
          (out.frame.length - linkSize)).host.udpSockets[i]? = some after ∧
        Delivered socket after adapter.ip srcport payload := by
  intro hall
  obtain ⟨after, hafter, hdel⟩ := hall _ _ _ _ _ _ _ _ _ _ sampleEnv sampleHost 0
    ⟨bswap16 53, [], false, 0⟩ (fun _ => 0xff) (by decide) sampleFrame_sent rfl rfl sampleHost_only
  have hlens : ((netOninet sampleEnv sampleHost (blit (fun _ => 0xff) 0 (sampleFrame.drop linkSize))
      (sampleFrame.length - linkSize)).host.udpSockets[0]?.map
        fun s => s.packets.map fun p => p.data.length) = some [11] := by
    decide +kernel
  have hafter' : (netOninet sampleEnv sampleHost
      (blit (fun _ => 0xff) 0 (sampleFrame.drop linkSize))
      (sampleFrame.length - linkSize)).host.udpSockets[0]? = some after := hafter
  rw [hafter', Option.map_some, hdel] at hlens
  exact absurd hlens (by decide)

end Lyre.Udp
