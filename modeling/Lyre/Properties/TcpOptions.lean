import Lyre.Ipc.TcpInput
import Lyre.Properties.NetSend
import Lyre.Properties.TcpHandshake

/-!
# Options of a `SYN`

`tcp_sendsegment` puts options behind the header of a segment, and `tcp_parseoptions` would read
them there. But it looks behind the header of `struct tcp_packet`, and finds the length of the data
and a pointer.

* `learned_sent`: sender and receiver agree on what the options say.
* `options_learned_iff`: what the receiver learns from where it looks.
-/

namespace Lyre.Tcp

open Net Infra.Bytes Infra.Ring

variable {packet : Packet} {opts : Nat → Byte} {max : Nat} {this : Socket}

/-! ## What a list of options says -/

/-- An option that is taken over from a `SYN`. -/
inductive TcpOption where
  | maxseg (mss : BitVec 16)
  | timestamp (ts : BitVec 32)
  deriving DecidableEq, Repr

namespace TcpOption

def mss? : TcpOption → Option (BitVec 16)
  | maxseg mss => some mss
  | timestamp _ => none

def ts? : TcpOption → Option (BitVec 32)
  | maxseg _ => none
  | timestamp ts => some ts

end TcpOption

def Socket.take (this : Socket) : TcpOption → Socket
  | .maxseg mss => { this with maxseg := mss }
  | .timestamp ts => { this with recenttimestamp := ts, flagTs := true }

/-- The options from index `i` on, up to one that ends the list or is too long for it. -/
def optionsFrom (opts : Nat → Byte) (max : Nat) : Nat → Nat → List TcpOption
  | 0, _ => []
  | fuel + 1, i =>
    if max ≤ i then []
    else
      match (opts i).toNat with
      | 0 => []
      | 1 => optionsFrom opts max fuel (i + 1)
      | 2 =>
        if opts (i + 1) ≠ 4 ∨ max < i + 4 then []
        else .maxseg (opts (i + 2) ++ opts (i + 3)) :: optionsFrom opts max fuel (i + 4)
      | 8 =>
        if opts (i + 1) ≠ 10 ∨ max < i + 10 then []
        else .timestamp (bswap32 (load32 opts (i + 2))) :: optionsFrom opts max fuel (i + 10)
      | _ =>
        if opts (i + 1) = 0 then []
        else optionsFrom opts max fuel (i + (opts (i + 1)).toNat)

/-- The options in `max` bytes. -/
def optionsIn (opts : Nat → Byte) (max : Nat) : List TcpOption := optionsFrom opts max max 0

theorem parseoptionsLoop_syn (hsyn : packet.header.flags.syn = true) (opts : Nat → Byte)
    (max fuel i : Nat) (this : Socket) :
    parseoptionsLoop packet opts max fuel i this =
      (optionsFrom opts max fuel i).foldl Socket.take this := by
  induction fuel, i using optionsFrom.induct opts max generalizing this with
  | case1 i => rfl
  | case2 fuel i hend =>
    rw [parseoptionsLoop, optionsFrom, if_pos hend, if_pos hend]
    rfl
  | case3 fuel i hin hkind =>
    simp only [parseoptionsLoop, optionsFrom, if_neg hin, hkind]
    rfl
  | case4 fuel i hin hkind ih =>
    simp only [parseoptionsLoop, optionsFrom, if_neg hin, hkind]
    exact ih this
  | case5 fuel i hin hkind hbad =>
    simp only [parseoptionsLoop, optionsFrom, if_neg hin, hkind, if_pos hbad]
    rfl
  | case6 fuel i hin hkind hlen ih =>
    simp only [parseoptionsLoop, optionsFrom, if_neg hin, hkind, if_neg hlen]
    exact ih _
  | case7 fuel i hin hkind hbad =>
    simp only [parseoptionsLoop, optionsFrom, if_neg hin, hkind, if_pos hbad]
    rfl
  | case8 fuel i hin hkind hlen ih =>
    simp only [parseoptionsLoop, optionsFrom, if_neg hin, hkind, if_neg hlen, if_pos hsyn]
    exact ih _
  | case9 fuel i hin hbad =>
    simp only [parseoptionsLoop, optionsFrom, if_neg hin, if_pos hbad]
    rfl
  | case10 fuel i hin hlen _ _ _ _ ih =>
    simp only [parseoptionsLoop, optionsFrom, if_neg hin, if_neg hlen]
    exact ih this

/-- A `SYN` is parsed by taking over its options one after the other. -/
theorem tcpParseoptions_syn (hsyn : packet.header.flags.syn = true) (this : Socket)
    (opts : Nat → Byte) :
    tcpParseoptions this packet opts =
      (optionsIn opts (packet.header.doff * 4 - headerSize)).foldl Socket.take this :=
  parseoptionsLoop_syn hsyn opts _ _ 0 this

theorem maxseg_take (found : List TcpOption) (this : Socket) :
    (found.foldl Socket.take this).maxseg =
      (found.filterMap TcpOption.mss?).getLast?.getD this.maxseg := by
  induction found generalizing this with
  | nil => rfl
  | cons o found ih =>
    rw [List.foldl_cons, ih, List.filterMap_cons]
    cases o with
    | maxseg mss =>
      simp only [TcpOption.mss?, List.getLast?_cons, Option.getD_some]
      rfl
    | timestamp ts => rfl

theorem recenttimestamp_take (found : List TcpOption) (this : Socket) :
    (found.foldl Socket.take this).recenttimestamp =
      (found.filterMap TcpOption.ts?).getLast?.getD this.recenttimestamp := by
  induction found generalizing this with
  | nil => rfl
  | cons o found ih =>
    rw [List.foldl_cons, ih, List.filterMap_cons]
    cases o with
    | maxseg mss => rfl
    | timestamp ts =>
      simp only [TcpOption.ts?, List.getLast?_cons, Option.getD_some]
      rfl

theorem flagTs_take (found : List TcpOption) (this : Socket) :
    (found.foldl Socket.take this).flagTs = true ↔
      this.flagTs = true ∨ found.filterMap TcpOption.ts? ≠ [] := by
  induction found generalizing this with
  | nil => simp
  | cons o found ih =>
    rw [List.foldl_cons, ih, List.filterMap_cons]
    cases o with
    | maxseg mss => rfl
    | timestamp ts => exact ⟨fun _ => .inr (List.cons_ne_nil _ _), fun _ => .inl rfl⟩

/-! ## Options in memory -/

theorem optionsFrom_end {fuel i : Nat} (h : max ≤ i ∨ opts i = 0) :
    optionsFrom opts max fuel i = [] := by
  cases fuel with
  | zero => rfl
  | succ fuel =>
    rw [optionsFrom]
    rcases h with h | h
    · rw [if_pos h]
    · rw [h]
      exact ite_self []

theorem optionsFrom_nop {fuel i : Nat} (hi : i < max) (h : opts i = 1) :
    optionsFrom opts max (fuel + 1) i = optionsFrom opts max fuel (i + 1) := by
  rw [optionsFrom, if_neg (Nat.not_le_of_lt hi), h]
  rfl

theorem optionsFrom_mss {fuel i : Nat} (hi : i + 4 ≤ max) (h : opts i = 2)
    (hlen : opts (i + 1) = 4) :
    optionsFrom opts max (fuel + 1) i =
      .maxseg (opts (i + 2) ++ opts (i + 3)) :: optionsFrom opts max fuel (i + 4) := by
  rw [optionsFrom, if_neg (by omega), h]
  exact if_neg (by simp [hlen, hi])

theorem optionsFrom_timestamp {fuel i : Nat} (hi : i + 10 ≤ max) (h : opts i = 8)
    (hlen : opts (i + 1) = 10) :
    optionsFrom opts max (fuel + 1) i =
      .timestamp (bswap32 (load32 opts (i + 2))) :: optionsFrom opts max fuel (i + 10) := by
  rw [optionsFrom, if_neg (by omega), h]
  exact if_neg (by simp [hlen, hi])

/-! ## Segments in memory -/

theorem Header.length_bytes (h : Header) (csum : BitVec 16) : (h.bytes csum).length = headerSize :=
  rfl

theorem Flags.load_byte (flags : Flags) :
    ({ fin := flags.byte.getLsbD 0
       syn := flags.byte.getLsbD 1
       rst := flags.byte.getLsbD 2
       psh := flags.byte.getLsbD 3
       ack := flags.byte.getLsbD 4 } : Flags) = flags := by
  obtain ⟨fin, syn, rst, psh, ack⟩ := flags
  revert fin syn rst psh ack
  decide

theorem holds_blit (rest : Nat → Byte) (l : List Byte) : Holds (blit rest 0 l) 0 l := fun k hk => by
  rw [Nat.zero_add, blit, if_pos (Nat.zero_le k), Nat.sub_zero, List.getElem?_eq_getElem hk,
    Option.getD_some, List.getD_eq_getElem l 0 hk]

theorem loadHeader_of_holds {buf : Nat → Byte} {h : Header} {csum : BitVec 16} (hdoff : h.doff < 16)
    (hholds : Holds buf 0 (h.bytes csum)) : loadHeader buf = h := by
  have hbuf : ∀ k < headerSize, buf k = (h.bytes csum).getD k 0 := fun k hk => by
    rw [← hholds k hk, Nat.zero_add]
  have hflags : buf 13 = h.flags.byte := hbuf 13 (by decide)
  have hoff : buf 12 = BitVec.ofNat 8 (h.doff * 16) := hbuf 12 (by decide)
  have hdoff' : (buf 12).toNat / 16 = h.doff := by
    rw [hoff, BitVec.toNat_ofNat]
    omega
  have hsrc : load16 buf 0 = h.srcport :=
    load16_of_bytes (hbuf 0 (by decide)) (hbuf 1 (by decide))
  have hdest : load16 buf 2 = h.destport :=
    load16_of_bytes (hbuf 2 (by decide)) (hbuf 3 (by decide))
  have hseq : load32 buf 4 = h.sequence :=
    load32_of_bytes (hbuf 4 (by decide)) (hbuf 5 (by decide)) (hbuf 6 (by decide))
      (hbuf 7 (by decide))
  have hack : load32 buf 8 = h.acknumber :=
    load32_of_bytes (hbuf 8 (by decide)) (hbuf 9 (by decide)) (hbuf 10 (by decide))
      (hbuf 11 (by decide))
  have hwin : load16 buf 14 = h.winsize :=
    load16_of_bytes (hbuf 14 (by decide)) (hbuf 15 (by decide))
  unfold loadHeader
  rw [hsrc, hdest, hseq, hack, hdoff', hflags, hwin, Flags.load_byte]

theorem length_segmentOptions (mtu now : Nat) (syn : Bool) (sock : Option Socket) :
    ∃ n ≤ 4, (segmentOptions mtu now syn sock).length = 4 * n := by
  unfold segmentOptions
  cases timestamped sock with
  | none =>
    cases syn with
    | false => exact ⟨0, by decide, rfl⟩
    | true => exact ⟨1, by decide, rfl⟩
  | some sock =>
    cases syn with
    | false => exact ⟨3, by decide, rfl⟩
    | true => exact ⟨4, by decide, rfl⟩

theorem segmentOptions_doff (segment : Segment) (conn : Connection) (mtu now : Nat) (syn : Bool)
    (sock : Option Socket) :
    (segmentHeader segment conn (segmentOptions mtu now syn sock).length).doff * 4 =
      headerSize + (segmentOptions mtu now syn sock).length := by
  obtain ⟨n, hn, hlen⟩ := length_segmentOptions mtu now syn sock
  rw [hlen, segmentHeader, headerSize]
  dsimp only
  omega

variable (adapter : Adapter) (now : Nat) (segment : Segment) (conn : Connection)
  (sock : Option Socket) (rest : Nat → Byte)

theorem segmentBytes_eq : ∃ csum, segmentBytes adapter now segment conn sock =
    (segmentHeader segment conn
      (segmentOptions adapter.mtu now segment.flags.syn sock).length).bytes csum ++
      (segmentOptions adapter.mtu now segment.flags.syn sock ++ segment.data) :=
  ⟨_, rfl⟩

theorem length_segmentBytes : (segmentBytes adapter now segment conn sock).length = headerSize +
    ((segmentOptions adapter.mtu now segment.flags.syn sock).length + segment.data.length) := by
  obtain ⟨csum, heq⟩ := segmentBytes_eq adapter now segment conn sock
  rw [heq, List.length_append, List.length_append, Header.length_bytes]

/-- The packet that `tcp_netpacket` makes of a segment. `rest` is memory behind the segment. -/
def segmentPacket : Packet :=
  loadPacket (blit rest 0 (segmentBytes adapter now segment conn sock))
    ((segmentBytes adapter now segment conn sock).length - headerSize)

/-- **The packet has the header of the segment, and its data without the options.** -/
theorem segmentPacket_eq (hlen : segment.data.length < 2 ^ 32) :
    segmentPacket adapter now segment conn sock rest =
      { header := segmentHeader segment conn
          (segmentOptions adapter.mtu now segment.flags.syn sock).length
        data := segment.data } := by
  obtain ⟨csum, heq⟩ := segmentBytes_eq adapter now segment conn sock
  have hholds := holds_blit rest (segmentBytes adapter now segment conn sock)
  have hbytes := length_segmentBytes adapter now segment conn sock
  have hdoff := segmentOptions_doff segment conn adapter.mtu now segment.flags.syn sock
  unfold segmentPacket
  generalize blit rest 0 (segmentBytes adapter now segment conn sock) = buf at *
  rw [heq] at hholds
  generalize segmentOptions adapter.mtu now segment.flags.syn sock = opts at *
  have hsmall : (segmentHeader segment conn opts.length).doff < 16 := Nat.mod_lt _ (by decide)
  have hopt : opts.length ≤ 40 := by
    rw [headerSize] at hdoff
    omega
  have hcount : (2 ^ 64 + (opts.length + segment.data.length)
      - (2 ^ 64 + (headerSize + opts.length) - headerSize) % 2 ^ 64) % 2 ^ 64 % 2 ^ 32
        = segment.data.length := by
    omega
  have hdata : Holds buf (headerSize + opts.length) segment.data := by
    have hbehind := hholds.right.right
    rwa [Header.length_bytes, Nat.zero_add] at hbehind
  unfold loadPacket
  rw [loadHeader_of_holds hsmall hholds.left, hbytes, Nat.add_sub_cancel_left]
  dsimp only
  rw [hdoff, hcount, hdata.map_range]

/-! ## What a socket learns -/

/-- The timestamp of a segment, if it has one. -/
def sentTimestamp (now : Nat) (sock : Option Socket) : Option (BitVec 32) :=
  (timestamped sock).map fun _ => timestamp now

/-- The socket has what the options of a segment say. -/
structure Learned (this : Socket) (mss : BitVec 16) (ts : Option (BitVec 32)) : Prop where
  maxseg : this.maxseg = mss
  timestamp : ∀ t ∈ ts, this.recenttimestamp = t ∧ this.flagTs = true

/-- The options that are found say it, or say nothing of what the socket has before. -/
structure Says (this : Socket) (found : List TcpOption) (mss : BitVec 16)
    (ts : Option (BitVec 32)) : Prop where
  maxseg : (found.filterMap TcpOption.mss?).getLast?.getD this.maxseg = mss
  timestamp : ∀ t ∈ ts, (found.filterMap TcpOption.ts?).getLast?.getD this.recenttimestamp = t ∧
    (this.flagTs = true ∨ found.filterMap TcpOption.ts? ≠ [])

theorem learned_take (this : Socket) (found : List TcpOption) (mss : BitVec 16)
    (ts : Option (BitVec 32)) :
    Learned (found.foldl Socket.take this) mss ts ↔ Says this found mss ts := by
  constructor
  · intro h
    refine ⟨maxseg_take found this ▸ h.maxseg, fun t ht => ?_⟩
    rw [← recenttimestamp_take, ← flagTs_take]
    exact h.timestamp t ht
  · intro h
    refine ⟨(maxseg_take found this).trans h.maxseg, fun t ht => ?_⟩
    rw [recenttimestamp_take, flagTs_take]
    exact h.timestamp t ht

theorem says_nil (this : Socket) (mss : BitVec 16) (ts : Option (BitVec 32)) :
    Says this [] mss ts ↔ Learned this mss ts :=
  (learned_take this [] mss ts).symm

/-! ## The options that are sent -/

theorem optionsFrom_mssOption {fuel i mtu : Nat} (hi : i + 4 = max)
    (hopts : Holds opts i (mssOption mtu)) :
    optionsFrom opts max (fuel + 1) i = [.maxseg (mssOf mtu)] := by
  have hbyte : ∀ k < 4, opts (i + k) = (mssOption mtu).getD k 0 := hopts
  have hhigh : opts (i + 2) = (bswap16 (mssOf mtu)).extractLsb' 0 8 := hbyte 2 (by decide)
  have hlow : opts (i + 3) = (bswap16 (mssOf mtu)).extractLsb' 8 8 := hbyte 3 (by decide)
  have hmss : opts (i + 2) ++ opts (i + 3) = mssOf mtu := by
    rw [hhigh, hlow]
    exact bswap16_bswap16 (mssOf mtu)
  rw [optionsFrom_mss (Nat.le_of_eq hi) (hbyte 0 (by decide)) (hbyte 1 (by decide)), hmss,
    optionsFrom_end (.inl (Nat.le_of_eq hi.symm))]

/-- Two `NOP`s are skipped, and the timestamp is read back. -/
theorem optionsFrom_timestampOption (fuel : Nat) {now : Nat} {sock : Socket} (hmax : 12 ≤ max)
    (hopts : Holds opts 0 (timestampOption now sock)) :
    optionsFrom opts max (fuel + 3) 0 =
      .timestamp (timestamp now) :: optionsFrom opts max fuel 12 := by
  have hbyte : ∀ k < 12, opts k = (timestampOption now sock).getD k 0 := fun k hk => by
    rw [← hopts k hk, Nat.zero_add]
  have hts : load32 opts 4 = bswap32 (timestamp now) :=
    load32_of_bytes (hbyte 4 (by decide)) (hbyte 5 (by decide)) (hbyte 6 (by decide))
      (hbyte 7 (by decide))
  rw [optionsFrom_nop (by omega) (hbyte 0 (by decide)),
    optionsFrom_nop (by omega) (hbyte 1 (by decide)),
    optionsFrom_timestamp (by omega) (hbyte 2 (by decide)) (hbyte 3 (by decide)), hts,
    bswap32_bswap32]

/-- The options of a `SYN` are read back. -/
theorem optionsIn_sent {mtu now : Nat} {sock : Option Socket}
    (hopts : Holds opts 0 (segmentOptions mtu now true sock)) :
    optionsIn opts (segmentOptions mtu now true sock).length =
      (sentTimestamp now sock).toList.map .timestamp ++ [.maxseg (mssOf mtu)] := by
  unfold optionsIn sentTimestamp
  unfold segmentOptions at *
  cases h : timestamped sock with
  | none =>
    rw [h] at hopts
    exact optionsFrom_mssOption rfl hopts.right
  | some sock =>
    rw [h] at hopts
    have hts := optionsFrom_timestampOption 13 (show 12 ≤ 16 by decide) hopts.left
    exact hts.trans (congrArg _ (optionsFrom_mssOption rfl hopts.right))

/-! ## What `tcp_parseoptions` does with a `SYN` -/

variable {adapter now segment conn sock rest}

theorem tcpParseoptions_segment (hsyn : segment.flags.syn = true)
    (hlen : segment.data.length < 2 ^ 32) (this : Socket) (opts : Nat → Byte) :
    tcpParseoptions this (segmentPacket adapter now segment conn sock rest) opts =
      (optionsIn opts (segmentOptions adapter.mtu now true sock).length).foldl Socket.take this := by
  rw [segmentPacket_eq adapter now segment conn sock rest hlen, tcpParseoptions_syn hsyn]
  dsimp only
  rw [segmentOptions_doff, Nat.add_sub_cancel_left, hsyn]

theorem says_sent (this : Socket) (mss : BitVec 16) (ts : Option (BitVec 32)) :
    Says this (ts.toList.map .timestamp ++ [.maxseg mss]) mss ts := by
  cases ts with
  | none => exact ⟨rfl, fun t ht => nomatch ht⟩
  | some ts =>
    refine ⟨rfl, fun t ht => ?_⟩
    obtain rfl := Option.some.inj ht
    exact ⟨rfl, .inr (List.cons_ne_nil _ _)⟩

/-- **Behind the header of the segment, the options would be understood.** -/
theorem learned_sent (hsyn : segment.flags.syn = true) (hlen : segment.data.length < 2 ^ 32)
    (this : Socket) :
    Learned (tcpParseoptions this (segmentPacket adapter now segment conn sock rest)
        fun k => blit rest 0 (segmentBytes adapter now segment conn sock) (headerSize + k))
      (mssOf adapter.mtu) (sentTimestamp now sock) := by
  have hopts : Holds
      (fun k => blit rest 0 (segmentBytes adapter now segment conn sock) (headerSize + k)) 0
      (segmentOptions adapter.mtu now true sock) := by
    obtain ⟨csum, heq⟩ := segmentBytes_eq adapter now segment conn sock
    have hholds := holds_blit rest (segmentBytes adapter now segment conn sock)
    generalize blit rest 0 (segmentBytes adapter now segment conn sock) = buf at *
    rw [heq, hsyn] at hholds
    have hbehind := hholds.right.left
    rw [Header.length_bytes, Nat.zero_add] at hbehind
    exact hbehind.shift
  rw [tcpParseoptions_segment hsyn hlen, optionsIn_sent hopts, learned_take]
  exact says_sent this _ _

/-- Without data, the first byte behind the header of the packet ends the list. -/
theorem optionsIn_behind (data : BitVec 64) (beyond : Nat → Byte) (max : Nat) :
    optionsIn (behindHeader 0 data beyond) max = [] :=
  optionsFrom_end (.inr rfl)

/-- **What a socket learns from a `SYN`**: what the length of the data, the pointer and the memory
behind it happen to say. The data comes without the options. A `SYN` without data says nothing. -/
theorem options_learned_iff (adapter : Adapter) (now : Nat) (segment : Segment) (conn : Connection)
    (sock : Option Socket) (rest : Nat → Byte) (this : Socket) (data : BitVec 64)
    (beyond : Nat → Byte) (hsyn : segment.flags.syn = true)
    (hlen : segment.data.length < 2 ^ 32) :
    let packet := segmentPacket adapter now segment conn sock rest
    let parsed := tcpParseoptions this packet (behindHeader packet.len data beyond)
    let mss := mssOf adapter.mtu
    let ts := sentTimestamp now sock
    packet.data = segment.data ∧
      (Learned parsed mss ts ↔
        Says this (optionsIn (behindHeader segment.data.length data beyond)
          (segmentOptions adapter.mtu now true sock).length) mss ts) ∧
      (segment.data = [] → (Learned parsed mss ts ↔ Learned this mss ts)) := by
  intro packet parsed mss ts
  have hpacket : packet.data = segment.data := by
    rw [show packet = _ from segmentPacket_eq adapter now segment conn sock rest hlen]
  have hiff : Learned parsed mss ts ↔
      Says this (optionsIn (behindHeader segment.data.length data beyond)
        (segmentOptions adapter.mtu now true sock).length) mss ts := by
    rw [← learned_take, ← hpacket]
    exact iff_of_eq (congrArg (Learned · mss ts) (tcpParseoptions_segment hsyn hlen this _))
  refine ⟨hpacket, hiff, fun hnil => ?_⟩
  rw [hiff, hnil, ← says_nil]
  exact iff_of_eq (congrArg (Says this · mss ts) (optionsIn_behind data beyond _))

/-- An adapter with the MTU that a network card gets. -/
def cardAdapter : Adapter where
  mac := macBroadcast
  ip := 0x0a00020f
  gateway := 0
  subnetmask := 0
  ipframe := 0
  mtu := 1500
  addrcache := []

/-- The `SYN` of a socket that connects. -/
def synSegment : Segment where
  seq := 1
  ack := 0
  flags := { syn := true }
  window := 0xffff
  data := []

/-- The options of the `SYN` say the maximum segment size. -/
theorem learned_sent_syn :
    Learned (tcpParseoptions socketCreateTcp
      (segmentPacket cardAdapter 0 synSegment ⟨1, 2, 3, 4⟩ (some socketCreateTcp) fun _ => 0)
      fun k => blit (fun _ => 0) 0
        (segmentBytes cardAdapter 0 synSegment ⟨1, 2, 3, 4⟩ (some socketCreateTcp)) (headerSize + k))
      1406 none :=
  learned_sent rfl (by decide) socketCreateTcp

/-- A socket that knows the maximum segment size has it afterwards. -/
theorem options_learned_iff_known :
    Learned (tcpParseoptions { socketCreateTcp with maxseg := 1406 }
      (segmentPacket cardAdapter 0 synSegment ⟨1, 2, 3, 4⟩ (some socketCreateTcp) fun _ => 0)
      (behindHeader 0 0#64 fun _ => 0)) 1406#16 none :=
  ((options_learned_iff cardAdapter 0 synSegment ⟨1, 2, 3, 4⟩ (some socketCreateTcp) (fun _ => 0)
    { socketCreateTcp with maxseg := 1406 } 0#64 (fun _ => 0) rfl (by decide)).2.2 rfl).mpr
    ⟨rfl, fun t ht => nomatch ht⟩

/-- A socket that has just been created does not learn the maximum segment size. -/
theorem options_not_learned : ¬ ∀ (adapter : Adapter) (now : Nat) (segment : Segment)
    (conn : Connection) (sock : Option Socket) (rest : Nat → Byte) (this : Socket)
    (data : BitVec 64) (beyond : Nat → Byte), 94 < adapter.mtu → segment.flags.syn = true →
    segment.data.length < 2 ^ 16 →
    let packet := segmentPacket adapter now segment conn sock rest
    Learned (tcpParseoptions this packet (behindHeader packet.len data beyond))
      (mssOf adapter.mtu) (sentTimestamp now sock) ∧ packet.data = segment.data := by
  intro h
  have hmaxseg := (h cardAdapter 0 synSegment ⟨1, 2, 3, 4⟩ (some socketCreateTcp) (fun _ => 0)
    socketCreateTcp 0#64 (fun _ => 0) (by decide) rfl (by decide)).1.maxseg
  revert hmaxseg
  decide +kernel

/-! ## Sockets that a `SYN` creates -/

/-- **A socket that is created for a connection knows no maximum segment size, and has no
timestamps**, whatever the options of the `SYN` say. -/
theorem spawned_learns_nothing {env : Env} {src dest : BitVec 32} {data : BitVec 64}
    {beyond : Nat → Byte} {child : Socket} (hsyn : segment.flags.syn = true)
    (hnil : segment.data = []) (hopts : env.opts = behindHeader 0 data beyond)
    (h : (tcpNetpacket env this src dest
      (blit rest 0 (segmentBytes adapter now segment conn sock))
      ((segmentBytes adapter now segment conn sock).length - headerSize)).spawned = some child) :
    child.maxseg = 0 ∧ child.flagTs = false := by
  obtain ⟨listener, conn', i, h⟩ := tcpNetpacket_spawned_onListen h
  obtain ⟨-, fresh, hmaxseg, hflag, hmaxseg', hflag'⟩ := onListen_spawned h
  have hparsed : tcpParseoptions fresh (segmentPacket adapter now segment conn sock rest) env.opts
      = fresh := by
    rw [tcpParseoptions_segment hsyn (by rw [hnil]; decide), hopts, optionsIn_behind]
    rfl
  exact ⟨(hmaxseg'.trans (congrArg _ hparsed)).trans hmaxseg,
    (hflag'.trans (congrArg _ hparsed)).trans hflag⟩

end Lyre.Tcp
