import Lyre.Ipc.TcpReceive
import Lyre.Properties.TcpRuns

/-!
# What `tcp_write` and `tcp_sendmsg` send

A pass of the loop sends what there is space for, one segment behind the other. If the bytes do
not fit, the call waits and starts over with the first one. So every byte is sent once if and only
if each pass finds the window either full or large enough for all of them (`delivers_iff`).
-/

namespace Lyre.Tcp

variable {env : WriteEnv} {fuel : Nat} {c c' c'' : Ctx} {this : Socket} {rest buf : List Byte}
  {o : Sending}

/-! ## Segments one behind the other -/

/-- The first segment has the number `seq`, and each other one begins where the one before ends. -/
def Consecutive : BitVec 32 → List Segment → Prop
  | _, [] => True
  | seq, seg :: segs => seg.seq = seq ∧ Consecutive (seq + BitVec.ofNat 32 seg.data.length) segs

instance : ∀ seq segs, Decidable (Consecutive seq segs)
  | _, [] => inferInstanceAs (Decidable True)
  | seq, seg :: segs =>
    have := instDecidableConsecutive (seq + BitVec.ofNat 32 seg.data.length) segs
    inferInstanceAs (Decidable (_ ∧ _))

/-- The data of the segments. -/
def payload (segs : List Segment) : List Byte := (segs.map Segment.data).flatten

/-- The bytes from `seq` on are those given, each of them in one segment. -/
def Delivers (seq : BitVec 32) (bytes : List Byte) (segs : List Segment) : Prop :=
  Consecutive seq segs ∧ payload segs = bytes

instance {seq : BitVec 32} {bytes : List Byte} {segs : List Segment} :
    Decidable (Delivers seq bytes segs) :=
  inferInstanceAs (Decidable (_ ∧ _))

theorem payload_append (a b : List Segment) : payload (a ++ b) = payload a ++ payload b := by
  unfold payload
  rw [List.map_append, List.flatten_append]

theorem Consecutive.append : ∀ {seq : BitVec 32} {a b : List Segment}, Consecutive seq a →
    Consecutive (seq + BitVec.ofNat 32 (payload a).length) b → Consecutive seq (a ++ b)
  | seq, [], b, _, hb => by
    rwa [show BitVec.ofNat 32 (payload []).length = 0#32 from rfl, BitVec.add_zero] at hb
  | seq, seg :: a, b, ha, hb => by
    refine ⟨ha.1, ha.2.append ?_⟩
    rw [payload, List.map_cons, List.flatten_cons, List.length_append, BitVec.ofNat_add,
      ← BitVec.add_assoc] at hb
    exact hb

/-- Segments with the data are sent, and nothing else changes the number of the next byte. -/
structure Sends (c c' : Ctx) (data : List Byte) : Prop where
  sent : ∃ segs, c'.sent = c.sent ++ segs ∧ Delivers c.this.sndnxt data segs
  sndnxt : c'.this.sndnxt = c.this.sndnxt + BitVec.ofNat 32 data.length

theorem Sends.nothing (hsent : c'.sent = c.sent) (hnxt : c'.this.sndnxt = c.this.sndnxt) :
    Sends c c' [] := by
  refine ⟨⟨[], ?_, trivial, rfl⟩, ?_⟩
  · rw [hsent, List.append_nil]
  · rw [hnxt, List.length_nil, BitVec.add_zero]

theorem Sends.trans {a b : List Byte} (h : Sends c c' a) (h' : Sends c' c'' b) :
    Sends c c'' (a ++ b) := by
  obtain ⟨segs, hsent, hcons, rfl⟩ := h.sent
  obtain ⟨segs', hsent', hcons', rfl⟩ := h'.sent
  rw [h.sndnxt] at hcons'
  refine ⟨⟨segs ++ segs', ?_, hcons.append hcons', payload_append _ _⟩, ?_⟩
  · rw [hsent', hsent, List.append_assoc]
  · rw [h'.sndnxt, h.sndnxt, List.length_append, BitVec.ofNat_add, BitVec.add_assoc]

/-! ## The loop -/

/-- The socket after a round that sends `n` bytes. -/
def sendBytes (env : WriteEnv) (c : Ctx) (rest : List Byte) (n : Nat) : Ctx :=
  let c' := tcpSend c (env.now c.sent.length) { psh := true, ack := true } (rest.take n)
  { c' with this := { c'.this with sndnxt := c'.this.sndnxt + BitVec.ofNat 32 n } }

theorem sendRound_eq (env : WriteEnv) (c : Ctx) (rest : List Byte) :
    sendRound c (env.now c.sent.length) env.mtuSeg rest =
      if c.this.cap = 0 then none
      else some (sendBytes env c rest (c.this.seglen env.mtuSeg rest.length)) := rfl

theorem tcpSend_fields (c : Ctx) (now : Nat) (flags : Flags) (data : List Byte) :
    (tcpSend c now flags data).this.sndnxt = c.this.sndnxt ∧
      (tcpSend c now flags data).this.snduna = c.this.snduna ∧
      (tcpSend c now flags data).this.sndwnd = c.this.sndwnd ∧
      (tcpSend c now flags data).this.maxseg = c.this.maxseg := by
  unfold tcpSend
  dsimp only
  split <;> exact ⟨rfl, rfl, rfl, rfl⟩

theorem seglen_le_cap (this : Socket) (mtuSeg count : Nat) :
    this.seglen mtuSeg count ≤ this.cap := Nat.min_le_right _ _

theorem seglen_le_count (this : Socket) (mtuSeg count : Nat) :
    this.seglen mtuSeg count ≤ count :=
  Nat.le_trans (Nat.min_le_left _ _) (Nat.min_le_right _ _)

theorem sendBytes_sends (env : WriteEnv) (c : Ctx) {n : Nat} (h : n ≤ rest.length) :
    Sends c (sendBytes env c rest n) (rest.take n) := by
  have hlen : (rest.take n).length = n := List.length_take_of_le h
  refine ⟨⟨[_], rfl, ⟨rfl, trivial⟩, List.append_nil _⟩, ?_⟩
  rw [hlen]
  unfold sendBytes
  dsimp only
  rw [(tcpSend_fields c _ _ _).1]

theorem sendBytes_cap (env : WriteEnv) (rest : List Byte) {n : Nat} (h : n ≤ c.this.cap) :
    (sendBytes env c rest n).this.cap = c.this.cap - n := by
  obtain ⟨hnxt, huna, hwnd, -⟩ := tcpSend_fields c (env.now c.sent.length)
    { psh := true, ack := true } (rest.take n)
  have hlt : c.this.cap < 2 ^ 32 := BitVec.isLt _
  unfold Socket.cap sendBytes
  dsimp only
  rw [hnxt, huna, hwnd]
  have heq : c.this.sndwnd - (c.this.sndnxt + BitVec.ofNat 32 n - c.this.snduna) =
      c.this.sndwnd - (c.this.sndnxt - c.this.snduna) - BitVec.ofNat 32 n := by
    bv_omega
  rw [heq, BitVec.toNat_sub_of_le]
  · rw [BitVec.toNat_ofNat, Nat.mod_eq_of_lt (by omega)]
  · rw [BitVec.le_def, BitVec.toNat_ofNat]
    exact Nat.le_trans (Nat.mod_le _ _) h

theorem sendLoop_zero (h : sendLoop env 0 c rest = some (o, c')) :
    rest = [] ∧ o = .done ∧ c' = c := by
  rw [sendLoop] at h
  split at h
  · next hlen =>
    obtain ⟨rfl, rfl⟩ := Prod.mk.inj (Option.some.inj h)
    exact ⟨List.eq_nil_of_length_eq_zero hlen, rfl, rfl⟩
  · cases h

theorem sendLoop_cases (h : sendLoop env (fuel + 1) c rest = some (o, c')) :
    (rest = [] ∧ o = .done ∧ c' = c) ∨ (rest ≠ [] ∧ c.this.cap = 0 ∧ o = .blocked ∧ c' = c) ∨
      (∃ n, o = .failed ∧ c' = sendFailed env c (rest.take n)) ∨ (c.this.cap ≠ 0 ∧
        sendLoop env fuel (sendBytes env c rest (c.this.seglen env.mtuSeg rest.length))
          (rest.drop (c.this.seglen env.mtuSeg rest.length)) = some (o, c')) := by
  rw [sendLoop] at h
  split at h
  · next hlen =>
    obtain ⟨rfl, rfl⟩ := Prod.mk.inj (Option.some.inj h)
    exact .inl ⟨List.eq_nil_of_length_eq_zero hlen, rfl, rfl⟩
  · next hlen =>
    have hne : rest ≠ [] := fun heq => hlen (by rw [heq]; rfl)
    rw [sendRound_eq] at h
    by_cases hcap : c.this.cap = 0
    · rw [if_pos hcap] at h
      obtain ⟨rfl, rfl⟩ := Prod.mk.inj (Option.some.inj h)
      exact .inr (.inl ⟨hne, hcap, rfl, rfl⟩)
    · rw [if_neg hcap] at h
      dsimp only at h
      split at h
      · exact .inr (.inr (.inr ⟨hcap, h⟩))
      · obtain ⟨rfl, rfl⟩ := Prod.mk.inj (Option.some.inj h)
        exact .inr (.inr (.inl ⟨_, rfl, rfl⟩))

/-- **A pass sends what there is space for.** -/
theorem sendLoop_spec (h : sendLoop env fuel c rest = some (o, c')) :
    (o = .done → rest.length ≤ c.this.cap ∧ Sends c c' rest) ∧
      (o = .blocked → c.this.cap < rest.length ∧ Sends c c' (rest.take c.this.cap) ∧
        (c.this.cap = 0 → c' = c)) := by
  induction fuel generalizing c rest with
  | zero =>
    obtain ⟨rfl, rfl, rfl⟩ := sendLoop_zero h
    exact ⟨fun _ => ⟨Nat.zero_le _, .nothing rfl rfl⟩, nofun⟩
  | succ fuel ih =>
    rcases sendLoop_cases h with ⟨rfl, rfl, rfl⟩ | ⟨hne, hcap, rfl, rfl⟩ | ⟨-, rfl, -⟩ | ⟨hne, h⟩
    · exact ⟨fun _ => ⟨Nat.zero_le _, .nothing rfl rfl⟩, nofun⟩
    · refine ⟨nofun, fun _ => ⟨?_, ?_, fun _ => rfl⟩⟩
      · rw [hcap]
        exact List.length_pos_iff.mpr hne
      · rw [hcap, List.take_zero]
        exact .nothing rfl rfl
    · exact ⟨nofun, nofun⟩
    · -- a segment has been sent, and the rest is for the other rounds
      have hle := seglen_le_cap c.this env.mtuSeg rest.length
      have hle' := seglen_le_count c.this env.mtuSeg rest.length
      generalize c.this.seglen env.mtuSeg rest.length = n at *
      obtain ⟨hdone, hblocked⟩ := ih h
      have hcap := sendBytes_cap env rest hle
      have hsends := sendBytes_sends env c hle'
      rw [hcap, List.length_drop] at hdone hblocked
      refine ⟨fun ho => ?_, fun ho => ?_⟩
      · obtain ⟨hlen, hrest⟩ := hdone ho
        refine ⟨by omega, ?_⟩
        have hall := hsends.trans hrest
        rwa [List.take_append_drop] at hall
      · obtain ⟨hlt, hrest, -⟩ := hblocked ho
        refine ⟨by omega, ?_, fun hzero => absurd hzero hne⟩
        have hall := hsends.trans hrest
        rwa [← List.take_add, Nat.add_sub_cancel' hle] at hall

/-! ## Calls -/

theorem writeEntry_ok (h : writeEntry env fuel c buf = some (some (.ok buf.length), c')) :
    buf.length ≤ c.this.cap ∧ Sends c c' buf := by
  -- the states in which zero is returned, which is the length of the buffer
  have hzero {d : Ctx} (hd : some (some (Except.ok (ε := Errno) 0), c) =
      some (some (.ok buf.length), d)) : buf.length ≤ c.this.cap ∧ Sends c d buf := by
    obtain ⟨hlen, rfl⟩ := Prod.mk.inj (Option.some.inj hd)
    obtain rfl := List.eq_nil_of_length_eq_zero (Except.ok.inj (Option.some.inj hlen)).symm
    exact ⟨Nat.zero_le _, .nothing rfl rfl⟩
  unfold writeEntry at h
  cases hst : c.this.tcpstate with
  | established | closewait =>
    rw [hst] at h
    dsimp only at h
    split at h
    · cases h
    · next d hloop =>
      obtain ⟨-, rfl⟩ := Prod.mk.inj (Option.some.inj h)
      exact (sendLoop_spec hloop).1 rfl
    · cases h
    · cases h
  | closing | lastack | timewait =>
    rw [hst] at h
    exact hzero h
  | closed | listen | synsent | synrecv | finwait1 | finwait2 =>
    rw [hst] at h
    cases h

theorem writeEntry_wait (h : writeEntry env fuel c buf = some (none, c')) :
    c.this.cap < buf.length ∧ Sends c c' (buf.take c.this.cap) ∧ (c.this.cap = 0 → c' = c) := by
  unfold writeEntry at h
  cases hst : c.this.tcpstate with
  | established | closewait =>
    rw [hst] at h
    dsimp only at h
    split at h
    · cases h
    · cases h
    · cases h
    · next d hloop =>
      obtain ⟨-, rfl⟩ := Prod.mk.inj (Option.some.inj h)
      exact (sendLoop_spec hloop).2 rfl
  | _ =>
    rw [hst] at h
    cases h

/-- Segments that arrive do not change the number of the next byte to be sent. -/
theorem tcpNetpacket_sndnxt (env : Env) (this : Socket) (src dest : BitVec 32) (buf : Nat → Byte)
    (length : Nat) : (tcpNetpacket env this src dest buf length).this.sndnxt = this.sndnxt := by
  by_cases h : this.tcpstate = .listen
  · unfold tcpNetpacket
    dsimp only
    cases this.adapter.or env.route with
    | none => rfl
    | some adapter =>
      obtain ⟨m, t, f, hopt⟩ := tcpParseoptions_eq this (loadPacket buf length) env.opts
      rw [hopt]
      dsimp only
      rw [onPacket_listen env _ adapter _ h]
  · have hframe := (frame_tcpNetpacket env src dest buf length h).sndnxt
    split at hframe <;> exact hframe

theorem arrivals_sndnxt (arrivals : List Arrival) (this : Socket) :
    (arrivals.foldl arrive this).sndnxt = this.sndnxt := by
  induction arrivals generalizing this with
  | nil => rfl
  | cons arrival arrivals ih => exact (ih _).trans (tcpNetpacket_sndnxt _ _ _ _ _ _)

/-- Each pass finds the window either full, or large enough for all bytes. -/
def Clean (count : Nat) : List (List Arrival) → Socket → Prop
  | [], this => count ≤ this.cap ∨ this.cap = 0
  | wait :: waits, this =>
    count ≤ this.cap ∨ (this.cap = 0 ∧ Clean count waits (wait.foldl arrive this))

theorem writeRetry_spec {waits : List (List Arrival)}
    (h : writeRetry env fuel buf waits c = some (.ok buf.length, c')) :
    ∃ again, Sends c c' (again ++ buf) ∧ (again = [] ↔ Clean buf.length waits c.this) := by
  induction waits generalizing c with
  | nil =>
    rw [writeRetry] at h
    split at h
    · next r d hentry =>
      obtain ⟨rfl, rfl⟩ := Prod.mk.inj (Option.some.inj h)
      obtain ⟨hle, hsends⟩ := writeEntry_ok hentry
      exact ⟨[], hsends, iff_of_true rfl (.inl hle)⟩
    · cases h
  | cons wait waits ih =>
    rw [writeRetry] at h
    split at h
    · next r d hentry =>
      obtain ⟨rfl, rfl⟩ := Prod.mk.inj (Option.some.inj h)
      obtain ⟨hle, hsends⟩ := writeEntry_ok hentry
      exact ⟨[], hsends, iff_of_true rfl (.inl hle)⟩
    · next d hentry =>
      obtain ⟨hlt, hsends, hsame⟩ := writeEntry_wait hentry
      obtain ⟨again, hrest, hiff⟩ := ih h
      have hwait : Sends d { d with this := wait.foldl arrive d.this } [] :=
        .nothing rfl (arrivals_sndnxt wait d.this)
      refine ⟨buf.take c.this.cap ++ again, ?_, ?_⟩
      · have hall := (hsends.trans hwait).trans hrest
        rwa [List.append_nil, ← List.append_assoc] at hall
      · rw [List.append_eq_nil_iff, List.take_eq_nil_iff, hiff, Clean]
        have hne : buf ≠ [] := by
          rintro rfl
          exact absurd hlt (Nat.not_lt_zero _)
        constructor
        · rintro ⟨hcap | hbuf, hclean⟩
          · obtain rfl := hsame hcap
            exact .inr ⟨hcap, hclean⟩
          · exact absurd hbuf hne
        · rintro (hle | ⟨hcap, hclean⟩)
          · omega
          · obtain rfl := hsame hcap
            exact ⟨.inl hcap, hclean⟩
    · cases h

/-- The loop of `tcp_sendmsg` collects the first bytes of the buffers. -/
theorem gather_eq : ∀ (iovs : List (List Byte)) (n : Nat), gather iovs n = iovs.flatten.take n
  | [], n => by rw [gather, List.flatten_nil, List.take_nil]
  | iov :: iovs, n => by
    have hrest : n - min n iov.length = n - iov.length := by omega
    rw [gather, gather_eq iovs, List.flatten_cons, List.take_append, Nat.min_comm,
      ← List.take_eq_take_min, hrest]

inductive WriteCall where
  | write (buf : List Byte)
  | sendmsg (named : Bool) (iovs : List (List Byte))

/-- The bytes that the call is to send; their number is a `size_t`. -/
def WriteCall.bytes : WriteCall → List Byte
  | .write buf => buf
  | .sendmsg _ iovs => iovs.flatten.take ((iovs.map List.length).sum % 2 ^ 64)

def WriteCall.run (env : WriteEnv) (fuel : Nat) (this : Socket) (waits : List (List Arrival)) :
    WriteCall → Option (Except Errno Nat × Ctx)
  | .write buf => tcpWrite env fuel this buf waits
  | .sendmsg named iovs => tcpSendmsg env fuel this named iovs waits

theorem run_eq {waits : List (List Arrival)} {call : WriteCall} {n : Nat}
    (h : call.run env fuel this waits = some (.ok n, c')) :
    writeRetry env fuel call.bytes waits { this } = some (.ok n, c') := by
  cases call with
  | write buf =>
    rw [WriteCall.run, tcpWrite] at h
    split at h
    · cases h
    · exact h
  | sendmsg named iovs =>
    rw [WriteCall.run, tcpSendmsg, gather_eq] at h
    split at h
    · cases h
    · exact h

/--
**A call that returns the number of its bytes has sent each of them once, in order, if and only if
no pass of its loop finds a window that is open but too small.**
-/
theorem delivers_iff {waits : List (List Arrival)} {call : WriteCall}
    (h : call.run env fuel this waits = some (.ok call.bytes.length, c')) :
    Delivers this.sndnxt call.bytes c'.sent ↔ Clean call.bytes.length waits this := by
  obtain ⟨again, hsends, hiff⟩ := writeRetry_spec (run_eq h)
  obtain ⟨segs, hsent, hcons, hpay⟩ := hsends.sent
  rw [List.nil_append] at hsent
  rw [hsent, ← hiff]
  unfold Delivers
  rw [hpay, List.append_left_eq_self]
  exact and_iff_right hcons

/-- All but `n` bytes of a window of 65536 are in flight. -/
def sampleSender (n : Nat) : Socket :=
  { sampleSock with
    snduna := 1000
    sndnxt := 1000 + BitVec.ofNat 32 (65536 - n)
    sndwnd := 65536 }

def sampleWriteEnv : WriteEnv := ⟨fun _ => 0, 1000, fun _ => true, true⟩

/-- An acknowledgement, with the same window. -/
def sampleAck (ack : BitVec 32) : Arrival where
  env := sampleEnv
  src := 0
  dest := 0
  buf k :=
    ([0, 80, 0, 81, 0, 0, 3, 0xe8] ++ [ack.extractLsb' 24 8, ack.extractLsb' 16 8,
      ack.extractLsb' 8 8, ack.extractLsb' 0 8] ++ [0x50, 0x10, 0, 1, 0, 0, 0, 0]).getD k 0
  length := 0

/-- The window is full, and the call waits for an acknowledgement. -/
theorem delivers_iff_sample : ∃ c,
    (WriteCall.write [1, 2, 3]).run sampleWriteEnv 9 (sampleSender 0) [[sampleAck 66536]] =
      some (.ok 3, c) ∧ Delivers (sampleSender 0).sndnxt [1, 2, 3] c.sent := by
  have hrun : ((WriteCall.write [1, 2, 3]).run sampleWriteEnv 9 (sampleSender 0)
      [[sampleAck 66536]]).map Prod.fst = some (.ok 3) := by decide +kernel
  obtain ⟨⟨r, c⟩, hrun, rfl⟩ := Option.map_eq_some_iff.mp hrun
  refine ⟨c, hrun, (delivers_iff hrun).mpr ?_⟩
  exact .inr ⟨by decide +kernel, .inl (by decide +kernel)⟩

/-- There is space for two bytes of three. They are sent again with the third. -/
theorem write_repeats : ¬ ∀ (env : WriteEnv) (fuel : Nat) (this : Socket)
    (waits : List (List Arrival)) (call : WriteCall) (c' : Ctx), this.state = .connected →
    call.run env fuel this waits = some (.ok call.bytes.length, c') →
    Delivers this.sndnxt call.bytes c'.sent := by
  intro hall
  have hrun : ((WriteCall.write [1, 2, 3]).run sampleWriteEnv 9 (sampleSender 2)
      [[sampleAck 66536]]).map (fun r => (r.1, payload r.2.sent)) =
        some (.ok 3, [1, 2, 1, 2, 3]) := by decide +kernel
  obtain ⟨⟨r, c⟩, hrun, heq⟩ := Option.map_eq_some_iff.mp hrun
  obtain ⟨rfl, hpay⟩ := Prod.mk.inj heq
  have hdel := (hall _ _ _ _ (.write [1, 2, 3]) c rfl hrun).2
  rw [hpay] at hdel
  cases hdel

end Lyre.Tcp
