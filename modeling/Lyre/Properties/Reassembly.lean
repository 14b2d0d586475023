import Lyre.Dev.NetReassemble
import Lyre.Infra.Run
import Mathlib.Data.Set.Function

/-!
# Datagrams that are put together from fragments

`net_reassemble` adds the length of every fragment that it takes to the length of the datagram, and
takes the last fragment for the sign that all the others have come. A datagram that it returns is
one that was sent if each fragment begins where the data that has come so far ends.
-/

namespace Lyre.Net

open Infra Infra.Bytes Infra.Ring

variable {metas : List Reassmetadata} {m : Reassmetadata} {header : InetHeader}
  {data fresh beyond : Mem}

/-! ## `net_reassemble` -/

/-- The metadata that `net_reassemble` adds a fragment to. -/
def accepting (metas : List Reassmetadata) (header : InetHeader) : Option Reassmetadata :=
  if inetSize < header.ihl.toNat * 4 then none
  else
    match findMetadata header metas 0 none with
    | some i => metas[i]?
    | none => if header.offset ≠ 0 then none else some (newMetadata header)

theorem findMetadata_some {i : Nat} : ∀ {metas : List Reassmetadata} {j : Nat} {found : Option Nat},
    findMetadata header metas j found = some i →
      found = some i ∨ j ≤ i ∧ ∃ m, metas[i - j]? = some m ∧ m.matches header
  | [], _, _, h => .inl h
  | m :: metas, j, found, h => by
    rw [findMetadata] at h
    rcases findMetadata_some h with hfound | ⟨hle, m', hget, hmatch⟩
    · split at hfound
      · next hm =>
        obtain rfl := Option.some.inj hfound
        refine .inr ⟨Nat.le_refl j, m, ?_, hm⟩
        rw [Nat.sub_self, List.getElem?_cons_zero]
      · exact .inl hfound
    · refine .inr ⟨by omega, m', ?_, hmatch⟩
      rw [show i - j = i - (j + 1) + 1 by omega, List.getElem?_cons_succ]
      exact hget

theorem netReassemble_cases (metas : List Reassmetadata) (header : InetHeader)
    (data fresh beyond : Mem) :
    (accepting metas header = none ∧
      netReassemble metas header data fresh beyond = (none, metas, [])) ∨
    ∃ metas' i m, accepting metas header = some m ∧ metas'[i]? = some m ∧
      (∀ x ∈ metas', x ∈ metas ∨ x = m) ∧
      netReassemble metas header data fresh beyond =
        ((reassembleAt metas' i header data fresh beyond).1,
          (reassembleAt metas' i header data fresh beyond).2,
          [.read inetSize header.dataLen.toNat]) := by
  unfold netReassemble accepting
  split
  · exact .inl ⟨rfl, rfl⟩
  · cases hfind : findMetadata header metas 0 none with
    | some i =>
      obtain hnone | ⟨-, m, hget, -⟩ := findMetadata_some hfind
      · cases hnone
      · exact .inr ⟨metas, i, m, hget, hget, fun x hx => .inl hx, rfl⟩
    | none =>
      dsimp only
      split
      · exact .inl ⟨rfl, rfl⟩
      · refine .inr ⟨metas ++ [newMetadata header], metas.length, newMetadata header, rfl, ?_, ?_, rfl⟩
        · rw [List.getElem?_concat_length]
        · intro x hx
          rw [List.mem_append, List.mem_singleton] at hx
          exact hx

theorem accepting_cases (h : accepting metas header = some m) :
    (m ∈ metas ∧ m.matches header) ∨ m = newMetadata header ∧ header.offset = 0 := by
  unfold accepting at h
  split at h
  · cases h
  · cases hfind : findMetadata header metas 0 none with
    | some i =>
      rw [hfind] at h
      obtain hnone | ⟨-, m', hget, hmatch⟩ := findMetadata_some hfind
      · cases hnone
      · obtain rfl : m' = m := Option.some.inj (hget.symm.trans h)
        exact .inl ⟨List.mem_of_getElem? hget, hmatch⟩
    | none =>
      rw [hfind] at h
      dsimp only at h
      split at h
      · cases h
      · next hoff => exact .inr ⟨(Option.some.inj h).symm, not_not.mp hoff⟩

/-! ## The first half of `net_oninet` -/

/-- `net_oninet` does not drop the packet. -/
structure Valid (buf : Mem) (length : Nat) : Prop where
  long : inetSize ≤ length
  version : (loadInet buf).version = 4
  csum : (loadInet buf).csum = (loadInet buf).checksum

variable {buf : Mem} {length : Nat}

theorem checksum_cleared (h : InetHeader) : h.cleared.checksum = h.checksum := rfl

theorem inetAccept_fragment (metas : List Reassmetadata) (fresh beyond : Mem) (h : Valid buf length)
    (hfrag : (loadInet buf).isFragment = true) :
    inetAccept metas buf length fresh beyond =
      let r := netReassemble metas (loadInet buf).cleared (fun k => buf (inetSize + k)) fresh beyond
      (r.1, r.2.1, .read 0 inetSize :: r.2.2) := by
  unfold inetAccept
  dsimp only
  rw [if_neg (Nat.not_lt.mpr h.long), if_neg (not_not.mpr h.version), checksum_cleared,
    if_neg (not_not.mpr h.csum), if_pos hfrag]

theorem inetAccept_whole (metas : List Reassmetadata) (fresh beyond : Mem) (h : Valid buf length)
    (hfrag : (loadInet buf).isFragment = false) :
    inetAccept metas buf length fresh beyond =
      (some ⟨(loadInet buf).cleared, fun k => buf (inetSize + k), length - inetSize⟩, metas,
        [.read 0 inetSize]) := by
  unfold inetAccept
  dsimp only
  rw [if_neg (Nat.not_lt.mpr h.long), if_neg (not_not.mpr h.version), checksum_cleared,
    if_neg (not_not.mpr h.csum), if_neg (Bool.eq_false_iff.mp hfrag)]

theorem inetAccept_not_valid (metas : List Reassmetadata) (fresh beyond : Mem)
    (h : ¬ Valid buf length) :
    ∃ accesses, inetAccept metas buf length fresh beyond = (none, metas, accesses) ∧
      ∀ a ∈ accesses, a.off + a.len ≤ inetSize ∧ inetSize ≤ length := by
  unfold inetAccept
  dsimp only
  split
  · exact ⟨[], rfl, fun a ha => nomatch ha⟩
  · next hlong =>
    have hle := Nat.not_lt.mp hlong
    split
    · refine ⟨_, rfl, fun a ha => ?_⟩
      rw [List.mem_singleton.mp ha]
      exact ⟨by decide, hle⟩
    · next hversion =>
      split
      · refine ⟨_, rfl, fun a ha => ?_⟩
        rw [List.mem_singleton.mp ha]
        exact ⟨by decide, hle⟩
      · next hcsum => exact absurd ⟨hle, not_not.mp hversion, not_not.mp hcsum⟩ h

/-! ## Datagrams and their fragments -/

/-- A datagram that was sent. -/
structure SentDatagram where
  header : InetHeader
  payload : List Byte
  le : payload.length ≤ 65515

/-- What a fragment has in common with its datagram. -/
def InetHeader.key (h : InetHeader) : BitVec 16 × BitVec 32 × BitVec 32 := (h.id, h.src, h.dest)

theorem matches_iff : m.matches header ↔ m.header.key = header.key := by
  unfold Reassmetadata.matches InetHeader.key
  simp [and_assoc]

/-- The header and the bytes behind it are a fragment of the datagram: some of its payload, which
begins at the offset and is the last one if it reaches the end. -/
structure IsFragment (d : SentDatagram) (header : InetHeader) (data : Mem) : Prop where
  key : header.key = d.header.key
  within : header.offset + header.dataLen.toNat ≤ d.payload.length
  data : slice data 0 header.dataLen.toNat =
    (d.payload.drop header.offset).take header.dataLen.toNat
  more : header.moreFragments = false ↔
    header.offset + header.dataLen.toNat = d.payload.length

/-- The metadata holds the beginning of the datagram. -/
structure Holds (d : SentDatagram) (m : Reassmetadata) : Prop where
  key : m.header.key = d.header.key
  within : m.len.toNat ≤ d.payload.length
  data : slice m.data 0 m.len.toNat = d.payload.take m.len.toNat
  size : m.len.toNat ≤ m.size

variable {d : SentDatagram}

theorem holds_newMetadata (h : header.key = d.header.key) : Holds d (newMetadata header) :=
  ⟨h, Nat.zero_le _, rfl, Nat.zero_le _⟩

/-- The length of the data, which no fragment of the datagram takes beyond 65535. -/
theorem len_addFragment (fresh : Mem) (hf : IsFragment d header data)
    (hoff : header.offset = m.len.toNat) :
    (addFragment m header data fresh).len.toNat = m.len.toNat + header.dataLen.toNat := by
  have hle := d.le
  have hwithin := hf.within
  unfold addFragment
  rw [BitVec.toNat_add, Nat.mod_eq_of_lt (by omega)]

/-- **A fragment that begins where the data ends is put in its place.** -/
theorem Holds.add (fresh : Mem) (hm : Holds d m) (hf : IsFragment d header data)
    (hoff : header.offset = m.len.toNat) : Holds d (addFragment m header data fresh) := by
  have hlen := len_addFragment fresh hf hoff
  refine ⟨hm.key, ?_, ?_, Nat.le_refl _⟩
  · rw [hlen, ← hoff]
    exact hf.within
  · rw [hlen, slice_add, List.take_add]
    congr 1
    · rw [← hm.data]
      refine slice_congr fun k hk => ?_
      have hsize := hm.size
      rw [Nat.zero_add]
      unfold addFragment at hlen ⊢
      dsimp only at hlen ⊢
      rw [blit_apply_of_not (by rw [hoff]; omega), if_pos ⟨by omega, by omega⟩]
    · have hblit := slice_blit (fun k => if k < m.size ∧ k < (m.len + header.dataLen).toNat
        then m.data k else fresh k) header.offset (slice data 0 header.dataLen.toNat)
      rw [length_slice] at hblit
      rw [Nat.zero_add, ← hoff, ← hf.data]
      exact hblit

/-- The payload of a datagram. -/
def Datagram.payload (r : Datagram) : List Byte := slice r.data 0 r.size

theorem payload_reassembled (m : Reassmetadata) (beyond : Mem) :
    (reassembled m beyond).payload = slice m.data 0 m.len.toNat :=
  slice_congr fun k hk => by
    rw [Nat.zero_add]
    exact if_pos hk

theorem Holds.whole (fresh beyond : Mem) (hm : Holds d m) (hf : IsFragment d header data)
    (hoff : header.offset = m.len.toNat) (hlast : header.moreFragments = false) :
    (reassembled (addFragment m header data fresh) beyond).payload = d.payload := by
  have hall := hf.more.mp hlast
  rw [payload_reassembled, (hm.add fresh hf hoff).data, len_addFragment fresh hf hoff, ← hoff,
    hall, List.take_length]

/-! ## Runs -/

/-- What has not been reassembled, and what has been. -/
structure Reassembly where
  metas : List Reassmetadata := []
  returned : List Datagram := []

inductive ReassemblyEvent where
  | fragment (header : InetHeader) (data fresh beyond : Mem)
  /-- A pass of `net_fraghandler`. -/
  | tick

def reassemblyStep (s : Reassembly) : ReassemblyEvent → Reassembly
  | .fragment header data fresh beyond =>
    match netReassemble s.metas header data fresh beyond with
    | (r, metas, _) => ⟨metas, s.returned ++ r.toList⟩
  | .tick => { s with metas := netFraghandler s.metas }

/-- Only fragments of the datagrams arrive: in any order, some of them never and some again. -/
def Presented (sent : Set SentDatagram) : ReassemblyEvent → Prop
  | .fragment header data _ _ => ∃ d ∈ sent, IsFragment d header data
  | .tick => True

/-- A fragment that is accepted begins where the data of its datagram ends. -/
def InOrder (s : Reassembly) : ReassemblyEvent → Prop
  | .fragment header _ _ _ => ∀ m ∈ accepting s.metas header, header.offset = m.len.toNat
  | .tick => True

instance (s : Reassembly) : DecidablePred (InOrder s)
  | .fragment header _ _ _ =>
    inferInstanceAs (Decidable (∀ m ∈ accepting s.metas header, header.offset = m.len.toNat))
  | .tick => .isTrue trivial

/-- `net_fraghandler` changes timers and drops metadata. -/
theorem mem_fraghandlerLoop : ∀ {fuel i : Nat} {metas : List Reassmetadata},
    ∀ x ∈ fraghandlerLoop fuel i metas, ∃ m ∈ metas, x = { m with timer := x.timer }
  | 0, _, _, x, hx => ⟨x, hx, rfl⟩
  | fuel + 1, i, metas, x, hx => by
    rw [fraghandlerLoop] at hx
    cases hget : metas[i]? with
    | none =>
      rw [hget] at hx
      exact ⟨x, hx, rfl⟩
    | some m =>
      rw [hget] at hx
      obtain ⟨y, hy, hxy⟩ := mem_fraghandlerLoop x hx
      split at hy
      · exact ⟨y, List.mem_of_mem_eraseIdx hy, hxy⟩
      · rcases List.mem_or_eq_of_mem_set hy with hy | rfl
        · exact ⟨y, hy, hxy⟩
        · exact ⟨m, List.mem_of_getElem? hget, hxy⟩

/-- Every partial datagram holds the beginning of one that was sent, and what has been returned are
payloads that were sent. -/
structure ReassemblyInv (sent : Set SentDatagram) (s : Reassembly) : Prop where
  holds : ∀ m ∈ s.metas, ∃ d ∈ sent, Holds d m
  returned : ∀ r ∈ s.returned, ∃ d ∈ sent, r.payload = d.payload

variable {sent : Set SentDatagram} {s : Reassembly}

/-- What accepts a fragment of a datagram holds the beginning of this datagram, since no other one
has its key. -/
theorem ReassemblyInv.accepting (h : ReassemblyInv sent s)
    (hkeys : Set.InjOn (fun d => d.header.key) sent) (hd : d ∈ sent)
    (hf : IsFragment d header data) (hm : accepting s.metas header = some m) : Holds d m := by
  obtain ⟨hmem, hmatch⟩ | ⟨rfl, -⟩ := accepting_cases hm
  · obtain ⟨d', hd', hholds⟩ := h.holds m hmem
    have hkey : d'.header.key = d.header.key := by
      rw [← hholds.key, matches_iff.mp hmatch, hf.key]
    exact hkeys hd' hd hkey ▸ hholds
  · exact holds_newMetadata hf.key

theorem ReassemblyInv.step {e : ReassemblyEvent} (h : ReassemblyInv sent s)
    (hkeys : Set.InjOn (fun d => d.header.key) sent) (he : Presented sent e)
    (hord : InOrder s e) : ReassemblyInv sent (reassemblyStep s e) := by
  cases e with
  | tick =>
    refine ⟨fun m hm => ?_, h.returned⟩
    obtain ⟨m', hm', heq⟩ := mem_fraghandlerLoop m hm
    obtain ⟨d, hd, hholds⟩ := h.holds m' hm'
    rw [heq]
    exact ⟨d, hd, hholds.key, hholds.within, hholds.data, hholds.size⟩
  | fragment header data fresh beyond =>
    obtain ⟨d, hd, hf⟩ := he
    rw [reassemblyStep]
    obtain ⟨-, heq⟩ | ⟨metas', i, m, hacc, hget, hmem, heq⟩ :=
      netReassemble_cases s.metas header data fresh beyond
    · rw [heq]
      refine ⟨h.holds, ?_⟩
      dsimp only
      rw [Option.toList_none, List.append_nil]
      exact h.returned
    · have hm := h.accepting hkeys hd hf hacc
      have hoff := hord m hacc
      have hothers : ∀ x ∈ metas', ∃ d ∈ sent, Holds d x := by
        intro x hx
        rcases hmem x hx with hx | rfl
        · exact h.holds x hx
        · exact ⟨d, hd, hm⟩
      rw [heq, reassembleAt, hget]
      dsimp only
      split
      · refine ⟨fun x hx => ?_, ?_⟩
        · rcases List.mem_or_eq_of_mem_set hx with hx | rfl
          · exact hothers x hx
          · exact ⟨d, hd, hm.add fresh hf hoff⟩
        · rw [Option.toList_none, List.append_nil]
          exact h.returned
      · next hlast =>
        refine ⟨fun x hx => hothers x (List.mem_of_mem_eraseIdx hx), fun r hr => ?_⟩
        rw [Option.toList_some, List.mem_append, List.mem_singleton] at hr
        rcases hr with hr | rfl
        · exact h.returned r hr
        · exact ⟨d, hd, hm.whole fresh beyond hf hoff (Bool.eq_false_iff.mpr hlast)⟩

/-- **What is reassembled from fragments in order was sent.** -/
theorem reassembles (hkeys : Set.InjOn (fun d => d.header.key) sent)
    (h : Reach (fun s e s' => reassemblyStep s e = s') (fun s e => Presented sent e ∧ InOrder s e)
      {} s) :
    ∀ r ∈ s.returned, ∃ d ∈ sent, r.payload = d.payload := by
  have hinv : ReassemblyInv sent s := by
    refine h.invariant ⟨?_, ?_⟩ ?_
    · intro m hm
      cases hm
    · intro r hr
      cases hr
    · rintro s e _ hs ⟨he, hord⟩ rfl
      exact hs.step hkeys he hord
  exact hinv.returned

/-- The header of a fragment with 8 bytes. -/
def sampleHeader (fragoff : BitVec 16) : InetHeader :=
  ⟨5, 4, 0, 0, bswap16 28, 7, bswap16 fragoff, 64, protoUDP, 0, 1, 2⟩

/-- A datagram with 24 bytes. -/
def sampleDatagram : SentDatagram where
  header := sampleHeader 0
  payload := (List.range 24).map (BitVec.ofNat 8)
  le := by decide

/-- A fragment of the datagram, with zeros in fresh memory. -/
def sampleFragment (fragoff : BitVec 16) (start : Nat) : ReassemblyEvent :=
  .fragment (sampleHeader fragoff) (fun k => BitVec.ofNat 8 (start + k)) (fun _ => 0) fun _ => 0

theorem sampleFragment_presented :
    Presented {sampleDatagram} (sampleFragment 0x2000 0) ∧
      Presented {sampleDatagram} (sampleFragment 0x2001 8) ∧
      Presented {sampleDatagram} (sampleFragment 2 16) := by
  refine ⟨⟨_, rfl, ?_⟩, ⟨_, rfl, ?_⟩, ⟨_, rfl, ?_⟩⟩ <;> constructor <;> decide

theorem reassembles_sample :
    let s := reassemblyStep (reassemblyStep (reassemblyStep {} (sampleFragment 0x2000 0))
      (sampleFragment 0x2001 8)) (sampleFragment 2 16)
    s.returned.length = 1 ∧ ∀ r ∈ s.returned, ∃ d ∈ ({sampleDatagram} : Set SentDatagram),
      r.payload = d.payload := by
  obtain ⟨h₀, h₁, h₂⟩ := sampleFragment_presented
  exact ⟨by decide, reassembles (Set.injOn_singleton _ _)
    (.tail (.tail (.tail .refl ⟨h₀, by decide⟩ rfl) ⟨h₁, by decide⟩ rfl) ⟨h₂, by decide⟩ rfl)⟩

/-- The fragment in the middle is lost: what is returned is too short. -/
theorem reassembles_partial :
    ¬ ∀ s, Reach (fun s e s' => reassemblyStep s e = s') (fun _ e => Presented {sampleDatagram} e)
        {} s →
      ∀ r ∈ s.returned, ∃ d ∈ ({sampleDatagram} : Set SentDatagram), r.payload = d.payload := by
  intro hall
  obtain ⟨h₀, -, h₂⟩ := sampleFragment_presented
  have hrun := hall _ (.tail (.tail .refl h₀ rfl) h₂ rfl)
  have hlens : (reassemblyStep (reassemblyStep {} (sampleFragment 0x2000 0))
      (sampleFragment 2 16)).returned.map (·.payload.length) = [16] := by decide
  obtain ⟨r, hr, hlen⟩ := List.mem_map.mp (hlens ▸ List.mem_cons_self)
  obtain ⟨d, rfl, heq⟩ := hrun r hr
  rw [heq] at hlen
  exact absurd hlen (by decide)

/-! ## Where the data of a fragment goes -/

/-- The `memcpy` of `net_reassemble` into the block of a datagram, with the size to which the block
was reallocated and the length of the data before and after it. -/
structure FragmentCopy where
  off : Nat
  len : Nat
  size : Nat
  before : Nat
  after : Nat
  deriving DecidableEq, Repr

/-- The copy stays in the block, and the length does not wrap. -/
structure FragmentCopy.Inside (c : FragmentCopy) : Prop where
  le_size : c.off + c.len ≤ c.size
  after_eq : c.after = c.before + c.len

def fragmentCopy (m : Reassmetadata) (header : InetHeader) (data fresh : Mem) : FragmentCopy where
  off := header.offset
  len := header.dataLen.toNat
  size := (addFragment m header data fresh).size
  before := m.len.toNat
  after := (addFragment m header data fresh).len.toNat

/-- The copy of a step, if there is one. -/
def copyOf (s : Reassembly) : ReassemblyEvent → Option FragmentCopy
  | .fragment header data fresh _ =>
    (accepting s.metas header).map fun m => fragmentCopy m header data fresh
  | .tick => none

/-- The copies of a run. -/
def copies (events : List ReassemblyEvent) : List FragmentCopy :=
  outputs reassemblyStep (fun s e => (copyOf s e).toList) {} events

/-- A fragment that is accepted begins in the data of its datagram or at its end, and the datagram
stays below 65536 bytes. -/
def Fits (s : Reassembly) : ReassemblyEvent → Prop
  | .fragment header _ _ _ => ∀ m ∈ accepting s.metas header,
    header.offset ≤ m.len.toNat ∧ m.len.toNat + header.dataLen.toNat < 2 ^ 16
  | .tick => True

theorem fragmentCopy_inside_iff (m : Reassmetadata) (header : InetHeader) (data fresh : Mem) :
    (fragmentCopy m header data fresh).Inside ↔
      header.offset ≤ m.len.toNat ∧ m.len.toNat + header.dataLen.toNat < 2 ^ 16 := by
  have hlen : (addFragment m header data fresh).len.toNat =
      (m.len.toNat + header.dataLen.toNat) % 2 ^ 16 := BitVec.toNat_add _ _
  have hsize : (addFragment m header data fresh).size =
      (m.len.toNat + header.dataLen.toNat) % 2 ^ 16 := hlen
  have hdata := header.dataLen.isLt
  constructor
  · rintro ⟨hle, heq⟩
    unfold fragmentCopy at hle heq
    dsimp only at hle heq
    rw [hsize] at hle
    rw [hlen] at heq
    have hlt := Nat.mod_lt (m.len.toNat + header.dataLen.toNat) (show 0 < 2 ^ 16 by decide)
    exact ⟨by omega, by omega⟩
  · rintro ⟨hoff, hlt⟩
    unfold fragmentCopy
    refine ⟨?_, ?_⟩
    · dsimp only
      rw [hsize, Nat.mod_eq_of_lt hlt]
      omega
    · dsimp only
      rw [hlen, Nat.mod_eq_of_lt hlt]

theorem copyOf_inside_iff (s : Reassembly) (e : ReassemblyEvent) :
    (∀ c ∈ copyOf s e, c.Inside) ↔ Fits s e := by
  cases e with
  | tick => exact iff_of_true (fun c hc => nomatch hc) trivial
  | fragment header data fresh beyond =>
    unfold copyOf Fits
    dsimp only
    constructor
    · intro h m hm
      exact (fragmentCopy_inside_iff m header data fresh).mp
        (h _ (Option.mem_map_of_mem _ hm))
    · intro h c hc
      obtain ⟨m, hm, rfl⟩ := Option.mem_map.mp hc
      exact (fragmentCopy_inside_iff m header data fresh).mpr (h m hm)

/-- **Copies of fragments stay in their blocks**, in every run, exactly if every fragment fits in
the state that it meets. -/
theorem copies_inside_iff (events : List ReassemblyEvent) :
    (∀ c ∈ copies events, c.Inside) ↔
      ∀ pre e post, events = pre ++ e :: post → Fits (pre.foldl reassemblyStep {}) e := by
  unfold copies
  rw [forall_mem_outputs_iff]
  refine forall_congr' fun pre => forall_congr' fun e => forall_congr' fun _ =>
    imp_congr_right fun _ => ?_
  rw [← copyOf_inside_iff]
  exact forall_congr' fun c => imp_congr_left Option.mem_toList

/-- Eight bytes have come, and eight more are put behind a gap of eight bytes. -/
theorem copies_outside :
    ¬ ∀ c ∈ copies [sampleFragment 0x2000 0, sampleFragment 2 16], c.Inside := by
  intro hall
  have hcopies : (⟨16, 8, 16, 8, 16⟩ : FragmentCopy) ∈
      copies [sampleFragment 0x2000 0, sampleFragment 2 16] := by decide
  exact absurd (hall _ hcopies).le_size (by decide)

end Lyre.Net
