import Lyre.Properties.Reassembly

/-!
# What `net_sendinet` sends

The bytes of a header are loaded as this header. The packet that `net_sendinet` makes is accepted
by `net_oninet`: it has the version, the checksum and the length that are looked for.
-/

namespace Lyre.Net

open Infra.Bytes Infra.Ring

variable {adapters : List Adapter} {adapter a : Adapter} {reply : Option MacAddr}
  {src dest : BitVec 32} {protocol : BitVec 8} {data : List Byte} {out : Output} {mac : MacAddr}

/-! ## Headers -/

@[simp] theorem length_bytes (h : InetHeader) : h.bytes.length = inetSize := rfl

theorem loadInet_of_bytes {buf : Mem} (h : InetHeader)
    (hbuf : ∀ k < inetSize, buf k = h.bytes.getD k 0) : loadInet buf = h := by
  have h₀ : buf 0 = h.version ++ h.ihl := hbuf 0 (by decide)
  have h₁ : buf 1 = h.dscp ++ h.ecn := hbuf 1 (by decide)
  apply InetHeader.ext
  · exact (congrArg _ h₀).trans BitVec.extractLsb'_append_eq_right
  · exact (congrArg _ h₀).trans BitVec.extractLsb'_append_eq_left
  · exact (congrArg _ h₁).trans BitVec.extractLsb'_append_eq_right
  · exact (congrArg _ h₁).trans BitVec.extractLsb'_append_eq_left
  · exact load16_of_bytes (hbuf 2 (by decide)) (hbuf 3 (by decide))
  · exact load16_of_bytes (hbuf 4 (by decide)) (hbuf 5 (by decide))
  · exact load16_of_bytes (hbuf 6 (by decide)) (hbuf 7 (by decide))
  · exact hbuf 8 (by decide)
  · exact hbuf 9 (by decide)
  · exact load16_of_bytes (hbuf 10 (by decide)) (hbuf 11 (by decide))
  · exact load32_of_bytes (hbuf 12 (by decide)) (hbuf 13 (by decide)) (hbuf 14 (by decide))
      (hbuf 15 (by decide))
  · exact load32_of_bytes (hbuf 16 (by decide)) (hbuf 17 (by decide)) (hbuf 18 (by decide))
      (hbuf 19 (by decide))

theorem bytes16_load16 (buf : Mem) (a : Nat) : bytes16 (load16 buf a) = [buf a, buf (a + 1)] := by
  unfold bytes16 load16
  rw [BitVec.extractLsb'_append_eq_right, BitVec.extractLsb'_append_eq_left]

theorem bytes32_load32 (buf : Mem) (a : Nat) :
    bytes32 (load32 buf a) = [buf a, buf (a + 1), buf (a + 2), buf (a + 3)] := by
  have h₀ : (load32 buf a).extractLsb' 0 8 = buf a := BitVec.extractLsb'_append_eq_right
  have h₁ : (load32 buf a).extractLsb' 8 8 = buf (a + 1) := by
    rw [load32, BitVec.extractLsb'_append_eq_of_le (by decide)]
    exact BitVec.extractLsb'_append_eq_right
  have h₂ : (load32 buf a).extractLsb' 16 8 = buf (a + 2) := by
    rw [load32, BitVec.extractLsb'_append_eq_of_le (by decide),
      BitVec.extractLsb'_append_eq_of_le (by decide)]
    exact BitVec.extractLsb'_append_eq_right
  have h₃ : (load32 buf a).extractLsb' 24 8 = buf (a + 3) := by
    rw [load32, BitVec.extractLsb'_append_eq_of_le (by decide),
      BitVec.extractLsb'_append_eq_of_le (by decide)]
    exact BitVec.extractLsb'_append_eq_left
  rw [bytes32, h₀, h₁, h₂, h₃]

theorem bytes_loadInet (buf : Mem) : (loadInet buf).bytes = slice buf 0 inetSize := by
  have h₀ : (loadInet buf).version ++ (loadInet buf).ihl = buf 0 :=
    BitVec.extractLsb'_append_extractLsb'
  have h₁ : (loadInet buf).dscp ++ (loadInet buf).ecn = buf 1 :=
    BitVec.extractLsb'_append_extractLsb'
  unfold InetHeader.bytes
  rw [h₀, h₁]
  unfold loadInet
  simp only [bytes16_load16, bytes32_load32]
  rfl

theorem getD_slice {f : Mem} {n k : Nat} (h : k < n) (start : Nat) :
    (slice f start n).getD k 0 = f (start + k) := by
  have hlt : k < (slice f start n).length := by rwa [length_slice]
  rw [List.getD_eq_getElem?_getD, List.getElem?_eq_getElem hlt, Option.getD_some]
  simp only [slice, List.getElem_map, List.getElem_range]

theorem loadInet_congr {buf buf' : Mem} (h : ∀ k < inetSize, buf k = buf' k) :
    loadInet buf = loadInet buf' := by
  refine loadInet_of_bytes _ fun k hk => ?_
  rw [bytes_loadInet, getD_slice hk, Nat.zero_add, h k hk]

theorem netChecksum_congr {buf buf' : Mem} {n : Nat} (h : ∀ k < n, buf k = buf' k) :
    netChecksum buf n = netChecksum buf' n := by
  have hsum : ∀ {l : List Nat} {c : BitVec 32}, (∀ i ∈ l, 2 * i + 1 < n) →
      l.foldl (fun csum i => csum + (load16 buf (2 * i)).setWidth 32) c =
        l.foldl (fun csum i => csum + (load16 buf' (2 * i)).setWidth 32) c := by
    intro l
    induction l with
    | nil => intro c _; rfl
    | cons i l ih =>
      intro c hl
      have hi := hl i List.mem_cons_self
      rw [List.foldl_cons, List.foldl_cons, load16, load16, h (2 * i) (by omega),
        h (2 * i + 1) hi]
      exact ih fun j hj => hl j (List.mem_cons_of_mem i hj)
  unfold netChecksum
  rw [hsum fun i hi => by have := List.mem_range.mp hi; omega]

/-- The checksum of a header in memory whose field `csum` is 0. -/
theorem netChecksum_loadInet {buf : Mem} (h : (loadInet buf).csum = 0) :
    netChecksum buf inetSize = (loadInet buf).checksum := by
  have hcleared : (loadInet buf).cleared = loadInet buf := by
    unfold InetHeader.cleared
    rw [← h]
  unfold InetHeader.checksum
  rw [hcleared, bytes_loadInet]
  refine netChecksum_congr fun k hk => ?_
  rw [memOf, getD_slice hk, Nat.zero_add]

/-! ## Fields that are stored -/

theorem store_apply_of_not (mem : Mem) (a : Nat) (x : BitVec 16) {o k : Nat}
    (h : ¬ (o ≤ k ∧ k < o + 2)) : blit mem (a + o) (bytes16 x) (a + k) = mem (a + k) := by
  refine blit_apply_of_not ?_
  have hlen : (bytes16 x).length = 2 := rfl
  omega

theorem load_store (mem : Mem) (a o : Nat) (x : BitVec 16) :
    load16 (fun k => blit mem (a + o) (bytes16 x) (a + k)) o = x := by
  refine load16_of_bytes ?_ ?_
  · simp [blit, bytes16]
  · simp [blit, bytes16, ← Nat.add_assoc]

theorem loadInet_store_len (mem : Mem) (a : Nat) (x : BitVec 16) :
    loadInet (fun k => blit mem (a + 2) (bytes16 x) (a + k)) =
      { loadInet (fun k => mem (a + k)) with len := x } := by
  apply InetHeader.ext
  case len => exact load_store mem a 2 x
  all_goals simp (disch := decide) only [loadInet, load16, load32, store_apply_of_not]

theorem loadInet_store_fragoff (mem : Mem) (a : Nat) (x : BitVec 16) :
    loadInet (fun k => blit mem (a + 6) (bytes16 x) (a + k)) =
      { loadInet (fun k => mem (a + k)) with fragoff := x } := by
  apply InetHeader.ext
  case fragoff => exact load_store mem a 6 x
  all_goals simp (disch := decide) only [loadInet, load16, load32, store_apply_of_not]

theorem loadInet_store_csum (mem : Mem) (a : Nat) (x : BitVec 16) :
    loadInet (fun k => blit mem (a + 10) (bytes16 x) (a + k)) =
      { loadInet (fun k => mem (a + k)) with csum := x } := by
  apply InetHeader.ext
  case csum => exact load_store mem a 10 x
  all_goals simp (disch := decide) only [loadInet, load16, load32, store_apply_of_not]

/-! ## Packets -/

theorem loadInet_blit (h : InetHeader) (data : List Byte) (behind : Mem) :
    loadInet (blit behind 0 (h.bytes ++ data)) = h := by
  refine loadInet_of_bytes h fun k hk => ?_
  have hlen : k < h.bytes.length := hk
  rw [blit, if_pos (Nat.zero_le k), Nat.sub_zero, List.getElem?_append_left hlen,
    List.getD_eq_getElem?_getD, List.getElem?_eq_getElem hlen, Option.getD_some, Option.getD_some]

theorem blit_data (h : InetHeader) (data : List Byte) (behind : Mem) (k : Nat) :
    blit behind 0 (h.bytes ++ data) (inetSize + k) = data[k]?.getD (behind (inetSize + k)) := by
  rw [blit, if_pos (Nat.zero_le _), Nat.sub_zero,
    List.getElem?_append_right (by rw [length_bytes]; omega), length_bytes, Nat.add_sub_cancel_left]

theorem slice_of_getD {l : List Byte} {buf rest : Mem} (hbuf : ∀ k, buf k = l[k]?.getD (rest k)) :
    slice buf 0 l.length = l := by
  refine List.ext_getElem (length_slice _ _ _) fun k hk hk' => ?_
  simp only [slice, List.getElem_map, List.getElem_range, Nat.zero_add]
  rw [hbuf, List.getElem?_eq_getElem hk', Option.getD_some]

/-! ## Frames -/

theorem length_etherFrame (dest src : MacAddr) (type : BitVec 16) (data : List Byte) :
    (etherFrame dest src type data).length = linkSize + data.length := by
  unfold etherFrame MacAddr.bytes bytes16
  simp [linkSize]
  omega

theorem drop_etherFrame (dest src : MacAddr) (type : BitVec 16) (data : List Byte) :
    (etherFrame dest src type data).drop linkSize = data := by
  refine List.drop_left' ?_
  simp [MacAddr.bytes, bytes16, linkSize]

theorem netRoute_some (h : (netRoute adapters (some adapter) src dest reply).1 = .ok (a, mac)) :
    a = adapter := by
  unfold netRoute at h
  dsimp only at h
  by_cases hsrc : src ≠ inaddrAny ∧ src ≠ adapter.ip
  · rw [if_pos hsrc] at h
    cases h
  · rw [if_neg hsrc] at h
    dsimp only at h
    split at h
    · cases h
      rfl
    · cases h

theorem hop_adapter (h : (if dest = inaddrBroadcast then .ok (adapter, macBroadcast)
    else (netRoute adapters (some adapter) src dest reply).1) = .ok (a, mac)) : a = adapter := by
  split at h
  · cases h
    rfl
  · exact netRoute_some h

theorem netSendinet_ok
    (h : netSendinet adapters adapter reply src dest protocol data = .ok (a, out)) :
    (∃ mac, out.frame = etherFrame mac adapter.mac ethProtoIPv4
      ((sendHeader adapter dest protocol data.length).bytes ++ data)) ∧
    ∀ frame, out = .fragmented frame → adapter.mtu < linkSize + inetSize + data.length := by
  unfold netSendinet at h
  dsimp only at h
  split at h
  · cases h
  · next b mac hb =>
    obtain rfl := hop_adapter hb
    split at h
    · cases h
      exact ⟨⟨mac, rfl⟩, fun frame hout => nomatch hout⟩
    · split at h
      · next hmtu =>
        cases h
        exact ⟨⟨mac, rfl⟩, fun frame _ => hmtu.2⟩
      · cases h
        exact ⟨⟨mac, rfl⟩, fun frame hout => nomatch hout⟩

theorem length_sendHeader {n : Nat} (adapter : Adapter) (dest : BitVec 32) (protocol : BitVec 8)
    (h : inetSize + n < 2 ^ 16) : (sendHeader adapter dest protocol n).length = inetSize + n := by
  unfold InetHeader.length sendHeader InetHeader.sealed
  dsimp only
  rw [bswap16_bswap16, BitVec.toNat_ofNat, Nat.mod_eq_of_lt h]

theorem isFragment_sendHeader (adapter : Adapter) (dest : BitVec 32) (protocol : BitVec 8) (n : Nat) :
    (sendHeader adapter dest protocol n).isFragment = false := by
  have hzero : (sendHeader adapter dest protocol n).fragoff = 0 := rfl
  unfold InetHeader.isFragment
  rw [hzero]
  decide

theorem sendHeader_valid (adapter : Adapter) (dest : BitVec 32) (protocol : BitVec 8)
    (data : List Byte) (behind : Mem) :
    Valid (blit behind 0 ((sendHeader adapter dest protocol data.length).bytes ++ data))
      (inetSize + data.length) := by
  have hload := loadInet_blit (sendHeader adapter dest protocol data.length) data behind
  refine ⟨Nat.le_add_right _ _, ?_, ?_⟩
  · rw [hload]
    rfl
  · rw [hload]
    rfl

end Lyre.Net
