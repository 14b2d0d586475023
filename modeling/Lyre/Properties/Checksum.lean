import Lyre.Infra.OnesComplement
import Lyre.Ipc.TcpInput

/-!
# The checksums of IPv4, ICMP and TCP

What `net_checksum` and `tcp_checksum` return is stored as it is, so that it should be the checksum
of RFC 1071 with its bytes swapped. `net_checksum` leaves an odd byte at the end out, which
`net_onicmp` hands to it in the answer to an odd ping. `tcp_checksum` counts that byte, but loses
the carry of its last fold, which `net_checksum` adds.
-/

namespace Lyre.Tcp

open Infra.Bytes Infra.Ring Infra.OnesComplement Net

/-! ## Numbers of 16 bits -/

theorem toNat_load16 (data : Mem) (a : Nat) :
    (load16 data a).toNat = (data a).toNat + 256 * (data (a + 1)).toNat := by
  have h := (data a).isLt
  rw [load16, BitVec.toNat_append, Nat.shiftLeft_eq, Nat.mul_comm, Nat.add_comm]
  exact (Nat.two_pow_add_eq_or_of_lt h _).symm.trans (Nat.add_comm _ _)

theorem toNat_bswap16 (x : BitVec 16) : (bswap16 x).toNat = swap x.toNat := by
  have h := x.isLt
  unfold bswap16 swap
  rw [BitVec.toNat_append, BitVec.extractLsb'_toNat, BitVec.extractLsb'_toNat,
    Nat.shiftRight_eq_div_pow, Nat.shiftRight_eq_div_pow, Nat.shiftLeft_eq, Nat.mul_comm]
  rw [← Nat.two_pow_add_eq_or_of_lt (by omega)]
  omega

theorem not_eq_iff {x y : BitVec 16} : ~~~ x = bswap16 (~~~ y) ↔ x.toNat = swap y.toNat := by
  have hx := x.isLt
  have hy := y.isLt
  rw [← BitVec.toNat_inj, toNat_bswap16, BitVec.toNat_not, BitVec.toNat_not]
  unfold swap
  omega

/-! ## Sums -/

theorem littleSum_slice (data : Mem) (length : Nat) :
    littleSum (slice data 0 length) =
      littleSum (slice data 0 (2 * (length / 2))) +
        if length % 2 = 1 then (data (length - 1)).toNat else 0 := by
  have hsplit : length = 2 * (length / 2) + length % 2 := (Nat.div_add_mod length 2).symm
  have happ : slice data 0 length =
      slice data 0 (2 * (length / 2)) ++ slice data (2 * (length / 2)) (length % 2) := by
    conv_lhs => rw [hsplit]
    rw [slice_add, Nat.zero_add]
  rw [happ, littleSum_append (by rw [length_slice]; omega)]
  congr 1
  rcases Nat.mod_two_eq_zero_or_one length with h | h
  · rw [h, if_neg Nat.zero_ne_one]
    rfl
  · rw [h, if_pos rfl, show length - 1 = 2 * (length / 2) by omega]
    rfl

theorem toNat_loop (data : Mem) (csum : BitVec 32) (n : Nat)
    (h : csum.toNat + littleSum (slice data 0 (2 * n)) < 2 ^ 32) :
    ((List.range n).foldl (fun csum i => csum + (load16 data (2 * i)).setWidth 32) csum).toNat =
      csum.toNat + littleSum (slice data 0 (2 * n)) := by
  induction n with
  | zero => rfl
  | succ n ih =>
    have hword : littleSum (slice data (2 * n) 2) = (load16 data (2 * n)).toNat := by
      rw [toNat_load16]
      rfl
    rw [show 2 * (n + 1) = 2 * n + 2 by omega, slice_add, Nat.zero_add,
      littleSum_append (by rw [length_slice]; omega), hword] at h ⊢
    rw [List.range_succ, List.foldl_append, List.foldl_cons, List.foldl_nil, BitVec.toNat_add,
      ih (by omega), BitVec.toNat_setWidth_of_le (by decide)]
    omega

theorem toNat_fold (csum : BitVec 32) :
    ((csum &&& 0xffff#32) + csum >>> 16).toNat = fold csum.toNat := by
  have h := csum.isLt
  have hand : (csum &&& 0xffff#32).toNat = csum.toNat % 2 ^ 16 :=
    Nat.and_two_pow_sub_one_eq_mod csum.toNat 16
  rw [BitVec.toNat_add, hand, BitVec.toNat_ushiftRight, Nat.shiftRight_eq_div_pow]
  unfold fold
  omega

theorem toNat_carry (csum : BitVec 32) :
    ((if 65535 < csum then csum + 1 else csum).setWidth 16).toNat =
      (if 2 ^ 16 - 1 < csum.toNat then csum.toNat + 1 else csum.toNat) % 2 ^ 16 := by
  have h := csum.isLt
  have hlt : 65535 < csum ↔ 2 ^ 16 - 1 < csum.toNat := BitVec.lt_def
  rw [BitVec.toNat_setWidth]
  split
  · next hc =>
    have hone : (csum + 1).toNat = (csum.toNat + 1) % 2 ^ 32 := BitVec.toNat_add csum 1
    rw [if_pos (hlt.mp hc), hone]
    omega
  · next hc => rw [if_neg (mt hlt.mpr hc)]

/-! ## Checksums -/

theorem littleSum_slice_le (data : Mem) {n : Nat} (h : n < 2 ^ 16) :
    littleSum (slice data 0 n) ≤ 65535 * 32768 := by
  have hle := littleSum_le (slice data 0 n)
  rw [length_slice] at hle
  exact Nat.le_trans hle (Nat.mul_le_mul_left 65535 (by omega))

/-- `net_checksum` is the complement of the sum of the whole pairs. -/
theorem netChecksum_eq (data : Mem) {length : Nat} (h : length < 2 ^ 16) :
    netChecksum data length =
      ~~~ BitVec.ofNat 16 (residue (littleSum (slice data 0 (2 * (length / 2))))) := by
  have hle := littleSum_slice_le data (n := 2 * (length / 2)) (by omega)
  have hzero : (0 : BitVec 32).toNat = 0 := rfl
  have hloop := toNat_loop data 0 (length / 2) (by rw [hzero]; omega)
  unfold netChecksum
  generalize (List.range (length / 2)).foldl
    (fun csum i => csum + (load16 data (2 * i)).setWidth 32) 0 = csum at hloop ⊢
  rw [hzero, Nat.zero_add] at hloop
  rw [← hloop] at hle ⊢
  rw [BitVec.setWidth_not (by decide)]
  congr 1
  refine BitVec.eq_of_toNat_eq ?_
  rw [BitVec.toNat_ofNat, Nat.mod_eq_of_lt (residue_lt csum.toNat),
    ← fold_carry (n := csum.toNat) (by omega), ← toNat_fold]
  exact toNat_carry _

/-- A pass adds the bytes of a buffer, the last one with a zero behind it, and folds once. -/
theorem toNat_checksumPass (csum : BitVec 32) (data : Mem) (length : Nat)
    (h : csum.toNat + littleSum (slice data 0 length) < 2 ^ 32) :
    (checksumPass csum data length).toNat = fold (csum.toNat + littleSum (slice data 0 length)) := by
  rw [littleSum_slice] at h ⊢
  have hloop := toNat_loop data csum (length / 2) (by omega)
  unfold checksumPass
  generalize (List.range (length / 2)).foldl
    (fun csum i => csum + (load16 data (2 * i)).setWidth 32) csum = sum at hloop ⊢
  refine (toNat_fold _).trans ?_
  congr 1
  rw [← Nat.add_assoc, ← hloop] at h ⊢
  split
  · next hodd =>
    rw [if_pos hodd] at h
    rw [BitVec.toNat_add, BitVec.toNat_setWidth_of_le (by decide), Nat.mod_eq_of_lt h]
  · next heven => rfl

/-- The header of `tcp_checksum`: the addresses, the protocol, and the length of the segment. -/
def pseudoHeader (src dest : BitVec 32) (length : BitVec 16) : List Byte :=
  bytes32 src ++ bytes32 dest ++ [0, protoTCP] ++ bytes16 (bswap16 length)

theorem pseudoHeader_segment_lt (src dest : BitVec 32) (segment : Mem) (n : BitVec 16) :
    fold (littleSum (pseudoHeader src dest n)) + littleSum (slice segment 0 n.toNat) < 2 ^ 32 := by
  have hlen : (pseudoHeader src dest n).length = 12 := rfl
  have hheader := littleSum_le (pseudoHeader src dest n)
  rw [hlen] at hheader
  have hfold : fold (littleSum (pseudoHeader src dest n)) ≤ 2 ^ 16 - 1 + 5 := fold_le (by omega)
  have hdata := littleSum_slice_le segment n.isLt
  omega

theorem tcpChecksum_eq (src dest : BitVec 32) (data : Mem) (n : BitVec 16) :
    tcpChecksum src dest data n =
      ~~~ BitVec.ofNat 16 (fold (fold (littleSum (pseudoHeader src dest n)) +
        littleSum (slice data 0 n.toNat))) := by
  have hzero : (0 : BitVec 32).toNat = 0 := rfl
  have hslice : slice (memOf (pseudoHeader src dest n)) 0 12 = pseudoHeader src dest n := rfl
  have hlt := pseudoHeader_segment_lt src dest data n
  have hheader : littleSum (pseudoHeader src dest n) < 2 ^ 32 := by
    have hle := littleSum_slice_le (memOf (pseudoHeader src dest n)) (n := 12) (by decide)
    rw [hslice] at hle
    omega
  have hfirst := toNat_checksumPass 0 (memOf (pseudoHeader src dest n)) 12
    (by rw [hslice, hzero]; omega)
  rw [hslice, hzero, Nat.zero_add] at hfirst
  have hsecond := toNat_checksumPass (checksumPass 0 (memOf (pseudoHeader src dest n)) 12) data
    n.toNat (by rw [hfirst]; omega)
  rw [hfirst] at hsecond
  rw [← hsecond]
  change (~~~ checksumPass (checksumPass 0 (memOf (pseudoHeader src dest n)) 12) data
    n.toNat).setWidth 16 = _
  rw [BitVec.setWidth_not (by decide), BitVec.ofNat_toNat]

/-! ## RFC 1071 -/

/-- What is stored has the bytes of the checksum in their order if the sum is the residue of the
bytes. -/
theorem not_eq_checksum_iff (v : Nat) (bytes : List Byte) :
    ~~~ BitVec.ofNat 16 v = bswap16 (checksum bytes) ↔ v % 2 ^ 16 = residue (littleSum bytes) := by
  have hlt := residue_lt (littleSum bytes)
  rw [checksum, not_eq_iff, BitVec.toNat_ofNat, BitVec.toNat_ofNat, sum_eq_swap,
    Nat.mod_eq_of_lt (swap_lt hlt), swap_swap hlt]

theorem netChecksum_iff (data : Mem) {length : Nat} (h : length < 2 ^ 16) :
    netChecksum data length = bswap16 (checksum (slice data 0 length)) ↔
      length % 2 = 0 ∨ data (length - 1) = 0 := by
  have hlt := residue_lt (littleSum (slice data 0 (2 * (length / 2))))
  have hbyte := (data (length - 1)).isLt
  have hzero : data (length - 1) = 0 ↔ (data (length - 1)).toNat = 0 := BitVec.toNat_inj.symm
  rw [netChecksum_eq data h, not_eq_checksum_iff, Nat.mod_eq_of_lt hlt,
    littleSum_slice data length, hzero]
  split
  · rw [eq_comm, residue_add_eq_iff (by omega)]
    omega
  · rw [Nat.add_zero]
    exact iff_of_true rfl (by omega)

theorem tcpChecksum_iff (src dest : BitVec 32) (segment : Mem) (n : BitVec 16) :
    tcpChecksum src dest segment n =
        bswap16 (checksum (pseudoHeader src dest n ++ slice segment 0 n.toNat)) ↔
      fold (fold (littleSum (pseudoHeader src dest n)) + littleSum (slice segment 0 n.toNat)) <
        2 ^ 16 := by
  have heven : (pseudoHeader src dest n).length % 2 = 0 := by
    rw [show (pseudoHeader src dest n).length = 12 from rfl]
  rw [tcpChecksum_eq, not_eq_checksum_iff, littleSum_append heven,
    ← residue_add_fold (littleSum (pseudoHeader src dest n))]
  exact fold_mod_eq_residue_iff (pseudoHeader_segment_lt src dest segment n)

/-- A buffer gets the checksum of RFC 1071 unless there is an odd byte at its end that is not 0. A
segment gets it unless there is a carry when the sum, with what the pseudo-header has been folded
to, is folded. -/
theorem checksums_iff (data : Mem) (length : Nat) (h : length ≤ 65535) (src dest : BitVec 32)
    (segment : Mem) (n : BitVec 16) :
    (netChecksum data length = bswap16 (checksum (slice data 0 length)) ↔
      length % 2 = 0 ∨ data (length - 1) = 0) ∧
    (tcpChecksum src dest segment n =
        bswap16 (checksum (pseudoHeader src dest n ++ slice segment 0 n.toNat)) ↔
      fold (fold (littleSum (pseudoHeader src dest n)) + littleSum (slice segment 0 n.toNat)) <
        2 ^ 16) :=
  ⟨netChecksum_iff data (by omega), tcpChecksum_iff src dest segment n⟩

/-- The answer to a ping with one byte. -/
def pong : Mem := memOf [0, 0, 0, 0, 0, 1, 0, 1, 0x61]

/-- The segment that opens a connection. -/
def syn (seq : BitVec 32) : Mem :=
  memOf (bytes16 0xc0 ++ bytes16 0x5000 ++ bytes32 (bswap32 seq) ++ bytes32 0 ++ [0x50, 0x02] ++
    bytes16 0x20 ++ bytes16 0 ++ bytes16 0)

theorem checksums_iff_pong :
    (netChecksum pong 9 = bswap16 (checksum (slice pong 0 9)) ↔ 9 % 2 = 0 ∨ pong (9 - 1) = 0) ∧
    (tcpChecksum 0x0f02000a 0x0202000a (syn 1) 20 =
        bswap16 (checksum (pseudoHeader 0x0f02000a 0x0202000a 20 ++ slice (syn 1) 0 20)) ↔
      fold (fold (littleSum (pseudoHeader 0x0f02000a 0x0202000a 20)) +
        littleSum (slice (syn 1) 0 20)) < 2 ^ 16) :=
  checksums_iff pong 9 (by decide) 0x0f02000a 0x0202000a (syn 1) 20

/-- The byte of the ping does not count, and the second segment loses a carry. -/
theorem checksum_loses_byte_and_carry :
    netChecksum pong 9 ≠ bswap16 (checksum (slice pong 0 9)) ∧
    tcpChecksum 0x0f02000a 0x0202000a (syn 0xffb782) 20 ≠
      bswap16 (checksum (pseudoHeader 0x0f02000a 0x0202000a 20 ++ slice (syn 0xffb782) 0 20)) := by
  constructor <;> decide

end Lyre.Tcp
