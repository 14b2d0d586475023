import Lyre.Dev.Nvme
import Lyre.Infra.Run
import Mathlib.Data.List.Basic
import Mathlib.Algebra.Order.Ring.Nat

/-!
# The cache of an NVMe namespace is coherent

Every slot that is in use has the bytes of the medium, as far as its block lies inside the namespace,
and no two of them have one block (`Coherent`). A turn of the loops looks a block up, fills a slot if
there is none, and then reads from the slot or writes it back; `slotOf_spec` is what both need to
know of the first half.
-/

namespace Lyre.Nvme

open Infra Infra.Ring

variable {ns ns' : Nsdevice} {sector slot pos loc count left : Nat} {buf chunk : List Byte}

/-! ## The invariant -/

/-- The slot has a block. -/
def Nsdevice.InUse (ns : Nsdevice) (i : Nat) : Prop := i < 512 ∧ (ns.cache i).status ≠ .wait

/-- The slot has the bytes of the medium. -/
def Nsdevice.SlotOk (ns : Nsdevice) (i : Nat) : Prop :=
  ∀ off < ns.cacheblocksize, (ns.cache i).block * ns.cacheblocksize + off < ns.lbacount * ns.lbasize →
    (ns.cache i).cache off = ns.medium ((ns.cache i).block * ns.cacheblocksize + off)

structure Geometry (ns : Nsdevice) : Prop where
  lbasize_pos : 0 < ns.lbasize
  cacheblocksize_eq : ns.cacheblocksize = ns.lbasize * 4

structure Coherent (ns : Nsdevice) : Prop extends Geometry ns where
  overwritten_le : ns.overwritten ≤ 512
  slotOk : ∀ i, ns.InUse i → ns.SlotOk i
  distinct : ∀ i j, ns.InUse i → ns.InUse j → (ns.cache i).block = (ns.cache j).block → i = j

theorem Geometry.blocks (h : Geometry ns) : ns.cacheblocksize / ns.lbasize = 4 := by
  rw [h.cacheblocksize_eq, Nat.mul_div_cancel_left 4 h.lbasize_pos]

theorem Geometry.cacheblocksize_pos (h : Geometry ns) : 0 < ns.cacheblocksize := by
  rw [h.cacheblocksize_eq]
  exact Nat.mul_pos h.lbasize_pos (by decide)

theorem Geometry.start (h : Geometry ns) (block : Nat) :
    block * ns.cacheblocksize = 4 * block * ns.lbasize := by
  rw [h.cacheblocksize_eq, Nat.mul_comm 4, Nat.mul_assoc, Nat.mul_comm 4]

@[simp] theorem setSlot_self (ns : Nsdevice) (slot : Nat) (b : Cachedblock) :
    (ns.setSlot slot b).cache slot = b := if_pos rfl

theorem setSlot_of_ne {i : Nat} (b : Cachedblock) (h : i ≠ slot) :
    (ns.setSlot slot b).cache i = ns.cache i := if_neg h

/-! ## What is transferred -/

/-- The bytes of a block that lie inside the namespace. -/
def blockBytes (ns : Nsdevice) (block : Nat) : Nat :=
  min ns.cacheblocksize (ns.lbacount * ns.lbasize - block * ns.cacheblocksize)

/-- The command for a block is about the bytes of it that lie inside the namespace. -/
theorem rwlbaCount_block (h : Geometry ns) {block : Nat}
    (hblock : block * ns.cacheblocksize < ns.lbacount * ns.lbasize) :
    rwlbaCount ns (4 * block) 4 * ns.lbasize = blockBytes ns block := by
  have hstart := h.start block
  have hinside : 4 * block < ns.lbacount := by
    rw [hstart] at hblock
    exact Nat.lt_of_mul_lt_mul_right hblock
  unfold rwlbaCount blockBytes
  rw [hstart, ← Nat.sub_mul, h.cacheblocksize_eq, Nat.mul_comm ns.lbasize 4,
    Nat.mul_min_mul_right]
  congr 1
  split <;> omega

/-! ## Slots -/

/-- The namespace is the same but for its slots and its medium. -/
structure Same (ns ns' : Nsdevice) : Prop where
  lbasize : ns'.lbasize = ns.lbasize
  lbacount : ns'.lbacount = ns.lbacount
  cacheblocksize : ns'.cacheblocksize = ns.cacheblocksize

theorem Same.geometry (same : Same ns ns') (h : Geometry ns) : Geometry ns' := by
  refine ⟨?_, ?_⟩
  · rw [same.lbasize]
    exact h.lbasize_pos
  · rw [same.cacheblocksize, same.lbasize]
    exact h.cacheblocksize_eq

theorem Same.trans {ns'' : Nsdevice} (h : Same ns ns') (h' : Same ns' ns'') : Same ns ns'' :=
  ⟨h'.lbasize.trans h.lbasize, h'.lbacount.trans h.lbacount,
    h'.cacheblocksize.trans h.cacheblocksize⟩

theorem Coherent.update (h : Coherent ns) (slot : Nat) (same : Same ns ns') (hcursor : ns'.overwritten ≤ 512)
    (hcache : ∀ i, i ≠ slot → ns'.cache i = ns.cache i) (hok : ns'.SlotOk slot)
    (hrest : ∀ i, i ≠ slot → ns.InUse i → ns'.SlotOk i)
    (hother : ∀ i, i ≠ slot → ns.InUse i → (ns.cache i).block ≠ (ns'.cache slot).block) :
    Coherent ns' := by
  have hold : ∀ i, i ≠ slot → ns'.InUse i → ns.InUse i := by
    intro i hne hi
    exact ⟨hi.1, hcache i hne ▸ hi.2⟩
  refine ⟨same.geometry h.toGeometry, hcursor, fun i hi => ?_, fun i j hi hj hij => ?_⟩
  · by_cases his : i = slot
    · rw [his]
      exact hok
    · exact hrest i his (hold i his hi)
  · by_cases his : i = slot <;> by_cases hjs : j = slot
    · rw [his, hjs]
    · rw [his, hcache j hjs] at hij
      exact absurd hij.symm (hother j hjs (hold j hjs hj))
    · rw [hjs, hcache i his] at hij
      exact absurd hij (hother i his (hold i his hi))
    · rw [hcache i his, hcache j hjs] at hij
      exact h.distinct i j (hold i his hi) (hold j hjs hj) hij

theorem nvmeFindblock_some (h : nvmeFindblock ns sector = some slot) :
    ns.InUse slot ∧ (ns.cache slot).block = sector := by
  have hmem := List.mem_of_find?_eq_some h
  have hprop := List.find?_some h
  simp only [ne_eq, decide_eq_true_eq] at hprop
  exact ⟨⟨List.mem_range.mp hmem, hprop.2⟩, hprop.1⟩

theorem nvmeFindblock_none (h : nvmeFindblock ns sector = none) {i : Nat} (hi : ns.InUse i) :
    (ns.cache i).block ≠ sector := by
  have hnot := List.find?_eq_none.mp h i (List.mem_range.mpr hi.1)
  simp only [ne_eq, decide_eq_true_eq, not_and, Decidable.not_not] at hnot
  exact fun hblock => hi.2 (hnot hblock)

theorem cacheTarget_spec (h : Coherent ns) : (cacheTarget ns).1 < 512 ∧
    Same ns (cacheTarget ns).2 ∧ (cacheTarget ns).2.medium = ns.medium ∧
    (cacheTarget ns).2.overwritten ≤ 512 ∧
    ∀ i, i ≠ (cacheTarget ns).1 → (cacheTarget ns).2.cache i = ns.cache i := by
  have hle := h.overwritten_le
  unfold cacheTarget
  split
  · next target hfree =>
    have hlt := List.mem_range.mp (List.mem_of_find?_eq_some hfree)
    exact ⟨hlt, ⟨rfl, rfl, rfl⟩, rfl, hle, fun i hne => setSlot_of_ne _ hne⟩
  · split
    · exact ⟨Nat.zero_lt_succ 511, ⟨rfl, rfl, rfl⟩, rfl, Nat.zero_le 512, fun _ _ => rfl⟩
    · next hcursor =>
      have hlt : ns.overwritten < 512 := by omega
      exact ⟨hlt, ⟨rfl, rfl, rfl⟩, rfl, hlt, fun _ _ => rfl⟩

theorem blockBytes_le (ns : Nsdevice) (block : Nat) : blockBytes ns block ≤ ns.cacheblocksize := Nat.min_le_left _ _

theorem rwlbaRead_apply (h : Geometry ns) (data : Nat → Byte) {off : Nat}
    (hoff : off < ns.cacheblocksize)
    (hin : sector * ns.cacheblocksize + off < ns.lbacount * ns.lbasize) :
    nvmeRwlbaRead ns data (4 * sector) 4 off = ns.medium (sector * ns.cacheblocksize + off) := by
  have hblock : sector * ns.cacheblocksize < ns.lbacount * ns.lbasize := by omega
  have hlt : off < blockBytes ns sector := by
    unfold blockBytes
    omega
  rw [nvmeRwlbaRead, rwlbaCount_block h hblock, ← h.start,
    blit_apply_of_mem (Nat.zero_le off) (by rwa [length_slice, Nat.sub_zero])]
  simp only [slice, List.getElem_map, List.getElem_range, Nat.sub_zero]

/-- **Filling a slot** with a block that no slot has. -/
theorem nvmeCacheblock_spec (h : Coherent ns)
    (hnone : ∀ i, ns.InUse i → (ns.cache i).block ≠ sector) :
    Coherent (nvmeCacheblock ns sector).2 ∧ Same ns (nvmeCacheblock ns sector).2 ∧
    (nvmeCacheblock ns sector).2.medium = ns.medium ∧
    (nvmeCacheblock ns sector).2.InUse (nvmeCacheblock ns sector).1 ∧
    ((nvmeCacheblock ns sector).2.cache (nvmeCacheblock ns sector).1).block = sector := by
  obtain ⟨hlt, same, hmedium, hcursor, hcache⟩ := cacheTarget_spec h
  unfold nvmeCacheblock
  generalize cacheTarget ns = t at hlt same hmedium hcursor hcache ⊢
  obtain ⟨target, ns₁⟩ := t
  have hgeo := same.geometry h.toGeometry
  simp only [hgeo.blocks]
  refine ⟨?_, ⟨same.lbasize, same.lbacount, same.cacheblocksize⟩, hmedium, ?_, ?_⟩
  · refine h.update target ⟨same.lbasize, same.lbacount, same.cacheblocksize⟩ hcursor
      (fun i hne => (setSlot_of_ne _ hne).trans (hcache i hne)) ?_ (fun i hne hi => ?_)
      (fun i hne hi => ?_)
    · intro off hoff hbytes
      rw [setSlot_self] at hbytes ⊢
      exact rwlbaRead_apply hgeo _ hoff hbytes
    · have hold := h.slotOk i hi
      unfold Nsdevice.SlotOk at hold ⊢
      rw [setSlot_of_ne _ hne, hcache i hne]
      show ∀ off < ns₁.cacheblocksize, _ * ns₁.cacheblocksize + off < ns₁.lbacount * ns₁.lbasize →
        _ = ns₁.medium (_ * ns₁.cacheblocksize + off)
      rw [same.cacheblocksize, same.lbacount, same.lbasize, hmedium]
      exact hold
    · rw [setSlot_self]
      exact hnone i hi
  · refine ⟨hlt, ?_⟩
    simp
  · rw [setSlot_self]

/-- **The first half of a turn**: the block is in a slot, and the medium is as it was. -/
theorem slotOf_spec (h : Coherent ns) (sector : Nat) :
    Coherent (slotOf ns sector).2 ∧ Same ns (slotOf ns sector).2 ∧
    (slotOf ns sector).2.medium = ns.medium ∧ (slotOf ns sector).2.InUse (slotOf ns sector).1 ∧
    ((slotOf ns sector).2.cache (slotOf ns sector).1).block = sector := by
  rcases hfind : nvmeFindblock ns sector with _ | slot
  · have hnone : ∀ i, ns.InUse i → (ns.cache i).block ≠ sector := by
      intro i hi
      exact nvmeFindblock_none hfind hi
    have hslot : slotOf ns sector = nvmeCacheblock ns sector := by
      unfold slotOf
      simp only [hfind]
    rw [hslot]
    exact nvmeCacheblock_spec h hnone
  · have huse := nvmeFindblock_some hfind
    have hslot : slotOf ns sector = (slot, ns) := by
      unfold slotOf
      simp only [hfind]
    rw [hslot]
    exact ⟨h, ⟨rfl, rfl, rfl⟩, rfl, huse⟩

/-! ## One turn -/

theorem chunkAt_pos (h : Geometry ns) (pos : Nat) (hleft : 0 < left) : 0 < chunkAt ns pos left := by
  have hoff := Nat.mod_lt pos h.cacheblocksize_pos
  unfold chunkAt
  simp only
  split <;> omega

theorem chunkAt_le (ns : Nsdevice) (pos left : Nat) : chunkAt ns pos left ≤ left := by
  unfold chunkAt
  simp only
  split <;> omega

theorem chunkAt_block (h : Geometry ns) (pos left : Nat) :
    pos % ns.cacheblocksize + chunkAt ns pos left ≤ ns.cacheblocksize := by
  have hoff := Nat.mod_lt pos h.cacheblocksize_pos
  unfold chunkAt
  simp only
  split <;> omega

theorem Same.chunkAt (same : Same ns ns') (pos left : Nat) :
    chunkAt ns' pos left = chunkAt ns pos left := by
  simp only [Nvme.chunkAt, same.cacheblocksize]

theorem sector_lt {size : Nat} (h : pos < size) (c : Nat) : pos / c * c < size :=
  Nat.lt_of_le_of_lt (Nat.div_mul_le_self pos c) h

theorem slice_slot (h : Coherent ns) (huse : ns.InUse slot) (off n : Nat)
    (hoff : off + n ≤ ns.cacheblocksize)
    (hin : (ns.cache slot).block * ns.cacheblocksize + off + n ≤ ns.lbacount * ns.lbasize) :
    slice (ns.cache slot).cache off n
      = slice ns.medium ((ns.cache slot).block * ns.cacheblocksize + off) n := by
  refine List.map_congr_left fun k hk => ?_
  rw [List.mem_range] at hk
  rw [Nat.add_assoc _ off k]
  exact h.slotOk slot huse (off + k) (by omega) (by omega)

theorem writeBack_medium (h : Coherent ns) (huse : ns.InUse slot) {off : Nat}
    (hoff : off + chunk.length ≤ ns.cacheblocksize) (hne : 0 < chunk.length)
    (hin : (ns.cache slot).block * ns.cacheblocksize + off + chunk.length
      ≤ ns.lbacount * ns.lbasize) :
    blit ns.medium ((ns.cache slot).block * ns.cacheblocksize)
      (slice (blit (ns.cache slot).cache off chunk) 0 (blockBytes ns (ns.cache slot).block))
      = blit ns.medium ((ns.cache slot).block * ns.cacheblocksize + off) chunk := by
  have hok := h.slotOk slot huse
  funext k
  by_cases hk : (ns.cache slot).block * ns.cacheblocksize ≤ k ∧
      k < (ns.cache slot).block * ns.cacheblocksize + blockBytes ns (ns.cache slot).block
  · have hbytes := blockBytes_le ns (ns.cache slot).block
    have hend : k < ns.lbacount * ns.lbasize := by
      have hk' := hk.2
      unfold blockBytes at hk'
      omega
    have hidx : (ns.cache slot).block * ns.cacheblocksize +
        (k - (ns.cache slot).block * ns.cacheblocksize) = k := by omega
    have hold := hok (k - (ns.cache slot).block * ns.cacheblocksize) (by omega) (by omega)
    rw [hidx] at hold
    rw [blit_apply_of_mem hk.1 (by rw [length_slice]; omega)]
    simp only [slice, List.getElem_map, List.getElem_range, Nat.zero_add]
    by_cases hchunk : off ≤ k - (ns.cache slot).block * ns.cacheblocksize ∧
        k - (ns.cache slot).block * ns.cacheblocksize < off + chunk.length
    · rw [blit_apply_of_mem hchunk.1 (by omega), blit_apply_of_mem (by omega) (by omega)]
      simp only [Nat.sub_sub]
    · rw [blit_apply_of_not hchunk, blit_apply_of_not (by omega), hold]
  · have hall : off + chunk.length ≤ blockBytes ns (ns.cache slot).block := by
      unfold blockBytes
      omega
    rw [blit_apply_of_not (by rw [length_slice]; exact hk), blit_apply_of_not (by omega)]

/-- **The second half of a turn that writes.** -/
theorem writeSlot_spec (h : Coherent ns) (huse : ns.InUse slot) {off : Nat}
    (hoff : off + chunk.length ≤ ns.cacheblocksize) (hne : 0 < chunk.length)
    (hin : (ns.cache slot).block * ns.cacheblocksize + off + chunk.length
      ≤ ns.lbacount * ns.lbasize) :
    Coherent (writeSlot ns slot off chunk) ∧ Same ns (writeSlot ns slot off chunk) ∧
    (writeSlot ns slot off chunk).medium
      = blit ns.medium ((ns.cache slot).block * ns.cacheblocksize + off) chunk := by
  have hmedium : (writeSlot ns slot off chunk).medium
      = blit ns.medium ((ns.cache slot).block * ns.cacheblocksize + off) chunk := by
    rw [← writeBack_medium h huse hoff hne hin, ← rwlbaCount_block h.toGeometry (by omega),
      h.start]
    unfold writeSlot nvmeRwlbaWrite
    simp only [h.blocks]
    rfl
  have hbytes : ((writeSlot ns slot off chunk).cache slot).cache
      = blit (ns.cache slot).cache off chunk := by
    simp [writeSlot, nvmeRwlbaWrite]
  have hblock : ((writeSlot ns slot off chunk).cache slot).block = (ns.cache slot).block := by
    simp [writeSlot, nvmeRwlbaWrite]
  have hothers : ∀ i, i ≠ slot → (writeSlot ns slot off chunk).cache i = ns.cache i := by
    intro i hi
    exact setSlot_of_ne _ hi
  have same : Same ns (writeSlot ns slot off chunk) := ⟨rfl, rfl, rfl⟩
  refine ⟨h.update slot same h.overwritten_le hothers ?_ (fun i hi hu => ?_) (fun i hi hu => ?_), same,
    hmedium⟩
  · -- the slot itself: new bytes inside the chunk, old ones outside
    intro k hk hkin
    rw [hblock, same.cacheblocksize] at hkin ⊢
    rw [same.cacheblocksize] at hk
    rw [same.lbacount, same.lbasize] at hkin
    rw [hbytes, hmedium]
    by_cases hchunk : off ≤ k ∧ k < off + chunk.length
    · have hidx : (ns.cache slot).block * ns.cacheblocksize + k
          - ((ns.cache slot).block * ns.cacheblocksize + off) = k - off := by omega
      rw [blit_apply_of_mem hchunk.1 (by omega), blit_apply_of_mem (by omega) (by omega)]
      simp only [hidx]
    · rw [blit_apply_of_not hchunk, blit_apply_of_not (by omega)]
      exact h.slotOk slot huse k hk hkin
  · -- another slot: its block is another one, and the chunk does not touch it
    have hne : (ns.cache i).block ≠ (ns.cache slot).block := fun heq =>
      hi (h.distinct i slot hu huse heq)
    intro k hk hkin
    rw [hothers i hi, same.cacheblocksize] at hkin ⊢
    rw [same.cacheblocksize] at hk
    rw [same.lbacount, same.lbasize] at hkin
    rw [hmedium, blit_apply_of_not]
    · exact h.slotOk i hu k hk hkin
    · rcases Nat.lt_or_gt_of_ne hne with hlt | hgt
      · have hmul := Nat.mul_le_mul_right ns.cacheblocksize (Nat.succ_le_of_lt hlt)
        rw [Nat.succ_mul] at hmul
        omega
      · have hmul := Nat.mul_le_mul_right ns.cacheblocksize (Nat.succ_le_of_lt hgt)
        rw [Nat.succ_mul] at hmul
        omega
  · rw [hblock]
    exact fun heq => hi (h.distinct i slot hu huse heq)

/-- **A turn that writes.** -/
theorem writeChunk_spec (chunk : List Byte) (h : Coherent ns) (hne : 0 < chunk.length)
    (hblock : pos % ns.cacheblocksize + chunk.length ≤ ns.cacheblocksize)
    (hin : pos + chunk.length ≤ ns.lbacount * ns.lbasize) :
    Coherent (writeChunk ns pos chunk) ∧ Same ns (writeChunk ns pos chunk) ∧
    (writeChunk ns pos chunk).medium = blit ns.medium pos chunk := by
  obtain ⟨h₁, same, hmedium, huse, hsector⟩ := slotOf_spec h (pos / ns.cacheblocksize)
  have hpos : pos / ns.cacheblocksize * ns.cacheblocksize + pos % ns.cacheblocksize = pos :=
    Nat.div_add_mod' pos ns.cacheblocksize
  unfold writeChunk
  generalize slotOf ns (pos / ns.cacheblocksize) = t at h₁ same hmedium huse hsector ⊢
  obtain ⟨slot, ns₁⟩ := t
  simp only at h₁ same hmedium huse hsector ⊢
  have hoff : pos % ns₁.cacheblocksize + chunk.length ≤ ns₁.cacheblocksize := by
    rw [same.cacheblocksize]
    exact hblock
  have hstart : (ns₁.cache slot).block * ns₁.cacheblocksize + pos % ns₁.cacheblocksize = pos := by
    rw [hsector, same.cacheblocksize, hpos]
  have hin₁ : (ns₁.cache slot).block * ns₁.cacheblocksize + pos % ns₁.cacheblocksize + chunk.length
      ≤ ns₁.lbacount * ns₁.lbasize := by
    rw [hstart, same.lbacount, same.lbasize]
    exact hin
  obtain ⟨h₂, same₂, hmedium₂⟩ := writeSlot_spec h₁ huse hoff hne hin₁
  refine ⟨h₂, same.trans same₂, ?_⟩
  rw [hmedium₂, hstart, hmedium]

/-- **A turn that reads**: the bytes of the chunk, for a slot that has its block. -/
theorem readChunk_spec (h : Coherent ns) {n : Nat}
    (hblock : pos % ns.cacheblocksize + n ≤ ns.cacheblocksize)
    (hin : pos + n ≤ ns.lbacount * ns.lbasize) :
    slice ((slotOf ns (pos / ns.cacheblocksize)).2.cache
        (slotOf ns (pos / ns.cacheblocksize)).1).cache (pos % ns.cacheblocksize) n
      = slice ns.medium pos n := by
  obtain ⟨h₁, same, hmedium, huse, hsector⟩ := slotOf_spec h (pos / ns.cacheblocksize)
  have hpos : pos / ns.cacheblocksize * ns.cacheblocksize + pos % ns.cacheblocksize = pos :=
    Nat.div_add_mod' pos ns.cacheblocksize
  have hslice := slice_slot h₁ huse (pos % ns.cacheblocksize) n
  rw [hsector, same.cacheblocksize, same.lbacount, same.lbasize, hpos, hmedium] at hslice
  exact hslice hblock hin

/-! ## The loops -/

/-- The loop of `nvme_read` ends, with the bytes of the medium. -/
theorem readLoop_spec (fuel : Nat) (buf : List Byte) (h : Coherent ns) (hfuel : count < fuel + buf.length)
    (hin : loc + count ≤ ns.lbacount * ns.lbasize) (hbuf : buf = slice ns.medium loc buf.length)
    (hle : buf.length ≤ count) :
    ∃ ns', readLoop loc count fuel ns buf = some (slice ns.medium loc count, ns') ∧
      Coherent ns' ∧ Same ns ns' ∧ ns'.medium = ns.medium := by
  induction fuel generalizing ns buf with
  | zero => omega
  | succ fuel ih =>
    unfold readLoop
    simp only
    split
    · next hlt =>
      have hpos := chunkAt_pos h.toGeometry (loc + buf.length)
        (show 0 < count - buf.length by omega)
      have hchunk := chunkAt_le ns (loc + buf.length) (count - buf.length)
      have hblock := chunkAt_block h.toGeometry (loc + buf.length) (count - buf.length)
      have hread := readChunk_spec h hblock (by omega)
      obtain ⟨h₁, same, hmedium, -, -⟩ := slotOf_spec h ((loc + buf.length) / ns.cacheblocksize)
      rw [same.chunkAt, same.cacheblocksize, hread]
      generalize chunkAt ns (loc + buf.length) (count - buf.length) = n at hpos hchunk
      have hlen : (buf ++ slice ns.medium (loc + buf.length) n).length = buf.length + n := by
        rw [List.length_append, length_slice]
      have hnext : buf ++ slice ns.medium (loc + buf.length) n
          = slice ns.medium loc (buf.length + n) := by
        conv_lhs => arg 1; rw [hbuf]
        rw [slice_add]
      obtain ⟨ns', hloop, h', same', hmedium'⟩ := ih _ h₁ (by rw [hlen]; omega)
        (by rw [same.lbacount, same.lbasize]; exact hin) (by rw [hlen, hmedium]; exact hnext)
        (by rw [hlen]; omega)
      rw [hmedium] at hloop hmedium'
      exact ⟨ns', hloop, h', same.trans same', hmedium'⟩
    · next hdone =>
      have hlen : buf.length = count := by omega
      rw [hlen] at hbuf
      exact ⟨ns, by rw [hbuf], h, ⟨rfl, rfl, rfl⟩, rfl⟩

/-- The loop of `nvme_write` ends, and the medium has the bytes. -/
theorem writeLoop_spec (fuel : Nat) {progress : Nat} (h : Coherent ns) (medium : Nat → Byte)
    (hfuel : buf.length < fuel + progress)
    (hin : loc + buf.length ≤ ns.lbacount * ns.lbasize) (hle : progress ≤ buf.length)
    (hmedium : ns.medium = blit medium loc (buf.take progress)) :
    ∃ ns', writeLoop loc buf fuel ns progress = some ns' ∧ Coherent ns' ∧ Same ns ns' ∧
      ns'.medium = blit medium loc buf := by
  induction fuel generalizing ns progress with
  | zero => omega
  | succ fuel ih =>
    unfold writeLoop
    simp only
    split
    · next hlt =>
      have hpos := chunkAt_pos h.toGeometry (loc + progress)
        (show 0 < buf.length - progress by omega)
      have hchunk := chunkAt_le ns (loc + progress) (buf.length - progress)
      have hblock := chunkAt_block h.toGeometry (loc + progress) (buf.length - progress)
      generalize chunkAt ns (loc + progress) (buf.length - progress) = n at hpos hchunk hblock
      have hlen : ((buf.drop progress).take n).length = n := by
        rw [List.length_take, List.length_drop]
        omega
      obtain ⟨h₁, same, hmedium₁⟩ := writeChunk_spec ((buf.drop progress).take n) h
        (by rw [hlen]; exact hpos) (by rw [hlen]; exact hblock) (by rw [hlen]; omega)
      have htake : (buf.take progress).length = progress := List.length_take_of_le hle
      have hstored : (writeChunk ns (loc + progress) ((buf.drop progress).take n)).medium
          = blit medium loc (buf.take (progress + n)) := by
        conv_lhs => rw [hmedium₁, hmedium]; arg 2; rw [← htake]
        rw [blit_append, ← List.take_add]
      obtain ⟨ns', hloop, h', same', hmedium'⟩ := ih h₁ (show buf.length < fuel + (progress + n) by omega)
        (by rw [same.lbacount, same.lbasize]; exact hin) (by omega) hstored
      exact ⟨ns', hloop, h', same.trans same', hmedium'⟩
    · next hdone =>
      rw [List.take_of_length_le (by omega)] at hmedium
      exact ⟨ns, rfl, h, ⟨rfl, rfl, rfl⟩, hmedium⟩

/-! ## Runs -/

/-- The byte range of the call lies inside the namespace. -/
def Call.Inside (ns : Nsdevice) : Call → Prop
  | .read loc count => loc + count ≤ ns.lbacount * ns.lbasize
  | .write loc buf => loc + buf.length ≤ ns.lbacount * ns.lbasize

/-- What a call makes of the bytes of a plain device. -/
def plainAfter (disk : Nat → Byte) : Call → Nat → Byte
  | .read _ _ => disk
  | .write loc buf => blit disk loc buf

/-- What a plain device returns. -/
def plainResult (disk : Nat → Byte) : Call → Result
  | .read loc count => .bytes (slice disk loc count)
  | .write _ buf => .count buf.length

theorem next_spec {c : Call} (h : Coherent ns) (hin : c.Inside ns) :
    ∃ ns', next ns c = some (ns', plainResult ns.medium c) ∧ Coherent ns' ∧
      ns'.medium = plainAfter ns.medium c := by
  cases c with
  | read loc count =>
    obtain ⟨ns', hloop, h', -, hmedium⟩ := readLoop_spec (count + 1) [] h
      (Nat.lt_succ_self count) hin rfl (Nat.zero_le count)
    exact ⟨ns', by rw [next, nvmeRead, hloop]; rfl, h', hmedium⟩
  | write loc buf =>
    have hstart : ns.medium = blit ns.medium loc (buf.take 0) := by
      funext k
      exact (blit_apply_of_not fun hk => Nat.not_lt.mpr hk.1 hk.2).symm
    obtain ⟨ns', hloop, h', -, hmedium⟩ := writeLoop_spec (buf.length + 1) h ns.medium
      (Nat.lt_succ_self buf.length) hin (Nat.zero_le _) hstart
    exact ⟨ns', by rw [next, nvmeWrite, hloop]; rfl, h', hmedium⟩

/-- The namespace, with the plain device that has seen the same calls. -/
def Step (s : Nsdevice × (Nat → Byte)) (c : Call) (s' : Nsdevice × (Nat → Byte)) : Prop :=
  (∃ r, next s.1 c = some (s'.1, r)) ∧ s'.2 = plainAfter s.2 c

/-- Calls inside a new namespace. -/
def Run (lbashift size : Nat) (medium : Nat → Byte) : Nsdevice × (Nat → Byte) → Prop :=
  Reach Step (fun s c => c.Inside s.1) (nvmeInitnamespace lbashift size medium, medium)

end Lyre.Nvme
