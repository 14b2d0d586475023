import Lyre.Infra.Rows
import Lyre.Properties.MmapPages
import Lyre.Properties.MmapRange

/-!
# What user code reads

A user address leads through the page tables to a byte of physical memory. `UserHolds` says which
bytes are found from an address on. They are those of a run of pages if `mmap_range` has mapped the
run there (`MappedRun`).
-/

namespace Lyre.Vmm

open Infra Infra.Rows

section

variable {σ : Type} {s s' : State σ} {pm virt phys n k flags : Nat} {l : List (BitVec 8)}

/-- The byte of physical memory behind a user address. -/
def userPhys (s : State σ) (pm virt : Nat) : Option Nat :=
  let entry := pte s pm virt
  if entry &&& ptePresent ≠ 0 ∧ entry &&& pteUser ≠ 0 then
    some (pteGetAddr entry + virt % pageSize)
  else none

def userByte (s : State σ) (pm virt : Nat) : Option (BitVec 8) :=
  (userPhys s pm virt).map (bytes pageSize s.mem)

/-- From `virt` on, user code reads the bytes of the list. -/
def UserHolds (s : State σ) (pm virt : Nat) (l : List (BitVec 8)) : Prop :=
  ∀ k < l.length, userByte s pm (virt + k) = some (l.getD k 0)

/-- From `virt` on, `n` bytes are mapped to a run of pages at `phys`. -/
structure MappedRun (s : State σ) (pm virt phys n flags : Nat) : Prop where
  dvd_virt : pageSize ∣ virt
  dvd_phys : pageSize ∣ phys
  fits : phys + n ≤ 2 ^ 52
  pageFlags : PageFlags flags
  user : flags &&& pteUser ≠ 0
  entry : ∀ v, virt ≤ v → v < virt + n →
    pte s pm v = (phys + (v - virt) / pageSize * pageSize) ||| flags

theorem MappedRun.entry_at (h : MappedRun s pm virt phys n flags) (hk : k < n) :
    PageAddr (phys + k / pageSize * pageSize) ∧
      pte s pm (virt + k) = (phys + k / pageSize * pageSize) ||| flags := by
  have hfits := h.fits
  refine ⟨⟨Nat.dvd_add h.dvd_phys (Nat.dvd_mul_left _ _), ?_⟩, ?_⟩
  · have := Nat.div_mul_le_self k pageSize
    omega
  · rw [h.entry (virt + k) (Nat.le_add_right _ _) (Nat.add_lt_add_left hk _),
      Nat.add_sub_cancel_left]

theorem MappedRun.and_flag (h : MappedRun s pm virt phys n flags) (hk : k < n) {bit : Nat}
    (hbit : pteFlagsMask &&& bit = bit) : pte s pm (virt + k) &&& bit = flags &&& bit := by
  obtain ⟨haddr, hentry⟩ := h.entry_at hk
  rw [hentry, Nat.and_or_distrib_right, ← hbit, ← Nat.and_assoc, haddr.and_flagsMask, Nat.zero_and,
    Nat.zero_or]

theorem MappedRun.userPhys (h : MappedRun s pm virt phys n flags) (hk : k < n) :
    Vmm.userPhys s pm (virt + k) = some (phys + k) := by
  obtain ⟨haddr, hentry⟩ := h.entry_at hk
  have hpresent : pte s pm (virt + k) &&& ptePresent ≠ 0 := by
    rw [h.and_flag hk (by decide)]
    exact h.pageFlags.present
  have huser : pte s pm (virt + k) &&& pteUser ≠ 0 := by
    rw [h.and_flag hk (by decide)]
    exact h.user
  have hoff : (virt + k) % pageSize = k % pageSize := by
    obtain ⟨q, rfl⟩ := h.dvd_virt
    rw [Nat.mul_add_mod]
  unfold Vmm.userPhys
  simp only
  rw [if_pos ⟨hpresent, huser⟩, hentry, pteGetAddr_or haddr h.pageFlags.apart, hoff, Nat.add_assoc,
    Nat.div_add_mod']

/-- **What is in the run is what user code reads.** -/
theorem MappedRun.userHolds (h : MappedRun s pm virt phys n flags) (hk : k + l.length ≤ n)
    (hl : Bytes.Holds (bytes pageSize s.mem) (phys + k) l) : UserHolds s pm (virt + k) l := by
  intro j hj
  unfold userByte
  rw [Nat.add_assoc, h.userPhys (by omega), Option.map_some, ← hl j hj, Nat.add_assoc]

theorem pte_congr {roots : Nat → Prop} (hr : roots pm)
    (hm : ∀ t, TablePage roots s t → ∀ i, s'.mem t i = s.mem t i) : pte s' pm virt = pte s pm virt :=
  Radix.leaf_congr hm hr (Nat.le_of_eq (length_levels virt))

theorem MappedRun.of_entries (h : MappedRun s pm virt phys n flags)
    (he : ∀ v, virt ≤ v → v < virt + n → pte s' pm v = pte s pm v) :
    MappedRun s' pm virt phys n flags :=
  { h with entry := fun v hv hv' => by rw [he v hv hv', h.entry v hv hv'] }

theorem MappedRun.present (h : MappedRun s pm virt phys n flags) {v : Nat} (hv : virt ≤ v)
    (hv' : v < virt + n) : Present s pm v := by
  unfold Present
  rw [h.entry v hv hv']
  exact present_or h.pageFlags.present

end

end Lyre.Vmm

namespace Lyre.Mmap

open Vmm

section

variable {σ : Type} {A : RunAllocator σ} {roots : Nat → Prop} {s s' : State σ}
  {pm virt phys length n flags : Nat}

theorem ptFlags_user (prot : Prot) : ptFlags prot &&& pteUser ≠ 0 := by
  unfold ptFlags
  cases prot.write <;> cases prot.exec <;> decide

theorem ptFlags_write (prot : Prot) : ptFlags prot &&& pteWritable ≠ 0 ↔ prot.write = true := by
  unfold ptFlags
  cases prot.write <;> cases prot.exec <;> decide

theorem ptFlags_exec (prot : Prot) : ptFlags prot &&& pteNx = 0 ↔ prot.exec = true := by
  unfold ptFlags
  cases prot.write <;> cases prot.exec <;> decide

theorem Maintains.run {A : PageAllocator σ} (hm : Maintains A roots roots s s') (hpm : roots pm)
    (h : MappedRun s.vm pm virt phys n flags) : MappedRun s'.vm pm virt phys n flags :=
  h.of_entries fun v hv hv' => hm.entry pm v hpm hpm (h.present hv hv')

theorem Gets.run {vm vm' : Vmm.State σ} {prot : Prot} (hwin : LowPages virt length)
    (hgets : Gets roots [pm] vm vm' virt (virt + length) (rangeEntry virt phys prot))
    (hpm : roots pm) (hphys : pageSize ∣ phys) (hn : n ≤ length) (hfits : phys + n ≤ 2 ^ 52) :
    MappedRun vm' pm virt phys n (ptFlags prot) := by
  have hlow := hwin.fits
  refine ⟨hwin.start, hphys, hfits, ptFlags_pageFlags prot, ptFlags_user prot, fun v hv hv' => ?_⟩
  have hback := Nat.div_mul_le_self (v - virt) pageSize
  rw [hgets pm v hpm (by omega), if_pos ⟨List.mem_singleton_self pm, hv, by omega⟩, rangeEntry,
    u64_of_lt (by omega)]

/-- **A run that has been mapped.** The page of `virt` gets the first page of the run. -/
theorem mmapRange_run {prot : Prot} {mapFlags : MapFlags} (h : Ready A.toPageAllocator roots s)
    (hpm : roots pm) (hwin : LowPages (rangeBase virt) (rangeLength virt length))
    (hphys : pageSize ∣ phys) (hn : n ≤ rangeLength virt length) (hfits : phys + n ≤ 2 ^ 52)
    (hm : mmapRange A s (some pm) virt phys length prot mapFlags = some (true, s')) :
    MappedRun s'.vm pm (rangeBase virt) phys n (ptFlags prot) :=
  Gets.run hwin (mmapRange_gets h hpm hwin hm).2 hpm hphys hn hfits

end

end Lyre.Mmap
