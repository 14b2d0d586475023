import Lyre.Infra.Records

/-!
# The directories of ext2

A directory is a sequence of records, each with the number of an inode, a type and a name. A record
can be larger than it has to be, and a further one can be put into the slack behind its name.
-/

namespace Lyre.Ext2

open Infra.Bytes

/-- A record of a directory. -/
structure DirRecord where
  inodeidx : Nat
  entsize : Nat
  dirtype : Nat
  name : List (BitVec 8)
  deriving DecidableEq, Repr

namespace DirRecord

variable (r : DirRecord)

/-- The least size of a record: eight bytes, the name and a padding. -/
def contracted : Nat := (8 + r.name.length + 3) / 4 * 4

/-- What a record has beyond its least size. -/
def slack : Nat := r.entsize - r.contracted

structure Valid : Prop where
  dvd : 4 ∣ r.entsize
  contracted : r.contracted ≤ r.entsize

/-- A record without its slack. -/
def contract : DirRecord := { r with entsize := r.contracted }

theorem le_contracted : 8 + r.name.length ≤ r.contracted := by
  unfold contracted
  omega

theorem contract_valid : r.contract.Valid :=
  ⟨Nat.dvd_mul_left 4 _, Nat.le_refl r.contracted⟩

variable {r}

theorem Valid.slack_dvd (h : r.Valid) : 4 ∣ r.slack := Nat.dvd_sub h.dvd (Nat.dvd_mul_left 4 _)

theorem Valid.contracted_add_slack (h : r.Valid) : r.contracted + r.slack = r.entsize :=
  Nat.add_sub_of_le h.contracted

/-- The record at an address. -/
def get (m : Mem) (a : Nat) : DirRecord where
  inodeidx := read m a 4
  entsize := read m (a + 4) 2
  dirtype := read m (a + 7) 1
  name := (List.range (read m (a + 6) 1)).map fun k => m (a + 8 + k)

theorem get_name_length (m : Mem) (a : Nat) : (get m a).name.length = read m (a + 6) 1 := by
  simp only [get, List.length_map, List.length_range]

theorem get_congr {m m' : Mem} {a : Nat}
    (h : ∀ x, a ≤ x → x < a + 8 + (get m a).name.length → m' x = m x) : get m' a = get m a := by
  have hfield : ∀ b n, a ≤ b → b + n ≤ a + 8 → read m' b n = read m b n := fun b n hb hn =>
    read_congr fun x hx hx' => h x (by omega) (by omega)
  rw [get_name_length] at h
  simp only [get, mk.injEq]
  refine ⟨hfield a 4 (by omega) (by omega), hfield _ 2 (by omega) (by omega),
    hfield _ 1 (by omega) (by omega), ?_⟩
  rw [hfield (a + 6) 1 (by omega) (by omega)]
  refine List.map_congr_left fun k hk => h _ (by omega) ?_
  rw [List.mem_range] at hk
  omega

end DirRecord

/-- Directories as memory. -/
def direntries : Format DirRecord where
  get := DirRecord.get
  width := DirRecord.entsize
  Valid := DirRecord.Valid
  width_pos r hr := by
    have := r.le_contracted
    have := hr.contracted
    omega
  get_congr m m' a hr h := by
    refine DirRecord.get_congr fun x hx hx' => h x hx ?_
    have := (DirRecord.get m a).le_contracted
    have := hr.contracted
    omega

end Lyre.Ext2
