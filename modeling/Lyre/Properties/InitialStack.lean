import Lyre.Infra.Bytes
import Lyre.Properties.UserStacks
import Lyre.Sched.InitialStack
import Lyre.Spec.UserMemory

/-!
# The stack of a new program

What the first thread of a process finds on its stack: the number of arguments, the pointers to the
arguments and to the environment, and the auxiliary vector, in front of the strings.

* `Cursor.Pushed` — what a write to the stack does to the bytes of memory;
* `initialStack_pushed` — the whole stack as one list of bytes;
* `initial_stack` — what user code reads.
-/

namespace Lyre.Sched

open Infra Infra.Rows Infra.Bytes Mmap Vmm

/-! ## Pushing bytes -/

namespace Cursor

variable {c c' c'' : Cursor} {low : Nat} {l l' : List (BitVec 8)}

/-- The bytes of the list have been put below the pointer. -/
structure Pushed (c c' : Cursor) (l : List (BitVec 8)) : Prop where
  stack : c'.stack + l.length = c.stack
  stored : Stored pageSize c.mem c'.mem c'.stack l

/-- There are `n` bytes between `low` and the pointer, and perhaps more, and all are zeros. -/
structure Room (low n : Nat) (c : Cursor) : Prop where
  lt : c.stack < 2 ^ 64
  room : low + n ≤ c.stack
  zero : ∀ x, low ≤ x → x < c.stack → bytes pageSize c.mem x = 0

theorem Pushed.trans (h : Pushed c c' l) (h' : Pushed c' c'' l') : Pushed c c'' (l' ++ l) := by
  have hs := h.stack
  have hs' := h'.stack
  refine ⟨by rw [List.length_append]; omega, .prepend ?_ h'.stored⟩
  rw [hs']
  exact h.stored

theorem Room.le {n k : Nat} (h : Room low n c) (hle : k ≤ n) : Room low k c :=
  ⟨h.lt, Nat.le_trans (Nat.add_le_add_left hle low) h.room, h.zero⟩

theorem Pushed.room {n : Nat} (h : Pushed c c' l) (hr : Room low (l.length + n) c) :
    Room low n c' := by
  have hs := h.stack
  have hlt := hr.lt
  have hroom := hr.room
  refine ⟨by omega, by omega, fun x hx hx' => ?_⟩
  rw [h.stored.same x (by omega), hr.zero x hx (by omega)]

/-- The bytes of words. -/
def words (l : List Nat) : List (BitVec 8) := l.flatMap word

@[simp] theorem length_words (l : List Nat) : (words l).length = 8 * l.length := by
  induction l with
  | nil => rfl
  | cons v l ih =>
    rw [words, List.flatMap_cons, List.length_append, length_word, List.length_cons]
    change 8 + (words l).length = _
    omega

theorem words_append (l l' : List Nat) : words (l ++ l') = words l ++ words l' :=
  List.flatMap_append

@[simp] theorem words_cons (v : Nat) (l : List Nat) : words (v :: l) = word v ++ words l :=
  List.flatMap_cons

theorem words_singleton (v : Nat) : words [v] = word v := List.flatMap_singleton _ _

theorem pageSize_words : 8 ∣ pageSize ∧ 0 < pageSize := by decide

theorem pushed_storeList (c : Cursor) (hroom : l.length ≤ c.stack) :
    Pushed c ⟨storeList pageSize c.mem (c.stack - l.length) l, c.stack - l.length⟩ l :=
  ⟨Nat.sub_add_cancel hroom, .of_storeList pageSize_words.1 pageSize_words.2 _ _ _⟩

theorem pushed_skip {n : Nat} (hr : Room low n c) :
    Pushed c { c with stack := c.stack - n } (List.replicate n 0) := by
  have hroom := hr.room
  refine ⟨by rw [List.length_replicate]; exact Nat.sub_add_cancel (by omega), fun k hk => ?_,
    SameOff.refl _ _ _, fun t i _ => rfl⟩
  rw [List.length_replicate] at hk
  rw [List.getD_eq_getElem _ _ (by rwa [List.length_replicate]), List.getElem_replicate]
  exact hr.zero _ (by simp only; omega) (by simp only; omega)

theorem Room.sub {n : Nat} (hr : Room low n c) : sub64 c.stack n = c.stack - n :=
  sub64_of_le (Nat.le_trans (Nat.le_add_left n low) hr.room) hr.lt

theorem push_pushed (value : Nat) (hr : Room low 8 c) : Pushed c (c.push value) (word value) := by
  have hroom := hr.room
  have h := pushed_storeList (l := word value) c (by rw [length_word]; omega)
  rw [length_word] at h
  rw [Cursor.push, hr.sub]
  exact h

theorem pushPair_pushed (type value : Nat) (hr : Room low 16 c) :
    Pushed c (c.pushPair type value) (words [type, value]) := by
  have hlt := hr.lt
  have hroom := hr.room
  have h₁ := Stored.of_storeList pageSize_words.1 pageSize_words.2 c.mem (c.stack - 16) (word type)
  rw [Cursor.pushPair, hr.sub]
  refine ⟨by rw [length_words]; exact Nat.sub_add_cancel (by omega), ?_⟩
  rw [words_cons, words_singleton]
  refine h₁.append ?_
  rw [u64_of_lt (by omega), length_word]
  exact .of_storeList pageSize_words.1 pageSize_words.2 _ _ _

theorem pushString_pushed (string : CString) (hr : Room low (string.length + 1) c) :
    Pushed c (c.pushString string) (string ++ [0]) := by
  have hlt := hr.lt
  have hroom := hr.room
  -- the terminator is a zero that is there already
  have hskip := pushed_skip (n := 1) (hr.le (by omega))
  have hput := pushed_storeList (l := string) { c with stack := c.stack - 1 } (by simp only; omega)
  have hsub : sub64 (sub64 c.stack string.length) 1 = c.stack - 1 - string.length := by
    rw [sub64_of_le (by omega) hlt, sub64_of_le (by omega) (by omega)]
    omega
  rw [Cursor.pushString, hsub]
  exact hskip.trans hput

/-- The bytes that strings take, with their terminators. -/
def stringsSize (strings : List CString) : Nat := (strings.map fun s => s.length + 1).sum

/-- Strings below one another. -/
def stacked (strings : List CString) : List (BitVec 8) := (strings.map (· ++ [0])).reverse.flatten

theorem length_stacked (strings : List CString) :
    (stacked strings).length = stringsSize strings := by
  rw [stacked, List.length_flatten, List.map_reverse, List.sum_reverse, List.map_map, stringsSize]
  congr 2
  funext s
  exact List.length_append

theorem stacked_append (l l' : List CString) : stacked (l ++ l') = stacked l' ++ stacked l := by
  rw [stacked, List.map_append, List.reverse_append, List.flatten_append, stacked, stacked]

theorem pushStrings_pushed : ∀ (strings : List CString) {c : Cursor},
    Room low (stringsSize strings) c →
    Pushed c (strings.foldl Cursor.pushString c) (stacked strings)
  | [], c, _ => ⟨rfl, .nil _ _ _⟩
  | s :: strings, c, hr => by
    rw [stringsSize, List.map_cons, List.sum_cons] at hr
    have hfirst := pushString_pushed s (hr.le (Nat.le_add_right _ _))
    have hrest := pushStrings_pushed strings (hfirst.room (by
      rwa [List.length_append, List.length_singleton]))
    rw [List.foldl_cons, stacked, List.map_cons, List.reverse_cons, List.flatten_append,
      List.flatten_singleton]
    exact hfirst.trans hrest

/-! ## Pointers -/

/-- The addresses of strings that are below `top`. -/
def stringAddrs (top : Nat) (strings : List CString) : List Nat :=
  Downward.addrs top (strings.map fun s => s.length + 1)

/-- The pointers are stored one behind the other, and the next string would be below the last. -/
theorem putPointers_stored : ∀ (strings : List CString) (stack i top : Nat) (mem : Rows.Mem),
    top < 2 ^ 64 → stringsSize strings ≤ top → stack + 8 * (i + strings.length) < 2 ^ 64 →
    (putPointers stack i strings top mem).1 = top - stringsSize strings ∧
      Stored pageSize mem (putPointers stack i strings top mem).2 (stack + 8 * i)
        (words (stringAddrs top strings))
  | [], _, _, _, _, _, _, _ => ⟨rfl, .nil _ _ _⟩
  | s :: strings, stack, i, top, mem, htop, hsum, hlt => by
    rw [stringsSize, List.map_cons, List.sum_cons] at hsum
    rw [List.length_cons] at hlt
    have hsub : sub64 top (s.length + 1) = top - (s.length + 1) := sub64_of_le (by omega) htop
    obtain ⟨hnext, hrest⟩ := putPointers_stored strings stack (i + 1) (top - (s.length + 1))
      (storeList pageSize mem (stack + 8 * i) (word (top - (s.length + 1)))) (by omega)
      (by rw [stringsSize]; omega) (by omega)
    rw [putPointers, hsub, u64_of_lt (by omega), hnext, stringsSize, stringsSize, List.map_cons, List.sum_cons]
    refine ⟨by omega, ?_⟩
    have hfirst := Stored.of_storeList pageSize_words.1 pageSize_words.2 mem (stack + 8 * i)
      (word (top - (s.length + 1)))
    rw [stringAddrs, List.map_cons, Downward.addrs, words_cons]
    refine hfirst.append ?_
    rw [length_word, Nat.add_assoc, ← Nat.mul_succ]
    exact hrest

theorem pushPointers_pushed (strings : List CString) {top : Nat}
    (hr : Room low (8 * (strings.length + 1)) c) (htop : top < 2 ^ 64)
    (hsum : stringsSize strings ≤ top) :
    (c.pushPointers strings top).1 = top - stringsSize strings ∧
      Pushed c (c.pushPointers strings top).2 (words (stringAddrs top strings ++ [0])) := by
  have hnull := push_pushed 0 (hr.le (by omega))
  have hr' := hnull.room (n := 8 * strings.length) (hr.le (by rw [length_word]; omega))
  have hroom := hr'.room
  have hlt := hr'.lt
  obtain ⟨hnext, hstored⟩ := putPointers_stored strings
    (sub64 (c.push 0).stack (8 * strings.length)) 0 top (c.push 0).mem htop hsum
    (by rw [hr'.sub]; omega)
  rw [Nat.mul_zero, Nat.add_zero] at hstored
  refine ⟨hnext, ?_⟩
  rw [words_append, words_singleton]
  refine hnull.trans ⟨?_, hstored⟩
  simp only [Cursor.pushPointers, length_words, stringAddrs, Downward.length_addrs, List.length_map,
    hr'.sub]
  omega

/-! ## The whole stack -/

/-- The auxiliary vector, without its end. -/
def auxv (auxval : Elf.Auxval) : List (Nat × Nat) :=
  [(atPhnum, auxval.atPhnum), (atPhent, auxval.atPhent), (atPhdr, auxval.atPhdr),
    (atEntry, auxval.atEntry), (atSecure, 0)]

def auxvWords (auxval : Elf.Auxval) : List Nat :=
  (auxv auxval ++ [(atNull, 0)]).flatMap fun x : Nat × Nat => [x.1, x.2]

theorem auxvWords_length (auxval : Elf.Auxval) : (auxvWords auxval).length = 12 := rfl

theorem pushAuxv_pushed (auxval : Elf.Auxval) (hr : Room low 96 c) :
    Pushed c (c.pushAuxv auxval) (words (auxvWords auxval)) := by
  have hnull : ∀ {c : Cursor} {n : Nat}, Room low (8 + n) c →
      Pushed c (c.push 0) (word 0) ∧ Room low n (c.push 0) := fun hr =>
    ⟨push_pushed 0 (hr.le (by omega)), (push_pushed 0 (hr.le (by omega))).room hr⟩
  have hpair : ∀ {c : Cursor} {n : Nat} (type value : Nat), Room low (16 + n) c →
      Pushed c (c.pushPair type value) (words [type, value]) ∧ Room low n (c.pushPair type value) :=
    fun type value hr =>
      ⟨pushPair_pushed type value (hr.le (by omega)),
        (pushPair_pushed type value (hr.le (by omega))).room hr⟩
  obtain ⟨h₁, r₁⟩ := hnull (n := 88) hr
  obtain ⟨h₂, r₂⟩ := hnull (n := 80) r₁
  obtain ⟨h₃, r₃⟩ := hpair (n := 64) atSecure 0 r₂
  obtain ⟨h₄, r₄⟩ := hpair (n := 48) atEntry auxval.atEntry r₃
  obtain ⟨h₅, r₅⟩ := hpair (n := 32) atPhdr auxval.atPhdr r₄
  obtain ⟨h₆, r₆⟩ := hpair (n := 16) atPhent auxval.atPhent r₅
  obtain ⟨h₇, -⟩ := hpair (n := 0) atPhnum auxval.atPhnum r₆
  exact (((((h₁.trans h₂).trans h₃).trans h₄).trans h₅).trans h₆).trans h₇

/-- What `rsp` points to. -/
def stackWords (argPtrs envPtrs : List Nat) (auxval : Elf.Auxval) : List Nat :=
  argPtrs.length :: (argPtrs ++ [0] ++ (envPtrs ++ [0] ++ auxvWords auxval))

/-- The bytes that all of it takes. -/
def imageSize (argv envp : List CString) : Nat :=
  (stringsSize envp + stringsSize argv + 15) / 16 * 16 + 8 * ((argv.length + envp.length + 1) % 2)
    + 8 * (15 + argv.length + envp.length)

/-- Where the pointer is when the strings have been copied and it has been aligned. -/
def belowStrings (mem : Rows.Mem) (top : Nat) (argv envp : List CString) : Cursor :=
  let c := argv.foldl Cursor.pushString (envp.foldl Cursor.pushString ⟨mem, top⟩)
  let c : Cursor := { c with stack := alignDown c.stack 16 }
  if (argv.length + envp.length + 1) &&& 1 ≠ 0 then { c with stack := sub64 c.stack 8 } else c

theorem belowStrings_pushed {mem : Rows.Mem} {top n : Nat} (argv envp : List CString)
    (hr : Room low ((stringsSize envp + stringsSize argv + 15) / 16 * 16 +
      8 * ((argv.length + envp.length + 1) % 2) + n) ⟨mem, top⟩) (htop : 16 ∣ top) :
    ∃ pad, stringsSize envp + stringsSize argv + pad =
        (stringsSize envp + stringsSize argv + 15) / 16 * 16 +
          8 * ((argv.length + envp.length + 1) % 2) ∧
      Pushed ⟨mem, top⟩ (belowStrings mem top argv envp)
        (List.replicate pad 0 ++ stacked (envp ++ argv)) := by
  have henv := pushStrings_pushed envp (hr.le (by omega))
  have hr₁ := henv.room (n := stringsSize argv) (hr.le (by rw [length_stacked]; omega))
  have harg := pushStrings_pushed argv hr₁
  have hboth := henv.trans harg
  rw [← stacked_append] at hboth
  have hlen : (stacked (envp ++ argv)).length = stringsSize envp + stringsSize argv := by
    rw [stacked_append, List.length_append, length_stacked, length_stacked, Nat.add_comm]
  have hstack := hboth.stack
  rw [hlen] at hstack
  simp only at hstack
  unfold belowStrings
  simp only
  generalize argv.foldl Cursor.pushString (envp.foldl Cursor.pushString ⟨mem, top⟩) = c at hboth hstack
  have hroom := hr.room
  simp only at hroom
  -- the pointer is aligned
  have hdown : alignDown c.stack 16 =
      c.stack - ((stringsSize envp + stringsSize argv + 15) / 16 * 16
        - (stringsSize envp + stringsSize argv)) := by
    unfold alignDown
    omega
  have hr₂ : Room low ((stringsSize envp + stringsSize argv + 15) / 16 * 16
      - (stringsSize envp + stringsSize argv) + 8 * ((argv.length + envp.length + 1) % 2)) c :=
    hboth.room (hr.le (by rw [hlen]; omega))
  have hskip := pushed_skip (hr₂.le (Nat.le_add_right _ _))
  have hall := hboth.trans hskip
  rw [hdown]
  split
  · next hodd =>
    have hmod : (argv.length + envp.length + 1) % 2 = 1 := by
      rw [Nat.and_one_is_mod] at hodd
      omega
    have hr₃ := hskip.room (n := 8) (by rw [List.length_replicate]; exact hr₂.le (by omega))
    have hlast := pushed_skip hr₃
    refine ⟨8 + ((stringsSize envp + stringsSize argv + 15) / 16 * 16
        - (stringsSize envp + stringsSize argv)), by omega, ?_⟩
    rw [hr₃.sub, ← List.replicate_append_replicate, List.append_assoc]
    exact hall.trans hlast
  · next heven =>
    have hmod : (argv.length + envp.length + 1) % 2 = 0 := by
      rw [Nat.and_one_is_mod] at heven
      omega
    exact ⟨_, by omega, hall⟩

/-- **The stack as one list of bytes**: the words, zeros for the alignment, and the strings. -/
theorem initialStack_pushed {mem : Rows.Mem} {top rsp : Nat} (argv envp : List CString)
    (auxval : Elf.Auxval) (hr : Room low (imageSize argv envp) ⟨mem, top⟩) (htop : 16 ∣ top)
    (hrsp : rsp < 2 ^ 64) (hfits : imageSize argv envp ≤ rsp) :
    ∃ pad c, Pushed ⟨mem, top⟩ c
        (words (stackWords (stringAddrs (rsp - stringsSize envp) argv) (stringAddrs rsp envp) auxval) ++
          (List.replicate pad 0 ++ stacked (envp ++ argv))) ∧
      c.stack = top - imageSize argv envp ∧
      initialStack mem top rsp argv envp auxval = (c.mem, rsp - imageSize argv envp) := by
  have hsize : imageSize argv envp = (stringsSize envp + stringsSize argv + 15) / 16 * 16 +
      8 * ((argv.length + envp.length + 1) % 2) +
        (96 + (8 * (envp.length + 1) + (8 * (argv.length + 1) + 8))) := by
    unfold imageSize
    omega
  have hroom := hr.room
  have hlt := hr.lt
  simp only at hroom hlt
  rw [hsize] at hr
  obtain ⟨pad, hpad, h₁⟩ := belowStrings_pushed argv envp hr htop
  have hlen : (List.replicate pad 0 ++ stacked (envp ++ argv)).length =
      (stringsSize envp + stringsSize argv + 15) / 16 * 16 +
        8 * ((argv.length + envp.length + 1) % 2) := by
    rw [List.length_append, List.length_replicate, stacked_append, List.length_append,
      length_stacked, length_stacked, ← hpad]
    omega
  have r₁ := h₁.room (by rw [hlen]; exact hr)
  have h₂ := pushAuxv_pushed auxval (r₁.le (Nat.le_add_right _ _))
  have r₂ := h₂.room (by rw [length_words]; exact r₁)
  obtain ⟨hrsp₃, h₃⟩ := pushPointers_pushed envp (r₂.le (Nat.le_add_right _ _)) hrsp
    (by omega)
  have hlen₃ : (words (stringAddrs rsp envp ++ [0])).length = 8 * (envp.length + 1) := by
    simp [stringAddrs]
  have r₃ := h₃.room (by rw [hlen₃]; exact r₂)
  obtain ⟨-, h₄⟩ := pushPointers_pushed argv (r₃.le (Nat.le_add_right _ _))
    (show rsp - stringsSize envp < 2 ^ 64 by omega) (by omega)
  have hlen₄ : (words (stringAddrs (rsp - stringsSize envp) argv ++ [0])).length =
      8 * (argv.length + 1) := by
    simp [stringAddrs]
  have r₄ := h₄.room (n := 8) (by rw [hlen₄]; exact r₃)
  have h₅ := push_pushed argv.length r₄
  have hall := (((h₁.trans h₂).trans h₃).trans h₄).trans h₅
  have hwords : word argv.length ++ (words (stringAddrs (rsp - stringsSize envp) argv ++ [0]) ++
      (words (stringAddrs rsp envp ++ [0]) ++ (words (auxvWords auxval) ++
        (List.replicate pad 0 ++ stacked (envp ++ argv))))) =
      words (stackWords (stringAddrs (rsp - stringsSize envp) argv) (stringAddrs rsp envp) auxval) ++
        (List.replicate pad 0 ++ stacked (envp ++ argv)) := by
    have hcount : (stringAddrs (rsp - stringsSize envp) argv).length = argv.length := by
      simp [stringAddrs]
    simp only [stackWords, words_cons, words_append, hcount, List.append_assoc]
  rw [hwords] at hall
  have hstack := hall.stack
  rw [List.length_append, hlen, length_words] at hstack
  simp only [stackWords, List.length_cons, List.length_append, List.length_nil, stringAddrs,
    Downward.length_addrs, List.length_map, auxvWords_length] at hstack
  have hdef : initialStack mem top rsp argv envp auxval =
      ((((((belowStrings mem top argv envp).pushAuxv auxval).pushPointers envp rsp).2.pushPointers argv
        (rsp - stringsSize envp)).2.push argv.length).mem,
      sub64 rsp (sub64 top (((((belowStrings mem top argv envp).pushAuxv auxval).pushPointers envp
        rsp).2.pushPointers argv (rsp - stringsSize envp)).2.push argv.length).stack)) := by
    rw [← hrsp₃]
    rfl
  refine ⟨pad, _, hall, by omega, hdef.trans (Prod.ext rfl ?_)⟩
  simp only
  rw [sub64_of_le (by omega) hlt, sub64_of_le (by omega) hrsp]
  omega

end Cursor

/-! ## What user code reads -/

open Cursor

/-- The words at `rsp`, and the strings with their terminators: where they are, and their sizes. -/
def stackItems (rsp : Nat) (argPtrs envPtrs : List Nat) (argv envp : List CString)
    (auxval : Elf.Auxval) : List (Nat × Nat) :=
  (rsp, (words (stackWords argPtrs envPtrs auxval)).length) ::
    (argPtrs.zip argv ++ envPtrs.zip envp).map fun x : Nat × CString => (x.1, x.2.length + 1)

/-- The stack of a new program between `low` and `top`, as user code reads it. -/
structure StackImage {σ : Type} (s : Vmm.State σ) (pm low top rsp : Nat) (argv envp : List CString)
    (auxval : Elf.Auxval) (argPtrs envPtrs : List Nat) : Prop where
  aligned : 16 ∣ rsp
  words : UserHolds s pm rsp (words (stackWords argPtrs envPtrs auxval))
  argc : argPtrs.length = argv.length
  envc : envPtrs.length = envp.length
  strings : ∀ x ∈ argPtrs.zip argv ++ envPtrs.zip envp, UserHolds s pm x.1 (x.2 ++ [0])
  inside : ∀ x ∈ stackItems rsp argPtrs envPtrs argv envp auxval, low ≤ x.1 ∧ x.1 + x.2 ≤ top
  apart : (stackItems rsp argPtrs envPtrs argv envp auxval).Pairwise
    fun x y => Bytes.Apart x.1 x.2 y.1 y.2

section

variable {σ : Type} {strings : List CString} {m : Bytes.Mem} {a top : Nat}

theorem map_sizes (strings : List CString) :
    ((strings.map (· ++ [0])).map List.length) = strings.map fun s => s.length + 1 := by
  rw [List.map_map]
  exact List.map_congr_left fun s _ => List.length_append

theorem zip_sizes (top : Nat) (strings : List CString) :
    ((stringAddrs top strings).zip strings).map (fun x : Nat × CString => (x.1, x.2.length + 1)) =
      (Downward.addrs top (strings.map fun s => s.length + 1)).zip
        (strings.map fun s => s.length + 1) := by
  rw [List.zip_map_right]
  rfl

/-- Strings that are stacked in memory from `a` on are, as seen from another address, below the
`top` that belongs to it. -/
theorem strings_held (htop : stringsSize strings ≤ top) (h : Holds m a (stacked strings)) :
    ∀ x ∈ (stringAddrs top strings).zip strings, ∃ k, k + (x.2.length + 1) ≤ stringsSize strings ∧
      x.1 = top - stringsSize strings + k ∧ Holds m (a + k) (x.2 ++ [0]) := by
  intro x hx
  have hsum : (strings.map fun s => s.length + 1).sum = stringsSize strings := rfl
  have hshift : stringAddrs top strings =
      (stringAddrs (stringsSize strings) strings).map (· + (top - stringsSize strings)) := by
    rw [stringAddrs, stringAddrs, ← Downward.addrs_add (Nat.le_of_eq hsum),
      Nat.add_sub_cancel' htop]
  rw [hshift, List.zip_map_left] at hx
  obtain ⟨y, hy, rfl⟩ := List.mem_map.mp hx
  have hmem : (y.1, y.2.length + 1) ∈
      (Downward.addrs (stringsSize strings) (strings.map fun s => s.length + 1)).zip
        (strings.map fun s => s.length + 1) := by
    rw [← zip_sizes]
    exact List.mem_map.mpr ⟨y, hy, rfl⟩
  have hbound := (Downward.bounds (Nat.le_of_eq hsum) _ hmem).2
  refine ⟨y.1, hbound, Nat.add_comm _ _, ?_⟩
  have hitems : a + ((strings.map (· ++ [0])).map List.length).sum = a + stringsSize strings := by
    rw [map_sizes, hsum]
  have hheld := Downward.holds_of_stacked hitems h
  refine hheld (a + y.1, y.2 ++ [0]) ?_
  rw [map_sizes, Nat.add_comm a, Downward.addrs_add (Nat.le_of_eq hsum), List.zip_map]
  exact List.mem_map.mpr ⟨y, hy, Prod.ext (Nat.add_comm _ _) rfl⟩

theorem stackImage_of_pushed {s : Vmm.State σ} {pm phys flags pad : Nat} {argv envp : List CString}
    {auxval : Elf.Auxval} {c c' : Cursor}
    (hrun : MappedRun s pm (top - stackSize) phys stackSize flags) (htop : StackTop top)
    (hfits : imageSize argv envp ≤ stackSize) (hmem : s.mem = c'.mem)
    (hstack : c'.stack = phys + stackSize - imageSize argv envp)
    (hpushed : Pushed c c' (words (stackWords (stringAddrs (top - stringsSize envp) argv)
      (stringAddrs top envp) auxval) ++ (List.replicate pad 0 ++ stacked (envp ++ argv))))
    (hc : c.stack = phys + stackSize) :
    StackImage s pm (top - stackSize) top (top - imageSize argv envp) argv envp auxval
      (stringAddrs (top - stringsSize envp) argv) (stringAddrs top envp) := by
  have hroom := htop.room
  have hsizes : stringsSize (envp ++ argv) = stringsSize envp + stringsSize argv := by
    rw [stringsSize, List.map_append, List.sum_append]
    rfl
  have hlen : stringsSize (envp ++ argv) + (words (stackWords (stringAddrs (top - stringsSize envp)
      argv) (stringAddrs top envp) auxval)).length ≤ imageSize argv envp := by
    have hs := hpushed.stack
    rw [List.length_append, List.length_append, length_stacked, List.length_replicate] at hs
    omega
  have haddrs : stringAddrs top (envp ++ argv) =
      stringAddrs top envp ++ stringAddrs (top - stringsSize envp) argv := by
    rw [stringAddrs, List.map_append, Downward.addrs_append]
    rfl
  have hzip : (stringAddrs top (envp ++ argv)).zip (envp ++ argv) =
      (stringAddrs top envp).zip envp ++ (stringAddrs (top - stringsSize envp) argv).zip argv := by
    rw [haddrs, List.zip_append (by simp [stringAddrs])]
  have hsum : ((envp ++ argv).map fun s => s.length + 1).sum ≤ top := by
    change stringsSize (envp ++ argv) ≤ top
    omega
  have hitems : ∀ x ∈ ((stringAddrs (top - stringsSize envp) argv).zip argv ++
      (stringAddrs top envp).zip envp).map (fun x : Nat × CString => (x.1, x.2.length + 1)),
      x ∈ (Downward.addrs top ((envp ++ argv).map fun s => s.length + 1)).zip
        ((envp ++ argv).map fun s => s.length + 1) := by
    intro x hx
    rw [← zip_sizes, hzip, List.map_append]
    rw [List.map_append] at hx
    exact List.mem_append.mpr (List.mem_append.mp hx).symm
  have hstrings := hpushed.stored.holds.right.right
  have hend : c'.stack + (words (stackWords (stringAddrs (top - stringsSize envp) argv)
      (stringAddrs top envp) auxval)).length + (List.replicate pad (0 : BitVec 8)).length =
      phys + stackSize - stringsSize (envp ++ argv) := by
    have hs := hpushed.stack
    rw [List.length_append, List.length_append, length_stacked] at hs
    omega
  rw [hend] at hstrings
  refine ⟨?_, ?_, by simp [stringAddrs], by simp [stringAddrs], ?_, ?_, ?_⟩
  · obtain ⟨q, hq⟩ := htop.dvd
    unfold imageSize
    unfold pageSize at hq
    omega
  · have hread := hrun.userHolds (k := stackSize - imageSize argv envp)
      (l := words (stackWords (stringAddrs (top - stringsSize envp) argv) (stringAddrs top envp)
        auxval)) (by omega) (by
      rw [hmem, show phys + (stackSize - imageSize argv envp) = c'.stack by omega]
      exact hpushed.stored.holds.left)
    rwa [show top - stackSize + (stackSize - imageSize argv envp) = top - imageSize argv envp by
      omega] at hread
  · intro x hx
    obtain ⟨k, hk, hx₁, hheld⟩ := strings_held (show stringsSize (envp ++ argv) ≤ top by omega) hstrings x (by
      rw [hzip]
      exact List.mem_append.mpr (List.mem_append.mp hx).symm)
    have hread := hrun.userHolds (k := stackSize - stringsSize (envp ++ argv) + k) (l := x.2 ++ [0])
      (by rw [List.length_append, List.length_singleton]; omega) (by
        rwa [hmem, show phys + (stackSize - stringsSize (envp ++ argv) + k) =
          phys + stackSize - stringsSize (envp ++ argv) + k by omega])
    rwa [show top - stackSize + (stackSize - stringsSize (envp ++ argv) + k) = x.1 by omega] at hread
  · intro x hx
    rcases List.mem_cons.mp hx with rfl | hx
    · exact ⟨by omega, by omega⟩
    · obtain ⟨hlow, hhigh⟩ := Downward.bounds hsum x (hitems x hx)
      change top - stringsSize (envp ++ argv) ≤ x.1 at hlow
      exact ⟨by omega, hhigh⟩
  · refine List.pairwise_cons.mpr ⟨fun x hx => ?_, ?_⟩
    · obtain ⟨hlow, -⟩ := Downward.bounds hsum x (hitems x hx)
      change top - stringsSize (envp ++ argv) ≤ x.1 at hlow
      exact Or.inl (by simp only; omega)
    · rw [List.map_append, List.pairwise_append_comm Bytes.Apart.symm, ← List.map_append, ← hzip,
        zip_sizes]
      exact Downward.pairwise_apart hsum

end

/-! ## The first thread -/

section

variable {σ : Type} {A : RunAllocator σ} {fpuPages : Nat} {roots : Nat → Prop} {s s' : State σ}
  {p pm : Nat} {argv envp : List CString} {auxval : Elf.Auxval}

/-- A stack that has been mapped: zeros that no table is in. -/
structure StackMapped (A : PageAllocator σ) (roots : Nat → Prop) (s : Mmap.State σ)
    (pm top phys : Nat) : Prop where
  ready : Ready A roots s
  run : MappedRun s.vm pm (top - stackSize) phys stackSize (ptFlags ⟨true, false, 1⟩)
  used : ∀ q, InRun phys (stackSize / pageSize) q → A.Owned s.vm.pmm q ∧ ¬ TablePage roots s.vm q
  zero : ∀ q, InRun phys (stackSize / pageSize) q → ∀ i, s.vm.mem q i = 0

theorem StackMapped.maintains {A : PageAllocator σ} {s s' : Mmap.State σ} {top phys : Nat}
    (h : StackMapped A roots s pm top phys) (hpm : roots pm) (hm : Maintains A roots roots s s') :
    StackMapped A roots s' pm top phys where
  ready := hm.ready
  run := hm.run hpm h.run
  used q hq := hm.data q (h.used q hq).1 (h.used q hq).2
  zero q hq i := by
    obtain ⟨ho, ht⟩ := h.used q hq
    rw [hm.contents q ho ht, h.zero q hq]

theorem stack_mapped {mm mm₁ mm₂ : Mmap.State σ} {top phys : Nat} (hA : A.Placing)
    (h : Ready A.toPageAllocator roots mm) (hpm : roots pm) (htop : StackTop top)
    (halloc : pmmAllocRun A mm (stackSize / pageSize) = (some phys, mm₁))
    (hmap : mmapRange A mm₁ (some pm) (top - stackSize) phys stackSize ⟨true, false, 1⟩
      Elf.anonymous = some (true, mm₂)) :
    StackMapped A.toPageAllocator roots mm₂ pm top phys := by
  have hkept := pmmAllocRun_maintains hA.toLawful (by decide) h halloc
  obtain ⟨-, -, -, hrun⟩ := pmmAllocRun_ext hA.toLawful (by decide) h.wf halloc
  obtain ⟨-, hphys, hend⟩ := pmmAllocRun_placed hA (by decide) h.wf.alloc halloc
  have hmapped := mmapRange_maintains hkept.ready hpm hmap
  obtain ⟨hbase, hlength⟩ := htop.lowPages.range
  have hmappedRun := mmapRange_run (n := stackSize) hkept.ready hpm
    (by rw [hbase, hlength]; exact htop.lowPages) hphys (by rw [hlength]) hend hmap
  rw [hbase] at hmappedRun
  have hused : ∀ q, InRun phys (stackSize / pageSize) q →
      A.Owned mm₁.vm.pmm q ∧ ¬ TablePage roots mm₁.vm q := hrun phys rfl
  refine ⟨hmapped.ready, hmappedRun, fun q hq => hmapped.data q (hused q hq).1 (hused q hq).2,
    fun q hq i => ?_⟩
  rw [hmapped.contents q (hused q hq).1 (hused q hq).2]
  obtain ⟨k, hk, rfl⟩ := hq
  exact pmmAllocRun_zero halloc (Nat.le_add_right _ _)
    (Nat.add_lt_add_left (Nat.mul_lt_mul_of_pos_right hk (by decide)) _) i

theorem StackMapped.image {A : PageAllocator σ} {mm : Mmap.State σ} {top phys : Nat}
    (h : StackMapped A roots mm pm top phys) (hpm : roots pm) (htop : StackTop top)
    (hfits : imageSize argv envp ≤ stackSize) :
    ∃ argPtrs envPtrs, StackImage
      { mm.vm with mem := (initialStack mm.vm.mem (phys + stackSize) top argv envp auxval).1 } pm
      (top - stackSize) top (initialStack mm.vm.mem (phys + stackSize) top argv envp auxval).2
      argv envp auxval argPtrs envPtrs := by
  have hphys := h.run.dvd_phys
  have hend := h.run.fits
  have hroom := htop.room
  have hlow := htop.low
  have hlowEnd : lowEnd = 2 ^ 47 := rfl
  have hsize : stackSize / pageSize * pageSize = stackSize := by decide
  have hspace : Room phys (imageSize argv envp) ⟨mm.vm.mem, phys + stackSize⟩ := by
    refine ⟨by simp only; omega, Nat.add_le_add_left hfits phys, fun x hx hx' => ?_⟩
    simp only at hx'
    refine bytes_zero fun i => h.zero _ ?_ i
    have hdvd : pageSize ∣ x / pageSize * pageSize := Nat.dvd_mul_left _ _
    have hle := Nat.div_mul_le_self x pageSize
    have hgt := Nat.lt_div_mul_add (a := x) (show 0 < pageSize by decide)
    rcases inRun_or_apart (n := stackSize / pageSize) hphys hdvd with hin | hlo | hhi
    · exact hin
    · omega
    · omega
  have halign : 16 ∣ phys + stackSize :=
    Nat.dvd_add (Nat.dvd_trans (by decide) hphys) (by decide)
  obtain ⟨pad, c, hpushed, hstack, heq⟩ := initialStack_pushed argv envp auxval hspace halign
    (show top < 2 ^ 64 by omega) (by omega)
  rw [heq]
  -- the tables are in none of the pages
  have hrun : MappedRun { mm.vm with mem := c.mem } pm (top - stackSize) phys stackSize
      (ptFlags ⟨true, false, 1⟩) := by
    refine h.run.of_entries fun v _ _ => pte_congr hpm fun t ht i => hpushed.stored.rows t i ?_
    intro hdvd
    have hs := hpushed.stack
    simp only at hs
    rcases inRun_or_apart (n := stackSize / pageSize) hphys hdvd with hin | hlo | hhi
    · exact absurd ht (h.used t hin).2
    · exact Or.inl (by omega)
    · exact Or.inr (by omega)
  exact ⟨_, _, stackImage_of_pushed hrun htop hfits rfl hstack hpushed rfl⟩

theorem newUserThread_thread (A : RunAllocator σ) (fpuPages : Nat) (s : State σ) (p : Nat)
    (argv envp : List CString) (auxval : Elf.Auxval) :
    (newUserThread A fpuPages s p argv envp auxval).map (fun r => r.1.map Prod.fst) =
      (schedNewUserThread A fpuPages s p none).map Prod.fst := by
  unfold newUserThread schedNewUserThread threadStack
  rcases heapAlloc s.mm with ⟨_ | thread, mm⟩
  · rfl
  · rcases hrun : pmmAllocRun A mm (stackSize / pageSize) with ⟨_ | phys, mm₁⟩
    · simp only [hrun, Option.map_some, Option.map_none]
    · simp only [hrun]
      rcases mmapRange A mm₁ (s.image p).pagemap (sub64 (s.image p).threadStackTop stackSize) phys
        stackSize ⟨true, false, 1⟩ Elf.anonymous with _ | ⟨_ | _, mm₂⟩
      · rfl
      · rfl
      · simp only
        split <;> rfl

/--
**The stack of the first thread.** With memory, and no page of the stack mapped, the thread is made.
Whenever it is, user code finds the arguments, the environment and the auxiliary vector at `rsp`,
which is a multiple of 16.
-/
theorem initial_stack (argv envp : List CString) (auxval : Elf.Auxval) (hA : A.Placing) (hfpu : 0 < fpuPages)
    (h : Ready A.toPageAllocator roots s.mm) (himage : (s.image p).pagemap = some pm)
    (hpm : roots pm) (htop : StackTop (s.image p).threadStackTop)
    (hfirst : (s.image p).threads = []) (hfits : imageSize argv envp ≤ stackSize) :
    (StackMemory A s.mm → StackFree s.mm pm (s.image p).threadStackTop →
      ∃ thread rsp s', newUserThread A fpuPages s p argv envp auxval
        = some (some (thread, rsp), s')) ∧
    ∀ thread rsp s', newUserThread A fpuPages s p argv envp auxval = some (some (thread, rsp), s') →
      ∃ argPtrs envPtrs, StackImage s'.mm.vm pm ((s.image p).threadStackTop - stackSize)
        (s.image p).threadStackTop rsp argv envp auxval argPtrs envPtrs := by
  constructor
  · intro hmem hfree
    obtain ⟨thread, s₁, hs₁⟩ := (newThread_iff hA.toLawful hfpu h himage hpm htop hmem).mpr hfree
    have hthread := newUserThread_thread A fpuPages s p argv envp auxval
    rw [hs₁, Option.map_some, Option.map_eq_some_iff] at hthread
    obtain ⟨⟨r, s'⟩, hr, hfst⟩ := hthread
    obtain ⟨⟨t, rsp⟩, rfl, -⟩ := Option.map_eq_some_iff.mp hfst
    exact ⟨t, rsp, s', hr⟩
  · intro thread rsp s' hs
    unfold newUserThread at hs
    split at hs
    · simp at hs
    · next thread mm hheap =>
      have hkept := h.heapAlloc hheap
      split at hs
      · simp at hs
      · next phys mm₁ halloc =>
        simp only [himage, htop.sub] at hs
        split at hs
        · simp at hs
        · simp at hs
        · next mm₂ hmap =>
          have hstack := stack_mapped hA hkept.ready hpm htop halloc hmap
          have hfork := forkThread_maintains (s := { s with mm := mm₂ }.setImage p
            { s.image p with
              threadStackTop := sub64 (s.image p).threadStackTop (stackSize - pageSize) }) p thread
            hA.toLawful hfpu hstack.ready
          have hfinal := hstack.maintains hpm hfork
          have hend := hfinal.run.fits
          rw [if_pos (by rw [hfirst]; rfl), u64_of_lt (by omega)] at hs
          obtain ⟨hr, rfl⟩ := Prod.mk.inj (Option.some.inj hs)
          obtain ⟨rfl, rfl⟩ := Prod.mk.inj (Option.some.inj hr)
          exact hfinal.image hpm htop hfits

/-- `{ "a", NULL }`. -/
def sampleArgv : List CString := [[0x61]]

/-- `{ "b=c", "", NULL }`. -/
def sampleEnvp : List CString := [[0x62, 0x3d, 0x63], []]

def sampleAuxval : Elf.Auxval := ⟨0x401000, 0x400040, 56, 3⟩

end

/-- A process that has no thread yet. -/
def freshProgram : State Pmm.State :=
  sixteenMegabytes.sys.setImage 0 { sixteenMegabytes.sys.image 0 with threads := [] }

/-- A program with one argument and two strings in its environment. -/
theorem initial_stack_sample : ∃ thread rsp s' argPtrs envPtrs,
    newUserThread Pmm.runs 1 freshProgram 0 sampleArgv sampleEnvp sampleAuxval
      = some (some (thread, rsp), s') ∧
    StackImage s'.mm.vm 0x2000 (execStackTop - stackSize) execStackTop rsp sampleArgv sampleEnvp
      sampleAuxval argPtrs envPtrs := by
  have hall := initial_stack (s := freshProgram) (p := 0) sampleArgv sampleEnvp sampleAuxval
    Pmm.runs_placing (show 0 < 1 by decide) sixteenMegabytes_ready rfl (Or.inr rfl) stackTop_exec rfl
    (by decide)
  obtain ⟨thread, rsp, s', hs⟩ := hall.1 (by decide +kernel) (by
    intro v _ hp
    have hzero : pte freshProgram.mm.vm 0x2000 v = 0 := bootState_pte (Or.inr rfl)
    unfold Present at hp
    rw [hzero] at hp
    exact hp present_zero)
  obtain ⟨argPtrs, envPtrs, himage⟩ := hall.2 thread rsp s' hs
  exact ⟨thread, rsp, s', argPtrs, envPtrs, hs, himage⟩

end Lyre.Sched
