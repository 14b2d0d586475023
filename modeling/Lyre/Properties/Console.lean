import Lyre.Dev.Console
import Lyre.Infra.Ring
import Lyre.Infra.Run
import Lyre.Spec.LineInput

/-!
# The lines that a terminal delivers

Two lists stand for the two buffers: the line that is typed (`Tty.pending`) and what can be read
(`Tty.unread`). A character changes them as `typeChar` says, whatever the indices are. A line that
fits in the large buffer is moved there as a whole, and then what has been read and what can be
read are the lines that have been typed. A line that does not fit is copied in part and stays where
it is, so that it is copied again with the next one.
-/

namespace Lyre.Console

open Infra Infra.Ring LineInput

variable {s : Tty} {c : Byte} {echo : Bool}

/-! ## The buffers as lists -/

def Tty.pending (s : Tty) : List Byte := slice s.kbdBuffer 0 s.kbdBufferI

def Tty.unread (s : Tty) : List Byte := slice s.kbdBigbuf 0 s.kbdBigbufI

/-- The indices are in the buffers. -/
structure Bounded (s : Tty) : Prop where
  buffer : s.kbdBufferI ≤ kbdBufferSize
  bigbuf : s.kbdBigbufI ≤ kbdBigbufSize

@[simp] theorem length_pending (s : Tty) : s.pending.length = s.kbdBufferI := length_slice _ _ _

@[simp] theorem length_unread (s : Tty) : s.unread.length = s.kbdBigbufI := length_slice _ _ _

theorem push_pending (s : Tty) (c : Byte) : (s.push c).pending = s.pending ++ [c] :=
  slice_update_concat _ _ _

theorem pushBig_unread (s : Tty) (c : Byte) : (s.pushBig c).unread = s.unread ++ [c] :=
  slice_update_concat _ _ _

theorem copyLoop_spec : ∀ (k i : Nat) (s : Tty), s.kbdBigbufI ≤ kbdBigbufSize →
    (copyLoop k i s).1 = decide (s.kbdBigbufI + k ≤ kbdBigbufSize) ∧
      (copyLoop k i s).2.unread =
        s.unread ++ (slice s.kbdBuffer i k).take (kbdBigbufSize - s.kbdBigbufI) ∧
      (copyLoop k i s).2.kbdBigbufI ≤ kbdBigbufSize ∧
      (copyLoop k i s).2.kbdBuffer = s.kbdBuffer ∧ (copyLoop k i s).2.kbdBufferI = s.kbdBufferI ∧
      (copyLoop k i s).2.termios = s.termios
  | 0, i, s, h => by
    have hnil : slice s.kbdBuffer i 0 = [] := rfl
    refine ⟨(decide_eq_true h).symm, ?_, h, rfl, rfl, rfl⟩
    rw [hnil, List.take_nil, List.append_nil]
    rfl
  | k + 1, i, s, h => by
    rw [copyLoop]
    dsimp only
    by_cases hfull : s.kbdBigbufI = kbdBigbufSize
    · rw [if_pos hfull, hfull, Nat.sub_self, List.take_zero, List.append_nil]
      refine ⟨(decide_eq_false (by omega)).symm, ?_, Nat.le_refl _, rfl, rfl, rfl⟩
      unfold Tty.unread
      dsimp only
      rw [hfull]
    · rw [if_neg hfull]
      obtain ⟨hflag, hunread, hle, hbuffer, hi, htermios⟩ :=
        copyLoop_spec k (i + 1) (({ s with pollin := true } : Tty).pushBig (s.kbdBuffer i))
          (show s.kbdBigbufI + 1 ≤ kbdBigbufSize by omega)
      refine ⟨?_, ?_, hle, hbuffer, hi, htermios⟩
      · rw [hflag, decide_eq_decide]
        unfold Tty.pushBig
        dsimp only
        omega
      · have hroom : kbdBigbufSize - s.kbdBigbufI = kbdBigbufSize - (s.kbdBigbufI + 1) + 1 := by
          omega
        rw [hunread, pushBig_unread, slice_succ, hroom, List.take_succ_cons, List.append_assoc]
        rfl

/-! ## A character -/

/-- What a character does to the two lists. -/
def typeChar (c : Byte) (pending unread : List Byte) : List Byte × List Byte :=
  if c = newline then
    if pending.length = kbdBufferSize then (pending, unread)
    else
      let line := pending ++ [c]
      if unread.length + line.length ≤ kbdBigbufSize then ([], unread ++ line)
      else (line, unread ++ line.take (kbdBigbufSize - unread.length))
  else if c = backspace then (pending.dropLast, unread)
  else if pending.length = kbdBufferSize then (pending, unread)
  else (pending ++ [c], unread)

/-- The state shows the two lists. -/
structure Shows (s : Tty) (t : Termios) (lists : List Byte × List Byte) : Prop where
  bounded : Bounded s
  termios : s.termios = t
  pending : s.pending = lists.1
  unread : s.unread = lists.2

theorem copyLine_shows (h : Bounded s) (hroom : s.kbdBufferI ≠ kbdBufferSize) (c : Byte) :
    (copyLoop (s.push c).kbdBufferI 0 (s.push c)).1 =
        decide (s.unread.length + (s.pending ++ [c]).length ≤ kbdBigbufSize) ∧
      Shows (copyLoop (s.push c).kbdBufferI 0 (s.push c)).2 s.termios
        (s.pending ++ [c],
          s.unread ++ (s.pending ++ [c]).take (kbdBigbufSize - s.unread.length)) := by
  have hbuffer := h.buffer
  obtain ⟨hflag, hunread, hle, hdata, hi, htermios⟩ :=
    copyLoop_spec (s.push c).kbdBufferI 0 (s.push c) h.bigbuf
  have hline : slice (s.push c).kbdBuffer 0 (s.push c).kbdBufferI = s.pending ++ [c] :=
    push_pending s c
  have hpushed : (s.push c).kbdBufferI = s.kbdBufferI + 1 := rfl
  refine ⟨?_, ⟨?_, hle⟩, htermios, ?_, ?_⟩
  · rw [hflag, List.length_append, length_unread, length_pending, List.length_singleton]
    rfl
  · rw [hi, hpushed]
    omega
  · unfold Tty.pending
    rw [hdata, hi]
    exact hline
  · rw [hunread, hline, length_unread]
    rfl

/-- **A character changes the buffers as it changes the lists.** -/
theorem addToBufChar_shows (h : Bounded s) (hcanon : s.termios.icanon = true) (c : Byte)
    (echo : Bool) :
    Shows (addToBufChar s c echo).1 s.termios
      (typeChar (s.termios.translate c) s.pending s.unread) := by
  have hbuffer := h.buffer
  have hsame : Shows s s.termios (s.pending, s.unread) := ⟨h, rfl, rfl, rfl⟩
  unfold addToBufChar typeChar
  dsimp only
  rw [if_pos hcanon, length_pending]
  generalize s.termios.translate c = c
  split
  · split
    · exact hsame
    · next hroom =>
      obtain ⟨hflag, hcopied⟩ := copyLine_shows h hroom c
      generalize copyLoop (s.push c).kbdBufferI 0 (s.push c) = r at hflag hcopied ⊢
      obtain ⟨done, t⟩ := r
      dsimp only at hflag hcopied
      cases done with
      | true =>
        have hfits := of_decide_eq_true hflag.symm
        rw [if_pos hfits]
        refine ⟨⟨Nat.zero_le _, hcopied.bounded.bigbuf⟩, hcopied.termios, rfl, ?_⟩
        have hunread := hcopied.unread
        rw [List.take_of_length_le (by omega)] at hunread
        exact hunread
      | false =>
        rw [if_neg (of_decide_eq_false hflag.symm)]
        exact hcopied
  · split
    · split
      · next hzero =>
        have hnil : s.pending = [] := List.length_eq_zero_iff.mp ((length_pending s).trans hzero)
        rw [hnil]
        exact ⟨h, rfl, hnil, rfl⟩
      · next hne =>
        refine ⟨⟨?_, h.bigbuf⟩, rfl, slice_update_dropLast _ hne _, rfl⟩
        dsimp only
        omega
    · split
      · exact hsame
      · next hroom =>
        refine ⟨⟨?_, h.bigbuf⟩, rfl, push_pending s c, rfl⟩
        show s.kbdBufferI + 1 ≤ kbdBufferSize
        omega

/-! ## A read -/

theorem pop_unread (s : Tty) (h : s.kbdBigbufI ≠ 0) :
    s.unread = s.kbdBigbuf 0 :: s.pop.unread := by
  obtain ⟨n, hn⟩ := Nat.exists_eq_succ_of_ne_zero h
  unfold Tty.unread Tty.pop
  dsimp only
  rw [hn, Nat.succ_eq_add_one, slice_succ, Nat.add_sub_cancel]
  congr 1
  refine List.map_congr_left fun k hk => ?_
  dsimp only
  rw [Nat.zero_add, Nat.zero_add, if_pos (List.mem_range.mp hk), Nat.add_comm]

theorem readLoop_spec : ∀ (count : Nat) (s : Tty),
    (readLoop count s).1 = s.unread.take count ∧ (readLoop count s).2.unread = s.unread.drop count ∧
      (readLoop count s).2.pending = s.pending ∧ (readLoop count s).2.termios = s.termios ∧
      (readLoop count s).2.kbdBufferI = s.kbdBufferI ∧
      (readLoop count s).2.kbdBigbufI ≤ s.kbdBigbufI
  | 0, s => ⟨rfl, rfl, rfl, rfl, rfl, Nat.le_refl _⟩
  | count + 1, s => by
    rw [readLoop]
    by_cases h : s.kbdBigbufI ≠ 0
    · obtain ⟨hbuf, hunread, hpending, htermios, hi, hle⟩ := readLoop_spec count s.pop
      rw [if_pos h, pop_unread s h]
      refine ⟨?_, hunread, hpending, htermios, hi, Nat.le_trans hle (Nat.sub_le _ _)⟩
      rw [List.take_succ_cons, ← hbuf]
    · have hnil : s.unread = [] :=
        List.length_eq_zero_iff.mp ((length_unread s).trans (not_not.mp h))
      rw [if_neg h, hnil, List.take_nil, List.drop_nil]
      exact ⟨rfl, rfl, rfl, rfl, rfl, Nat.le_refl _⟩

/-! ## Runs -/

def keys : Keys Byte := ⟨newline, backspace⟩

/-- The terminal, with the characters that it has taken and what has been read. -/
structure Log where
  tty : Tty
  typed : List Byte
  out : List Byte

/-- The character is dropped: there is no room in the buffer, and it is not a backspace. -/
def Tty.drops (s : Tty) (c : Byte) : Prop := s.kbdBufferI = kbdBufferSize ∧ c ≠ backspace

instance (s : Tty) (c : Byte) : Decidable (s.drops c) := inferInstanceAs (Decidable (_ ∧ _))

/-- A character, as it is meant, is recorded if it is taken. -/
def Log.char (s : Log) (echo : Bool) (c : Byte) : Log where
  tty := (addToBufChar s.tty c echo).1
  typed :=
    if s.tty.drops (s.tty.termios.translate c) then s.typed
    else s.typed ++ [s.tty.termios.translate c]
  out := s.out

/-- The bytes of a result. -/
def Result.data : Result → List Byte
  | .bytes buf => buf
  | _ => []

inductive Call where
  | addToBuf (ptr : List Byte) (echo : Bool)
  | read (locked interrupted : Bool) (count : Nat)
  | tcsets (t : Termios)

def next (s : Log) : Call → Log
  | .addToBuf ptr echo =>
    { ptr.foldl (fun s c => s.char echo c) s with tty := (addToBuf echo ptr s.tty).1 }
  | .read locked interrupted count =>
    { s with
      tty := (ttyRead s.tty locked interrupted count).2
      out := s.out ++ (ttyRead s.tty locked interrupted count).1.data }
  | .tcsets t => { s with tty := tcsets s.tty t }

/-- A newline that is taken finds room for the whole line in the large buffer. -/
def Tty.LineFits (s : Tty) (c : Byte) : Prop :=
  s.termios.translate c = newline → s.kbdBufferI ≠ kbdBufferSize →
    s.kbdBigbufI + (s.kbdBufferI + 1) ≤ kbdBigbufSize

instance (s : Tty) (c : Byte) : Decidable (s.LineFits c) := inferInstanceAs (Decidable (_ → _ → _))

/-- All lines of a call fit. -/
def LinesFit (echo : Bool) : List Byte → Tty → Prop
  | [], _ => True
  | c :: ptr, s => s.LineFits c ∧ LinesFit echo ptr (addToBufChar s c echo).1

/-- Characters come with `ICANON` set. -/
def Call.canonical (s : Log) : Call → Prop
  | .addToBuf _ _ => s.tty.termios.icanon = true
  | _ => True

/-- Its lines fit. -/
def Call.fits (s : Log) : Call → Prop
  | .addToBuf ptr echo => LinesFit echo ptr s.tty
  | _ => True

/-- What has been read and what can be read are the lines that have been typed, and the rest is in
the buffer. -/
structure Delivers (s : Log) : Prop where
  lines : s.out ++ s.tty.unread = (typed keys s.typed).lines.flatten
  pending : s.tty.pending = (typed keys s.typed).pending

theorem tty_foldl_char (echo : Bool) : ∀ (ptr : List Byte) (s : Log),
    (ptr.foldl (fun s c => s.char echo c) s).tty = (addToBuf echo ptr s.tty).1
  | [], _ => rfl
  | c :: ptr, s => tty_foldl_char echo ptr (s.char echo c)

theorem next_addToBuf (s : Log) (ptr : List Byte) (echo : Bool) :
    next s (.addToBuf ptr echo) = ptr.foldl (fun s c => s.char echo c) s := by
  dsimp only [next]
  rw [← tty_foldl_char]

theorem typeChar_dropped {pending unread : List Byte} (hfull : pending.length = kbdBufferSize)
    (hc : c ≠ backspace) : typeChar c pending unread = (pending, unread) := by
  unfold typeChar
  rw [if_pos hfull, if_neg hc, if_pos hfull, ite_self]

theorem typeChar_taken {unread : List Byte} {input : Input Byte}
    (hroom : ¬ (input.pending.length = kbdBufferSize ∧ c ≠ backspace))
    (hfits : c = newline → input.pending.length ≠ kbdBufferSize →
      unread.length + (input.pending.length + 1) ≤ kbdBigbufSize) :
    (typeChar c input.pending unread).1 = (input.type keys c).pending ∧
      ∃ line, (input.type keys c).lines.flatten = input.lines.flatten ++ line ∧
        (typeChar c input.pending unread).2 = unread ++ line := by
  unfold typeChar Input.type
  by_cases hnewline : c = newline
  · have hne : c ≠ backspace := by
      rw [hnewline]
      decide
    have hlen : input.pending.length ≠ kbdBufferSize := fun hfull => hroom ⟨hfull, hne⟩
    have hle := hfits hnewline hlen
    rw [if_pos hnewline, if_neg hlen, if_pos (show c = keys.newline from hnewline)]
    dsimp only
    rw [List.length_append, List.length_singleton, if_pos hle]
    refine ⟨rfl, input.pending ++ [c], ?_, rfl⟩
    rw [List.flatten_append, List.flatten_singleton]
  · rw [if_neg hnewline, if_neg (show ¬ c = keys.newline from hnewline)]
    by_cases herase : c = backspace
    · rw [if_pos herase, if_pos (show c = keys.erase from herase)]
      exact ⟨rfl, [], (List.append_nil _).symm, (List.append_nil _).symm⟩
    · rw [if_neg herase, if_neg fun hfull => hroom ⟨hfull, herase⟩,
        if_neg (show ¬ c = keys.erase from herase)]
      exact ⟨rfl, [], (List.append_nil _).symm, (List.append_nil _).symm⟩

/-- What holds in every state of a run whose lines fit. -/
structure Good (s : Log) : Prop where
  bounded : Bounded s.tty
  delivers : Delivers s

variable {log : Log}

/-- **The step.** -/
theorem Good.char (h : Good log) (hcanon : log.tty.termios.icanon = true)
    (hfits : log.tty.LineFits c) (echo : Bool) : Good (log.char echo c) := by
  obtain ⟨hbounded, htermios, hpending, hunread⟩ := addToBufChar_shows h.bounded hcanon c echo
  obtain ⟨hlines, hrest⟩ := h.delivers
  unfold Tty.LineFits at hfits
  refine ⟨hbounded, ?_⟩
  unfold Log.char
  rw [← length_pending, ← length_unread] at hfits
  generalize log.tty.termios.translate c = c at *
  by_cases hdrop : log.tty.drops c
  · rw [if_pos hdrop]
    rw [typeChar_dropped ((length_pending _).trans hdrop.1) hdrop.2] at hpending hunread
    exact ⟨by rw [hunread]; exact hlines, by rw [hpending]; exact hrest⟩
  · rw [if_neg hdrop]
    unfold Tty.drops at hdrop
    rw [← length_pending] at hdrop
    rw [hrest] at hpending hunread hdrop hfits
    obtain ⟨htyped, line, hflat, hread⟩ := typeChar_taken hdrop hfits
    refine ⟨?_, ?_⟩
    · dsimp only
      rw [hunread, hread, typed_concat, hflat, ← hlines, List.append_assoc]
    · dsimp only
      rw [hpending, htyped, typed_concat]

theorem char_termios (h : Bounded log.tty) (hcanon : log.tty.termios.icanon = true) (echo : Bool)
    (c : Byte) : (log.char echo c).tty.termios = log.tty.termios :=
  (addToBufChar_shows h hcanon c echo).termios

theorem Good.chars (echo : Bool) : ∀ {ptr : List Byte} {log : Log}, Good log →
    log.tty.termios.icanon = true → LinesFit echo ptr log.tty →
    Good (ptr.foldl (fun s c => s.char echo c) log)
  | [], _, h, _, _ => h
  | c :: ptr, log, h, hcanon, ⟨hfits, hrest⟩ => by
    have hcanon' : (log.char echo c).tty.termios.icanon = true := by
      rw [char_termios h.bounded hcanon]
      exact hcanon
    rw [List.foldl_cons]
    exact Good.chars echo (h.char hcanon hfits echo) hcanon' hrest

theorem Good.read (h : Good log) (locked interrupted : Bool) (count : Nat) :
    Good (next log (.read locked interrupted count)) := by
  unfold next ttyRead
  dsimp only
  split
  · have hnone : (if interrupted then Result.error .eintr else .wait).data = [] := by
      cases interrupted <;> rfl
    refine ⟨h.bounded, ⟨?_, h.delivers.pending⟩⟩
    dsimp only
    rw [hnone, List.append_nil]
    exact h.delivers.lines
  · obtain ⟨hbuf, hunread, hpending, -, hi, hle⟩ := readLoop_spec count log.tty
    refine ⟨⟨?_, Nat.le_trans hle h.bounded.bigbuf⟩, ⟨?_, hpending.trans h.delivers.pending⟩⟩
    · dsimp only
      rw [hi]
      exact h.bounded.buffer
    · dsimp only [Result.data]
      rw [hbuf, hunread, List.append_assoc, List.take_append_drop]
      exact h.delivers.lines

/-- After `console_init`. -/
def start : Log := ⟨consoleInit, [], []⟩

/-- **A terminal delivers the lines that are typed**, as long as they fit. -/
theorem tty_delivers (h : Reach (fun s call s' => next s call = s')
    (fun s call => Call.canonical s call ∧ Call.fits s call) start log) : Delivers log := by
  refine (h.invariant (I := Good) ?_ ?_).delivers
  · exact ⟨⟨by decide, by decide⟩, ⟨rfl, rfl⟩⟩
  · rintro s call _ hs ⟨hcanon, hfits⟩ rfl
    cases call with
    | addToBuf ptr echo =>
      rw [next_addToBuf]
      exact hs.chars echo hcanon hfits
    | read locked interrupted count => exact hs.read locked interrupted count
    | tcsets t =>
      exact ⟨⟨hs.bounded.buffer, hs.bounded.bigbuf⟩, ⟨hs.delivers.lines, hs.delivers.pending⟩⟩

/-- Two letters, a backspace, a letter and a newline are read as a line of two letters. -/
theorem tty_delivers_sample :
    (next (next start (.addToBuf [0x61, 0x62, backspace, 0x63, newline] true))
      (.read false false 80)).out = [0x61, 0x63, newline] ∧
    Delivers (next (next start (.addToBuf [0x61, 0x62, backspace, 0x63, newline] true))
      (.read false false 80)) := by
  have hfits : LinesFit true [0x61, 0x62, backspace, 0x63, newline] start.tty :=
    ⟨by decide, by decide, by decide, by decide, by decide, trivial⟩
  refine ⟨by decide, tty_delivers ?_⟩
  exact (Reach.refl.tail (a := .addToBuf [0x61, 0x62, backspace, 0x63, newline] true)
    ⟨rfl, hfits⟩ rfl).tail (a := .read false false 80) ⟨trivial, trivial⟩ rfl

/-! ## A line that does not fit -/

/-- The lists of a log, with the flags of `console_init`. -/
structure At (log : Log) (lists : List Byte × List Byte) (typed out : List Byte) : Prop where
  shows : Shows log.tty ⟨true, true, true⟩ lists
  typed : log.typed = typed
  out : log.out = out

variable {lists : List Byte × List Byte} {typed out : List Byte}

theorem At.char (h : At log lists typed out) (hroom : lists.1.length ≠ kbdBufferSize) (c : Byte) :
    At (log.char true c) (typeChar c lists.1 lists.2) (typed ++ [c]) out := by
  have htranslate : log.tty.termios.translate c = c := by
    rw [h.shows.termios]
    exact if_neg fun hboth => Bool.false_ne_true hboth.2
  have hcanon : log.tty.termios.icanon = true := by rw [h.shows.termios]
  have hshows := addToBufChar_shows h.shows.bounded hcanon c true
  rw [htranslate, h.shows.termios, h.shows.pending, h.shows.unread] at hshows
  refine ⟨hshows, ?_, h.out⟩
  unfold Log.char
  dsimp only
  rw [htranslate, if_neg, h.typed]
  rintro ⟨hfull, -⟩
  rw [← length_pending, h.shows.pending] at hfull
  exact hroom hfull

theorem At.read (h : At log lists typed out) (hne : lists.2 ≠ []) :
    At (next log (.read false false lists.2.length)) (lists.1, []) typed (out ++ lists.2) := by
  have hi : log.tty.kbdBigbufI ≠ 0 := by
    rw [← length_unread, h.shows.unread]
    exact fun hzero => hne (List.length_eq_zero_iff.mp hzero)
  obtain ⟨hbuf, hunread, hpending, htermios, hbuffer, hle⟩ :=
    readLoop_spec lists.2.length log.tty
  rw [h.shows.unread] at hbuf hunread
  dsimp only [next, ttyRead]
  rw [if_neg (by simp [hi])]
  refine ⟨⟨⟨?_, Nat.le_trans hle h.shows.bounded.bigbuf⟩, htermios.trans h.shows.termios,
    hpending.trans h.shows.pending, ?_⟩, h.typed, ?_⟩
  · dsimp only
    rw [hbuffer]
    exact h.shows.bounded.buffer
  · dsimp only
    rw [hunread, List.drop_length]
  · dsimp only [Result.data]
    rw [hbuf, List.take_length, h.out]

theorem At.newlines : ∀ {n : Nat} {log : Log} {unread typed : List Byte},
    At log ([], unread) typed out → unread.length + n ≤ kbdBigbufSize →
    At ((List.replicate n newline).foldl (fun s c => s.char true c) log)
      ([], unread ++ List.replicate n newline) (typed ++ List.replicate n newline) out
  | 0, _, unread, typed, h, _ => by
    rw [List.replicate_zero, List.append_nil, List.append_nil]
    exact h
  | n + 1, log, unread, typed, h, hle => by
    have hstep := h.char (show 0 ≠ kbdBufferSize by decide) newline
    have hline : typeChar newline [] unread = ([], unread ++ [newline]) := by
      unfold typeChar
      rw [if_pos rfl, if_neg (by decide)]
      dsimp only
      rw [List.nil_append, if_pos (by rw [List.length_singleton]; omega)]
    rw [hline] at hstep
    have hrest := At.newlines (n := n) hstep (by
      rw [List.length_append, List.length_singleton]
      omega)
    rw [List.append_assoc, List.append_assoc] at hrest
    exact hrest

theorem At.canonical (h : At log lists typed out) (call : Call) : call.canonical log := by
  cases call with
  | addToBuf ptr echo =>
    dsimp only [Call.canonical]
    rw [h.shows.termios]
  | read => trivial
  | tcsets => trivial

/-- The large buffer has room for one character, and a line of three is typed. The first one is
copied, and it is copied again with the next newline. -/
theorem exists_crowded : ∃ log,
    Reach (fun s call s' => next s call = s') Call.canonical start log ∧
      At log ([], []) (List.replicate 4095 newline ++ [0x61] ++ [0x62] ++ [newline] ++ [newline])
        (List.replicate 4095 newline ++ [0x61] ++ [0x61, 0x62, newline, newline]) := by
  have h₀ : At start ([], []) [] [] := ⟨⟨⟨by decide, by decide⟩, rfl, rfl, rfl⟩, rfl, rfl⟩
  have h₁ := h₀.newlines (n := 4095) (by decide)
  have hlen := List.length_replicate (n := 4095) (a := newline)
  rw [List.nil_append, ← next_addToBuf] at h₁
  have hr₀ : Reach (fun s call s' => next s call = s') Call.canonical start start := .refl
  have hr₁ := hr₀.tail (h₀.canonical (.addToBuf (List.replicate 4095 newline) true)) rfl
  generalize List.replicate 4095 newline = lines at h₁ hlen hr₁ ⊢
  generalize next start (.addToBuf lines true) = log at h₁ hr₁
  have hcut : typeChar newline [0x61, 0x62] lines = ([0x61, 0x62, newline], lines ++ [0x61]) := by
    unfold typeChar
    rw [if_pos rfl, if_neg (by decide), hlen]
    rfl
  have h₂ := ((h₁.char (show 0 ≠ kbdBufferSize by decide) 0x61).char
    (show 1 ≠ kbdBufferSize by decide) 0x62).char (show 2 ≠ kbdBufferSize by decide) newline
  have hlists : typeChar newline (typeChar 0x62 (typeChar 0x61 [] lines).1
      (typeChar 0x61 [] lines).2).1 (typeChar 0x62 (typeChar 0x61 [] lines).1
      (typeChar 0x61 [] lines).2).2 = ([0x61, 0x62, newline], lines ++ [0x61]) := hcut
  rw [hlists] at h₂
  have hr₂ := hr₁.tail (h₁.canonical (.addToBuf [0x61, 0x62, newline] true))
    (next_addToBuf log [0x61, 0x62, newline] true)
  have h₃ := h₂.read (List.append_ne_nil_of_right_ne_nil _ (by decide))
  have hr₃ := hr₂.tail (h₂.canonical (.read false false (lines ++ [(0x61 : Byte)]).length)) rfl
  have hwhole : typeChar newline [0x61, 0x62, newline] [] =
      ([], [0x61, 0x62, newline, newline]) := by decide
  have h₄ := h₃.char (show 3 ≠ kbdBufferSize by decide) newline
  rw [hwhole] at h₄
  have hr₄ := hr₃.tail (h₃.canonical (.addToBuf [newline] true)) (next_addToBuf _ [newline] true)
  exact ⟨_, hr₄.tail (h₄.canonical (.read false false 4)) rfl, h₄.read (by decide)⟩

/-- More bytes are read than have been typed. -/
theorem tty_duplicates : ∃ log, Reach (fun s call s' => next s call = s') Call.canonical start log ∧
    log.typed.length < log.out.length := by
  obtain ⟨log, hr, hat⟩ := exists_crowded
  refine ⟨log, hr, ?_⟩
  rw [hat.typed, hat.out]
  simp only [List.length_append, List.length_replicate, List.length_cons, List.length_nil]
  omega

end Lyre.Console
