import Lyre.Lib.Errno
import Mathlib.Logic.Function.Basic

/-!
# `dev/char/console.c`: the keyboard and its readers

`kbd_buffer` holds the line that is typed, and `kbd_bigbuf` what can be read. Both are arrays of
which the first elements are used. The characters come from `keyboard_handler`, which gives one or
a few of them to `add_to_buf`.

`add_to_buf` and `tty_read` hold `read_lock`, so that each of them is one step; a reader that finds
nothing releases it and waits. What is echoed is the text that is given to `tty_write`.
-/

namespace Lyre.Console

abbrev Byte := BitVec 8

/-- `KBD_BUFFER_SIZE` and `KBD_BIGBUF_SIZE`. -/
def kbdBufferSize : Nat := 1024
def kbdBigbufSize : Nat := 4096

/-- `'\n'`, `'\r'` and `'\b'`. -/
def newline : Byte := 0x0a
def carriageReturn : Byte := 0x0d
def backspace : Byte := 0x08

/-- The flags of `struct termios` that are looked at. -/
structure Termios where
  icrnl : Bool
  icanon : Bool
  echo : Bool
  deriving DecidableEq, Repr

structure Tty where
  kbdBuffer : Nat → Byte
  kbdBufferI : Nat
  kbdBigbuf : Nat → Byte
  kbdBigbufI : Nat
  /-- `POLLIN` of `status`. -/
  pollin : Bool
  termios : Termios

/-- After `console_init`. -/
def consoleInit : Tty := ⟨fun _ => 0, 0, fun _ => 0, 0, false, ⟨true, true, true⟩⟩

/-! ## `add_to_buf` -/

/-- `kbd_buffer[kbd_buffer_i++] = c`. -/
def Tty.push (s : Tty) (c : Byte) : Tty :=
  { s with
    kbdBuffer := Function.update s.kbdBuffer s.kbdBufferI c
    kbdBufferI := s.kbdBufferI + 1 }

/-- `kbd_bigbuf[kbd_bigbuf_i++] = c`. -/
def Tty.pushBig (s : Tty) (c : Byte) : Tty :=
  { s with
    kbdBigbuf := Function.update s.kbdBigbuf s.kbdBigbufI c
    kbdBigbufI := s.kbdBigbufI + 1 }

/-- The loop that copies the line, for `k` characters from index `i` on. The flag is false if it is
left with the large buffer full. -/
def copyLoop : Nat → Nat → Tty → Bool × Tty
  | 0, _, s => (true, s)
  | k + 1, i, s =>
    let s := { s with pollin := true }
    if s.kbdBigbufI = kbdBigbufSize then (false, s)
    else copyLoop k (i + 1) (s.pushBig (s.kbdBuffer i))

def isPrintable (c : Byte) : Bool := 0x20 ≤ c && c ≤ 0x7e

/-- The character is written with a caret. -/
def isControl (c : Byte) : Bool := 0x01 ≤ c && c ≤ 0x1a

/-- What is echoed of a character that is stored. -/
def echoed (c : Byte) : List Byte :=
  if isPrintable c then [c] else if isControl c then [0x5e, c + 0x40] else []

/-- The character that is meant. -/
def Termios.translate (t : Termios) (c : Byte) : Byte :=
  if c = newline ∧ !t.icrnl then carriageReturn else c

/-- `add_to_buf_char`, with what is echoed. -/
def addToBufChar (s : Tty) (c : Byte) (echo : Bool) : Tty × List Byte :=
  let c := s.termios.translate c
  let echo := echo && s.termios.echo
  if s.termios.icanon then
    if c = newline then
      if s.kbdBufferI = kbdBufferSize then (s, [])
      else
        let s := s.push c
        match copyLoop s.kbdBufferI 0 s with
        | (true, s) => ({ s with kbdBufferI := 0 }, if echo then [newline] else [])
        -- the line stays in the buffer
        | (false, s) => (s, if echo then [newline] else [])
    else if c = backspace then
      if s.kbdBufferI = 0 then (s, [])
      else
        let i := s.kbdBufferI - 1
        let toBackspace := if isControl (s.kbdBuffer i) then 2 else 1
        ({ s with kbdBufferI := i, kbdBuffer := Function.update s.kbdBuffer i 0 },
          if echo then (List.replicate toBackspace [backspace, 0x20, backspace]).flatten else [])
    else if s.kbdBufferI = kbdBufferSize then (s, [])
    else (s.push c, if echo then echoed c else [])
  else
    let s := { s with pollin := true }
    if s.kbdBigbufI = kbdBigbufSize then (s, [])
    else (s.pushBig c, if echo then echoed c else [])

/-- `add_to_buf`. Nothing is done for `ISIG`. -/
def addToBuf (echo : Bool) : List Byte → Tty → Tty × List Byte
  | [], s => (s, [])
  | c :: ptr, s =>
    let (s, text) := addToBufChar s c echo
    let (s, texts) := addToBuf echo ptr s
    (s, text ++ texts)

/-! ## `tty_read` -/

/-- The first character is taken out, and the others move down. -/
def Tty.pop (s : Tty) : Tty :=
  let i := s.kbdBigbufI - 1
  { s with
    kbdBigbufI := i
    kbdBigbuf := fun j => if j < i then s.kbdBigbuf (j + 1) else s.kbdBigbuf j
    pollin := s.pollin && i ≠ 0 }

/-- The loop of `tty_read`, once it does not wait any more: up to `count` characters. -/
def readLoop : Nat → Tty → List Byte × Tty
  | 0, s => ([], s)
  | count + 1, s =>
    if s.kbdBigbufI ≠ 0 then
      let (buf, t) := readLoop count s.pop
      (s.kbdBigbuf 0 :: buf, t)
    else ([], s)

inductive Result where
  | bytes (buf : List Byte)
  | error (errno : Errno)
  /-- The thread waits for `console_event`, and tries again. -/
  | wait
  deriving DecidableEq, Repr

/-- `locked` says that another thread holds `read_lock`, and `interrupted` that `event_await`
fails. -/
def ttyRead (s : Tty) (locked interrupted : Bool) (count : Nat) : Result × Tty :=
  if locked ∨ (count ≠ 0 ∧ s.kbdBigbufI = 0) then (if interrupted then .error .eintr else .wait, s)
  else
    let (buf, s) := readLoop count s
    (.bytes buf, s)

/-- `TCSETS`. -/
def tcsets (s : Tty) (t : Termios) : Tty := { s with termios := t }

end Lyre.Console
