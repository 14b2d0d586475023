import Lyre.Fs.Tmpfs

/-!
# Reading and writing in `dev/video/fbdev.c`

The framebuffer is a function of the offset; what lies behind `smem_len` is other memory. The buffer
of a caller is a function too, since `fbdev_write` may take more from it than there is.
-/

namespace Lyre.Fbdev

open Infra.Ring Tmpfs

/-- `struct framebuffer_device`. -/
structure FramebufferDevice where
  address : Nat → Byte
  smemLen : BitVec 32

/-- The number of bytes that both functions transfer. -/
def actualCount (this : FramebufferDevice) (offset count : Nat) : Nat :=
  if this.smemLen.toNat < u64 (offset + count) then
    (BitVec.ofNat 64 count -
      (BitVec.ofNat 64 (offset + count) - BitVec.ofNat 64 this.smemLen.toNat)).toNat
  else count

/-- The bytes that are copied to the buffer, and the number that is returned. -/
def fbdevRead (this : FramebufferDevice) (offset count : Nat) : List Byte × Int :=
  if count = 0 then ([], 0)
  else
    (slice this.address offset (actualCount this offset count), offT (actualCount this offset count))

/-- The device afterwards, and the number that is returned. -/
def fbdevWrite (this : FramebufferDevice) (buf : Nat → Byte) (offset count : Nat) :
    FramebufferDevice × Int :=
  if count = 0 then (this, 0)
  else
    let actual := actualCount this offset count
    ({ this with address := blit this.address offset (slice buf 0 actual) }, offT actual)

end Lyre.Fbdev
