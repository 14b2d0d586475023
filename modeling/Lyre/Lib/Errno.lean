import Mathlib.Tactic.Common

/-! # `lib/errno.k.h`: the error numbers the modelled functions set -/

namespace Lyre

inductive Errno
  | echild
  | eagain
  | ealready
  | ebadf
  | ebusy
  | econnreset
  | eexist
  | einval
  | eintr
  | eisdir
  | eisconn
  | enetunreach
  | enobufs
  | enodev
  | enoent
  | enoexec
  | enomem
  | enotconn
  | enotdir
  | eloop
  | epipe
  | erange
  | espipe
  | etimedout
  | ewouldblock
  | exdev
  deriving DecidableEq, Repr

end Lyre
