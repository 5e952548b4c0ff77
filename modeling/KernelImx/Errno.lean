/-
**The error codes of the modelled functions.**

The source returns them negated (`-EINVAL`); here they are the `error` side of an `Except`.
-/

import Mathlib.Tactic.Ring

namespace KernelImx

/-- `include/asm-generic/errno-base.h` and `errno.h`, as far as the modelled functions use them. -/
inductive Errno
  | eperm
  | enoent
  | eintr
  | eio
  | e2big
  | ebadf
  | eagain
  | enomem
  | eacces
  | efault
  | einval
  | efbig
  | enospc
  | erange
  | edeadlk
  | enolck
  | eloop
  | etimedout
  | enobufs
  | eoverflow
  | eexist
  deriving DecidableEq, Repr

end KernelImx
