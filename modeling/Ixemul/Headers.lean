/-
# Ixemul.Headers — what several parts of the library take from the same headers.

The error numbers of sys/errno.h that the calls set, the white space of ctype.h, the number of signals of
sys/signal.h, and the arithmetic of an `int` or `long`, which has 32 bits and wraps.
-/
import Mathlib.Data.BitVec

namespace Ixemul

inductive Errno where
  | eperm | enoent | esrch | eintr | e2big | ebadf | enomem | eexist | einval | efbig | enospc | eagain
  deriving DecidableEq, Repr

def Errno.code : Errno → Int
  | eperm => 1
  | enoent => 2
  | esrch => 3
  | eintr => 4
  | e2big => 7
  | ebadf => 9
  | enomem => 12
  | eexist => 17
  | einval => 22
  | efbig => 27
  | enospc => 28
  | eagain => 35

theorem Errno.code_pos (e : Errno) : 0 < e.code := by
  cases e <;> decide

/-- `_S` of the table in ctype_.c, below 128. -/
def isspace (c : Char) : Bool := c ∈ ['\t', '\n', '\x0b', '\x0c', '\r', ' ']

/-- NSIG -/
def nsig : Nat := 33

/-- What is left of a number in 32 bits. -/
def long (x : Int) : Int := x.bmod (2 ^ 32)

end Ixemul
