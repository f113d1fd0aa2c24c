import Xv6.Lib.Move

/-!
# `memmove`

The two `memmove`s of the repository: the kernel's in `kernel/string.c` and the user
library's in `user/ulib.c`.  A pointer is an offset into one byte memory `Nat → UInt8`,
which the pointer comparisons and sums of both compare without wrapping; each returns
`dst`, so only the memory it leaves is modelled.

They pick their loop by different tests: the kernel copies down only when the destination
starts inside the source above its start, the user library whenever the source does not lie
above the destination.  Either way the loop taken is one that `Move` proves moves the
block, so both leave the destination equal to the old source and every other byte as it
was, for every overlap (`memmove_moves`).
-/

namespace Xv6

open Move

/-- `memmove(dst, src, n)` of `kernel/string.c`. -/
def memmove (m : Nat → UInt8) (dst src : Nat) (n : UInt32) : Nat → UInt8 :=
  if n = 0 then m
  else if src < dst ∧ src + n.toNat > dst then copyDown m dst src n.toNat
  else copyUp m dst src n.toNat

namespace Ulib

/-- `memmove(vdst, vsrc, n)` of `user/ulib.c`: for `n ≤ 0` neither loop runs. -/
def memmove (m : Nat → UInt8) (vdst vsrc : Nat) (n : Int32) : Nat → UInt8 :=
  if vsrc > vdst then copyUp m vdst vsrc n.toInt.toNat
  else copyDown m vdst vsrc n.toInt.toNat

end Ulib

/-- Both `memmove`s move the block for every memory, pointers and length, whichever way
the two ranges overlap; the user library's moves `max n 0` bytes. -/
theorem memmove_moves :
    (∀ (m : Nat → UInt8) (dst src : Nat) (n : UInt32),
      Moved m (memmove m dst src n) dst src n.toNat) ∧
    ∀ (m : Nat → UInt8) (dst src : Nat) (n : Int32),
      Moved m (Ulib.memmove m dst src n) dst src n.toInt.toNat := by
  constructor
  · intro m dst src n
    unfold memmove
    by_cases h0 : n = 0
    · rw [if_pos h0, h0]
      exact Moved.zero m dst src
    · rw [if_neg h0]
      by_cases hover : src < dst ∧ src + n.toNat > dst
      · -- the destination starts inside the source, above it: the loop that copies down
        rw [if_pos hover]
        exact copyDown_moved m (.inl (Nat.le_of_lt hover.1))
      · rw [if_neg hover]
        exact copyUp_moved m (by omega)
  · intro m dst src n
    unfold Ulib.memmove
    by_cases hup : src > dst
    · rw [if_pos hup]
      exact copyUp_moved m (.inl (Nat.le_of_lt hup))
    · rw [if_neg hup]
      exact copyDown_moved m (.inl (Nat.le_of_not_lt hup))

/-- Three bytes moved up by two, onto themselves: the kernel copies down. -/
example : (List.range 6).map (memmove (fun a => a.toUInt8) 2 0 3) = [0, 1, 0, 1, 2, 5] := by
  decide

/-- The same move in the user library, and one down by two, which it copies up. -/
example : (List.range 6).map (Ulib.memmove (fun a => a.toUInt8) 2 0 3) = [0, 1, 0, 1, 2, 5] ∧
    (List.range 6).map (Ulib.memmove (fun a => a.toUInt8) 0 2 3) = [2, 3, 4, 3, 4, 5] := by
  decide

end Xv6
