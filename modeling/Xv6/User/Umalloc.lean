import Mathlib
import Xv6.Lib.Circle
import Xv6.Lib.Outcome

/-!
# The user memory allocator

`user/umalloc.c`: the allocator of Kernighan and Ritchie (2nd ed., section 8.7).  Free
blocks form a circular list, sorted by address, through the `s.ptr` of the header at the
start of each block; `base`, a static header of size `0`, is always on it, and `freep`
points at the block where the last search ended.

Addresses here count headers (`sizeof(Header)` is `16` bytes); `0` is the null pointer.
`Heap.mem a` is the header at address `a`: only headers are read and written, so user data
is left out.  Sizes are `Nat`: a process's heap lies below `PHYSTOP - KERNBASE`, far from
`2^32` headers.  `sbrk` is the kernel's: it grows the heap at `brk` by exactly the `int` it
is passed, or refuses (`grant`).  `morecore` passes it `nu * sizeof(Header)` cut to 32 bits
(`sbrkArg`), so a request near `2^32` bytes is handed a block past the break
(`malloc_past_break`).

The two loops of the source have no bound; here they take fuel, enough for every pass
they make from a well-formed list, and return `none` when it runs out.
-/

namespace Xv6

namespace Umalloc

/-- `union header`: the next free block, and the size of this block in headers. -/
structure Header where
  ptr : Nat
  size : Nat

/-- The headers in memory, `freep`, and the program break. -/
structure Heap where
  mem : Nat → Header
  freep : Nat
  brk : Nat

/-- The header at `a` replaced by `x`. -/
def Heap.set (h : Heap) (a : Nat) (x : Header) : Heap :=
  { h with mem := Function.update h.mem a x }

@[simp] theorem Heap.set_brk (h : Heap) (a : Nat) (x : Header) : (h.set a x).brk = h.brk := rfl

@[simp] theorem Heap.set_freep (h : Heap) (a : Nat) (x : Header) : (h.set a x).freep = h.freep :=
  rfl

@[simp] theorem Heap.set_mem_self (h : Heap) (a : Nat) (x : Header) : (h.set a x).mem a = x := by
  simp [Heap.set]

@[simp] theorem Heap.set_mem_of_ne (h : Heap) {a b : Nat} (x : Header) (hb : b ≠ a) :
    (h.set a x).mem b = h.mem b := by
  simp [Heap.set, hb]

/-- The successor of a block on the free list. -/
def Heap.next (h : Heap) (p : Nat) : Nat := (h.mem p).ptr

/-! ## `free` -/

/-- The test of `free`'s loop at `p`: `bp` lies between `p` and its successor, or `p` is
the last block and `bp` lies past it or before the first. -/
def freeStop (h : Heap) (bp p : Nat) : Bool :=
  (bp > p && bp < h.next p) || (p ≥ h.next p && (bp > p || bp < h.next p))

/-- The loop of `free`: the block after which `bp` goes. -/
def freeScan (h : Heap) (bp fuel : Nat) : Option Nat :=
  Circle.walk h.next (freeStop h bp) fuel h.freep

/-- `free(ap)`: the block `bp` before `ap` put on the list after `p`, joined to its upper
neighbour if it ends where that starts, and to `p` if `p` ends where it starts. -/
def free (h : Heap) (ap : Nat) : Option Heap := do
  let bp := ap - 1
  let p ← freeScan h bp (h.brk + 2)
  let q := h.next p
  let h := if bp + (h.mem bp).size = q then h.set bp ⟨(h.mem q).ptr, (h.mem bp).size + (h.mem q).size⟩
    else h.set bp { h.mem bp with ptr := q }
  let h := if p + (h.mem p).size = bp then h.set p ⟨(h.mem bp).ptr, (h.mem p).size + (h.mem bp).size⟩
    else h.set p { h.mem p with ptr := bp }
  return { h with freep := p }

/-! ## `morecore` and `malloc` -/

/-- The `int n` that `sbrk` receives for `nu` headers: `nu * sizeof(Header)`, an `unsigned
long`, cut to 32 bits. -/
def sbrkArg (nu : Nat) : Int :=
  let x : Nat := nu * 16 % 2 ^ 32
  if x < 2 ^ 31 then x else (x : Int) - 2 ^ 32

/-- A request whose bytes fit an `int` reaches `sbrk` whole. -/
theorem sbrkArg_of_lt {nu : Nat} (h : nu * 16 < 2 ^ 31) : sbrkArg nu = nu * 16 := by
  have hx : nu * 16 % 2 ^ 32 = nu * 16 := Nat.mod_eq_of_lt (by omega)
  simp only [sbrkArg, hx, if_pos h]
  omega

/-- `morecore(nu)`: at least `4096` headers asked of `sbrk`, and the block given to `free`
with size `nu` whatever `sbrk` added; the new `freep`, or `0` when `sbrk` refuses.  A
negative `int` would shrink the heap under the header `morecore` then writes: outside the
model. -/
def morecore (h : Heap) (nu : Nat) (grant : Bool) : Option (Heap × Nat) :=
  let nu := if nu < 4096 then 4096 else nu
  if sbrkArg nu < 0 then none
  else if !grant then some (h, 0)
  else
    let hp := h.brk
    let h := ({ h with brk := h.brk + (sbrkArg nu).toNat / 16 } : Heap).set hp
      { h.mem hp with size := nu }
    (free h (hp + 1)).map fun h => (h, h.freep)

/-- `nunits`: the headers for `nbytes` bytes, and one for the header. -/
def nunitsOf (nbytes : Nat) : Nat := (nbytes + 16 - 1) / 16 + 1

/-- The loop of `malloc` for `nunits` headers, at `p` after `prevp`: the first block that
is large enough is taken whole or cut from its tail; back at `freep`, `morecore`. -/
def mallocLoop (nunits : Nat) (grant : Bool) : Nat → Heap → Nat → Nat → Option (Heap × Nat)
  | 0, _, _, _ => none
  | fuel + 1, h, prevp, p =>
    if (h.mem p).size ≥ nunits then
      if (h.mem p).size = nunits then
        some ({ h.set prevp { h.mem prevp with ptr := h.next p } with freep := prevp }, p + 1)
      else
        let h := h.set p { h.mem p with size := (h.mem p).size - nunits }
        let p := p + (h.mem p).size
        let h := h.set p { h.mem p with size := nunits }
        some ({ h with freep := prevp }, p + 1)
    else if p = h.freep then
      match morecore h nunits grant with
      | none => none
      | some (h, 0) => some (h, 0)
      | some (h, p) => mallocLoop nunits grant fuel h p (h.next p)
    else mallocLoop nunits grant fuel h p (h.next p)

/-- `malloc(nbytes)`, with `base` the address of the static header `base`: the first call
makes the list `base` alone. -/
def malloc (base : Nat) (h : Heap) (nbytes : Nat) (grant : Bool) : Option (Heap × Nat) :=
  let h := if h.freep = 0 then { h.set base ⟨base, 0⟩ with freep := base } else h
  mallocLoop (nunitsOf nbytes) grant (2 * h.brk + 4) h h.freep (h.next h.freep)

/-- `malloc(0xFFFFFFFF)` needs `2^28 + 1` headers, whose `4 GiB + 16` bytes reach `sbrk` as
the `int` `16`: the first call grows the heap from the break at `2` by one header, yet
records a block of `2^28 + 1` headers there and hands it out at `3`, the new break. -/
theorem malloc_past_break :
    sbrkArg (nunitsOf 0xFFFFFFFF) = 16 ∧ nunitsOf 0xFFFFFFFF = 2 ^ 28 + 1 ∧
    ∃ h', malloc 1 ⟨fun _ => ⟨0, 0⟩, 0, 2⟩ 0xFFFFFFFF true = some (h', 3) ∧ h'.brk = 3 ∧
      (h'.mem 2).size = 2 ^ 28 + 1 := by
  -- the call is computed once, by the kernel
  have h : (malloc 1 ⟨fun _ => ⟨0, 0⟩, 0, 2⟩ 0xFFFFFFFF true).map
      (fun r => (r.2, r.1.brk, (r.1.mem 2).size)) = some (3, 3, 2 ^ 28 + 1) := by
    decide +kernel
  obtain ⟨⟨h', r⟩, hm, hr⟩ := Option.map_eq_some_iff.1 h
  simp only [Prod.mk.injEq] at hr
  obtain ⟨rfl, hb, hs⟩ := hr
  exact ⟨by decide, by decide, h', hm, hb, hs⟩

/-! ## Runs -/

/-- A program's calls: `malloc(nbytes)`, with whether the kernel grants the `sbrk` it may
make, and `free(ap)`. -/
inductive UCall where
  | malloc (nbytes : UInt32) (grant : Bool)
  | free (ap : Nat)

/-- The heap, and the blocks `malloc` returned that were not freed since: the address of
each block's header and its size. -/
structure Alloc where
  heap : Heap
  live : List (Nat × Nat)

/-- One call.  A request whose `nunits * sizeof(Header)` reaches `2^31`, and a `free` of a
pointer that is not live, are outside the program's use of the allocator (`none`); a loop
that would not end is an error. -/
def step (base : Nat) (s : Alloc) : UCall → Option (Except String Alloc)
  | .malloc n grant =>
    if 2 ^ 31 ≤ nunitsOf n.toNat * 16 then none
    else match malloc base s.heap n.toNat grant with
      | none => some (.error "malloc does not return")
      | some (h, 0) => some (.ok { s with heap := h })
      | some (h, r) => some (.ok ⟨h, (r - 1, nunitsOf n.toNat) :: s.live⟩)
  | .free ap =>
    match s.live.find? (·.1 == ap - 1) with
    | none => none
    | some b =>
      match free s.heap ap with
      | none => some (.error "free does not return")
      | some h => some (.ok ⟨h, s.live.erase b⟩)

/-- The process before its first call: no free list, the break at `brk0`. -/
def init (mem : Nat → Header) (brk0 : Nat) : Alloc := ⟨⟨mem, 0, brk0⟩, []⟩

/-- A program's calls in order: the state after the last, or the first error; `none` when
a call is outside the allocator's use. -/
def exec (base : Nat) (s : Alloc) : List UCall → Option (Except String Alloc)
  | [] => some (.ok s)
  | c :: cs =>
    match step base s c with
    | some (.ok s') => exec base s' cs
    | r => r

end Umalloc

end Xv6
