import Xv6.Vm.Refine

/-!
# Growing, shrinking and freeing a user address space

`uvmalloc`, `uvmdealloc`, `uvmfree` and `uvmclear` of `kernel/vm.c` (lines 223-346), and
`proc_pagetable` and `proc_freepagetable` of `kernel/proc.c` (lines 176-216), over the
range operations of `Xv6.Vm.Map` and the `freewalk` of `Xv6.Vm.Free`.

The loop of `uvmalloc` takes a page from the free list on each pass but its last, so it is
given one pass more than the list has pages.  `freewalk` recurses through every valid entry
without `R`, `W` or `X`; on a well-formed tree that is three levels, and a table found below
the level-0 tables is taken here as a panic.
-/

namespace Xv6

/-- `TRAMPOLINE`: the highest page below `MAXVA`. -/
def TRAMPOLINE : UInt64 := MAXVA - PGSIZE

/-- `TRAPFRAME`: the page below `TRAMPOLINE`. -/
def TRAPFRAME : UInt64 := TRAMPOLINE - PGSIZE

/-- `PGROUNDUP`. -/
def PGROUNDUP (sz : UInt64) : UInt64 := (sz + PGSIZE - 1) &&& ~~~(PGSIZE - 1)

/-- `uvmdealloc`: the pages from `PGROUNDUP(newsz)` to `PGROUNDUP(oldsz)` unmapped and
freed.  Their number goes through `int npages` on its way to `uvmunmap`. -/
def uvmdealloc (s : VM) (pt oldsz newsz : UInt64) : Except String (VM × UInt64) :=
  if newsz ≥ oldsz then .ok (s, oldsz)
  else if PGROUNDUP newsz < PGROUNDUP oldsz then
    let npages := ((PGROUNDUP oldsz - PGROUNDUP newsz) / PGSIZE).toUInt32.toInt32.toInt64.toUInt64
    (uvmunmap s pt (PGROUNDUP newsz) npages true).map fun s => (s, newsz)
  else .ok (s, newsz)

/-- The loop of `uvmalloc` from page `a` while `a < newsz`, each page zeroed and mapped
with `PTE_R | PTE_U | xperm`; on a failure the pages from `oldsz` up to `a` go again. -/
def uvmallocLoop (pt oldsz newsz xperm : UInt64) : Nat → VM → UInt64 → Except String (VM × UInt64)
  | 0, _, _ => .error "uvmalloc: fuel"
  | fuel + 1, s, a =>
    if a < newsz then
      match kalloc s with
      | none => (uvmdealloc s pt a oldsz).map fun r => (r.1, 0)
      | some (mem, s) =>
        match mappages (s.fill mem 0) pt a PGSIZE mem (PTE_R ||| PTE_U ||| xperm) with
        | .error e => .error e
        | .ok (s, r) =>
          if r ≠ 0 then
            match kfree s mem with
            | .error e => .error e
            | .ok s => (uvmdealloc s pt a oldsz).map fun r => (r.1, 0)
          else uvmallocLoop pt oldsz newsz xperm fuel s (a + PGSIZE)
    else .ok (s, newsz)

/-- `uvmalloc`: the new size, or `0` when memory ran out. -/
def uvmalloc (s : VM) (pt oldsz newsz xperm : UInt64) : Except String (VM × UInt64) :=
  if newsz < oldsz then .ok (s, oldsz)
  else uvmallocLoop pt (PGROUNDUP oldsz) newsz xperm (s.freelist.length + 1) s (PGROUNDUP oldsz)

/-- `uvmfree`: the user pages below `PGROUNDUP(sz)` unmapped and freed, then the tables. -/
def uvmfree (s : VM) (pt sz : UInt64) : Except String VM :=
  match (if sz > 0 then uvmunmap s pt 0 (PGROUNDUP sz / PGSIZE) true else .ok s) with
  | .error e => .error e
  | .ok s => (freewalk 3 s pt).getD (.error "freewalk: depth")

/-- `uvmclear`: `PTE_U` cleared in the PTE of `va`. -/
def uvmclear (s : VM) (pt va : UInt64) : Except String VM :=
  match walk s pt va false with
  | .error e => .error e
  | .ok (_, none) => .error "uvmclear"
  | .ok (s, some (t, i)) => .ok (s.write t i (s.mem t i &&& ~~~PTE_U))

/-- `proc_pagetable`, with the trampoline's and the trapframe's pages: a table that maps
only `TRAMPOLINE` and `TRAPFRAME`, or `0`. -/
def procPagetable (s : VM) (trampoline trapframe : UInt64) : Except String (VM × UInt64) :=
  match uvmcreate s with
  | (s, pt) =>
    if pt = 0 then .ok (s, 0)
    else
      match mappages s pt TRAMPOLINE PGSIZE trampoline (PTE_R ||| PTE_X) with
      | .error e => .error e
      | .ok (s, r) =>
        if r < 0 then (uvmfree s pt 0).map fun s => (s, 0)
        else
          match mappages s pt TRAPFRAME PGSIZE trapframe (PTE_R ||| PTE_W) with
          | .error e => .error e
          | .ok (s, r) =>
            if r < 0 then
              match uvmunmap s pt TRAMPOLINE 1 false with
              | .error e => .error e
              | .ok s => (uvmfree s pt 0).map fun s => (s, 0)
            else .ok (s, pt)

/-- `proc_freepagetable`. -/
def procFreepagetable (s : VM) (pt sz : UInt64) : Except String VM :=
  match uvmunmap s pt TRAMPOLINE 1 false with
  | .error e => .error e
  | .ok s =>
    match uvmunmap s pt TRAPFRAME 1 false with
    | .error e => .error e
    | .ok s => uvmfree s pt sz

end Xv6
