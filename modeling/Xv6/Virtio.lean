import Xv6.Lib.Ring
import Xv6.Lib.Outcome
import Xv6.Param
import Mathlib.Data.Fintype.Card
import Mathlib.Data.List.Infix

/-!
# The virtio disk driver

`kernel/virtio_disk.c`: the descriptors, `alloc_desc`, `free_desc`, `free_chain`,
`alloc3_desc`, `virtio_disk_rw` and `virtio_disk_intr`, over `struct disk`.

A descriptor's `addr` is one of the places the driver points the device at: a request
header in `disk.ops`, a buffer's data, or the status byte of an entry of `disk.info`.  The
avail and used rings are read and written at running 16-bit counters modulo `NUM`
(`Xv6.Lib.Ring`).

`virtio_disk_rw` holds `vdisk_lock` except while it sleeps: once when `alloc3_desc` fails
(it tries again when woken), and once after it has put its request in the avail ring, until
`virtio_disk_intr` clears `b->disk`.  So a call is two steps: the submission (`rw`), and
after the wakeup the freeing of its chain (`finish`).  The interrupt handler is one step.
The device is two more: it reads the next head from the avail ring (`fetch`), and reports a
chain it has read, in any order, by writing its status byte and a used-ring entry
(`complete`).  The contents of the blocks, and the device's other reads, are left out.

`VSys.Inv` is the bookkeeping: the free descriptors and the three descriptors of each
request in flight partition the `NUM` descriptors; each request's chain is formatted
head → data → status; `info` of each head names the request's buffer; and the avail and
used rings between their counters hold the heads the device has yet to read and the driver
has yet to see.
-/

namespace Xv6

open Ring

namespace Virtio

/-- `NUM`: the number of descriptors. -/
def NUM : Nat := 8

instance : NeZero NUM := ⟨by decide⟩

theorem NUM_eq : NUM = 8 := rfl

/-- `VRING_DESC_F_NEXT`: chained with another descriptor. -/
def VRING_DESC_F_NEXT : UInt16 := 1

/-- `VRING_DESC_F_WRITE`: the device writes the buffer. -/
def VRING_DESC_F_WRITE : UInt16 := 2

/-- `VIRTIO_BLK_T_IN`: read the disk. -/
def VIRTIO_BLK_T_IN : UInt32 := 0

/-- `VIRTIO_BLK_T_OUT`: write the disk. -/
def VIRTIO_BLK_T_OUT : UInt32 := 1

/-- What a descriptor's `addr` points at. -/
inductive Addr where
  | null
  /-- `&disk.ops[i]` -/
  | op (i : Fin NUM)
  /-- `b->data` of buffer `b` -/
  | data (b : Nat)
  /-- `&disk.info[i].status` -/
  | status (i : Fin NUM)
  deriving DecidableEq

/-- `struct virtq_desc`. -/
structure Desc where
  addr : Addr
  len : UInt32
  flags : UInt16
  next : UInt16
  deriving DecidableEq

/-- A descriptor as `memset` and `free_desc` leave it. -/
def Desc.zero : Desc := ⟨.null, 0, 0, 0⟩

/-- `struct virtio_blk_req`. -/
structure BlkReq where
  type : UInt32
  reserved : UInt32
  sector : UInt64

/-- An entry of `disk.info`: the buffer of the request whose chain starts here (`none` for
a null pointer), and the status byte the device writes. -/
structure Info where
  b : Option Nat
  status : UInt8

/-- `struct virtq_avail`, less its flags. -/
structure Avail where
  idx : UInt16
  ring : Fin NUM → UInt16

/-- `struct virtq_used`, less its flags and each element's `len`. -/
structure Used where
  idx : UInt16
  ring : Fin NUM → UInt32

/-- `struct disk`, less its lock. -/
structure VDisk where
  desc : Fin NUM → Desc
  avail : Avail
  used : Used
  free : Fin NUM → Bool
  usedIdx : UInt16
  info : Fin NUM → Info
  ops : Fin NUM → BlkReq

/-- The ring slot of a counter value. -/
def slot (i : UInt16) : Fin NUM := Ring.slot NUM i.toNat

/-- The descriptor number `i` as the rings and `next` hold it. -/
def toU16 (i : Fin NUM) : UInt16 := i.val.toUInt16

/-- `disk` after `virtio_disk_init`: all zero, and every descriptor free. -/
def VDisk.init : VDisk where
  desc _ := Desc.zero
  avail := ⟨0, fun _ => 0⟩
  used := ⟨0, fun _ => 0⟩
  free _ := true
  usedIdx := 0
  info _ := ⟨none, 0⟩
  ops _ := ⟨0, 0, 0⟩

namespace VDisk

variable (d : VDisk)

/-- `alloc_desc`: the first free descriptor, marked not free. -/
def allocDesc : VDisk × Option (Fin NUM) :=
  match (List.finRange NUM).find? d.free with
  | some i => ({ d with free := Function.update d.free i false }, some i)
  | none => (d, none)

/-- `free_desc`. -/
def freeDesc (i : Nat) : Except String VDisk :=
  if h : i < NUM then
    if d.free ⟨i, h⟩ then .error "free_desc 2"
    else .ok { d with desc := Function.update d.desc ⟨i, h⟩ Desc.zero,
                      free := Function.update d.free ⟨i, h⟩ true }
  else .error "free_desc 1"

/-- The loop of `alloc3_desc` with `k` descriptors left to allocate after `got`; when one
cannot be had, those in `got` are freed again. -/
def alloc3Loop : Nat → VDisk → List (Fin NUM) → Except String (VDisk × Option (List (Fin NUM)))
  | 0, d, got => .ok (d, some got)
  | k + 1, d, got =>
    match d.allocDesc with
    | (d, some i) => alloc3Loop k d (got ++ [i])
    | (d, none) => (got.foldlM (fun (d : VDisk) (j : Fin NUM) => d.freeDesc j) d).map fun d => (d, none)

/-- `alloc3_desc`: `some idx` where it returns `0`, `none` where it returns `-1`. -/
def alloc3Desc : Except String (VDisk × Option (List (Fin NUM))) := alloc3Loop 3 d []

/-- The loop of `free_chain`, with `fuel` passes left.  A chain of more than `NUM`
descriptors frees one twice, and `free_desc` panics, so `NUM + 1` passes do not run out. -/
def freeChainLoop : Nat → VDisk → Nat → Except String VDisk
  | 0, _, _ => .error "free_chain"
  | fuel + 1, d, i =>
    if h : i < NUM then
      let x := d.desc ⟨i, h⟩
      match d.freeDesc i with
      | .ok d => if x.flags &&& VRING_DESC_F_NEXT ≠ 0 then freeChainLoop fuel d x.next.toNat else .ok d
      | .error e => .error e
    else .error "free_desc 1"

/-- `free_chain`. -/
def freeChain (i : Nat) : Except String VDisk := freeChainLoop (NUM + 1) d i

/-- The part of `virtio_disk_rw` after `alloc3_desc` returns `idx = [i0, i1, i2]`, up to its
sleep: the request header, the three descriptors, the request recorded under its head,
and the head put in the avail ring. -/
def submit (b blockno : Nat) (write : Bool) (i0 i1 i2 : Fin NUM) : VDisk :=
  { d with
    ops := Function.update d.ops i0
      ⟨if write then VIRTIO_BLK_T_OUT else VIRTIO_BLK_T_IN, 0, (blockno * (BSIZE / 512)).toUInt64⟩
    desc := Function.update (Function.update (Function.update d.desc
      i0 ⟨.op i0, 16, VRING_DESC_F_NEXT, toU16 i1⟩)
      i1 ⟨.data b, BSIZE.toUInt32, (if write then 0 else VRING_DESC_F_WRITE) ||| VRING_DESC_F_NEXT,
        toU16 i2⟩)
      i2 ⟨.status i0, 1, VRING_DESC_F_WRITE, 0⟩
    info := Function.update d.info i0 ⟨some b, 0xff⟩
    avail := ⟨d.avail.idx + 1, Function.update d.avail.ring (slot d.avail.idx) (toU16 i0)⟩ }

/-- The end of `virtio_disk_rw` once `b->disk` is `0`: `info[idx[0]].b = 0`, and the chain
freed. -/
def release (i0 : Fin NUM) : Except String VDisk :=
  VDisk.freeChain { d with info := Function.update d.info i0 ⟨none, (d.info i0).status⟩ } i0.val

/-- One pass of the loop of `virtio_disk_intr`, with `bufs` each buffer's `b->disk`: the
used element at `used_idx` names a chain, whose buffer's `b->disk` is cleared. -/
def intrStep (bufs : Nat → Bool) : Except String (VDisk × (Nat → Bool)) :=
  let id := (d.used.ring (slot d.usedIdx)).toNat
  if h : id < NUM then
    if (d.info ⟨id, h⟩).status ≠ 0 then .error "virtio_disk_intr status"
    else match (d.info ⟨id, h⟩).b with
      | some b => .ok ({ d with usedIdx := d.usedIdx + 1 }, Function.update bufs b false)
      | none => .error "virtio_disk_intr: null buf"
  else .error "virtio_disk_intr: bad id"

/-- The loop of `virtio_disk_intr`, for `n` more used elements. -/
def intrLoop : Nat → VDisk → (Nat → Bool) → Except String (VDisk × (Nat → Bool))
  | 0, d, bufs => .ok (d, bufs)
  | n + 1, d, bufs => do
    let r ← d.intrStep bufs
    intrLoop n r.1 r.2

/-- `virtio_disk_intr`: its loop runs until `used_idx` reaches `used->idx`, that is for
`(used->idx - used_idx) mod 2^16` elements. -/
def virtioDiskIntr (bufs : Nat → Bool) : Except String (VDisk × (Nat → Bool)) :=
  intrLoop (d.used.idx - d.usedIdx).toNat d bufs

/-- The descriptor `i` as the device reads it, if `i` names one. -/
def get? (i : UInt16) : Option Desc :=
  if h : i.toNat < NUM then some (d.desc ⟨i.toNat, h⟩) else none

/-- Where the device writes the status of the chain from `h`: the `info` entry its third
descriptor points at. -/
def statusOf (h : UInt16) : Option (Fin NUM) := do
  let x0 ← d.get? h
  let x1 ← d.get? x0.next
  let x2 ← d.get? x1.next
  match x2.addr with
  | .status i => some i
  | _ => none

/-- The device done with the chain from `h`: status `0` written at `info[i].status`, and
`h` put in the used ring. -/
def report (h : UInt16) (i : Fin NUM) : VDisk :=
  { d with
    info := Function.update d.info i ⟨(d.info i).b, 0⟩
    used := ⟨d.used.idx + 1, Function.update d.used.ring (slot d.used.idx) h.toUInt32⟩ }

/-- `d` with the descriptors of `l` marked not free. -/
def withUsed (l : List (Fin NUM)) : VDisk :=
  { d with free := fun i => if i ∈ l then false else d.free i }

/-- `d` with the descriptors of `l` cleared and marked free, as `free_desc` leaves them. -/
def withFreed (l : List (Fin NUM)) : VDisk :=
  { d with desc := fun i => if i ∈ l then Desc.zero else d.desc i,
           free := fun i => if i ∈ l then true else d.free i }

end VDisk

/-! ## The descriptor allocator -/

namespace VDisk

variable {d d' : VDisk}

@[simp] theorem withUsed_nil : d.withUsed [] = d := rfl

@[simp] theorem withFreed_nil : d.withFreed [] = d := rfl

theorem allocDesc_some {i : Fin NUM} (h : d.allocDesc = (d', some i)) :
    d.free i = true ∧ d' = d.withUsed [i] := by
  unfold allocDesc at h
  split at h
  · rename_i j hj
    simp only [Prod.mk.injEq, Option.some.injEq] at h
    obtain ⟨rfl, rfl⟩ := h
    refine ⟨List.find?_some hj, ?_⟩
    simp only [withUsed, List.mem_singleton]
    congr 1
    funext k
    by_cases hk : k = j <;> simp [hk]
  · simp at h

theorem allocDesc_none (h : d.allocDesc = (d', none)) : d' = d ∧ ∀ i, d.free i = false := by
  unfold allocDesc at h
  split at h
  · simp at h
  · rename_i hn
    refine ⟨(Prod.mk.inj h).1.symm, fun i => ?_⟩
    simpa using List.find?_eq_none.1 hn i (List.mem_finRange i)

theorem freeDesc_used {i : Fin NUM} (h : d.free i = false) :
    d.freeDesc i = .ok (d.withFreed [i]) := by
  unfold freeDesc withFreed
  rw [dif_pos i.isLt]
  simp only [Fin.eta, h, Bool.false_eq_true, if_false, List.mem_singleton, Except.ok.injEq]
  congr 1 <;> funext k <;> by_cases hk : k = i <;> simp [hk]

theorem foldlM_freeDesc {l : List (Fin NUM)} (hl : l.Nodup) (hu : ∀ i ∈ l, d.free i = false) :
    l.foldlM (fun (d : VDisk) (j : Fin NUM) => d.freeDesc j) d = .ok (d.withFreed l) := by
  induction l generalizing d with
  | nil => rfl
  | cons j l ih =>
    rw [List.foldlM_cons, freeDesc_used (hu j List.mem_cons_self)]
    have hj : j ∉ l := (List.nodup_cons.1 hl).1
    have hu' : ∀ i ∈ l, (d.withFreed [j]).free i = false := fun i hi => by
      have hij : i ≠ j := fun e => hj (e ▸ hi)
      simpa [withFreed, hij] using hu i (List.mem_cons_of_mem j hi)
    refine (ih hl.of_cons hu').trans ?_
    simp only [withFreed, List.mem_cons, Except.ok.injEq]
    congr 1 <;> funext i <;> by_cases h1 : i ∈ l <;> by_cases h2 : i = j <;> simp [h1, h2]

theorem withUsed_append (l m : List (Fin NUM)) : (d.withUsed l).withUsed m = d.withUsed (l ++ m) := by
  simp only [withUsed, List.mem_append]
  congr 1
  funext i
  by_cases h1 : i ∈ l <;> by_cases h2 : i ∈ m <;> simp [h1, h2]

/-- Marking descriptors that were free in use and freeing them again changes only their
contents, which `free_desc` clears. -/
theorem withUsed_withFreed {l : List (Fin NUM)} (hl : ∀ i ∈ l, d.free i = true) :
    (d.withUsed l).withFreed l = { d with desc := fun i => if i ∈ l then Desc.zero else d.desc i } := by
  simp only [withFreed, withUsed]
  congr 1
  funext i
  by_cases h : i ∈ l <;> simp [h, hl]

/-- The loop of `alloc3_desc` from `got`, descriptors free in `d₀` now in use: it takes `k`
more, or gives back all it took. -/
theorem alloc3Loop_spec (d₀ : VDisk) (k : Nat) {got : List (Fin NUM)} (hn : got.Nodup)
    (hf : ∀ i ∈ got, d₀.free i = true) :
    (∃ more : List (Fin NUM), more.length = k ∧ (got ++ more).Nodup ∧ (∀ i ∈ got ++ more, d₀.free i = true) ∧
      alloc3Loop k (d₀.withUsed got) got = .ok (d₀.withUsed (got ++ more), some (got ++ more))) ∨
    ∃ g : List (Fin NUM), g.Nodup ∧ (∀ i ∈ g, d₀.free i = true) ∧
      alloc3Loop k (d₀.withUsed got) got = .ok ((d₀.withUsed g).withFreed g, none) := by
  induction k generalizing got with
  | zero => exact .inl ⟨[], rfl, by simpa using hn, by simpa using hf, by simp [alloc3Loop]⟩
  | succ k ih =>
    rw [alloc3Loop]
    rcases ha : (d₀.withUsed got).allocDesc with ⟨e, _ | i⟩
    · -- no descriptor free: those taken are freed again
      obtain ⟨rfl, -⟩ := allocDesc_none ha
      have hu : ∀ i ∈ got, (d₀.withUsed got).free i = false := fun i hi => by simp [withUsed, hi]
      refine .inr ⟨got, hn, hf, ?_⟩
      dsimp only
      rw [foldlM_freeDesc hn hu]
      rfl
    · -- one more taken
      obtain ⟨hi, rfl⟩ := allocDesc_some ha
      have hig : i ∉ got := fun h => by simp [withUsed, h] at hi
      have hi₀ : d₀.free i = true := by simpa [withUsed, hig] using hi
      have hn' : (got ++ [i]).Nodup := List.nodup_append.2 ⟨hn, List.nodup_singleton i,
        fun a ha b hb => by rintro rfl; exact hig (List.mem_singleton.1 hb ▸ ha)⟩
      have hf' : ∀ j ∈ got ++ [i], d₀.free j = true := fun j hj => by
        rcases List.mem_append.1 hj with hj | hj
        · exact hf j hj
        · rw [List.mem_singleton.1 hj]; exact hi₀
      dsimp only
      rw [withUsed_append]
      rcases ih hn' hf' with ⟨more, hlen, hnd, hfr, h⟩ | hfail
      · refine .inl ⟨i :: more, by simp [hlen], by simpa using hnd, by simpa using hfr, ?_⟩
        simpa using h
      · exact .inr hfail

/-- `alloc3_desc` either takes three distinct free descriptors, or gives back the free
descriptors `g` it took, cleared. -/
theorem alloc3Desc_cases (d : VDisk) :
    (∃ i0 i1 i2 : Fin NUM, [i0, i1, i2].Nodup ∧ (∀ i ∈ [i0, i1, i2], d.free i = true) ∧
      d.alloc3Desc = .ok (d.withUsed [i0, i1, i2], some [i0, i1, i2])) ∨
    ∃ g : List (Fin NUM), (∀ i ∈ g, d.free i = true) ∧
      d.alloc3Desc = .ok ({ d with desc := fun i => if i ∈ g then Desc.zero else d.desc i }, none) := by
  rcases alloc3Loop_spec d 3 List.nodup_nil (by simp) with ⟨more, hlen, hnd, hfr, h⟩ | ⟨g, -, hg, h⟩
  · match more, hlen with
    | [i0, i1, i2], _ => exact .inl ⟨i0, i1, i2, by simpa using hnd, by simpa using hfr, by simpa [alloc3Desc] using h⟩
  · exact .inr ⟨g, hg, by rw [← withUsed_withFreed hg]; exact h⟩

/-- `alloc3_desc` either takes three distinct free descriptors and returns `0`, or returns
`-1` having given back all it took: `free[]` as it was, and only descriptors that were free
cleared. -/
theorem alloc3Desc_spec (d : VDisk) :
    (∃ i0 i1 i2 : Fin NUM, [i0, i1, i2].Nodup ∧ (∀ i ∈ [i0, i1, i2], d.free i = true) ∧
      d.alloc3Desc = .ok (d.withUsed [i0, i1, i2], some [i0, i1, i2])) ∨
    ∃ d', d.alloc3Desc = .ok (d', none) ∧ d'.free = d.free ∧
      ∀ i, d'.desc i = d.desc i ∨ d.free i = true ∧ d'.desc i = Desc.zero := by
  rcases alloc3Desc_cases d with hok | ⟨g, hg, h⟩
  · exact .inl hok
  · refine .inr ⟨_, h, rfl, fun i => ?_⟩
    by_cases hi : i ∈ g
    · exact .inr ⟨hg i hi, by simp [hi]⟩
    · exact .inl (by simp [hi])

end VDisk

/-! ## A request's chain -/

/-- How far a request has got. -/
inductive Stage where
  /-- its head is in the avail ring, not yet read by the device -/
  | queued
  /-- read by the device, not yet reported -/
  | taken
  /-- in the used ring, not yet seen by `virtio_disk_intr` -/
  | reported
  /-- seen: `b->disk` is `0`, and its caller frees the chain when it runs -/
  | finished
  deriving DecidableEq

/-- A call of `virtio_disk_rw` past its allocation: its buffer and direction, its three
descriptors `idx`, and how far it has got. -/
structure Req where
  b : Nat
  write : Bool
  head : Fin NUM
  data : Fin NUM
  stat : Fin NUM
  stage : Stage
  deriving DecidableEq

/-- The descriptors of a request, `idx[0..2]`. -/
def Req.descs (r : Req) : List (Fin NUM) := [r.head, r.data, r.stat]

/-- The chain of `r` as `virtio_disk_rw` formats it: the header, then the data, then the
status byte of `info[head]`, linked by `next`, with `VRING_DESC_F_NEXT` on the first two. -/
structure Chained (d : VDisk) (r : Req) : Prop where
  head : d.desc r.head = ⟨.op r.head, 16, VRING_DESC_F_NEXT, toU16 r.data⟩
  data : d.desc r.data = ⟨.data r.b, BSIZE.toUInt32,
    (if r.write then 0 else VRING_DESC_F_WRITE) ||| VRING_DESC_F_NEXT, toU16 r.stat⟩
  stat : d.desc r.stat = ⟨.status r.head, 1, VRING_DESC_F_WRITE, 0⟩

/-- A formatted chain is linked head → data → status by `next`, with `VRING_DESC_F_NEXT` on
the head and the data descriptor and not on the status descriptor. -/
theorem Chained.links {d : VDisk} {r : Req} (hc : Chained d r) :
    (d.desc r.head).next = toU16 r.data ∧ (d.desc r.data).next = toU16 r.stat ∧
    (d.desc r.head).flags &&& VRING_DESC_F_NEXT ≠ 0 ∧ (d.desc r.data).flags &&& VRING_DESC_F_NEXT ≠ 0 ∧
    (d.desc r.stat).flags &&& VRING_DESC_F_NEXT = 0 := by
  rw [hc.head, hc.data, hc.stat]
  refine ⟨rfl, rfl, (by decide : VRING_DESC_F_NEXT &&& VRING_DESC_F_NEXT ≠ 0), ?_,
    (by decide : VRING_DESC_F_WRITE &&& VRING_DESC_F_NEXT = 0)⟩
  show ((if r.write then 0 else VRING_DESC_F_WRITE) ||| VRING_DESC_F_NEXT) &&& VRING_DESC_F_NEXT ≠ 0
  cases r.write <;> decide

@[simp] theorem toU16_toNat (i : Fin NUM) : (toU16 i).toNat = i.val := by
  have := i.isLt
  simp only [toU16, Nat.toUInt16_eq, UInt16.toNat_ofNat', NUM_eq] at *
  omega

theorem toU16_inj {i j : Fin NUM} (h : toU16 i = toU16 j) : i = j :=
  Fin.ext (by simpa using congrArg UInt16.toNat h)

namespace VDisk

variable {d : VDisk}

theorem withFreed_append (l m : List (Fin NUM)) :
    (d.withFreed l).withFreed m = d.withFreed (l ++ m) := by
  simp only [withFreed, List.mem_append]
  congr 1 <;> funext i <;> by_cases h1 : i ∈ l <;> by_cases h2 : i ∈ m <;> simp [h1, h2]

/-- One pass of `free_chain` on a descriptor in use: it is freed, and the loop goes on to its
`next` if it has `VRING_DESC_F_NEXT`. -/
theorem freeChainLoop_succ {fuel : Nat} {i : Fin NUM} (hu : d.free i = false) :
    freeChainLoop (fuel + 1) d i =
      if (d.desc i).flags &&& VRING_DESC_F_NEXT ≠ 0 then
        freeChainLoop fuel (d.withFreed [i]) (d.desc i).next.toNat
      else .ok (d.withFreed [i]) := by
  rw [freeChainLoop, dif_pos i.isLt]
  simp only [Fin.eta, freeDesc_used hu]

theorem freeChain_chained {r : Req} (hc : Chained d r) (hn : r.descs.Nodup)
    (hu : ∀ i ∈ r.descs, d.free i = false) : d.freeChain r.head = .ok (d.withFreed r.descs) := by
  simp only [Req.descs, List.nodup_cons, List.mem_cons, not_or, List.not_mem_nil,
    not_false_eq_true, List.nodup_nil, and_true] at hn
  obtain ⟨⟨hhd, hhs⟩, hds⟩ := hn
  have hfh := hu r.head (by simp [Req.descs])
  have hfd : (d.withFreed [r.head]).free r.data = false := by
    simpa [withFreed, Ne.symm hhd] using hu r.data (by simp [Req.descs])
  have hfs : ((d.withFreed [r.head]).withFreed [r.data]).free r.stat = false := by
    simpa [withFreed, Ne.symm hhs, Ne.symm hds] using hu r.stat (by simp [Req.descs])
  have hdd : (d.withFreed [r.head]).desc r.data = d.desc r.data := by simp [withFreed, Ne.symm hhd]
  have hds' : ((d.withFreed [r.head]).withFreed [r.data]).desc r.stat = d.desc r.stat := by
    simp [withFreed, Ne.symm hhs, Ne.symm hds]
  obtain ⟨hn1, hn2, hf1, hf2, hf3⟩ := hc.links
  change freeChainLoop (6 + 1 + 1 + 1) d r.head.val = _
  rw [freeChainLoop_succ hfh, if_pos hf1, hn1, toU16_toNat, freeChainLoop_succ hfd, hdd, if_pos hf2,
    hn2, toU16_toNat, freeChainLoop_succ hfs, hds', if_neg (not_not.2 hf3), withFreed_append,
    withFreed_append]
  rfl

/-- `virtio_disk_rw` formats its request's chain in its three distinct descriptors. -/
theorem chained_submit {b blockno : Nat} {write : Bool} {i0 i1 i2 : Fin NUM} (hn : [i0, i1, i2].Nodup)
    (s : Stage) : Chained (d.submit b blockno write i0 i1 i2) ⟨b, write, i0, i1, i2, s⟩ := by
  simp only [List.nodup_cons, List.mem_cons, List.not_mem_nil, or_false, not_or, List.nodup_nil] at hn
  obtain ⟨⟨h01, h02⟩, h12, -⟩ := hn
  exact ⟨by simp [submit, h01, h02], by simp [submit, h12],
    by simp [submit]⟩

/-- ... and leaves the other descriptors alone. -/
theorem submit_desc_of_not_mem {b blockno : Nat} {write : Bool} {i0 i1 i2 i : Fin NUM}
    (hi : i ∉ [i0, i1, i2]) : (d.submit b blockno write i0 i1 i2).desc i = d.desc i := by
  simp only [List.mem_cons, List.not_mem_nil, or_false, not_or] at hi
  simp [submit, hi.1, hi.2.1, hi.2.2]

theorem release_chained {r : Req} (hc : Chained d r) (hn : r.descs.Nodup)
    (hu : ∀ i ∈ r.descs, d.free i = false) :
    d.release r.head =
      .ok ({ d with info := Function.update d.info r.head ⟨none, (d.info r.head).status⟩ }.withFreed r.descs) :=
  freeChain_chained ⟨hc.head, hc.data, hc.stat⟩ hn hu

theorem get?_toU16 (i : Fin NUM) : d.get? (toU16 i) = some (d.desc i) := by
  simp [get?]

theorem statusOf_chained {r : Req} (hc : Chained d r) : d.statusOf (toU16 r.head) = some r.head := by
  simp [statusOf, get?_toU16, hc.head, hc.data, hc.stat]

@[simp] theorem report_info_b (h : UInt16) (i j : Fin NUM) : ((d.report h i).info j).b = (d.info j).b := by
  by_cases e : j = i <;> simp [report, e]

theorem report_info_status (h : UInt16) (i j : Fin NUM) :
    ((d.report h i).info j).status = if j = i then 0 else (d.info j).status := by
  by_cases e : j = i <;> simp [report, e]

/-- The buffer `info` names for a used element `x`. -/
def infoBuf (x : UInt32) : Option Nat :=
  if h : x.toNat < NUM then (d.info ⟨x.toNat, h⟩).b else none

/-- The buffers of the `n` used elements from `used_idx` on. -/
def usedBufs (n : Nat) : List Nat :=
  (Ring.contents d.used.ring d.usedIdx.toNat n).filterMap d.infoBuf

/-- A used element `virtio_disk_intr` takes without a panic: a chain head whose status the
device has written and whose `info` names a buffer. -/
def Ready (x : UInt32) : Prop := ∃ i : Fin NUM, x.toNat = i.val ∧ (d.info i).status = 0 ∧ (d.info i).b ≠ none

theorem add_one_add (u : UInt16) (n : Nat) : u + 1 + n.toUInt16 = u + (n + 1).toUInt16 := by
  apply UInt16.toNat_inj.1
  simp only [UInt16.toNat_add, UInt16.toNat_one, Nat.toUInt16_eq, UInt16.toNat_ofNat']
  omega

theorem add_toNat_sub (u w : UInt16) : u + (w - u).toNat.toUInt16 = w := by
  have := u.toNat_lt
  have := w.toNat_lt
  apply UInt16.toNat_inj.1
  simp only [UInt16.toNat_add, UInt16.toNat_sub, Nat.toUInt16_eq, UInt16.toNat_ofNat']
  omega

theorem infoBuf_toU16 (i : Fin NUM) : d.infoBuf (toU16 i).toUInt32 = (d.info i).b := by
  simp [infoBuf]

/-- The loop of `virtio_disk_intr` over `n` used elements it takes without a panic clears
`b->disk` of their buffers and of nothing else. -/
theorem intrLoop_spec (n : Nat) (bufs : Nat → Bool)
    (hw : ∀ x ∈ Ring.contents d.used.ring d.usedIdx.toNat n, d.Ready x) :
    intrLoop n d bufs = .ok ({ d with usedIdx := d.usedIdx + n.toUInt16 },
      fun b => if b ∈ d.usedBufs n then false else bufs b) := by
  induction n generalizing d bufs with
  | zero => simp [intrLoop, usedBufs]
  | succ n ih =>
    rw [Ring.contents_succ] at hw
    obtain ⟨i, hx, h0, hb⟩ := hw _ List.mem_cons_self
    obtain ⟨b, hb⟩ := Option.ne_none_iff_exists'.1 hb
    have hi : (d.used.ring (slot d.usedIdx)).toNat = i.val := hx
    have hstep : d.intrStep bufs =
        .ok ({ d with usedIdx := d.usedIdx + 1 }, Function.update bufs b false) := by
      unfold intrStep
      simp only [hi, dif_pos i.isLt, Fin.eta, h0, ne_eq, not_true_eq_false, if_false, hb]
    -- the rest are the `n` elements from `used_idx + 1`, modulo `NUM` as before the wrap
    have hc : Ring.contents d.used.ring (d.usedIdx + 1).toNat n =
        Ring.contents d.used.ring (d.usedIdx.toNat + 1) n :=
      Ring.contents_congr _ (by simp only [UInt16.toNat_add, UInt16.toNat_one, NUM_eq]; omega) n
    have hw' : ∀ x ∈ Ring.contents d.used.ring (d.usedIdx + 1).toNat n,
        ({ d with usedIdx := d.usedIdx + 1 } : VDisk).Ready x := by
      rw [hc]
      exact fun x hx' => hw x (List.mem_cons_of_mem _ hx')
    have hbufs : d.usedBufs (n + 1) = b :: ({ d with usedIdx := d.usedIdx + 1 } : VDisk).usedBufs n := by
      have hib : d.infoBuf (d.used.ring (slot d.usedIdx)) = some b := by
        simp only [infoBuf, hi, dif_pos i.isLt, Fin.eta, hb]
      simp only [usedBufs, Ring.contents_succ]
      rw [hc]
      simp only [List.filterMap_cons]
      rw [show Ring.slot NUM d.usedIdx.toNat = slot d.usedIdx from rfl, hib]
      rfl
    rw [intrLoop, hstep]
    refine (ih (Function.update bufs b false) hw').trans ?_
    simp only [add_one_add, hbufs, Except.ok.injEq, Prod.mk.injEq, true_and]
    funext b'
    by_cases h1 : b' ∈ ({ d with usedIdx := d.usedIdx + 1 } : VDisk).usedBufs n
    · simp [h1]
    · by_cases h2 : b' = b <;> simp [h1, h2]

end VDisk

/-! ## Ring windows between 16-bit counters -/

section Window

variable {α : Type} (ring : Fin NUM → α)

/-- The elements of a ring from counter `r` up to counter `w`, oldest first: the avail ring
from the device's index to `avail->idx`, the used ring from `used_idx` to `used->idx`. -/
def window (r w : UInt16) : List α := Ring.contents ring r.toNat (w - r).toNat

@[simp] theorem window_self (r : UInt16) : window ring r r = [] := by
  simp [window]

@[simp] theorem length_window (r w : UInt16) : (window ring r w).length = (w - r).toNat := by
  simp [window]

/-- Storing at `w` and advancing it appends to the window, while it holds fewer than `NUM`
elements; `NUM` divides `2^16`, so the slot of `w` is the slot after the window's last. -/
theorem window_push (x : α) {r w : UInt16} (h : (w - r).toNat < NUM) :
    window (Function.update ring (slot w) x) r (w + 1) = window ring r w ++ [x] := by
  rw [NUM_eq] at h
  have hr := r.toNat_lt
  have hw := w.toNat_lt
  have hk : (w + 1 - r).toNat = (w - r).toNat + 1 := by
    simp only [UInt16.toNat_sub, UInt16.toNat_add, UInt16.toNat_one] at *
    omega
  have hs : slot w = Ring.slot NUM (r.toNat + (w - r).toNat) := by
    apply Ring.slot_congr
    simp only [UInt16.toNat_sub, NUM_eq]
    omega
  rw [window, hk, hs, Ring.contents_push _ _ (by rw [NUM_eq]; omega)]
  rfl

theorem window_pop {r w : UInt16} (h : r ≠ w) :
    window ring r w = ring (slot r) :: window ring (r + 1) w := by
  have hne : r.toNat ≠ w.toNat := fun e => h (UInt16.toNat_inj.1 e)
  have hr := r.toNat_lt
  have hw := w.toNat_lt
  have hk : (w - r).toNat = (w - (r + 1)).toNat + 1 := by
    simp only [UInt16.toNat_sub, UInt16.toNat_add, UInt16.toNat_one]
    omega
  rw [window, hk, Ring.contents_succ, window]
  congr 1
  exact Ring.contents_congr _ (by simp only [UInt16.toNat_add, UInt16.toNat_one, NUM_eq]; omega) _

end Window

/-! ## The driver's calls, the interrupt handler and the device -/

/-- The driver's `disk`, `b->disk` of each buffer, the calls of `virtio_disk_rw` past
`alloc3_desc` with their locals, and the device's own state. -/
structure VSys where
  disk : VDisk
  /-- `b->disk` of each buffer -/
  bufDisk : Nat → Bool
  /-- the calls in flight, oldest first -/
  reqs : List Req
  /-- the device's index into the avail ring -/
  lastAvail : UInt16
  /-- the chain heads the device has read and not yet reported -/
  taken : List UInt16

/-- The steps: a call's submission and, once woken, its end; the interrupt handler; the
device reading the avail ring and reporting a chain it has read. -/
inductive VAct where
  | rw (b blockno : Nat) (write : Bool)
  | finish (b : Nat)
  | intr
  | fetch
  | complete (h : UInt16)

/-- The requests that `p` picks moved to stage `s`. -/
def setStage (p : Req → Bool) (s : Stage) (l : List Req) : List Req :=
  l.map fun r => if p r then { r with stage := s } else r

section Reqs

variable {p : Req → Bool} {s : Stage} {l : List Req}

@[simp] theorem Req.descs_stage (r : Req) (s : Stage) : ({ r with stage := s } : Req).descs = r.descs := rfl

theorem Chained.congr {d d' : VDisk} {r : Req} (hc : Chained d r)
    (h : ∀ i ∈ r.descs, d'.desc i = d.desc i) : Chained d' r where
  head := (h _ (by simp [Req.descs])).trans hc.head
  data := (h _ (by simp [Req.descs])).trans hc.data
  stat := (h _ (by simp [Req.descs])).trans hc.stat

theorem Chained.stage {d : VDisk} {r : Req} (hc : Chained d r) (s : Stage) :
    Chained d { r with stage := s } :=
  ⟨hc.head, hc.data, hc.stat⟩

theorem length_flatMap_descs (l : List Req) : (l.flatMap Req.descs).length = 3 * l.length := by
  induction l with
  | nil => rfl
  | cons r l ih => simp [List.flatMap_cons, Req.descs, ih]; omega

theorem eq_of_mem_descs (hl : (l.flatMap Req.descs).Nodup) {r r' : Req} (hr : r ∈ l) (hr' : r' ∈ l)
    {i : Fin NUM} (hi : i ∈ r.descs) (hi' : i ∈ r'.descs) : r = r' := by
  induction l with
  | nil => cases hr
  | cons a l ih =>
    rw [List.flatMap_cons, List.nodup_append] at hl
    obtain ⟨-, hl, hdis⟩ := hl
    rcases List.mem_cons.1 hr with rfl | hrl <;> rcases List.mem_cons.1 hr' with rfl | hrl'
    · rfl
    · exact absurd rfl (hdis i hi i (List.mem_flatMap.2 ⟨r', hrl', hi'⟩))
    · exact absurd rfl (hdis i hi' i (List.mem_flatMap.2 ⟨r, hrl, hi⟩))
    · exact ih hl hrl hrl'

theorem mem_setStage {r' : Req} :
    r' ∈ setStage p s l ↔ ∃ r ∈ l, (if p r then { r with stage := s } else r) = r' := List.mem_map

@[simp] theorem flatMap_descs_setStage : (setStage p s l).flatMap Req.descs = l.flatMap Req.descs := by
  simp only [setStage, List.flatMap_map]
  congr 1
  funext r
  split <;> rfl

@[simp] theorem map_b_setStage : (setStage p s l).map Req.b = l.map Req.b := by
  simp only [setStage, List.map_map]
  congr 1
  funext r
  simp only [Function.comp_apply]
  split <;> rfl

theorem forall_setStage {P : Req → Prop} (hP : ∀ r ∈ l, p r = true → P r → P { r with stage := s })
    (h : ∀ r ∈ l, P r) : ∀ r ∈ setStage p s l, P r := by
  intro r' hr'
  obtain ⟨r, hr, rfl⟩ := mem_setStage.1 hr'
  split
  · exact hP r hr ‹_› (h r hr)
  · exact h r hr

theorem exists_setStage {t : Stage} {q : Req → Prop} (hq : ∀ r, q { r with stage := s } ↔ q r) :
    (∃ r' ∈ setStage p s l, r'.stage = t ∧ q r') ↔
      ∃ r ∈ l, (if p r then s else r.stage) = t ∧ q r := by
  constructor
  · rintro ⟨_, hr', hs, hq'⟩
    obtain ⟨r, hr, rfl⟩ := mem_setStage.1 hr'
    refine ⟨r, hr, ?_⟩
    by_cases hp : p r
    · simp only [hp, if_true] at hs hq' ⊢
      exact ⟨hs, (hq r).1 hq'⟩
    · simp only [hp, Bool.false_eq_true, if_false] at hs hq' ⊢
      exact ⟨hs, hq'⟩
  · rintro ⟨r, hr, hs, hq'⟩
    refine ⟨_, List.mem_map_of_mem hr, ?_⟩
    by_cases hp : p r
    · simp only [hp, if_true] at hs ⊢
      exact ⟨hs, (hq r).2 hq'⟩
    · simp only [hp, Bool.false_eq_true, if_false] at hs ⊢
      exact ⟨hs, hq'⟩

theorem exists_mem_concat {P : Req → Prop} {a : Req} :
    (∃ r ∈ l ++ [a], P r) ↔ (∃ r ∈ l, P r) ∨ P a := by
  simp [or_and_right, exists_or]

theorem toU16_toUInt32_inj : Function.Injective fun i : Fin NUM => (toU16 i).toUInt32 :=
  fun i j h => Fin.ext (by simpa using congrArg UInt32.toNat h)

/-- Moving the one request with chain head `h`, `r₀`, to stage `s`: the request with key `x`
is at stage `t` afterwards iff it is `r₀` and `s = t`, or it is another and was at `t`. -/
theorem exists_setStage_head (hl : ∀ r ∈ l, ∀ r' ∈ l, r.head = r'.head → r = r') {r₀ : Req}
    (hr₀ : r₀ ∈ l) {h : UInt16} (hh : toU16 r₀.head = h) {β : Type} [DecidableEq β] {f : Fin NUM → β}
    (hf : Function.Injective f) (t : Stage) (x : β) :
    (∃ r' ∈ setStage (toU16 ·.head == h) s l, r'.stage = t ∧ f r'.head = x) ↔
      if f r₀.head = x then s = t else ∃ r ∈ l, r.stage = t ∧ f r.head = x := by
  have hp : ∀ r ∈ l, (toU16 r.head == h) = true ↔ r = r₀ := fun r hr => by
    constructor
    · intro e
      exact hl r hr r₀ hr₀ (toU16_inj (by simpa [hh] using e))
    · rintro rfl
      simp [hh]
  rw [exists_setStage fun _ => Iff.rfl]
  split
  · rename_i hx
    constructor
    · rintro ⟨r, hr, hs, hk⟩
      have e : r = r₀ := hl r hr r₀ hr₀ (hf (hk.trans hx.symm))
      subst e
      simpa [(hp r hr).2 rfl] using hs
    · intro hs
      exact ⟨r₀, hr₀, by simp [(hp r₀ hr₀).2 rfl, hs], hx⟩
  · rename_i hx
    have hq : ∀ r ∈ l, f r.head = x → (toU16 r.head == h) = false := fun r hr hk => by
      by_contra e
      rw [Bool.not_eq_false, hp r hr] at e
      exact hx (e ▸ hk)
    constructor
    · rintro ⟨r, hr, hs, hk⟩
      exact ⟨r, hr, by simpa [hq r hr hk] using hs, hk⟩
    · rintro ⟨r, hr, hs, hk⟩
      exact ⟨r, hr, by simp [hq r hr hk, hs], hk⟩

end Reqs

namespace VSys

/-- One step.  A call of `virtio_disk_rw` on a buffer no call has in flight (its caller holds
the buffer's lock) either takes three descriptors and submits, or sleeps with the
descriptors `alloc3_desc` gave back, to try again later.  A call whose buffer has
`b->disk = 0` ends.  The device reports a chain in any order, at the status byte its third
descriptor names. -/
def step (v : VSys) : VAct → Option (Except String VSys)
  | .rw b blockno write =>
    if v.reqs.any (·.b == b) then none else
    some <| v.disk.alloc3Desc.map fun
      | (d, some [i0, i1, i2]) =>
        { v with disk := d.submit b blockno write i0 i1 i2,
                 bufDisk := Function.update v.bufDisk b true,
                 reqs := v.reqs ++ [⟨b, write, i0, i1, i2, .queued⟩] }
      | (d, _) => { v with disk := d }
  | .finish b =>
    match v.reqs.find? (·.b == b) with
    | none => none
    | some r =>
      if v.bufDisk b then none else
      some <| (v.disk.release r.head).map fun d => { v with disk := d, reqs := v.reqs.erase r }
  | .intr =>
    some <| (v.disk.virtioDiskIntr v.bufDisk).map fun r =>
      { v with disk := r.1, bufDisk := r.2, reqs := setStage (·.stage == .reported) .finished v.reqs }
  | .fetch =>
    if v.lastAvail = v.disk.avail.idx then none else
    let h := v.disk.avail.ring (slot v.lastAvail)
    some (.ok { v with lastAvail := v.lastAvail + 1, taken := v.taken ++ [h],
                       reqs := setStage (toU16 ·.head == h) .taken v.reqs })
  | .complete h =>
    if h ∉ v.taken then none else
    match v.disk.statusOf h with
    | some i => some (.ok { v with disk := v.disk.report h i, taken := v.taken.erase h,
                                   reqs := setStage (toU16 ·.head == h) .reported v.reqs })
    | none => some (.error "virtio: bad chain")

/-- After `virtio_disk_init`: no call in flight, the device at the start of the avail ring. -/
def boot : VSys := ⟨VDisk.init, fun _ => false, [], 0, []⟩

/-! ### What each step does -/

variable {v : VSys} {o : Except String VSys}

theorem step_rw {b blockno : Nat} {write : Bool} (h : v.step (.rw b blockno write) = some o) :
    (∀ r ∈ v.reqs, r.b ≠ b) ∧
    ((∃ i0 i1 i2 : Fin NUM, [i0, i1, i2].Nodup ∧ (∀ i ∈ [i0, i1, i2], v.disk.free i = true) ∧
      o = .ok { v with disk := (v.disk.withUsed [i0, i1, i2]).submit b blockno write i0 i1 i2,
                       bufDisk := Function.update v.bufDisk b true,
                       reqs := v.reqs ++ [⟨b, write, i0, i1, i2, .queued⟩] }) ∨
     ∃ g : List (Fin NUM), (∀ i ∈ g, v.disk.free i = true) ∧
      o = .ok { v with disk := { v.disk with desc := fun i => if i ∈ g then Desc.zero else v.disk.desc i } }) := by
  rw [step] at h
  by_cases hb : v.reqs.any (·.b == b)
  · rw [if_pos hb] at h
    cases h
  · rw [if_neg hb, Option.some.injEq] at h
    refine ⟨fun r hr e => hb (List.any_eq_true.2 ⟨r, hr, by simp [e]⟩), ?_⟩
    rcases VDisk.alloc3Desc_cases v.disk with ⟨i0, i1, i2, hn, hf, ha⟩ | ⟨g, hg, ha⟩
    · rw [ha] at h
      exact .inl ⟨i0, i1, i2, hn, hf, h.symm⟩
    · rw [ha] at h
      exact .inr ⟨g, hg, h.symm⟩

theorem step_finish {b : Nat} (h : v.step (.finish b) = some o) :
    ∃ r ∈ v.reqs, r.b = b ∧ v.bufDisk b = false ∧
      o = (v.disk.release r.head).map fun d => { v with disk := d, reqs := v.reqs.erase r } := by
  rw [step] at h
  split at h
  · cases h
  · rename_i r hr
    by_cases hb : v.bufDisk b
    · rw [if_pos hb] at h
      cases h
    · rw [if_neg hb, Option.some.injEq] at h
      exact ⟨r, List.mem_of_find?_eq_some hr, by simpa using List.find?_some hr,
        by simpa using hb, h.symm⟩

theorem step_intr (h : v.step .intr = some o) :
    o = (v.disk.virtioDiskIntr v.bufDisk).map fun r =>
      { v with disk := r.1, bufDisk := r.2, reqs := setStage (·.stage == .reported) .finished v.reqs } :=
  (Option.some.inj h).symm

theorem step_fetch (h : v.step .fetch = some o) : v.lastAvail ≠ v.disk.avail.idx ∧
    o = .ok { v with lastAvail := v.lastAvail + 1,
                     taken := v.taken ++ [v.disk.avail.ring (slot v.lastAvail)],
                     reqs := setStage (toU16 ·.head == v.disk.avail.ring (slot v.lastAvail)) .taken v.reqs } := by
  rw [step] at h
  by_cases he : v.lastAvail = v.disk.avail.idx
  · rw [if_pos he] at h
    cases h
  · rw [if_neg he, Option.some.injEq] at h
    exact ⟨he, h.symm⟩

theorem step_complete {h : UInt16} (hs : v.step (.complete h) = some o) : h ∈ v.taken ∧
    ∀ i, v.disk.statusOf h = some i →
      o = .ok { v with disk := v.disk.report h i, taken := v.taken.erase h,
                       reqs := setStage (toU16 ·.head == h) .reported v.reqs } := by
  rw [step] at hs
  by_cases ht : h ∉ v.taken
  · rw [if_pos ht] at hs
    cases hs
  · rw [if_neg ht] at hs
    refine ⟨not_not.1 ht, fun i hi => ?_⟩
    rw [hi, Option.some.injEq] at hs
    exact hs.symm

/-! ### The invariant -/

/-- The descriptors of the calls in flight. -/
def owned (v : VSys) : List (Fin NUM) := v.reqs.flatMap Req.descs

/-- The chain heads in the avail ring that the device has yet to read. -/
def availWin (v : VSys) : List UInt16 := window v.disk.avail.ring v.lastAvail v.disk.avail.idx

/-- The used elements that `virtio_disk_intr` has yet to see. -/
def usedWin (v : VSys) : List UInt32 := window v.disk.used.ring v.disk.usedIdx v.disk.used.idx

/-- The bookkeeping of the driver and the device. -/
structure Inv (v : VSys) : Prop where
  /-- no descriptor is owned twice, by one call or by two -/
  owned_nodup : v.owned.Nodup
  /-- the free descriptors are those no call owns -/
  free_iff : ∀ i, v.disk.free i = true ↔ i ∉ v.owned
  chained : ∀ r ∈ v.reqs, Chained v.disk r
  info_b : ∀ r ∈ v.reqs, (v.disk.info r.head).b = some r.b
  status : ∀ r ∈ v.reqs, r.stage = .reported → (v.disk.info r.head).status = 0
  bufs_nodup : (v.reqs.map Req.b).Nodup
  /-- `b->disk` is `1` until the interrupt handler has seen the request's completion -/
  bufDisk : ∀ r ∈ v.reqs, v.bufDisk r.b = (r.stage != .finished)
  avail_nodup : v.availWin.Nodup
  avail_mem : ∀ x, x ∈ v.availWin ↔ ∃ r ∈ v.reqs, r.stage = .queued ∧ toU16 r.head = x
  taken_nodup : v.taken.Nodup
  taken_mem : ∀ x, x ∈ v.taken ↔ ∃ r ∈ v.reqs, r.stage = .taken ∧ toU16 r.head = x
  used_nodup : v.usedWin.Nodup
  used_mem : ∀ x, x ∈ v.usedWin ↔ ∃ r ∈ v.reqs, r.stage = .reported ∧ (toU16 r.head).toUInt32 = x

theorem boot_inv : boot.Inv where
  owned_nodup := List.nodup_nil
  free_iff _ := by simp [boot, owned, VDisk.init]
  chained _ h := nomatch h
  info_b _ h := nomatch h
  status _ h := nomatch h
  bufs_nodup := List.nodup_nil
  bufDisk _ h := nomatch h
  avail_nodup := by simp [availWin, boot, VDisk.init]
  avail_mem _ := by simp [availWin, boot, VDisk.init]
  taken_nodup := List.nodup_nil
  taken_mem _ := by simp [boot]
  used_nodup := by simp [usedWin, boot, VDisk.init]
  used_mem _ := by simp [usedWin, boot, VDisk.init]

namespace Inv

variable {v : VSys} {r r' : Req}

theorem mem_owned (hr : r ∈ v.reqs) {i : Fin NUM} (hi : i ∈ r.descs) : i ∈ v.owned :=
  List.mem_flatMap.2 ⟨r, hr, hi⟩

theorem not_free (hv : v.Inv) (hr : r ∈ v.reqs) {i : Fin NUM} (hi : i ∈ r.descs) :
    v.disk.free i = false := by
  simpa using (hv.free_iff i).not.2 (not_not.2 (mem_owned hr hi))

theorem descs_nodup (hv : v.Inv) (hr : r ∈ v.reqs) : r.descs.Nodup :=
  (List.nodup_flatMap.1 hv.owned_nodup).1 r hr

theorem eq_of_head (hv : v.Inv) (hr : r ∈ v.reqs) (hr' : r' ∈ v.reqs) (h : r.head = r'.head) :
    r = r' :=
  eq_of_mem_descs hv.owned_nodup hr hr' (i := r.head) (by simp [Req.descs]) (by simp [Req.descs, h])

theorem eq_of_b (hv : v.Inv) (hr : r ∈ v.reqs) (hr' : r' ∈ v.reqs) (h : r.b = r'.b) : r = r' :=
  List.inj_on_of_nodup_map hv.bufs_nodup hr hr' h

theorem reqs_nodup (hv : v.Inv) : v.reqs.Nodup := List.Nodup.of_map _ hv.bufs_nodup

/-- Three descriptors each: at most two calls are in flight. -/
theorem length_le (hv : v.Inv) : v.reqs.length ≤ 2 := by
  have h := hv.owned_nodup.length_le_card
  rw [owned, length_flatMap_descs, Fintype.card_fin, NUM_eq] at h
  omega

theorem length_keys_le (hv : v.Inv) {β : Type} {w : List β} (f : Req → β) (hn : w.Nodup)
    (hm : ∀ x ∈ w, ∃ r ∈ v.reqs, f r = x) : w.length ≤ 2 := by
  have hs : w ⊆ v.reqs.map f := fun x hx => by
    obtain ⟨r, hr, rfl⟩ := hm x hx
    exact List.mem_map_of_mem hr
  have := (hn.subperm hs).length_le
  rw [List.length_map] at this
  exact this.trans hv.length_le

theorem avail_lt (hv : v.Inv) : (v.disk.avail.idx - v.lastAvail).toNat < NUM := by
  have := hv.length_keys_le (fun r => toU16 r.head) hv.avail_nodup fun x hx => by
    obtain ⟨r, hr, -, hx⟩ := (hv.avail_mem x).1 hx
    exact ⟨r, hr, hx⟩
  rw [availWin, length_window, NUM_eq] at *
  omega

theorem used_lt (hv : v.Inv) : (v.disk.used.idx - v.disk.usedIdx).toNat < NUM := by
  have := hv.length_keys_le (fun r => (toU16 r.head).toUInt32) hv.used_nodup fun x hx => by
    obtain ⟨r, hr, -, hx⟩ := (hv.used_mem x).1 hx
    exact ⟨r, hr, hx⟩
  rw [usedWin, length_window, NUM_eq] at *
  omega

end Inv

/-! ### Each step keeps the invariant, and none panics -/

namespace Inv

variable {v : VSys} {o : Except String VSys}

theorem heads_inj (hv : v.Inv) : ∀ r ∈ v.reqs, ∀ r' ∈ v.reqs, r.head = r'.head → r = r' :=
  fun _ hr _ hr' => hv.eq_of_head hr hr'

theorem not_key {β : Type} {f : Fin NUM → β} (hf : Function.Injective f) (hv : v.Inv)
    {r₀ : Req} (hr₀ : r₀ ∈ v.reqs) {t : Stage} (ht : r₀.stage ≠ t) :
    ¬∃ r ∈ v.reqs, r.stage = t ∧ f r.head = f r₀.head := by
  rintro ⟨r, hr, hs, hk⟩
  exact ht (hv.eq_of_head hr hr₀ (hf hk) ▸ hs)

theorem pick (hv : v.Inv) {r₀ : Req} (hr₀ : r₀ ∈ v.reqs) {h : UInt16} (hh₀ : toU16 r₀.head = h)
    {r : Req} (hr : r ∈ v.reqs) (hp : (toU16 r.head == h) = true) : r = r₀ :=
  hv.eq_of_head hr hr₀ (toU16_inj (by simpa [hh₀] using hp))

theorem bufDisk_move (hv : v.Inv) {r₀ : Req} (hr₀ : r₀ ∈ v.reqs) {h : UInt16}
    (hh₀ : toU16 r₀.head = h) (hs₀ : r₀.stage ≠ .finished) {s : Stage} (hs : s ≠ .finished) :
    ∀ r ∈ setStage (toU16 ·.head == h) s v.reqs, v.bufDisk r.b = (r.stage != .finished) := by
  refine forall_setStage (fun r hr hp hb => ?_) hv.bufDisk
  obtain rfl := hv.pick hr₀ hh₀ hr hp
  rw [hb, bne_iff_ne.2 hs₀]
  exact (bne_iff_ne.2 hs).symm

/-- The device reads the oldest head of the avail window, that of a queued call, which it
then holds. -/
theorem fetch (hv : v.Inv) (hs : v.step .fetch = some o) : ∃ v', o = .ok v' ∧ v'.Inv := by
  obtain ⟨hne, rfl⟩ := step_fetch hs
  have hpop : v.availWin = _ :: _ := window_pop v.disk.avail.ring hne
  obtain ⟨r₀, hr₀, hq₀, hh₀⟩ := (hv.avail_mem _).1 (hpop ▸ List.mem_cons_self)
  have hnd := hpop ▸ hv.avail_nodup
  have hrest : ∀ x, x ∈ window v.disk.avail.ring (v.lastAvail + 1) v.disk.avail.idx ↔
      x ≠ toU16 r₀.head ∧ x ∈ v.availWin := fun x => by
    rw [hpop, hh₀, List.mem_cons]
    constructor
    · intro hx
      exact ⟨fun e => (List.nodup_cons.1 hnd).1 (e ▸ hx), .inr hx⟩
    · rintro ⟨hx, rfl | hx'⟩
      · exact absurd rfl hx
      · exact hx'
  refine ⟨_, rfl, ⟨?_, ?_, ?_, ?_, ?_, ?_, ?_, ?_, ?_, ?_, ?_, ?_, ?_⟩⟩
  · simpa [owned] using hv.owned_nodup
  · simpa [owned] using hv.free_iff
  · exact forall_setStage (fun _ _ _ h => h.stage _) hv.chained
  · exact forall_setStage (fun _ _ _ h => h) hv.info_b
  · exact forall_setStage (fun _ _ _ _ e => by cases e) hv.status
  · simpa using hv.bufs_nodup
  · exact hv.bufDisk_move hr₀ hh₀ (by rw [hq₀]; decide) (by decide)
  · exact (List.nodup_cons.1 hnd).2
  · intro x
    show x ∈ window _ _ _ ↔ _
    rw [exists_setStage_head hv.heads_inj hr₀ hh₀ (fun _ _ => toU16_inj) .queued x, hrest]
    split
    · rename_i hx
      exact iff_of_false (fun h => h.1 hx.symm) (by simp)
    · rename_i hx
      exact (and_iff_right (Ne.symm hx)).trans (hv.avail_mem x)
  · refine List.nodup_append.2 ⟨hv.taken_nodup, List.nodup_singleton _, ?_⟩
    rintro a ha b hb rfl
    rw [List.mem_singleton, ← hh₀] at hb
    subst hb
    exact hv.not_key (fun _ _ => toU16_inj) hr₀ (by rw [hq₀]; decide) ((hv.taken_mem _).1 ha)
  · intro x
    rw [exists_setStage_head hv.heads_inj hr₀ hh₀ (fun _ _ => toU16_inj) .taken x, List.mem_append, List.mem_singleton, ← hh₀]
    split
    · rename_i hx
      exact iff_of_true (.inr hx.symm) rfl
    · rename_i hx
      exact (or_iff_left (Ne.symm hx)).trans (hv.taken_mem x)
  · exact hv.used_nodup
  · intro x
    rw [exists_setStage_head hv.heads_inj hr₀ hh₀ toU16_toUInt32_inj .reported x]
    split
    · rename_i hx
      subst hx
      exact iff_of_false (fun h => hv.not_key toU16_toUInt32_inj hr₀ (by rw [hq₀]; decide)
        ((hv.used_mem _).1 h)) (by simp)
    · exact hv.used_mem x

/-- The device reports a chain it holds: the status byte at its end written, its head
appended to the used window. -/
theorem complete (hv : v.Inv) {h : UInt16} (hs : v.step (.complete h) = some o) :
    ∃ v', o = .ok v' ∧ v'.Inv := by
  obtain ⟨ht, hok⟩ := step_complete hs
  obtain ⟨r₀, hr₀, ht₀, hh₀⟩ := (hv.taken_mem h).1 ht
  obtain rfl := hok r₀.head (hh₀ ▸ VDisk.statusOf_chained (hv.chained r₀ hr₀))
  have hwin : window (Function.update v.disk.used.ring (slot v.disk.used.idx) h.toUInt32)
      v.disk.usedIdx (v.disk.used.idx + 1) = v.usedWin ++ [h.toUInt32] :=
    window_push _ _ hv.used_lt
  refine ⟨_, rfl, ⟨?_, ?_, ?_, ?_, ?_, ?_, ?_, ?_, ?_, ?_, ?_, ?_, ?_⟩⟩
  · simpa [owned] using hv.owned_nodup
  · simpa [owned, VDisk.report] using hv.free_iff
  · exact forall_setStage (fun _ _ _ h => h.stage _) fun r hr => (hv.chained r hr).congr fun _ _ => rfl
  · exact forall_setStage (fun _ _ _ h => h) fun r hr => (VDisk.report_info_b ..).trans (hv.info_b r hr)
  · -- the status byte of `r₀` is now `0`, and those of the calls already reported still are
    refine forall_setStage (fun r hr hp _ _ => ?_) fun r hr hs => ?_
    · obtain rfl := hv.pick hr₀ hh₀ hr hp
      simp [VDisk.report_info_status]
    · rw [VDisk.report_info_status]
      split
      · rfl
      · exact hv.status r hr hs
  · simpa using hv.bufs_nodup
  · exact hv.bufDisk_move hr₀ hh₀ (by rw [ht₀]; decide) (by decide)
  · exact hv.avail_nodup
  · intro x
    rw [exists_setStage_head hv.heads_inj hr₀ hh₀ (fun _ _ => toU16_inj) .queued x]
    split
    · rename_i hx
      subst hx
      exact iff_of_false (fun hm => hv.not_key (fun _ _ => toU16_inj) hr₀ (by rw [ht₀]; decide)
        ((hv.avail_mem _).1 hm)) (by simp)
    · exact hv.avail_mem x
  · exact hv.taken_nodup.erase h
  · intro x
    rw [hv.taken_nodup.mem_erase_iff, exists_setStage_head hv.heads_inj hr₀ hh₀ (fun _ _ => toU16_inj) .taken x]
    split
    · rename_i hx
      exact iff_of_false (fun hm => hm.1 (hx.symm.trans hh₀)) (by simp)
    · rename_i hx
      exact (and_iff_right (fun e => hx (hh₀.trans e.symm))).trans (hv.taken_mem x)
  · change (window (Function.update v.disk.used.ring (slot v.disk.used.idx) h.toUInt32)
      v.disk.usedIdx (v.disk.used.idx + 1)).Nodup
    rw [hwin]
    refine List.nodup_append.2 ⟨hv.used_nodup, List.nodup_singleton _, ?_⟩
    rintro a ha b hb rfl
    rw [List.mem_singleton, ← hh₀] at hb
    subst hb
    exact hv.not_key toU16_toUInt32_inj hr₀ (by rw [ht₀]; decide) ((hv.used_mem _).1 ha)
  · intro x
    change x ∈ window (Function.update v.disk.used.ring (slot v.disk.used.idx) h.toUInt32)
      v.disk.usedIdx (v.disk.used.idx + 1) ↔ _
    rw [hwin, List.mem_append, List.mem_singleton,
      exists_setStage_head hv.heads_inj hr₀ hh₀ toU16_toUInt32_inj .reported x, ← hh₀]
    split
    · rename_i hx
      exact iff_of_true (.inr hx.symm) rfl
    · rename_i hx
      exact (or_iff_left (Ne.symm hx)).trans (hv.used_mem x)

theorem finish_stage_iff {t : Stage} (h1 : t ≠ .reported) (h2 : t ≠ .finished) (r : Req) :
    (if (r.stage == .reported) = true then Stage.finished else r.stage) = t ↔ r.stage = t := by
  by_cases e : r.stage = .reported
  · simp only [e, beq_self_eq_true, if_true]
    exact iff_of_false (Ne.symm h2) (Ne.symm h1)
  · simp [e]

/-- The used window holds chain heads the interrupt handler takes without a panic. -/
theorem ready (hv : v.Inv) : ∀ x ∈ v.usedWin, v.disk.Ready x := fun x hx => by
  obtain ⟨r, hr, hs, rfl⟩ := (hv.used_mem x).1 hx
  exact ⟨r.head, by simp, hv.status r hr hs, by simp [hv.info_b r hr]⟩

theorem mem_usedBufs (hv : v.Inv) (b : Nat) :
    b ∈ v.disk.usedBufs (v.disk.used.idx - v.disk.usedIdx).toNat ↔
      ∃ r ∈ v.reqs, r.stage = .reported ∧ r.b = b := by
  simp only [VDisk.usedBufs, List.mem_filterMap]
  constructor
  · rintro ⟨x, hx, hb⟩
    obtain ⟨r, hr, hs, rfl⟩ := (hv.used_mem x).1 hx
    rw [VDisk.infoBuf_toU16, hv.info_b r hr, Option.some.injEq] at hb
    exact ⟨r, hr, hs, hb⟩
  · rintro ⟨r, hr, hs, rfl⟩
    exact ⟨_, (hv.used_mem _).2 ⟨r, hr, hs, rfl⟩, by rw [VDisk.infoBuf_toU16, hv.info_b r hr]⟩

/-- `virtio_disk_intr` takes the whole used window and clears `b->disk` of the buffers
`info` names for it. -/
theorem virtioDiskIntr_eq (hv : v.Inv) :
    v.disk.virtioDiskIntr v.bufDisk = .ok ({ v.disk with usedIdx := v.disk.used.idx }, fun b =>
      if b ∈ v.disk.usedBufs (v.disk.used.idx - v.disk.usedIdx).toNat then false else v.bufDisk b) := by
  rw [VDisk.virtioDiskIntr, VDisk.intrLoop_spec _ _ hv.ready, VDisk.add_toNat_sub]

/-- The interrupt handler takes the reported calls and clears `b->disk` of their buffers, of
no other, and they are finished. -/
theorem intr (hv : v.Inv) (hs : v.step .intr = some o) : ∃ v', o = .ok v' ∧ v'.Inv := by
  rw [step_intr hs, hv.virtioDiskIntr_eq]
  refine ⟨_, rfl, ⟨?_, ?_, ?_, ?_, ?_, ?_, ?_, ?_, ?_, ?_, ?_, ?_, ?_⟩⟩
  · simpa [owned] using hv.owned_nodup
  · simpa [owned] using hv.free_iff
  · exact forall_setStage (fun _ _ _ h => h.stage _) fun r hr => (hv.chained r hr).congr fun _ _ => rfl
  · exact forall_setStage (fun _ _ _ h => h) hv.info_b
  · exact forall_setStage (fun _ _ _ _ e => by cases e) hv.status
  · simpa using hv.bufs_nodup
  · -- the reported calls' buffers are cleared, and only theirs
    intro r' hr'
    obtain ⟨r, hr, rfl⟩ := mem_setStage.1 hr'
    by_cases hp : r.stage = .reported
    · simp only [hp, beq_self_eq_true, if_true]
      rw [if_pos ((hv.mem_usedBufs r.b).2 ⟨r, hr, hp, rfl⟩)]
      rfl
    · have hn : r.b ∉ v.disk.usedBufs (v.disk.used.idx - v.disk.usedIdx).toNat := fun hm => by
        obtain ⟨r'', hr'', hs'', hb''⟩ := (hv.mem_usedBufs r.b).1 hm
        exact hp (hv.eq_of_b hr'' hr hb'' ▸ hs'')
      simp only [hp, beq_iff_eq, if_false]
      rw [if_neg hn]
      exact hv.bufDisk r hr
  · exact hv.avail_nodup
  · intro x
    rw [exists_setStage fun _ => Iff.rfl]
    simp only [finish_stage_iff (t := .queued) (by decide) (by decide)]
    exact hv.avail_mem x
  · exact hv.taken_nodup
  · intro x
    rw [exists_setStage fun _ => Iff.rfl]
    simp only [finish_stage_iff (t := .taken) (by decide) (by decide)]
    exact hv.taken_mem x
  · -- the used window is empty
    change (window _ v.disk.used.idx v.disk.used.idx).Nodup
    rw [window_self]
    exact List.nodup_nil
  · intro x
    change x ∈ window _ v.disk.used.idx v.disk.used.idx ↔ _
    rw [window_self, exists_setStage fun _ => Iff.rfl]
    refine iff_of_false (by simp) ?_
    rintro ⟨r, -, hs, -⟩
    by_cases e : r.stage = .reported <;> simp [e] at hs

theorem exists_erase_iff (hv : v.Inv) {r : Req} (hr : r.stage = .finished) {t : Stage}
    (ht : t ≠ .finished) {q : Req → Prop} :
    (∃ r' ∈ v.reqs.erase r, r'.stage = t ∧ q r') ↔ ∃ r' ∈ v.reqs, r'.stage = t ∧ q r' := by
  simp only [hv.reqs_nodup.mem_erase_iff]
  constructor
  · rintro ⟨r', ⟨-, hr'⟩, hs⟩
    exact ⟨r', hr', hs⟩
  · rintro ⟨r', hr', hs, hq⟩
    exact ⟨r', ⟨fun e => ht (hs ▸ e ▸ hr), hr'⟩, hs, hq⟩

/-- A call woken with `b->disk = 0` is finished: it clears `info[head].b` and frees its
chain, exactly its three descriptors, without a panic. -/
theorem finish (hv : v.Inv) {b : Nat} (hs : v.step (.finish b) = some o) :
    ∃ v', o = .ok v' ∧ v'.Inv := by
  obtain ⟨r, hr, rfl, hb, rfl⟩ := step_finish hs
  have hfin : r.stage = .finished := by
    have := (hv.bufDisk r hr).symm.trans hb
    simpa using this
  rw [VDisk.release_chained (hv.chained r hr) (hv.descs_nodup hr) fun i hi => hv.not_free hr hi]
  have hmem : ∀ r', r' ∈ v.reqs.erase r ↔ r' ≠ r ∧ r' ∈ v.reqs := fun _ => hv.reqs_nodup.mem_erase_iff
  have hperm := ((List.perm_cons_erase hr).flatMap_right Req.descs).trans (by rw [List.flatMap_cons])
  have hsplit := List.nodup_append.1 (hperm.nodup_iff.1 hv.owned_nodup)
  have hown : ∀ i, i ∈ v.owned ↔ i ∈ r.descs ∨ i ∈ (v.reqs.erase r).flatMap Req.descs := fun i => by
    rw [owned, hperm.mem_iff, List.mem_append]
  have hdis : ∀ r' ∈ v.reqs.erase r, ∀ i ∈ r'.descs, i ∉ r.descs := fun r' hr' i hi hi' => by
    have := (hmem r').1 hr'
    exact this.1 (eq_of_mem_descs hv.owned_nodup this.2 hr hi hi')
  have hhead : ∀ r' ∈ v.reqs.erase r, r'.head ≠ r.head := fun r' hr' e =>
    hdis r' hr' r'.head (by simp [Req.descs]) (by simp [Req.descs, e])
  refine ⟨_, rfl, ⟨?_, ?_, ?_, ?_, ?_, ?_, ?_, ?_, ?_, ?_, ?_, ?_, ?_⟩⟩
  · exact hsplit.2.1
  · intro i
    show (if i ∈ r.descs then true else v.disk.free i) = true ↔ _
    split
    · rename_i hi
      exact iff_of_true rfl fun h' => hsplit.2.2 i hi i h' rfl
    · rename_i hi
      rw [hv.free_iff, hown, or_iff_right hi]
      rfl
  · intro r' hr'
    refine (hv.chained r' ((hmem r').1 hr').2).congr fun i hi => ?_
    show (if i ∈ r.descs then Desc.zero else v.disk.desc i) = _
    rw [if_neg (hdis r' hr' i hi)]
  · intro r' hr'
    show (Function.update v.disk.info r.head _ r'.head).b = _
    rw [Function.update_of_ne (hhead r' hr')]
    exact hv.info_b r' ((hmem r').1 hr').2
  · intro r' hr' hs'
    show (Function.update v.disk.info r.head _ r'.head).status = _
    rw [Function.update_of_ne (hhead r' hr')]
    exact hv.status r' ((hmem r').1 hr').2 hs'
  · exact hv.bufs_nodup.sublist (List.erase_sublist.map _)
  · exact fun r' hr' => hv.bufDisk r' ((hmem r').1 hr').2
  · exact hv.avail_nodup
  · exact fun x => (hv.avail_mem x).trans (hv.exists_erase_iff hfin (by decide)).symm
  · exact hv.taken_nodup
  · exact fun x => (hv.taken_mem x).trans (hv.exists_erase_iff hfin (by decide)).symm
  · exact hv.used_nodup
  · exact fun x => (hv.used_mem x).trans (hv.exists_erase_iff hfin (by decide)).symm

/-- A call of `virtio_disk_rw`: either `alloc3_desc` took three free descriptors, which now
hold the call's chain, and its head joins the avail window; or `alloc3_desc` failed and gave
back what it took, so that only free descriptors changed. -/
theorem rw (hv : v.Inv) {b blockno : Nat} {write : Bool} (hs : v.step (.rw b blockno write) = some o) :
    ∃ v', o = .ok v' ∧ v'.Inv := by
  obtain ⟨hb, ⟨i0, i1, i2, hn, hf, rfl⟩ | ⟨g, hg, rfl⟩⟩ := step_rw hs
  · have hfresh : ∀ i ∈ [i0, i1, i2], i ∉ v.owned := fun i hi => (hv.free_iff i).1 (hf i hi)
    have hout : ∀ r ∈ v.reqs, ∀ i ∈ r.descs, i ∉ [i0, i1, i2] := fun r hr i hi hi' =>
      hfresh i hi' (mem_owned hr hi)
    have hhead : ∀ r ∈ v.reqs, r.head ≠ i0 := fun r hr e =>
      hout r hr r.head (by simp [Req.descs]) (by simp [e])
    have hown : ∀ i, i ∈ (v.reqs ++ [(⟨b, write, i0, i1, i2, .queued⟩ : Req)]).flatMap Req.descs ↔
        i ∈ v.owned ∨ i ∈ [i0, i1, i2] := fun i => by
      rw [List.flatMap_append, List.flatMap_singleton, List.mem_append]
      rfl
    have hwin : window (Function.update v.disk.avail.ring (slot v.disk.avail.idx) (toU16 i0))
        v.lastAvail (v.disk.avail.idx + 1) = v.availWin ++ [toU16 i0] :=
      window_push _ _ hv.avail_lt
    refine ⟨_, rfl, ⟨?_, ?_, ?_, ?_, ?_, ?_, ?_, ?_, ?_, ?_, ?_, ?_, ?_⟩⟩
    · show ((v.reqs ++ [_]).flatMap Req.descs).Nodup
      rw [List.flatMap_append, List.flatMap_singleton]
      exact List.nodup_append.2 ⟨hv.owned_nodup, hn, fun a ha c hc e => hfresh c hc (e ▸ ha)⟩
    · intro i
      show (if i ∈ [i0, i1, i2] then false else v.disk.free i) = true ↔
        i ∉ (v.reqs ++ [_]).flatMap Req.descs
      rw [hown]
      split
      · rename_i hi
        exact iff_of_false (by simp) fun h' => h' (.inr hi)
      · rename_i hi
        rw [hv.free_iff, or_iff_left hi]
    · intro r hr
      rcases List.mem_append.1 hr with hr | hr
      · exact (hv.chained r hr).congr fun i hi => VDisk.submit_desc_of_not_mem (hout r hr i hi)
      · rw [List.mem_singleton.1 hr]
        exact VDisk.chained_submit hn _
    · intro r hr
      rcases List.mem_append.1 hr with hr | hr
      · show (Function.update v.disk.info i0 _ r.head).b = _
        rw [Function.update_of_ne (hhead r hr)]
        exact hv.info_b r hr
      · rw [List.mem_singleton.1 hr]
        simp [VDisk.submit]
    · intro r hr hs
      rcases List.mem_append.1 hr with hr | hr
      · show (Function.update v.disk.info i0 _ r.head).status = _
        rw [Function.update_of_ne (hhead r hr)]
        exact hv.status r hr hs
      · rw [List.mem_singleton.1 hr] at hs
        cases hs
    · rw [List.map_append, List.map_singleton]
      exact List.nodup_append.2 ⟨hv.bufs_nodup, List.nodup_singleton _, fun a ha c hc e => by
        obtain ⟨r, hr, rfl⟩ := List.mem_map.1 ha
        exact hb r hr (e.trans (List.mem_singleton.1 hc))⟩
    · intro r hr
      rcases List.mem_append.1 hr with hr | hr
      · show Function.update v.bufDisk b true r.b = _
        rw [Function.update_of_ne (hb r hr)]
        exact hv.bufDisk r hr
      · rw [List.mem_singleton.1 hr]
        simp
    · change (window (Function.update v.disk.avail.ring (slot v.disk.avail.idx) (toU16 i0))
        v.lastAvail (v.disk.avail.idx + 1)).Nodup
      rw [hwin]
      refine List.nodup_append.2 ⟨hv.avail_nodup, List.nodup_singleton _, fun a ha c hc e => ?_⟩
      obtain ⟨r, hr, -, hk⟩ := (hv.avail_mem a).1 ha
      exact hhead r hr (toU16_inj (hk.trans (e.trans (List.mem_singleton.1 hc))))
    · intro x
      change x ∈ window (Function.update v.disk.avail.ring (slot v.disk.avail.idx) (toU16 i0))
        v.lastAvail (v.disk.avail.idx + 1) ↔ _
      rw [hwin, List.mem_append, List.mem_singleton, exists_mem_concat, hv.avail_mem]
      exact or_congr_right ⟨fun e => ⟨rfl, e.symm⟩, fun e => e.2.symm⟩
    · exact hv.taken_nodup
    · exact fun x => (hv.taken_mem x).trans (exists_mem_concat.trans (or_iff_left fun h => by cases h.1)).symm
    · exact hv.used_nodup
    · exact fun x => (hv.used_mem x).trans (exists_mem_concat.trans (or_iff_left fun h => by cases h.1)).symm
  · -- `alloc3_desc` failed: only free descriptors were cleared
    have hout : ∀ r ∈ v.reqs, ∀ i ∈ r.descs, i ∉ g := fun r hr i hi hi' => by
      have := hg i hi'
      rw [hv.not_free hr hi] at this
      cases this
    exact ⟨_, rfl, ⟨hv.owned_nodup, hv.free_iff,
      fun r hr => (hv.chained r hr).congr fun i hi => by simp [hout r hr i hi],
      hv.info_b, hv.status, hv.bufs_nodup, hv.bufDisk, hv.avail_nodup, hv.avail_mem, hv.taken_nodup,
      hv.taken_mem, hv.used_nodup, hv.used_mem⟩⟩

theorem step_ok (hv : v.Inv) {a : VAct} (hs : v.step a = some o) : ∃ v', o = .ok v' ∧ v'.Inv := by
  cases a with
  | rw b blockno write => exact hv.rw hs
  | finish b => exact hv.finish hs
  | intr => exact hv.intr hs
  | fetch => exact hv.fetch hs
  | complete h => exact hv.complete hs

end Inv

theorem run_inv {acts : List VAct} {v : VSys} (hrun : Outcome.run step boot acts = some (.ok v)) :
    v.Inv :=
  Outcome.run_inv Inv (fun _ _ _ hi hs => by
    obtain ⟨_, he, hv'⟩ := hi.step_ok hs
    exact Except.ok.inj he ▸ hv') boot_inv hrun

theorem Inv.intr_bufDisk {v : VSys} (hv : v.Inv) {o : Except String VSys} (hs : v.step .intr = some o) :
    ∃ v', o = .ok v' ∧
      (∀ r ∈ v.reqs, (toU16 r.head).toUInt32 ∈ v.usedWin → v'.bufDisk r.b = false) ∧
      ∀ b, (∀ r ∈ v.reqs, (toU16 r.head).toUInt32 ∈ v.usedWin → r.b ≠ b) → v'.bufDisk b = v.bufDisk b := by
  rw [step_intr hs, hv.virtioDiskIntr_eq]
  refine ⟨_, rfl, fun r hr hx => ?_, fun b hb => ?_⟩
  · obtain ⟨r', hr', hs', he⟩ := (hv.used_mem _).1 hx
    obtain rfl := hv.eq_of_head hr' hr (toU16_toUInt32_inj he)
    exact if_pos ((hv.mem_usedBufs r'.b).2 ⟨r', hr', hs', rfl⟩)
  · refine if_neg fun hm => ?_
    obtain ⟨r, hr, hs', rfl⟩ := (hv.mem_usedBufs b).1 hm
    exact hb r hr ((hv.used_mem _).2 ⟨r, hr, hs', rfl⟩) rfl

/-- In every state that any interleaving of calls of `virtio_disk_rw`, runs of
`virtio_disk_intr` and device steps reaches from boot, with the 16-bit counters wrapped any
number of times: the free descriptors and those of the calls in flight partition the `NUM`
descriptors, each call's three linked head → data → status with `VRING_DESC_F_NEXT` on the
first two only; `alloc3_desc` takes three free descriptors, or gives back what it took with
`free[]` as it was; `free_chain` of a call frees exactly its three descriptors; `info[head].b`
is the call's buffer, and the interrupt handler clears `b->disk` of exactly the calls whose
heads the device put in the used ring; and no step panics. -/
theorem virtio_bookkeeping {acts : List VAct} {v : VSys}
    (hrun : Outcome.run step boot acts = some (.ok v)) :
    (v.owned.Nodup ∧ (∀ i, v.disk.free i = true ↔ i ∉ v.owned) ∧
      ∀ r ∈ v.reqs, Chained v.disk r ∧
        (v.disk.desc r.head).next = toU16 r.data ∧ (v.disk.desc r.data).next = toU16 r.stat ∧
        (v.disk.desc r.head).flags &&& VRING_DESC_F_NEXT ≠ 0 ∧
        (v.disk.desc r.data).flags &&& VRING_DESC_F_NEXT ≠ 0 ∧
        (v.disk.desc r.stat).flags &&& VRING_DESC_F_NEXT = 0) ∧
    ((∃ i0 i1 i2 : Fin NUM, [i0, i1, i2].Nodup ∧ (∀ i ∈ [i0, i1, i2], v.disk.free i = true) ∧
        v.disk.alloc3Desc = .ok (v.disk.withUsed [i0, i1, i2], some [i0, i1, i2])) ∨
      ∃ d', v.disk.alloc3Desc = .ok (d', none) ∧ d'.free = v.disk.free ∧
        ∀ i, d'.desc i = v.disk.desc i ∨ v.disk.free i = true ∧ d'.desc i = Desc.zero) ∧
    (∀ r ∈ v.reqs, v.disk.release r.head = .ok ({ v.disk with
      info := Function.update v.disk.info r.head ⟨none, (v.disk.info r.head).status⟩ }.withFreed r.descs)) ∧
    (∀ r ∈ v.reqs, (v.disk.info r.head).b = some r.b) ∧
    (∀ o, v.step .intr = some o → ∃ v', o = .ok v' ∧
      (∀ r ∈ v.reqs, (toU16 r.head).toUInt32 ∈ v.usedWin → v'.bufDisk r.b = false) ∧
      ∀ b, (∀ r ∈ v.reqs, (toU16 r.head).toUInt32 ∈ v.usedWin → r.b ≠ b) → v'.bufDisk b = v.bufDisk b) ∧
    ∀ a o, v.step a = some o → ∃ v', o = .ok v' := by
  have hv := run_inv hrun
  refine ⟨⟨hv.owned_nodup, hv.free_iff, fun r hr => ⟨hv.chained r hr, (hv.chained r hr).links⟩⟩,
    VDisk.alloc3Desc_spec v.disk,
    fun r hr => VDisk.release_chained (hv.chained r hr) (hv.descs_nodup hr) fun i hi => hv.not_free hr hi,
    hv.info_b, fun o hs => hv.intr_bufDisk hs, fun a o hs => ?_⟩
  obtain ⟨v', rfl, -⟩ := hv.step_ok hs
  exact ⟨v', rfl⟩

/-- Two calls, a read of block `10` into buffer `1` and a write of block `11` from buffer `2`;
the device reads the first chain and reports it, the interrupt handler sees it, and the first
call ends while the second is still queued. -/
theorem virtio_bookkeeping_twoCalls :
    ∃ v, Outcome.run step boot [.rw 1 10 false, .rw 2 11 true, .fetch, .complete 0, .intr, .finish 1] =
        some (.ok v) ∧
    (v.owned.Nodup ∧ (∀ i, v.disk.free i = true ↔ i ∉ v.owned) ∧
      ∀ r ∈ v.reqs, Chained v.disk r ∧
        (v.disk.desc r.head).next = toU16 r.data ∧ (v.disk.desc r.data).next = toU16 r.stat ∧
        (v.disk.desc r.head).flags &&& VRING_DESC_F_NEXT ≠ 0 ∧
        (v.disk.desc r.data).flags &&& VRING_DESC_F_NEXT ≠ 0 ∧
        (v.disk.desc r.stat).flags &&& VRING_DESC_F_NEXT = 0) ∧
    ((∃ i0 i1 i2 : Fin NUM, [i0, i1, i2].Nodup ∧ (∀ i ∈ [i0, i1, i2], v.disk.free i = true) ∧
        v.disk.alloc3Desc = .ok (v.disk.withUsed [i0, i1, i2], some [i0, i1, i2])) ∨
      ∃ d', v.disk.alloc3Desc = .ok (d', none) ∧ d'.free = v.disk.free ∧
        ∀ i, d'.desc i = v.disk.desc i ∨ v.disk.free i = true ∧ d'.desc i = Desc.zero) ∧
    (∀ r ∈ v.reqs, v.disk.release r.head = .ok ({ v.disk with
      info := Function.update v.disk.info r.head ⟨none, (v.disk.info r.head).status⟩ }.withFreed r.descs)) ∧
    (∀ r ∈ v.reqs, (v.disk.info r.head).b = some r.b) ∧
    (∀ o, v.step .intr = some o → ∃ v', o = .ok v' ∧
      (∀ r ∈ v.reqs, (toU16 r.head).toUInt32 ∈ v.usedWin → v'.bufDisk r.b = false) ∧
      ∀ b, (∀ r ∈ v.reqs, (toU16 r.head).toUInt32 ∈ v.usedWin → r.b ≠ b) → v'.bufDisk b = v.bufDisk b) ∧
    ∀ a o, v.step a = some o → ∃ v', o = .ok v' := by
  -- the run is computed once, by the kernel: one call is left, queued
  have hrun : Outcome.holds (fun v => v.reqs.length == 1)
      (Outcome.run step boot [.rw 1 10 false, .rw 2 11 true, .fetch, .complete 0, .intr, .finish 1]) = true := by
    decide +kernel
  obtain ⟨v, hv, -⟩ := Outcome.exists_of_holds hrun
  exact ⟨v, hv, virtio_bookkeeping hv⟩

end VSys

end Virtio

end Xv6
