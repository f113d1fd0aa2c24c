import Xv6.Lib.DList
import Xv6.Lib.Outcome
import Xv6.Param
import Mathlib.Data.Fintype.Card

/-!
# The buffer cache

`kernel/bio.c`.  `NBUF` buffers on a circular doubly linked list through `bcache.head`,
most recently released first.  Every function runs under `bcache.lock` from its
`acquire` to its `release`, so each is one atomic step on the cache; a buffer's
sleep-lock is not modelled (a process uses a buffer only between its `bget` and its
`brelse`).  `bread` is `bget` followed by `fill`, the disk read a holder does when the
buffer is not valid.

The cache is used by any number of processes: `BSys` keeps, next to the cache and the
disk, the outstanding `bget` references (`held`) and the outstanding pins (`pins`) as
multisets, and `bstep` lets a process release or use only a buffer it holds and unpin
only a pinned one.  `bcache_coherent` states the four properties of every reachable
state: one circular list with every buffer once, `refcnt` counting references and
pins, at most one live buffer per block (the one every `bget` of it returns), and
recycling only of buffers with `refcnt = 0`.
-/

namespace Xv6

open DList

/-- `struct buf`, less its sleep-lock, the driver's `disk` flag and its list links (kept
in `BCache.links`). -/
structure Buf where
  valid : Bool
  dev : Nat
  blockno : Nat
  refcnt : Nat
  data : Block

/-- `bcache`: the buffers, and the `next`/`prev` links of the buffers and of `head`. -/
structure BCache where
  buf : Fin NBUF → Buf
  links : Links (Fin NBUF)

/-! ## The functions of `bio.c` -/

/-- `binit`: buffers as the static zero-initialised array leaves them, each pushed after
the head in index order. -/
def binit : BCache :=
  { buf := fun _ => ⟨false, 0, 0, 0, fun _ => 0⟩
    links := (List.finRange NBUF).foldl pushFront empty }

/-- The test of `bget`'s first loop: `b->dev == dev && b->blockno == blockno`. -/
def BCache.holds (c : BCache) (dev blockno : Nat) (b : Fin NBUF) : Bool :=
  (c.buf b).dev == dev && (c.buf b).blockno == blockno

/-- The first loop of `bget`: from `head.next` forward, a buffer holding the block. -/
def BCache.lookup (c : BCache) (dev blockno : Nat) : Option (Fin NBUF) :=
  findNext c.links (c.holds dev blockno) NBUF (c.links.next none)

/-- The second loop of `bget`: from `head.prev` backward, a buffer with `refcnt == 0`. -/
def BCache.victim (c : BCache) : Option (Fin NBUF) :=
  findPrev c.links (fun b => (c.buf b).refcnt == 0) NBUF (c.links.prev none)

/-- `c` with buffer `b` replaced. -/
def BCache.set (c : BCache) (b : Fin NBUF) (x : Buf) : BCache :=
  { c with buf := Function.update c.buf b x }

/-- `bget`: the cached buffer of the block with one more reference, or else the least
recently used unreferenced buffer, recycled for the block. -/
def bget (c : BCache) (dev blockno : Nat) : Except String (BCache × Fin NBUF) :=
  match c.lookup dev blockno with
  | some b => .ok (c.set b { c.buf b with refcnt := (c.buf b).refcnt + 1 }, b)
  | none =>
    match c.victim with
    | some b => .ok (c.set b { c.buf b with dev, blockno, valid := false, refcnt := 1 }, b)
    | none => .error "bget: no buffers"

/-- The rest of `bread` for the holder of `b`: read the block if the buffer is not valid. -/
def fill (c : BCache) (disk : Disk) (b : Fin NBUF) : BCache :=
  if (c.buf b).valid then c
  else c.set b { c.buf b with data := disk (c.buf b).blockno, valid := true }

/-- `bread`. -/
def bread (c : BCache) (disk : Disk) (dev blockno : Nat) : Except String (BCache × Fin NBUF) :=
  (bget c dev blockno).map fun r => (fill r.1 disk r.2, r.2)

/-- `bwrite`: the disk with the buffer's contents at its block. -/
def bwrite (c : BCache) (disk : Disk) (b : Fin NBUF) : Disk :=
  Function.update disk (c.buf b).blockno (c.buf b).data

/-- `brelse`: one reference less; the last one moves the buffer to the front. -/
def brelse (c : BCache) (b : Fin NBUF) : BCache :=
  let c := c.set b { c.buf b with refcnt := (c.buf b).refcnt - 1 }
  if (c.buf b).refcnt = 0 then { c with links := pushFront (unlink c.links b) b } else c

/-- `bpin`. -/
def bpin (c : BCache) (b : Fin NBUF) : BCache :=
  c.set b { c.buf b with refcnt := (c.buf b).refcnt + 1 }

/-- `bunpin`. -/
def bunpin (c : BCache) (b : Fin NBUF) : BCache :=
  c.set b { c.buf b with refcnt := (c.buf b).refcnt - 1 }

@[simp] theorem BCache.set_buf_self (c : BCache) (b : Fin NBUF) (x : Buf) :
    (c.set b x).buf b = x := by
  simp [BCache.set]

@[simp] theorem BCache.set_buf_of_ne (c : BCache) {b b' : Fin NBUF} (x : Buf) (h : b' ≠ b) :
    (c.set b x).buf b' = c.buf b' := by
  simp [BCache.set, Function.update_of_ne h]

@[simp] theorem BCache.set_links (c : BCache) (b : Fin NBUF) (x : Buf) :
    (c.set b x).links = c.links := rfl

/-! ## The order invariant -/

/-- A buffer is live when it is valid or referenced: its contents are then the block's. -/
def Buf.live (x : Buf) : Prop := x.valid = true ∨ 0 < x.refcnt

/-- The links represent the list `L` of all buffers, and every live buffer is the first
buffer of `L` that holds its block: the one `bget`'s first loop finds. -/
structure BCache.Ordered (c : BCache) (L : List (Fin NBUF)) : Prop where
  links : Represents c.links L
  all : ∀ b, b ∈ L
  first : ∀ b, (c.buf b).live → L.find? (c.holds (c.buf b).dev (c.buf b).blockno) = some b

theorem BCache.Ordered.length_le {c : BCache} {L : List (Fin NBUF)} (h : c.Ordered L) :
    L.length ≤ NBUF := by
  have := h.links.1.length_le_card
  simpa using this

theorem BCache.Ordered.lookup_eq {c : BCache} {L : List (Fin NBUF)} (h : c.Ordered L)
    (dev blockno : Nat) : c.lookup dev blockno = L.find? (c.holds dev blockno) :=
  findNext_eq h.links _ h.length_le

theorem BCache.Ordered.victim_eq {c : BCache} {L : List (Fin NBUF)} (h : c.Ordered L) :
    c.victim = L.reverse.find? (fun b => (c.buf b).refcnt == 0) :=
  findPrev_eq h.links _ h.length_le

theorem BCache.holds_with_links (c : BCache) (k : Links (Fin NBUF)) :
    ({ c with links := k } : BCache).holds = c.holds := rfl

theorem BCache.holds_set_of_ne (c : BCache) {b y : Fin NBUF} (x : Buf) (h : y ≠ b)
    (dev blockno : Nat) : (c.set b x).holds dev blockno y = c.holds dev blockno y := by
  simp [BCache.holds, h]

theorem BCache.Ordered.unique {c : BCache} {L : List (Fin NBUF)} (h : c.Ordered L)
    {b b' : Fin NBUF} (hb : (c.buf b).live) (hb' : (c.buf b').live)
    (hdev : (c.buf b).dev = (c.buf b').dev) (hblk : (c.buf b).blockno = (c.buf b').blockno) :
    b = b' := by
  have h1 := h.first b hb
  have h2 := h.first b' hb'
  rw [hdev, hblk, h2] at h1
  exact (Option.some.inj h1).symm

/-- Replacing a buffer by one holding the same block keeps the order invariant, when the
new buffer is live only if it is the first holder of its block. -/
theorem BCache.Ordered.set {c : BCache} {L : List (Fin NBUF)} (h : c.Ordered L) (b : Fin NBUF)
    (x : Buf) (hdev : x.dev = (c.buf b).dev) (hblk : x.blockno = (c.buf b).blockno)
    (hlive : x.live → L.find? (c.holds x.dev x.blockno) = some b) : (c.set b x).Ordered L := by
  have hh : (c.set b x).holds = c.holds := by
    funext dev blockno y
    by_cases hy : y = b
    · subst hy; simp [BCache.holds, hdev, hblk]
    · exact c.holds_set_of_ne x hy dev blockno
  refine ⟨h.links, h.all, fun y hy => ?_⟩
  rw [hh]
  by_cases hyb : y = b
  · subst hyb
    simp only [BCache.set_buf_self] at hy ⊢
    exact hlive hy
  · simp only [BCache.set_buf_of_ne _ _ hyb] at hy ⊢
    exact h.first y hy

theorem BCache.Ordered.set_of_live {c : BCache} {L : List (Fin NBUF)} (h : c.Ordered L)
    {b : Fin NBUF} (hb : (c.buf b).live) (x : Buf) (hdev : x.dev = (c.buf b).dev)
    (hblk : x.blockno = (c.buf b).blockno) : (c.set b x).Ordered L :=
  h.set b x hdev hblk fun _ => by rw [hdev, hblk]; exact h.first b hb

/-- What `bget` does on an ordered cache: a hit returns the first holder of the block with
one more reference; a miss happens only when no buffer holds the block, and recycles an
unreferenced buffer. -/
theorem BCache.Ordered.bget_cases {c c' : BCache} {L : List (Fin NBUF)} (h : c.Ordered L)
    {dev blockno : Nat} {b : Fin NBUF} (hb : bget c dev blockno = .ok (c', b)) :
    (L.find? (c.holds dev blockno) = some b ∧
        c' = c.set b { c.buf b with refcnt := (c.buf b).refcnt + 1 }) ∨
      ((∀ y, c.holds dev blockno y = false) ∧ (c.buf b).refcnt = 0 ∧
        c' = c.set b { c.buf b with dev, blockno, valid := false, refcnt := 1 }) := by
  unfold bget at hb
  rw [h.lookup_eq] at hb
  cases hf : L.find? (c.holds dev blockno) with
  | some b0 =>
    rw [hf] at hb
    simp only [Except.ok.injEq, Prod.mk.injEq] at hb
    obtain ⟨rfl, rfl⟩ := hb
    exact Or.inl ⟨rfl, rfl⟩
  | none =>
    rw [hf] at hb
    simp only at hb
    rw [h.victim_eq] at hb
    cases hv : L.reverse.find? (fun b => (c.buf b).refcnt == 0) with
    | none => rw [hv] at hb; cases hb
    | some b0 =>
      rw [hv] at hb
      simp only [Except.ok.injEq, Prod.mk.injEq] at hb
      obtain ⟨rfl, rfl⟩ := hb
      refine Or.inr ⟨fun y => ?_, by simpa using List.find?_some hv, rfl⟩
      rw [List.find?_eq_none] at hf
      simpa using hf y (h.all y)

theorem BCache.Ordered.bget {c c' : BCache} {L : List (Fin NBUF)} (h : c.Ordered L)
    {dev blockno : Nat} {b : Fin NBUF} (hb : bget c dev blockno = .ok (c', b)) :
    c'.Ordered L := by
  rcases h.bget_cases hb with ⟨hf, rfl⟩ | ⟨hnone, _, rfl⟩
  · -- a hit: the buffer found is the first holder of its block
    have hbh : c.holds dev blockno b = true := List.find?_some hf
    simp only [BCache.holds, Bool.and_eq_true, beq_iff_eq] at hbh
    refine h.set b _ rfl rfl (fun _ => ?_)
    simpa [hbh.1, hbh.2] using hf
  · -- a miss: the recycled buffer is the only holder of the block
    refine ⟨h.links, h.all, fun y hy => ?_⟩
    by_cases hyb : y = b
    · subst hyb
      apply find?_eq_some_of_unique (h.all y) (by simp [BCache.holds])
      intro z hz
      rw [BCache.holds_set_of_ne _ _ hz]
      simpa using hnone z
    · simp only [BCache.set_buf_of_ne _ _ hyb] at hy ⊢
      apply find?_congr_of_ne (h.first y hy) hyb
      · -- the recycled buffer's new block is held by no buffer, so not `y`'s
        have hy' : ¬ ((c.buf y).dev = dev ∧ (c.buf y).blockno = blockno) := by
          simpa [BCache.holds] using hnone y
        simp only [BCache.holds, BCache.set_buf_self]
        by_cases h1 : dev = (c.buf y).dev
        · have h2 : blockno ≠ (c.buf y).blockno := fun h2 => hy' ⟨h1.symm, h2.symm⟩
          simp [h2]
        · simp [h1]
      · intro z hz
        rw [BCache.holds_set_of_ne _ _ hz]

/-- `brelse` keeps the order; the last reference moves the buffer to the front. -/
theorem BCache.Ordered.brelse {c : BCache} {L : List (Fin NBUF)} (h : c.Ordered L)
    {b : Fin NBUF} (hpos : 0 < (c.buf b).refcnt) :
    (Xv6.brelse c b).Ordered
      (if (c.buf b).refcnt - 1 = 0 then b :: L.eraseIdx (L.idxOf b) else L) := by
  have hlive : (c.buf b).live := Or.inr hpos
  unfold Xv6.brelse
  simp only [BCache.set_buf_self]
  by_cases h0 : (c.buf b).refcnt - 1 = 0
  · rw [if_pos h0, if_pos h0]
    have hm : L.idxOf b < L.length := List.idxOf_lt_length_iff.2 (h.all b)
    have hLm : L[L.idxOf b] = b := List.getElem_idxOf hm
    have hrep := represents_moveFront h.links hm
    rw [hLm] at hrep
    refine ⟨hrep, fun y => ?_, fun y hy => ?_⟩
    · by_cases hyb : y = b
      · exact hyb ▸ List.mem_cons_self
      · refine List.mem_cons_of_mem _ (List.mem_eraseIdx_iff_getElem.2 ?_)
        obtain ⟨i, hi, hiy⟩ := List.getElem_of_mem (h.all y)
        exact ⟨i, hi, fun e => hyb (by rw [← hiy, ← hLm]; simp [e]), hiy⟩
    · by_cases hyb : y = b
      · subst hyb
        simp [BCache.holds, BCache.set]
      · simp only [BCache.set_buf_of_ne _ _ hyb] at hy ⊢
        have hh : (c.set b { c.buf b with refcnt := (c.buf b).refcnt - 1 }).holds = c.holds := by
          funext dev blockno z
          by_cases hz : z = b
          · subst hz; simp [BCache.holds]
          · exact c.holds_set_of_ne _ hz dev blockno
        rw [BCache.holds_with_links, hh]
        -- `b` was live, so it does not hold `y`'s block
        have hnb : c.holds (c.buf y).dev (c.buf y).blockno b = false := by
          by_contra hc
          simp only [BCache.holds, Bool.not_eq_false, Bool.and_eq_true, beq_iff_eq] at hc
          exact hyb (h.unique hy hlive hc.1.symm hc.2.symm)
        have he : (L.eraseIdx (L.idxOf b)).find? (c.holds (c.buf y).dev (c.buf y).blockno) =
            L.find? (c.holds (c.buf y).dev (c.buf y).blockno) :=
          find?_eraseIdx_of_not hm (by rw [hLm]; exact hnb)
        simp only [List.find?_cons, hnb]
        rw [he]
        exact h.first y hy
  · rw [if_neg h0, if_neg h0]
    exact h.set_of_live hlive _ rfl rfl

theorem binit_ordered : binit.Ordered (List.finRange NBUF).reverse where
  links := by
    have := represents_foldl_pushFront represents_empty (List.finRange NBUF)
      (List.nodup_finRange NBUF) (by simp)
    simpa [binit] using this
  all := by simp
  first := by simp [Buf.live, binit]

@[simp] theorem brelse_buf (c : BCache) (b : Fin NBUF) :
    (Xv6.brelse c b).buf = (c.set b { c.buf b with refcnt := (c.buf b).refcnt - 1 }).buf := by
  unfold Xv6.brelse
  dsimp only
  split <;> rfl

theorem fill_eq (c : BCache) (disk : Disk) (b : Fin NBUF) :
    fill c disk b = c.set b (if (c.buf b).valid then c.buf b
      else { c.buf b with data := disk (c.buf b).blockno, valid := true }) := by
  unfold fill BCache.set
  split
  · simp
  · rfl

/-! ## The cache shared by processes -/

/-- The cache, the disk, and the outstanding references of all processes: `held` has a
buffer once per `bget` not yet matched by a `brelse`, `pins` once per `bpin` not yet
matched by a `bunpin`. -/
structure BSys where
  cache : BCache
  disk : Disk
  held : List (Fin NBUF)
  pins : List (Fin NBUF)

/-- What a process may do with the cache. -/
inductive BAct where
  | bget (dev blockno : Nat)
  /-- the rest of `bread` after its `bget` -/
  | fill (b : Fin NBUF)
  /-- a holder changes the buffer's contents -/
  | store (b : Fin NBUF) (data : Block)
  | bwrite (b : Fin NBUF)
  | brelse (b : Fin NBUF)
  | bpin (b : Fin NBUF)
  | bunpin (b : Fin NBUF)

/-- Buffers compare by their index: the tests of membership in `held` and `pins` use it. -/
instance : LawfulBEq (Fin NBUF) := inferInstance

/-- One step: `none` if the action is not a holder's (`fill`, `store`, `bwrite`,
`brelse`, and `bpin` as `log_write` calls it, use a buffer the caller got from `bget`;
`bunpin` matches a `bpin`), `some (.error msg)` for `bget`'s panic. -/
def bstep (s : BSys) : BAct → Option (Except String BSys)
  | .bget dev blockno =>
    some ((Xv6.bget s.cache dev blockno).map fun r =>
      { s with cache := r.1, held := r.2 :: s.held })
  | .fill b => if b ∈ s.held then some (.ok { s with cache := fill s.cache s.disk b }) else none
  | .store b data =>
    if b ∈ s.held then some (.ok { s with cache := s.cache.set b { s.cache.buf b with data } })
    else none
  | .bwrite b =>
    if b ∈ s.held then some (.ok { s with disk := Xv6.bwrite s.cache s.disk b }) else none
  | .brelse b =>
    if b ∈ s.held then some (.ok { s with cache := Xv6.brelse s.cache b, held := s.held.erase b })
    else none
  | .bpin b =>
    if b ∈ s.held then some (.ok { s with cache := bpin s.cache b, pins := b :: s.pins })
    else none
  | .bunpin b =>
    if b ∈ s.pins then some (.ok { s with cache := bunpin s.cache b, pins := s.pins.erase b })
    else none

/-- A run of actions: the final state, a panic, or `none` if some action could not be
taken. -/
def bexec (s : BSys) : List BAct → Option (Except String BSys)
  | [] => some (.ok s)
  | a :: as =>
    match bstep s a with
    | some (.ok s') => bexec s' as
    | r => r

/-- After `binit`, with nothing referenced. -/
def BSys.init (disk : Disk) : BSys := { cache := binit, disk, held := [], pins := [] }

/-! ## Inversion: what each step can do -/

private theorem guard_ok {α ε : Type} {p : Prop} [Decidable p] {x y : α}
    (h : (if p then some (Except.ok x : Except ε α) else none) = some (.ok y)) : p ∧ y = x := by
  by_cases hp : p
  · rw [if_pos hp] at h
    simp only [Option.some.injEq, Except.ok.injEq] at h
    exact ⟨hp, h.symm⟩
  · rw [if_neg hp] at h
    cases h

section Steps

variable {s s' : BSys} {b : Fin NBUF}

theorem bstep_bget {dev blockno : Nat} (h : bstep s (.bget dev blockno) = some (.ok s')) :
    ∃ c b, Xv6.bget s.cache dev blockno = .ok (c, b) ∧
      s' = { s with cache := c, held := b :: s.held } := by
  simp only [bstep, Option.some.injEq] at h
  cases hb : Xv6.bget s.cache dev blockno with
  | error e => rw [hb] at h; cases h
  | ok r =>
    rw [hb] at h
    simp only [Except.map, Except.ok.injEq] at h
    exact ⟨r.1, r.2, rfl, h.symm⟩

theorem bstep_fill (h : bstep s (.fill b) = some (.ok s')) :
    b ∈ s.held ∧ s' = { s with cache := fill s.cache s.disk b } := guard_ok h

theorem bstep_store {data : Block} (h : bstep s (.store b data) = some (.ok s')) :
    b ∈ s.held ∧ s' = { s with cache := s.cache.set b { s.cache.buf b with data } } :=
  guard_ok h

theorem bstep_bwrite (h : bstep s (.bwrite b) = some (.ok s')) :
    b ∈ s.held ∧ s' = { s with disk := Xv6.bwrite s.cache s.disk b } := guard_ok h

theorem bstep_brelse (h : bstep s (.brelse b) = some (.ok s')) :
    b ∈ s.held ∧ s' = { s with cache := Xv6.brelse s.cache b, held := s.held.erase b } :=
  guard_ok h

theorem bstep_bpin (h : bstep s (.bpin b) = some (.ok s')) :
    b ∈ s.held ∧ s' = { s with cache := bpin s.cache b, pins := b :: s.pins } := guard_ok h

theorem bstep_bunpin (h : bstep s (.bunpin b) = some (.ok s')) :
    b ∈ s.pins ∧ s' = { s with cache := bunpin s.cache b, pins := s.pins.erase b } := guard_ok h

end Steps

/-! ## The invariant of the shared cache -/

/-- The links order all buffers with every live one first among the holders of its
block, and each buffer's `refcnt` counts its outstanding references and pins. -/
structure BSys.Inv (s : BSys) : Prop where
  ordered : ∃ L, s.cache.Ordered L
  refcnt : ∀ b, (s.cache.buf b).refcnt = s.held.count b + s.pins.count b

theorem BSys.init_inv (disk : Disk) : (BSys.init disk).Inv where
  ordered := ⟨_, binit_ordered⟩
  refcnt := by simp [BSys.init, binit]

theorem BCache.set_block (c : BCache) {b : Fin NBUF} {x : Buf} (hdev : x.dev = (c.buf b).dev)
    (hblk : x.blockno = (c.buf b).blockno) (y : Fin NBUF) :
    ((c.set b x).buf y).dev = (c.buf y).dev ∧ ((c.set b x).buf y).blockno = (c.buf y).blockno := by
  by_cases hy : y = b
  · subst hy; simp [hdev, hblk]
  · simp [hy]

section Preserve

variable {s s' : BSys} {b : Fin NBUF}

theorem BSys.Inv.pos_of_held (hi : s.Inv) (hb : b ∈ s.held) : 0 < (s.cache.buf b).refcnt := by
  have := List.count_pos_iff.2 hb
  rw [hi.refcnt]
  omega

theorem BSys.Inv.pos_of_pinned (hi : s.Inv) (hb : b ∈ s.pins) : 0 < (s.cache.buf b).refcnt := by
  have := List.count_pos_iff.2 hb
  rw [hi.refcnt]
  omega

theorem BSys.Inv.set_held (hi : s.Inv) (hb : b ∈ s.held) (x : Buf)
    (hdev : x.dev = (s.cache.buf b).dev) (hblk : x.blockno = (s.cache.buf b).blockno)
    (hcnt : x.refcnt = (s.cache.buf b).refcnt) :
    ({ s with cache := s.cache.set b x } : BSys).Inv := by
  obtain ⟨L, hL⟩ := hi.ordered
  refine ⟨⟨L, hL.set_of_live (Or.inr (hi.pos_of_held hb)) x hdev hblk⟩, fun y => ?_⟩
  by_cases hyb : y = b
  · subst hyb
    simpa [hcnt] using hi.refcnt y
  · simpa [hyb] using hi.refcnt y

theorem BSys.Inv.bget (hi : s.Inv) {dev blockno : Nat}
    (h : bstep s (.bget dev blockno) = some (.ok s')) : s'.Inv := by
  obtain ⟨c, b, hb, rfl⟩ := bstep_bget h
  obtain ⟨L, hL⟩ := hi.ordered
  refine ⟨⟨L, hL.bget hb⟩, fun y => ?_⟩
  have hy := hi.refcnt y
  rcases hL.bget_cases hb with ⟨-, rfl⟩ | ⟨-, h0, rfl⟩
  · -- a hit: one more reference to `b`
    by_cases hyb : y = b
    · subst hyb
      simp [hy]
      omega
    · simp [hyb, hy, Ne.symm hyb]
  · -- a miss: the recycled `b` had no reference and now has one
    by_cases hyb : y = b
    · subst hyb
      rw [h0] at hy
      simp
      omega
    · simp [hyb, hy, Ne.symm hyb]

theorem BSys.Inv.fill (hi : s.Inv) (h : bstep s (.fill b) = some (.ok s')) : s'.Inv := by
  obtain ⟨hb, rfl⟩ := bstep_fill h
  rw [fill_eq]
  exact hi.set_held hb _ (by split <;> rfl) (by split <;> rfl) (by split <;> rfl)

theorem BSys.Inv.store (hi : s.Inv) {data : Block} (h : bstep s (.store b data) = some (.ok s')) :
    s'.Inv := by
  obtain ⟨hb, rfl⟩ := bstep_store h
  exact hi.set_held hb _ rfl rfl rfl

theorem BSys.Inv.bwrite (hi : s.Inv) (h : bstep s (.bwrite b) = some (.ok s')) : s'.Inv := by
  obtain ⟨-, rfl⟩ := bstep_bwrite h
  exact ⟨hi.ordered, hi.refcnt⟩

theorem BSys.Inv.brelse (hi : s.Inv) (h : bstep s (.brelse b) = some (.ok s')) : s'.Inv := by
  obtain ⟨hb, rfl⟩ := bstep_brelse h
  obtain ⟨L, hL⟩ := hi.ordered
  refine ⟨⟨_, hL.brelse (hi.pos_of_held hb)⟩, fun y => ?_⟩
  have hy := hi.refcnt y
  have hpos := List.count_pos_iff.2 hb
  by_cases hyb : y = b
  · subst hyb
    simp
    omega
  · simp [hyb, hy, List.count_erase_of_ne hyb]

theorem BSys.Inv.bpin (hi : s.Inv) (h : bstep s (.bpin b) = some (.ok s')) : s'.Inv := by
  obtain ⟨hb, rfl⟩ := bstep_bpin h
  obtain ⟨L, hL⟩ := hi.ordered
  refine ⟨⟨L, hL.set_of_live (Or.inr (hi.pos_of_held hb)) _ rfl rfl⟩, fun y => ?_⟩
  have hy := hi.refcnt y
  by_cases hyb : y = b
  · subst hyb
    simp [Xv6.bpin, hy]
    omega
  · simp [Xv6.bpin, hyb, hy, Ne.symm hyb]

theorem BSys.Inv.bunpin (hi : s.Inv) (h : bstep s (.bunpin b) = some (.ok s')) : s'.Inv := by
  obtain ⟨hb, rfl⟩ := bstep_bunpin h
  obtain ⟨L, hL⟩ := hi.ordered
  refine ⟨⟨L, hL.set_of_live (Or.inr (hi.pos_of_pinned hb)) _ rfl rfl⟩, fun y => ?_⟩
  have hy := hi.refcnt y
  have hpos := List.count_pos_iff.2 hb
  by_cases hyb : y = b
  · subst hyb
    simp [Xv6.bunpin]
    omega
  · simp [Xv6.bunpin, hyb, hy, List.count_erase_of_ne hyb]

theorem BSys.Inv.bstep (hi : s.Inv) {a : BAct} (h : Xv6.bstep s a = some (.ok s')) : s'.Inv := by
  cases a with
  | bget dev blockno => exact hi.bget h
  | fill b => exact hi.fill h
  | store b data => exact hi.store h
  | bwrite b => exact hi.bwrite h
  | brelse b => exact hi.brelse h
  | bpin b => exact hi.bpin h
  | bunpin b => exact hi.bunpin h

theorem bexec_eq_run (s : BSys) (as : List BAct) : bexec s as = Outcome.run bstep s as := by
  induction as generalizing s with
  | nil => rfl
  | cons a as ih =>
    simp only [bexec, Outcome.run]
    cases bstep s a with
    | none => rfl
    | some r =>
      cases r with
      | error e => rfl
      | ok s1 => exact ih s1

theorem BSys.Inv.bexec (hi : s.Inv) {as : List BAct} (h : Xv6.bexec s as = some (.ok s')) :
    s'.Inv := by
  rw [bexec_eq_run] at h
  exact Outcome.run_inv BSys.Inv (fun _ _ _ hi hs => hi.bstep hs) hi h

/-- No step changes the block of a referenced buffer: `bget` recycles only buffers with
`refcnt = 0`, and the other steps keep every buffer's block. -/
theorem BSys.Inv.bstep_keeps_block (hi : s.Inv) {a : BAct} (h : Xv6.bstep s a = some (.ok s'))
    (hb : 0 < (s.cache.buf b).refcnt) :
    (s'.cache.buf b).dev = (s.cache.buf b).dev ∧
      (s'.cache.buf b).blockno = (s.cache.buf b).blockno := by
  cases a with
  | bget dev blockno =>
    obtain ⟨c, b', hb', rfl⟩ := bstep_bget h
    obtain ⟨L, hL⟩ := hi.ordered
    rcases hL.bget_cases hb' with ⟨-, rfl⟩ | ⟨-, h0, rfl⟩
    · refine BCache.set_block _ ?_ ?_ b <;> rfl
    · -- the recycled buffer had no reference, so it is not `b`
      have hne : b ≠ b' := fun e => by rw [e, h0] at hb; exact Nat.lt_irrefl 0 hb
      simp [hne]
  | fill b' =>
    obtain ⟨-, rfl⟩ := bstep_fill h
    rw [fill_eq]
    refine BCache.set_block _ ?_ ?_ b <;> split <;> rfl
  | store b' data =>
    obtain ⟨-, rfl⟩ := bstep_store h
    refine BCache.set_block _ ?_ ?_ b <;> rfl
  | bwrite b' =>
    obtain ⟨-, rfl⟩ := bstep_bwrite h
    exact ⟨rfl, rfl⟩
  | brelse b' =>
    obtain ⟨-, rfl⟩ := bstep_brelse h
    simp only [brelse_buf]
    refine BCache.set_block _ ?_ ?_ b <;> rfl
  | bpin b' =>
    obtain ⟨-, rfl⟩ := bstep_bpin h
    refine BCache.set_block _ ?_ ?_ b <;> rfl
  | bunpin b' =>
    obtain ⟨-, rfl⟩ := bstep_bunpin h
    refine BCache.set_block _ ?_ ?_ b <;> rfl

end Preserve

theorem BSys.reachable_inv {disk : Disk} {as : List BAct} {s : BSys}
    (h : bexec (BSys.init disk) as = some (.ok s)) : s.Inv :=
  (BSys.init_inv disk).bexec h

/-! ## Coherence -/

theorem BCache.Ordered.bget_of_live {c : BCache} {L : List (Fin NBUF)} (h : c.Ordered L)
    {b : Fin NBUF} (hb : (c.buf b).live) :
    Xv6.bget c (c.buf b).dev (c.buf b).blockno =
      .ok (c.set b { c.buf b with refcnt := (c.buf b).refcnt + 1 }, b) := by
  unfold Xv6.bget
  rw [h.lookup_eq, h.first b hb]

/-- The links are one cycle through `head` with every buffer exactly once. -/
theorem BCache.Ordered.count_eq_one {c : BCache} {L : List (Fin NBUF)} (h : c.Ordered L)
    (b : Fin NBUF) : L.count b = 1 :=
  List.count_eq_one_of_mem h.links.1 (h.all b)

/-- The properties of the shared cache in every reachable state. -/
structure BSys.Coherent (s : BSys) : Prop where
  /-- the links form one cycle through `head` holding every buffer exactly once -/
  list : ∃ L : List (Fin NBUF), Represents s.cache.links L ∧ ∀ b, L.count b = 1
  /-- each `refcnt` counts the outstanding `bget` references and pins -/
  refcnt : ∀ b, (s.cache.buf b).refcnt = s.held.count b + s.pins.count b
  /-- no two live buffers hold the same block -/
  unique : ∀ b b', (s.cache.buf b).live → (s.cache.buf b').live →
    (s.cache.buf b).dev = (s.cache.buf b').dev →
    (s.cache.buf b).blockno = (s.cache.buf b').blockno → b = b'
  /-- every `bget` of a live buffer's block returns that buffer -/
  bget_live : ∀ b, (s.cache.buf b).live →
    ∃ c, Xv6.bget s.cache (s.cache.buf b).dev (s.cache.buf b).blockno = .ok (c, b)
  /-- `bget` returns a buffer that holds the block already, or one with `refcnt = 0` -/
  recycle : ∀ dev blockno c b, Xv6.bget s.cache dev blockno = .ok (c, b) →
    s.cache.holds dev blockno b = true ∨ (s.cache.buf b).refcnt = 0
  /-- a pinned buffer keeps its block through every step -/
  pinned : ∀ b ∈ s.pins, ∀ a s', Xv6.bstep s a = some (.ok s') →
    (s'.cache.buf b).dev = (s.cache.buf b).dev ∧
      (s'.cache.buf b).blockno = (s.cache.buf b).blockno

theorem bcache_coherent {disk : Disk} {as : List BAct} {s : BSys}
    (h : bexec (BSys.init disk) as = some (.ok s)) : s.Coherent := by
  have hi := BSys.reachable_inv h
  obtain ⟨L, hL⟩ := hi.ordered
  refine ⟨⟨L, hL.links, hL.count_eq_one⟩, hi.refcnt, fun b b' hb hb' => hL.unique hb hb',
    fun b hb => ⟨_, hL.bget_of_live hb⟩, fun dev blockno c b hb => ?_,
    fun b hb a s' hs => hi.bstep_keeps_block hs (hi.pos_of_pinned hb)⟩
  rcases hL.bget_cases hb with ⟨hf, -⟩ | ⟨-, h0, -⟩
  · exact Or.inl (List.find?_some hf)
  · exact Or.inr h0

/-- The first `bget` after `binit` recycles buffer 0, the least recently used. -/
theorem bcache_coherent_first_bget :
    let s1 : BSys := { BSys.init (fun _ _ => 0) with
      cache := binit.set ⟨0, by decide⟩ ⟨false, 0, 7, 1, fun _ => 0⟩, held := [⟨0, by decide⟩] }
    bexec (BSys.init fun _ _ => 0) [.bget 0 7] = some (.ok s1) ∧ s1.Coherent := by
  intro s1
  have h : bexec (BSys.init fun _ _ => 0) [.bget 0 7] = some (.ok s1) := rfl
  exact ⟨h, bcache_coherent h⟩

end Xv6
