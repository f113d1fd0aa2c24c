import Xv6.Lib.Outcome
import Xv6.Log.Op
import Xv6.Bio

/-!
# Logged blocks stay pinned in the buffer cache

`log_write` and `commit()` of `kernel/log.c` (lines 178-235) on the buffer cache of
`kernel/bio.c`.  The log's state and the cache's state are one system (`LogCache`): the
steps of `begin_op`, `log_write` and `end_op` as in `Xv6.Log.Op`, with `log_write`
pinning the buffer of a block new to the header; every process's `bget`, `fill`,
`store`, `bwrite` and `brelse` on the cache (`bpin` and `bunpin` are the log's alone);
and the process that runs `commit()` making one call on the cache per step: each
`bread`, each `memmove` with the `bwrite` after it, each `brelse` and the `bunpin` of
`install_trans(0)`.  So the calls of `commit()` interleave with every other process's
use of the cache.

`log_pins`: in every reachable state the header's blocks are distinct; each block of the
header not yet installed has exactly one cached buffer, valid, holding exactly one pin;
no other buffer is pinned; the buffer `write_log` copies from is that buffer; and once
`commit()` is done no pin is left.
-/

namespace Xv6

open Tally

/-! ## The cache calls of `commit()` -/

/-- `bread` by a process: `bget`, then `fill` of the buffer it returns. -/
def BSys.bread (s : BSys) (dev blockno : Nat) : Except String (BSys × Fin NBUF) :=
  (Xv6.bget s.cache dev blockno).map fun r =>
    ({ s with cache := fill r.1 s.disk r.2, held := r.2 :: s.held }, r.2)

/-- Where the process running `commit()` is, before each call it makes on the cache.
Both loops read the log block (`lbuf`) first and the home block (`hbuf`) second:
`write_log`'s `to` and `from`, `install_trans`'s `lbuf` and `dbuf`.  `again` marks the
second `write_head`, after `log.lh.n = 0`. -/
inductive CommitPc where
  | start
  | writeLog (tail : Nat)
  | writeLogHome (tail : Nat) (lbuf : Fin NBUF)
  | writeLogCopy (tail : Nat) (lbuf hbuf : Fin NBUF)
  | writeLogRelHome (tail : Nat) (lbuf hbuf : Fin NBUF)
  | writeLogRelLog (tail : Nat) (lbuf : Fin NBUF)
  | writeHead (again : Bool)
  | writeHeadPut (again : Bool) (buf : Fin NBUF)
  | writeHeadRel (again : Bool) (buf : Fin NBUF)
  | install (tail : Nat)
  | installHome (tail : Nat) (lbuf : Fin NBUF)
  | installCopy (tail : Nat) (lbuf hbuf : Fin NBUF)
  | installUnpin (tail : Nat) (lbuf hbuf : Fin NBUF)
  | installRelLog (tail : Nat) (lbuf hbuf : Fin NBUF)
  | installRelHome (tail : Nat) (hbuf : Fin NBUF)
  | clear
  | finish
  deriving DecidableEq

/-- Where a process is with respect to the log. -/
inductive LPhase where
  | idle
  /-- between `begin_op` and `end_op` -/
  | inOp
  /-- in `end_op`, running `commit()` -/
  | commit (pc : CommitPc)
  deriving DecidableEq

/-- The cache calls any process makes: all but `bpin` and `bunpin`, which only the log makes. -/
def BAct.keepsPins : BAct → Bool
  | .bpin _ | .bunpin _ => false
  | _ => true

/-- The log, the device it is on, the buffer cache, and `n` processes. -/
structure LogCache (n : Nat) where
  log : Log
  dev : Nat
  bs : BSys
  phase : Fin n → LPhase

/-- What a process may do next. -/
inductive LAct (n : Nat) where
  /-- any process's use of the cache, other than `bpin` and `bunpin` -/
  | cache (a : BAct)
  | beginOp (p : Fin n)
  /-- `log_write` of a buffer the caller got from `bread` -/
  | logWrite (p : Fin n) (b : Fin NBUF)
  | endOp (p : Fin n)
  /-- the next call of `commit()` -/
  | commit (p : Fin n)

variable {n : Nat}

/-- `s` with process `p` at `pc` of `commit()`. -/
def LogCache.goto (s : LogCache n) (p : Fin n) (pc : CommitPc) : LogCache n :=
  { s with phase := Function.update s.phase p (.commit pc) }

/-- `s` with the cache `bs`, and process `p` at `pc`. -/
def LogCache.withBs (s : LogCache n) (p : Fin n) (pc : CommitPc) (bs : BSys) : LogCache n :=
  { s with bs, phase := Function.update s.phase p (.commit pc) }

/-- The next call of `commit()` by process `p` at `pc`. -/
def commitStep (s : LogCache n) (p : Fin n) : CommitPc → Option (Except String (LogCache n))
  | .start => some (.ok (s.goto p (if 0 < s.log.lh.length then .writeLog 0 else .finish)))
  | .writeLog tail =>
    match s.log.lh[tail]? with
    | some _ => some ((s.bs.bread s.dev (s.log.start + tail + 1)).map fun r =>
        s.withBs p (.writeLogHome tail r.2) r.1)
    | none => some (.ok (s.goto p (.writeHead false)))
  | .writeLogHome tail lbuf =>
    match s.log.lh[tail]? with
    | some x => some ((s.bs.bread s.dev x).map fun r => s.withBs p (.writeLogCopy tail lbuf r.2) r.1)
    | none => none
  | .writeLogCopy tail lbuf hbuf =>
    (bexec s.bs [.store lbuf (s.bs.cache.buf hbuf).data, .bwrite lbuf]).map
      (Except.map (s.withBs p (.writeLogRelHome tail lbuf hbuf)))
  | .writeLogRelHome tail lbuf hbuf =>
    (bstep s.bs (.brelse hbuf)).map (Except.map (s.withBs p (.writeLogRelLog tail lbuf)))
  | .writeLogRelLog tail lbuf =>
    (bstep s.bs (.brelse lbuf)).map (Except.map (s.withBs p (.writeLog (tail + 1))))
  | .writeHead again =>
    some ((s.bs.bread s.dev s.log.start).map fun r => s.withBs p (.writeHeadPut again r.2) r.1)
  | .writeHeadPut again buf =>
    (bexec s.bs [.store buf (putHead s.log.lh (s.bs.cache.buf buf).data), .bwrite buf]).map
      (Except.map (s.withBs p (.writeHeadRel again buf)))
  | .writeHeadRel again buf =>
    (bstep s.bs (.brelse buf)).map
      (Except.map (s.withBs p (if again then .finish else .install 0)))
  | .install tail =>
    match s.log.lh[tail]? with
    | some _ => some ((s.bs.bread s.dev (s.log.start + tail + 1)).map fun r =>
        s.withBs p (.installHome tail r.2) r.1)
    | none => some (.ok (s.goto p .clear))
  | .installHome tail lbuf =>
    match s.log.lh[tail]? with
    | some x => some ((s.bs.bread s.dev x).map fun r => s.withBs p (.installCopy tail lbuf r.2) r.1)
    | none => none
  | .installCopy tail lbuf hbuf =>
    (bexec s.bs [.store hbuf (s.bs.cache.buf lbuf).data, .bwrite hbuf]).map
      (Except.map (s.withBs p (.installUnpin tail lbuf hbuf)))
  | .installUnpin tail lbuf hbuf =>
    (bstep s.bs (.bunpin hbuf)).map (Except.map (s.withBs p (.installRelLog tail lbuf hbuf)))
  | .installRelLog tail lbuf hbuf =>
    (bstep s.bs (.brelse lbuf)).map (Except.map (s.withBs p (.installRelHome tail hbuf)))
  | .installRelHome tail hbuf =>
    (bstep s.bs (.brelse hbuf)).map (Except.map (s.withBs p (.install (tail + 1))))
  | .clear => some (.ok ({ s with log := { s.log with lh := [] } }.goto p (.writeHead true)))
  | .finish =>
    some (.ok { s with log := { s.log with committing := false },
                       phase := Function.update s.phase p .idle })

/-- One step: `none` if the action cannot be taken now, `some (.error msg)` for a panic. -/
def LogCache.step (s : LogCache n) : LAct n → Option (Except String (LogCache n))
  | .cache a => if a.keepsPins then (bstep s.bs a).map (Except.map fun bs => { s with bs }) else none
  | .beginOp p =>
    match s.phase p with
    | .idle => (beginOp s.log).map fun log =>
        .ok { s with log, phase := Function.update s.phase p .inOp }
    | _ => none
  | .logWrite p b =>
    match s.phase p with
    | .inOp =>
      let x := (s.bs.cache.buf b).blockno
      if b ∈ s.bs.held ∧ (s.bs.cache.buf b).valid ∧ (s.bs.cache.buf b).dev = s.dev then
        some ((logWrite s.log x).map fun log =>
          -- a block new to the header: `bpin(b)`
          if x ∈ s.log.lh then { s with log }
          else { s with log, bs := { s.bs with cache := bpin s.bs.cache b, pins := b :: s.bs.pins } })
      else none
    | _ => none
  | .endOp p =>
    match s.phase p with
    | .inOp => some ((endOp s.log).map fun r =>
        { s with log := r.1, phase := Function.update s.phase p (if r.2 then .commit .start else .idle) })
    | _ => none
  | .commit p =>
    match s.phase p with
    | .commit pc => commitStep s p pc
    | _ => none

/-- A run of actions. -/
def LogCache.exec (s : LogCache n) (as : List (LAct n)) : Option (Except String (LogCache n)) :=
  Outcome.run LogCache.step s as

/-- An empty log of `size` blocks at `start` on `dev`, the cache after `binit`, every
process idle. -/
def LogCache.init (dev start size : Nat) (disk : Disk) : LogCache n :=
  { log := ⟨start, size, 0, false, []⟩, dev, bs := BSys.init disk, phase := fun _ => .idle }

/-! ## Steps that keep the pins -/

/-- `s'` has the pins of `s`, and every pinned buffer keeps its block and stays valid. -/
structure PinFrame (s s' : BSys) : Prop where
  pins : s'.pins = s.pins
  keep : ∀ b ∈ s.pins, ((s.cache.buf b).valid = true → (s'.cache.buf b).valid = true) ∧
    (s'.cache.buf b).dev = (s.cache.buf b).dev ∧ (s'.cache.buf b).blockno = (s.cache.buf b).blockno

theorem PinFrame.refl (s : BSys) : PinFrame s s := ⟨rfl, fun _ _ => ⟨id, rfl, rfl⟩⟩

theorem PinFrame.trans {s1 s2 s3 : BSys} (h1 : PinFrame s1 s2) (h2 : PinFrame s2 s3) :
    PinFrame s1 s3 := by
  refine ⟨h2.pins.trans h1.pins, fun b hb => ?_⟩
  obtain ⟨v1, d1, k1⟩ := h1.keep b hb
  obtain ⟨v2, d2, k2⟩ := h2.keep b (h1.pins ▸ hb)
  exact ⟨fun h => v2 (v1 h), d2.trans d1, k2.trans k1⟩

section Frame

variable {s s' : BSys} {b : Fin NBUF}

theorem BCache.set_valid (c : BCache) {b : Fin NBUF} {x : Buf} (hv : x.valid = (c.buf b).valid)
    (y : Fin NBUF) : ((c.set b x).buf y).valid = (c.buf y).valid := by
  by_cases hy : y = b
  · subst hy; simp [hv]
  · simp [hy]

/-- No step makes a referenced valid buffer invalid: `bget` invalidates only the buffer it
recycles, which had no reference. -/
theorem BSys.Inv.bstep_keeps_valid (hi : s.Inv) {a : BAct} (h : Xv6.bstep s a = some (.ok s'))
    (hb : 0 < (s.cache.buf b).refcnt) (hv : (s.cache.buf b).valid = true) :
    (s'.cache.buf b).valid = true := by
  cases a with
  | bget dev blockno =>
    obtain ⟨c, b', hb', rfl⟩ := bstep_bget h
    obtain ⟨L, hL⟩ := hi.ordered
    rcases hL.bget_cases hb' with ⟨-, rfl⟩ | ⟨-, h0, rfl⟩
    · rwa [BCache.set_valid _ (by rfl)]
    · have hne : b ≠ b' := fun e => by rw [e, h0] at hb; exact Nat.lt_irrefl 0 hb
      simpa [hne] using hv
  | fill b' =>
    obtain ⟨-, rfl⟩ := bstep_fill h
    rw [fill_eq]
    by_cases hbb : b = b'
    · subst hbb
      simp only [BCache.set_buf_self]
      split <;> simp_all
    · simpa [hbb] using hv
  | store b' data =>
    obtain ⟨-, rfl⟩ := bstep_store h
    rwa [BCache.set_valid _ (by rfl)]
  | bwrite b' =>
    obtain ⟨-, rfl⟩ := bstep_bwrite h
    exact hv
  | brelse b' =>
    obtain ⟨-, rfl⟩ := bstep_brelse h
    simp only [brelse_buf]
    rwa [BCache.set_valid _ (by rfl)]
  | bpin b' =>
    obtain ⟨-, rfl⟩ := bstep_bpin h
    rwa [Xv6.bpin, BCache.set_valid _ (by rfl)]
  | bunpin b' =>
    obtain ⟨-, rfl⟩ := bstep_bunpin h
    rwa [Xv6.bunpin, BCache.set_valid _ (by rfl)]

theorem BSys.Inv.pinFrame (hi : s.Inv) {a : BAct} (ha : a.keepsPins = true)
    (h : Xv6.bstep s a = some (.ok s')) : PinFrame s s' := by
  have hpins : s'.pins = s.pins := by
    cases a with
    | bget dev blockno => obtain ⟨c, b', -, rfl⟩ := bstep_bget h; rfl
    | fill b' => obtain ⟨-, rfl⟩ := bstep_fill h; rfl
    | store b' data => obtain ⟨-, rfl⟩ := bstep_store h; rfl
    | bwrite b' => obtain ⟨-, rfl⟩ := bstep_bwrite h; rfl
    | brelse b' => obtain ⟨-, rfl⟩ := bstep_brelse h; rfl
    | bpin b' => cases ha
    | bunpin b' => cases ha
  refine ⟨hpins, fun b hb => ?_⟩
  have hpos := hi.pos_of_pinned hb
  exact ⟨hi.bstep_keeps_valid h hpos, hi.bstep_keeps_block h hpos⟩

theorem BSys.bread_steps {dev blockno : Nat} (h : s.bread dev blockno = .ok (s', b)) :
    ∃ s1, bstep s (.bget dev blockno) = some (.ok s1) ∧ bstep s1 (.fill b) = some (.ok s') := by
  unfold BSys.bread at h
  cases hb : Xv6.bget s.cache dev blockno with
  | error e => rw [hb] at h; cases h
  | ok r =>
    rw [hb] at h
    simp only [Except.map, Except.ok.injEq, Prod.mk.injEq] at h
    obtain ⟨rfl, rfl⟩ := h
    exact ⟨{ s with cache := r.1, held := r.2 :: s.held }, by simp [bstep, hb, Except.map],
      by simp [bstep]⟩

theorem BSys.Inv.bread (hi : s.Inv) {dev blockno : Nat} (h : s.bread dev blockno = .ok (s', b)) :
    s'.Inv ∧ PinFrame s s' := by
  obtain ⟨s1, h1, h2⟩ := BSys.bread_steps h
  have hi1 := hi.bstep h1
  exact ⟨hi1.bstep h2, (hi.pinFrame rfl h1).trans (hi1.pinFrame rfl h2)⟩

theorem BSys.Inv.bexec_frame (hi : s.Inv) {as : List BAct} (has : ∀ a ∈ as, a.keepsPins = true)
    (h : Xv6.bexec s as = some (.ok s')) : PinFrame s s' := by
  induction as generalizing s with
  | nil =>
    simp only [Xv6.bexec, Option.some.injEq, Except.ok.injEq] at h
    exact h ▸ PinFrame.refl s
  | cons a as ih =>
    rw [bexec_eq_run] at h
    obtain ⟨s1, h1, h2⟩ := Outcome.run_cons_ok h
    rw [← bexec_eq_run] at h2
    have ha := has a List.mem_cons_self
    exact (hi.pinFrame ha h1).trans
      (ih (hi.bstep h1) (fun a' ha' => has a' (List.mem_cons_of_mem a ha')) h2)

theorem BSys.Inv.bread_pinned (hi : s.Inv) {dev blockno : Nat} {p : Fin NBUF}
    (hp : p ∈ s.pins) (hdev : (s.cache.buf p).dev = dev) (hblk : (s.cache.buf p).blockno = blockno)
    (h : s.bread dev blockno = .ok (s', b)) : b = p := by
  obtain ⟨L, hL⟩ := hi.ordered
  have hlive : (s.cache.buf p).live := Or.inr (hi.pos_of_pinned hp)
  have hget := hL.bget_of_live hlive
  unfold BSys.bread at h
  rw [hdev, hblk] at hget
  rw [hget] at h
  simp only [Except.map, Except.ok.injEq, Prod.mk.injEq] at h
  exact h.2.symm

end Frame

/-! ## The pins of a list of blocks -/

/-- The pins of `bs` are those of the blocks `L` of `dev`: no buffer is pinned twice, each
pinned buffer is valid and holds a block of `L`, and each block of `L` has a pinned buffer. -/
structure PinsMatch (dev : Nat) (bs : BSys) (L : List Nat) : Prop where
  nodup : bs.pins.Nodup
  pinned : ∀ b ∈ bs.pins, (bs.cache.buf b).valid = true ∧ (bs.cache.buf b).dev = dev ∧
    (bs.cache.buf b).blockno ∈ L
  logged : ∀ x ∈ L, ∃ b ∈ bs.pins, (bs.cache.buf b).blockno = x

theorem BCache.set_refcnt (c : BCache) (b y : Fin NBUF) (k : Nat) :
    ((c.set b { c.buf b with refcnt := k }).buf y).valid = (c.buf y).valid ∧
      ((c.set b { c.buf b with refcnt := k }).buf y).dev = (c.buf y).dev ∧
      ((c.set b { c.buf b with refcnt := k }).buf y).blockno = (c.buf y).blockno := by
  by_cases hy : y = b
  · subst hy; simp
  · simp [hy]

theorem drop_eq_cons_of_getElem? {α : Type} {l : List α} {i : Nat} {x : α} (h : l[i]? = some x) :
    l.drop i = x :: l.drop (i + 1) := by
  obtain ⟨hlt, rfl⟩ := List.getElem?_eq_some_iff.1 h
  exact List.drop_eq_getElem_cons hlt

section PinsMatch

variable {dev : Nat} {bs bs' : BSys} {L : List Nat} {x : Nat} {b : Fin NBUF}

theorem PinsMatch.frame (h : PinsMatch dev bs L) (hf : PinFrame bs bs') : PinsMatch dev bs' L := by
  refine ⟨hf.pins ▸ h.nodup, fun b hb => ?_, fun x hx => ?_⟩
  · rw [hf.pins] at hb
    obtain ⟨hv, hd, hx⟩ := h.pinned b hb
    obtain ⟨kv, kd, kx⟩ := hf.keep b hb
    exact ⟨kv hv, kd.trans hd, kx ▸ hx⟩
  · obtain ⟨b, hb, rfl⟩ := h.logged x hx
    exact ⟨b, by rw [hf.pins]; exact hb, (hf.keep b hb).2.2⟩

theorem PinsMatch.eq_of_blockno (h : PinsMatch dev bs L) (hi : bs.Inv) {b b' : Fin NBUF}
    (hb : b ∈ bs.pins) (hb' : b' ∈ bs.pins)
    (hblk : (bs.cache.buf b).blockno = (bs.cache.buf b').blockno) : b = b' := by
  obtain ⟨L', hL⟩ := hi.ordered
  obtain ⟨hv, hd, -⟩ := h.pinned b hb
  obtain ⟨hv', hd', -⟩ := h.pinned b' hb'
  exact hL.unique (Or.inl hv) (Or.inl hv') (hd.trans hd'.symm) hblk

theorem PinsMatch.bread (h : PinsMatch dev bs L) (hi : bs.Inv) (hx : x ∈ L)
    (hr : bs.bread dev x = .ok (bs', b)) : b ∈ bs'.pins ∧ (bs'.cache.buf b).blockno = x := by
  obtain ⟨b0, hb0, hblk⟩ := h.logged x hx
  rw [hi.bread_pinned hb0 (h.pinned b0 hb0).2.1 hblk hr]
  obtain ⟨-, hf⟩ := hi.bread hr
  exact ⟨by rw [hf.pins]; exact hb0, (hf.keep b0 hb0).2.2.trans hblk⟩

/-- `log_write`'s `bpin` of a valid buffer of a block new to `L` gives the pins of
`L ++ [x]`. -/
theorem PinsMatch.pin (h : PinsMatch dev bs L) (hx : x ∉ L) (hv : (bs.cache.buf b).valid = true)
    (hd : (bs.cache.buf b).dev = dev) (hblk : (bs.cache.buf b).blockno = x)
    (hs : bstep bs (.bpin b) = some (.ok bs')) : PinsMatch dev bs' (L ++ [x]) := by
  obtain ⟨-, rfl⟩ := bstep_bpin hs
  have hnew : b ∉ bs.pins := fun hb => hx (hblk ▸ (h.pinned b hb).2.2)
  refine ⟨List.nodup_cons.2 ⟨hnew, h.nodup⟩, fun y hy => ?_, fun z hz => ?_⟩
  · obtain ⟨kv, kd, kb⟩ := BCache.set_refcnt bs.cache b y ((bs.cache.buf b).refcnt + 1)
    simp only [Xv6.bpin, kv, kd, kb]
    rcases List.mem_cons.1 hy with rfl | hy
    · exact ⟨hv, hd, List.mem_append_right L (hblk ▸ List.mem_singleton_self _)⟩
    · obtain ⟨v, d, m⟩ := h.pinned y hy
      exact ⟨v, d, List.mem_append_left [x] m⟩
  · rcases List.mem_append.1 hz with hz | hz
    · obtain ⟨y, hy, rfl⟩ := h.logged z hz
      exact ⟨y, List.mem_cons_of_mem b hy,
        (BCache.set_refcnt bs.cache b y ((bs.cache.buf b).refcnt + 1)).2.2⟩
    · rw [List.mem_singleton.1 hz]
      exact ⟨b, List.mem_cons_self,
        (BCache.set_refcnt bs.cache b b ((bs.cache.buf b).refcnt + 1)).2.2.trans hblk⟩

/-- `install_trans`'s `bunpin` of the pinned buffer of the first block of `x :: L` leaves
the pins of `L`. -/
theorem PinsMatch.unpin (h : PinsMatch dev bs (x :: L)) (hi : bs.Inv) (hx : x ∉ L)
    (hb : b ∈ bs.pins) (hblk : (bs.cache.buf b).blockno = x)
    (hs : bstep bs (.bunpin b) = some (.ok bs')) : PinsMatch dev bs' L := by
  obtain ⟨-, rfl⟩ := bstep_bunpin hs
  refine ⟨h.nodup.erase b, fun y hy => ?_, fun z hz => ?_⟩
  · obtain ⟨hyb, hy⟩ := (h.nodup.mem_erase_iff).1 hy
    obtain ⟨v, d, m⟩ := h.pinned y hy
    -- `y` does not hold `x`: the one pinned buffer of `x` is `b`
    have hyx : (bs.cache.buf y).blockno ≠ x := fun e => hyb (h.eq_of_blockno hi hy hb (e.trans hblk.symm))
    obtain ⟨kv, kd, kb⟩ := BCache.set_refcnt bs.cache b y ((bs.cache.buf b).refcnt - 1)
    simp only [Xv6.bunpin, kv, kd, kb]
    exact ⟨v, d, (List.mem_cons.1 m).resolve_left hyx⟩
  · obtain ⟨y, hy, rfl⟩ := h.logged z (List.mem_cons_of_mem x hz)
    have hyb : y ≠ b := fun e => hx (by rw [← hblk, ← e]; exact hz)
    exact ⟨y, (h.nodup.mem_erase_iff).2 ⟨hyb, hy⟩,
      (BCache.set_refcnt bs.cache b y ((bs.cache.buf b).refcnt - 1)).2.2⟩

end PinsMatch

/-! ## The invariant -/

/-- The blocks of the header `lh` still pinned at `pc`: all of them until `install_trans(0)`
releases them in order, none once it is done. -/
def CommitPc.pinned (lh : List Nat) : CommitPc → List Nat
  | .install t | .installHome t _ | .installCopy t _ _ | .installUnpin t _ _ => lh.drop t
  | .installRelLog t _ _ | .installRelHome t _ => lh.drop (t + 1)
  | .clear => []
  | _ => lh

/-- What `commit()` knows at `pc` besides its pins: the home buffer it copies from or into
is the pinned buffer of `lh[tail]`, and after `log.lh.n = 0` the header is empty. -/
def CommitPc.Ok (lh : List Nat) (bs : BSys) : CommitPc → Prop
  | .writeLogCopy t _ hbuf | .installCopy t _ hbuf | .installUnpin t _ hbuf =>
    ∃ x, lh[t]? = some x ∧ hbuf ∈ bs.pins ∧ (bs.cache.buf hbuf).blockno = x
  | .writeHead again | .writeHeadPut again _ | .writeHeadRel again _ => again = true → lh = []
  | .finish => lh = []
  | _ => True

theorem CommitPc.Ok.frame {lh : List Nat} {bs bs' : BSys} {pc : CommitPc} (h : pc.Ok lh bs)
    (hf : PinFrame bs bs') : pc.Ok lh bs' := by
  cases pc with
  | writeLogCopy t l hbuf | installCopy t l hbuf | installUnpin t l hbuf =>
    obtain ⟨x, hx, hb, hblk⟩ := h
    exact ⟨x, hx, by rw [hf.pins]; exact hb, (hf.keep hbuf hb).2.2.trans hblk⟩
  | _ => exact h

/-- The phase as `Xv6.Log.Op` counts it. -/
def LPhase.toOp : LPhase → OpPhase
  | .idle => .idle
  | .inOp => .inOp []
  | .commit _ => .committing

@[simp] theorem LPhase.toOp_idle : LPhase.idle.toOp = .idle := rfl
@[simp] theorem LPhase.toOp_inOp : LPhase.inOp.toOp = .inOp [] := rfl
@[simp] theorem LPhase.toOp_commit (pc : CommitPc) : (LPhase.commit pc).toOp = .committing := rfl

/-- The invariant of the log and the cache.  `outstanding` counts the operations in
progress and `committing` the processes in `commit()` (at most one, and then no operation
is in progress), as in `LogSys.Inv`; the header has no repeats; outside a commit the pins
are those of the header, and in a commit those of the blocks `install_trans` has not yet
unpinned, with what the point of `commit()` knows. -/
structure LogCache.Inv (s : LogCache n) : Prop where
  bs : s.bs.Inv
  outstanding : s.log.outstanding = ∑ p, inOpCount (s.phase p).toOp
  committing : (if s.log.committing then 1 else 0) = ∑ p, commitCount (s.phase p).toOp
  quiet : s.log.committing = true → s.log.outstanding = 0
  nodup : s.log.lh.Nodup
  idle : s.log.committing = false → PinsMatch s.dev s.bs s.log.lh
  commit : ∀ p pc, s.phase p = .commit pc →
    PinsMatch s.dev s.bs (pc.pinned s.log.lh) ∧ pc.Ok s.log.lh s.bs

@[simp] theorem LogCache.withBs_log (s : LogCache n) (p : Fin n) (pc : CommitPc) (bs : BSys) :
    (s.withBs p pc bs).log = s.log := rfl
@[simp] theorem LogCache.withBs_dev (s : LogCache n) (p : Fin n) (pc : CommitPc) (bs : BSys) :
    (s.withBs p pc bs).dev = s.dev := rfl
@[simp] theorem LogCache.withBs_bs (s : LogCache n) (p : Fin n) (pc : CommitPc) (bs : BSys) :
    (s.withBs p pc bs).bs = bs := rfl
@[simp] theorem LogCache.withBs_phase (s : LogCache n) (p : Fin n) (pc : CommitPc) (bs : BSys) :
    (s.withBs p pc bs).phase = Function.update s.phase p (.commit pc) := rfl

theorem LogCache.goto_eq (s : LogCache n) (p : Fin n) (pc : CommitPc) :
    s.goto p pc = s.withBs p pc s.bs := rfl

theorem sum_update_commit (g : OpPhase → Nat) {f : Fin n → LPhase} {p : Fin n} {pc : CommitPc}
    (hp : f p = .commit pc) (pc' : CommitPc) :
    ∑ q, g (Function.update f p (.commit pc') q).toOp = ∑ q, g (f q).toOp := by
  have h := sum_comp_update_add (fun ph : LPhase => g ph.toOp) f p (.commit pc')
  simp only [hp, LPhase.toOp_commit] at h
  omega

section Counts

variable {s : LogCache n} {p q : Fin n} {pc pc' : CommitPc}

theorem LogCache.Inv.flag (hi : s.Inv) (hp : s.phase p = .commit pc) : s.log.committing = true := by
  have h0 := le_sum (fun ph : LPhase => commitCount ph.toOp) s.phase p
  simp only [hp, LPhase.toOp_commit, commitCount_committing, ← hi.committing] at h0
  by_contra hf
  simp [hf] at h0

theorem LogCache.Inv.no_commit (hi : s.Inv) (hc : s.log.committing = false) (q : Fin n)
    (pc : CommitPc) : s.phase q ≠ .commit pc := fun hq => by
  rw [hi.flag hq] at hc
  cases hc

theorem LogCache.Inv.commit_unique (hi : s.Inv) (hp : s.phase p = .commit pc)
    (hq : s.phase q = .commit pc') : q = p := by
  by_contra hqp
  have h2 := add_le_sum (fun ph : LPhase => commitCount ph.toOp) s.phase hqp
  simp [hp, hq, ← hi.committing, hi.flag hp] at h2

end Counts

/-! ## Each step keeps the invariant -/

section Steps

variable {s s' : LogCache n} {p : Fin n}

theorem LogCache.step_cache {a : BAct} (h : s.step (.cache a) = some (.ok s')) :
    a.keepsPins = true ∧ ∃ bs, bstep s.bs a = some (.ok bs) ∧ s' = { s with bs } := by
  simp only [LogCache.step] at h
  by_cases ha : a.keepsPins = true
  · rw [if_pos ha] at h
    obtain ⟨bs, hbs, rfl⟩ := Outcome.ok_of_map_map h
    exact ⟨ha, bs, hbs, rfl⟩
  · rw [if_neg ha] at h
    cases h

theorem LogCache.step_beginOp (h : s.step (.beginOp p) = some (.ok s')) :
    s.phase p = .idle ∧ ∃ log, beginOp s.log = some log ∧
      s' = { s with log, phase := Function.update s.phase p .inOp } := by
  simp only [LogCache.step] at h
  split at h
  · rename_i hp
    obtain ⟨log, hl, hs⟩ := Option.map_eq_some_iff.1 h
    exact ⟨hp, log, hl, (Except.ok.inj hs).symm⟩
  · cases h

theorem LogCache.step_logWrite {b : Fin NBUF} (h : s.step (.logWrite p b) = some (.ok s')) :
    s.phase p = .inOp ∧ b ∈ s.bs.held ∧ (s.bs.cache.buf b).valid = true ∧
      (s.bs.cache.buf b).dev = s.dev ∧
      ∃ log, logWrite s.log (s.bs.cache.buf b).blockno = .ok log ∧
        s' = if (s.bs.cache.buf b).blockno ∈ s.log.lh then { s with log }
          else { s with log, bs := { s.bs with cache := bpin s.bs.cache b, pins := b :: s.bs.pins } } := by
  simp only [LogCache.step] at h
  split at h
  · rename_i hp
    split at h
    · rename_i hg
      obtain ⟨log, hl, rfl⟩ := Outcome.ok_of_map (Option.some.inj h)
      exact ⟨hp, hg.1, hg.2.1, hg.2.2, log, hl, rfl⟩
    · cases h
  · cases h

theorem LogCache.step_endOp (h : s.step (.endOp p) = some (.ok s')) :
    s.phase p = .inOp ∧ ∃ r, endOp s.log = .ok r ∧
      s' = { s with log := r.1,
                    phase := Function.update s.phase p (if r.2 then .commit .start else .idle) } := by
  simp only [LogCache.step] at h
  split at h
  · rename_i hp
    obtain ⟨r, hr, rfl⟩ := Outcome.ok_of_map (Option.some.inj h)
    exact ⟨hp, r, hr, rfl⟩
  · cases h

theorem LogCache.step_commit (h : s.step (.commit p) = some (.ok s')) :
    ∃ pc, s.phase p = .commit pc ∧ commitStep s p pc = some (.ok s') := by
  simp only [LogCache.step] at h
  split at h
  · rename_i pc hp
    exact ⟨pc, hp, h⟩
  · cases h

end Steps

section Preserve

variable {s s' : LogCache n} {p : Fin n} {pc pc' : CommitPc}

/-- A call of `commit()` by `p` that replaces the cache by `bs` and moves `p` to `pc'` keeps
the invariant when `bs` has the pins `pc'` needs and `pc'` what it knows. -/
theorem LogCache.Inv.withBs (hi : s.Inv) (hp : s.phase p = .commit pc) {bs : BSys}
    (hbs : bs.Inv) (hpins : PinsMatch s.dev bs (pc'.pinned s.log.lh))
    (hok : pc'.Ok s.log.lh bs) : (s.withBs p pc' bs).Inv where
  bs := hbs
  outstanding := by
    simp only [LogCache.withBs_log, LogCache.withBs_phase, sum_update_commit inOpCount hp]
    exact hi.outstanding
  committing := by
    simp only [LogCache.withBs_log, LogCache.withBs_phase, sum_update_commit commitCount hp]
    exact hi.committing
  quiet := hi.quiet
  nodup := hi.nodup
  idle hc := absurd (hi.flag hp) (by simp_all)
  commit q pc'' hq := by
    by_cases hqp : q = p
    · subst hqp
      simp only [LogCache.withBs_phase, Function.update_self, LPhase.commit.injEq] at hq
      subst hq
      exact ⟨hpins, hok⟩
    · simp only [LogCache.withBs_phase, Function.update_of_ne hqp] at hq
      exact absurd (hi.commit_unique hp hq) hqp

/-- ... and so does one that keeps the pins, when it keeps the blocks still pinned. -/
theorem LogCache.Inv.withFrame (hi : s.Inv) (hp : s.phase p = .commit pc) {bs : BSys}
    (hbs : bs.Inv) (hf : PinFrame s.bs bs) (hL : pc'.pinned s.log.lh = pc.pinned s.log.lh)
    (hok : pc'.Ok s.log.lh bs) : (s.withBs p pc' bs).Inv :=
  hi.withBs hp hbs (hL ▸ (hi.commit p pc hp).1.frame hf) hok

/-- `log.lh.n = 0`, before the second `write_head`: nothing is pinned any more. -/
theorem LogCache.Inv.clear (hi : s.Inv) (hp : s.phase p = .commit .clear) :
    ({ s with log := { s.log with lh := [] } } : LogCache n).Inv where
  bs := hi.bs
  outstanding := hi.outstanding
  committing := hi.committing
  quiet := hi.quiet
  nodup := List.nodup_nil
  idle hc := absurd (hi.flag hp) (by simp_all)
  commit q pc hq := by
    obtain rfl := hi.commit_unique hp hq
    obtain rfl : pc = .clear := LPhase.commit.inj (hq.symm.trans hp)
    exact ⟨(hi.commit q .clear hp).1, trivial⟩

/-- `log.committing = 0` at the end of `end_op`: the header is empty, and so are the pins. -/
theorem LogCache.Inv.finish (hi : s.Inv) (hp : s.phase p = .commit .finish) :
    ({ s with log := { s.log with committing := false },
              phase := Function.update s.phase p .idle } : LogCache n).Inv := by
  have h1 := sum_comp_update_add (fun ph : LPhase => inOpCount ph.toOp) s.phase p .idle
  have h2 := sum_comp_update_add (fun ph : LPhase => commitCount ph.toOp) s.phase p .idle
  have hc := hi.committing
  simp only [hp, hi.flag hp, LPhase.toOp_commit, LPhase.toOp_idle, inOpCount_committing,
    inOpCount_idle, commitCount_committing, commitCount_idle, if_true] at h1 h2 hc
  refine ⟨hi.bs, ?_, ?_, nofun, hi.nodup, fun _ => (hi.commit p .finish hp).1, fun q pc hq => ?_⟩
  · simp only; rw [hi.outstanding]; omega
  · simp only [Bool.false_eq_true, if_false]; omega
  · by_cases hqp : q = p
    · subst hqp
      simp at hq
    · simp only [Function.update_of_ne hqp] at hq
      exact absurd (hi.commit_unique hp hq) hqp

theorem LogCache.Inv.commitCall (hi : s.Inv) (hp : s.phase p = .commit pc)
    (h : commitStep s p pc = some (.ok s')) : s'.Inv := by
  have hpins := (hi.commit p pc hp).1
  have hok := (hi.commit p pc hp).2
  cases pc with
  | start =>
    obtain rfl := Except.ok.inj (Option.some.inj h)
    rw [LogCache.goto_eq]
    by_cases h0 : 0 < s.log.lh.length
    · rw [if_pos h0]
      exact hi.withBs hp hi.bs hpins trivial
    · rw [if_neg h0]
      exact hi.withBs hp hi.bs hpins (List.eq_nil_of_length_eq_zero (by omega))
  | writeLog tail =>
    simp only [commitStep] at h
    split at h
    · obtain ⟨⟨bs, b⟩, hr, rfl⟩ := Outcome.ok_of_map (Option.some.inj h)
      obtain ⟨hbs, hf⟩ := hi.bs.bread hr
      exact hi.withFrame hp hbs hf rfl trivial
    · obtain rfl := Except.ok.inj (Option.some.inj h)
      rw [LogCache.goto_eq]
      exact hi.withBs hp hi.bs hpins nofun
  | writeLogHome tail lbuf =>
    simp only [commitStep] at h
    split at h
    · rename_i x hx
      obtain ⟨⟨bs, b⟩, hr, rfl⟩ := Outcome.ok_of_map (Option.some.inj h)
      obtain ⟨hbs, hf⟩ := hi.bs.bread hr
      exact hi.withFrame hp hbs hf rfl ⟨x, hx, hpins.bread hi.bs (List.mem_of_getElem? hx) hr⟩
    · cases h
  | writeLogCopy tail lbuf hbuf =>
    obtain ⟨bs, hbs, rfl⟩ := Outcome.ok_of_map_map h
    exact hi.withFrame hp (hi.bs.bexec hbs)
      (hi.bs.bexec_frame (by simp [BAct.keepsPins]) hbs) rfl trivial
  | writeLogRelHome tail lbuf hbuf =>
    obtain ⟨bs, hbs, rfl⟩ := Outcome.ok_of_map_map h
    exact hi.withFrame hp (hi.bs.bstep hbs) (hi.bs.pinFrame rfl hbs) rfl trivial
  | writeLogRelLog tail lbuf =>
    obtain ⟨bs, hbs, rfl⟩ := Outcome.ok_of_map_map h
    exact hi.withFrame hp (hi.bs.bstep hbs) (hi.bs.pinFrame rfl hbs) rfl trivial
  | writeHead again =>
    obtain ⟨⟨bs, b⟩, hr, rfl⟩ := Outcome.ok_of_map (Option.some.inj h)
    obtain ⟨hbs, hf⟩ := hi.bs.bread hr
    exact hi.withFrame hp hbs hf rfl hok
  | writeHeadPut again buf =>
    obtain ⟨bs, hbs, rfl⟩ := Outcome.ok_of_map_map h
    exact hi.withFrame hp (hi.bs.bexec hbs)
      (hi.bs.bexec_frame (by simp [BAct.keepsPins]) hbs) rfl hok
  | writeHeadRel again buf =>
    obtain ⟨bs, hbs, rfl⟩ := Outcome.ok_of_map_map h
    have hf := hi.bs.pinFrame rfl hbs
    cases again with
    | true => exact hi.withFrame hp (hi.bs.bstep hbs) hf rfl (hok rfl)
    | false => exact hi.withFrame hp (hi.bs.bstep hbs) hf rfl trivial
  | install tail =>
    simp only [commitStep] at h
    split at h
    · obtain ⟨⟨bs, b⟩, hr, rfl⟩ := Outcome.ok_of_map (Option.some.inj h)
      obtain ⟨hbs, hf⟩ := hi.bs.bread hr
      exact hi.withFrame hp hbs hf rfl trivial
    · rename_i hx
      obtain rfl := Except.ok.inj (Option.some.inj h)
      rw [LogCache.goto_eq]
      have hL : CommitPc.clear.pinned s.log.lh = (CommitPc.install tail).pinned s.log.lh :=
        (List.drop_eq_nil_of_le (List.getElem?_eq_none_iff.1 hx)).symm
      exact hi.withFrame hp hi.bs (PinFrame.refl _) hL trivial
  | installHome tail lbuf =>
    simp only [commitStep] at h
    split at h
    · rename_i x hx
      obtain ⟨⟨bs, b⟩, hr, rfl⟩ := Outcome.ok_of_map (Option.some.inj h)
      obtain ⟨hbs, hf⟩ := hi.bs.bread hr
      have hmem : x ∈ s.log.lh.drop tail := by
        rw [drop_eq_cons_of_getElem? hx]
        exact List.mem_cons_self
      exact hi.withFrame hp hbs hf rfl ⟨x, hx, hpins.bread hi.bs hmem hr⟩
    · cases h
  | installCopy tail lbuf hbuf =>
    obtain ⟨bs, hbs, rfl⟩ := Outcome.ok_of_map_map h
    have hf := hi.bs.bexec_frame (by simp [BAct.keepsPins]) hbs
    exact hi.withFrame hp (hi.bs.bexec hbs) hf rfl (CommitPc.Ok.frame hok hf)
  | installUnpin tail lbuf hbuf =>
    obtain ⟨bs, hbs, rfl⟩ := Outcome.ok_of_map_map h
    obtain ⟨x, hx, hb, hblk⟩ := hok
    have hd := drop_eq_cons_of_getElem? hx
    have hnd : x ∉ s.log.lh.drop (tail + 1) :=
      (List.nodup_cons.1 (hd ▸ hi.nodup.sublist (List.drop_sublist tail _))).1
    have hpins' : PinsMatch s.dev s.bs (x :: s.log.lh.drop (tail + 1)) := hd ▸ hpins
    exact hi.withBs hp (hi.bs.bstep hbs) (hpins'.unpin hi.bs hnd hb hblk hbs) trivial
  | installRelLog tail lbuf hbuf =>
    obtain ⟨bs, hbs, rfl⟩ := Outcome.ok_of_map_map h
    exact hi.withFrame hp (hi.bs.bstep hbs) (hi.bs.pinFrame rfl hbs) rfl trivial
  | installRelHome tail hbuf =>
    obtain ⟨bs, hbs, rfl⟩ := Outcome.ok_of_map_map h
    exact hi.withFrame hp (hi.bs.bstep hbs) (hi.bs.pinFrame rfl hbs) rfl trivial
  | clear =>
    obtain rfl := Except.ok.inj (Option.some.inj h)
    rw [LogCache.goto_eq]
    exact (hi.clear hp).withFrame hp (hi.clear hp).bs (PinFrame.refl _) rfl fun _ => rfl
  | finish =>
    obtain rfl := Except.ok.inj (Option.some.inj h)
    exact hi.finish hp

/-- Any process's use of the cache keeps the invariant: it keeps the pins. -/
theorem LogCache.Inv.cache (hi : s.Inv) {a : BAct} (h : s.step (.cache a) = some (.ok s')) :
    s'.Inv := by
  obtain ⟨ha, bs, hbs, rfl⟩ := LogCache.step_cache h
  have hf := hi.bs.pinFrame ha hbs
  exact { hi with
    bs := hi.bs.bstep hbs
    idle := fun hc => (hi.idle hc).frame hf
    commit := fun q pc hq => ⟨(hi.commit q pc hq).1.frame hf, (hi.commit q pc hq).2.frame hf⟩ }

theorem LogCache.Inv.beginOp (hi : s.Inv) (h : s.step (.beginOp p) = some (.ok s')) : s'.Inv := by
  obtain ⟨hp, log, hl, rfl⟩ := LogCache.step_beginOp h
  obtain ⟨hc, -, rfl⟩ := beginOp_eq_some hl
  have h1 := sum_comp_update_add (fun ph : LPhase => inOpCount ph.toOp) s.phase p .inOp
  have h2 := sum_comp_update_add (fun ph : LPhase => commitCount ph.toOp) s.phase p .inOp
  have hc0 := hi.committing
  simp only [hp, hc, LPhase.toOp_idle, LPhase.toOp_inOp, inOpCount_idle, inOpCount_inOp,
    commitCount_idle, commitCount_inOp] at h1 h2 hc0
  refine ⟨hi.bs, ?_, ?_, by simp [hc], hi.nodup, fun _ => hi.idle hc, fun q pc hq => ?_⟩
  · simp only; rw [hi.outstanding]; omega
  · simp only [hc]; omega
  · -- no process was committing, and `p` is now in an operation
    by_cases hqp : q = p
    · subst hqp
      simp at hq
    · simp only [Function.update_of_ne hqp] at hq
      exact absurd hq (hi.no_commit hc q pc)

theorem LogCache.Inv.logWrite (hi : s.Inv) {b : Fin NBUF}
    (h : s.step (.logWrite p b) = some (.ok s')) : s'.Inv := by
  obtain ⟨-, hheld, hv, hd, log, hl, rfl⟩ := LogCache.step_logWrite h
  obtain ⟨-, hout, rfl⟩ := logWrite_eq_ok hl
  -- an operation is in progress, so no commit is
  have hc : s.log.committing = false := by
    cases hcb : s.log.committing
    · rfl
    · have := hi.quiet hcb
      omega
  by_cases hx : (s.bs.cache.buf b).blockno ∈ s.log.lh
  · -- absorbed: the block is in the header and its buffer pinned already
    simp only [if_pos hx]
    exact hi
  · simp only [if_neg hx]
    have hpin : bstep s.bs (.bpin b) =
        some (.ok { s.bs with cache := bpin s.bs.cache b, pins := b :: s.bs.pins }) := by
      simp [bstep, hheld]
    refine ⟨hi.bs.bstep hpin, hi.outstanding, hi.committing, hi.quiet, ?_,
      fun _ => (hi.idle hc).pin hx hv hd rfl hpin, fun q pc hq => absurd hq (hi.no_commit hc q pc)⟩
    exact List.nodup_append_comm.1 (List.nodup_cons.2 ⟨hx, hi.nodup⟩)

theorem LogCache.Inv.endOp (hi : s.Inv) (h : s.step (.endOp p) = some (.ok s')) : s'.Inv := by
  obtain ⟨hp, r, hr, rfl⟩ := LogCache.step_endOp h
  obtain ⟨hc, rfl⟩ := endOp_eq_ok hr
  have hc0 := hi.committing
  rw [hc] at hc0
  by_cases h0 : s.log.outstanding - 1 = 0
  · have h1 := sum_comp_update_add (fun ph : LPhase => inOpCount ph.toOp) s.phase p (.commit .start)
    have h2 := sum_comp_update_add (fun ph : LPhase => commitCount ph.toOp) s.phase p (.commit .start)
    simp only [hp, LPhase.toOp_inOp, LPhase.toOp_commit, inOpCount_inOp, inOpCount_committing,
      commitCount_inOp, commitCount_committing] at h1 h2
    simp only [h0, decide_true, if_true]
    refine ⟨hi.bs, ?_, ?_, fun _ => rfl, hi.nodup, nofun, fun q pc hq => ?_⟩
    · have ho := hi.outstanding
      simp only
      omega
    · simp only [if_true]; simp at hc0; omega
    · by_cases hqp : q = p
      · subst hqp
        simp only [Function.update_self, LPhase.commit.injEq] at hq
        subst hq
        exact ⟨hi.idle hc, trivial⟩
      · simp only [Function.update_of_ne hqp] at hq
        exact absurd hq (hi.no_commit hc q pc)
  · have h1 := sum_comp_update_add (fun ph : LPhase => inOpCount ph.toOp) s.phase p .idle
    have h2 := sum_comp_update_add (fun ph : LPhase => commitCount ph.toOp) s.phase p .idle
    simp only [hp, LPhase.toOp_inOp, LPhase.toOp_idle, inOpCount_inOp, inOpCount_idle,
      commitCount_inOp, commitCount_idle] at h1 h2
    simp only [h0, decide_false, Bool.false_eq_true, if_false]
    refine ⟨hi.bs, ?_, ?_, nofun, hi.nodup, fun _ => hi.idle hc, fun q pc hq => ?_⟩
    · simp only; rw [hi.outstanding]; omega
    · simp only [Bool.false_eq_true, if_false]; simp at hc0; omega
    · by_cases hqp : q = p
      · subst hqp
        simp at hq
      · simp only [Function.update_of_ne hqp] at hq
        exact absurd hq (hi.no_commit hc q pc)

theorem LogCache.Inv.step (hi : s.Inv) {a : LAct n} (h : s.step a = some (.ok s')) : s'.Inv := by
  cases a with
  | cache a => exact hi.cache h
  | beginOp p => exact hi.beginOp h
  | logWrite p b => exact hi.logWrite h
  | endOp p => exact hi.endOp h
  | commit p =>
    obtain ⟨pc, hp, hc⟩ := LogCache.step_commit h
    exact hi.commitCall hp hc

end Preserve

theorem LogCache.init_inv (dev start size : Nat) (disk : Disk) :
    (LogCache.init dev start size disk : LogCache n).Inv where
  bs := BSys.init_inv disk
  outstanding := by simp [LogCache.init]
  committing := by simp [LogCache.init]
  quiet := by simp [LogCache.init]
  nodup := List.nodup_nil
  idle _ := ⟨List.nodup_nil, nofun, nofun⟩
  commit _ _ := nofun

theorem LogCache.reachable_inv {dev start size : Nat} {disk : Disk} {as : List (LAct n)}
    {s : LogCache n} (h : (LogCache.init dev start size disk).exec as = some (.ok s)) : s.Inv :=
  Outcome.run_inv LogCache.Inv (fun _ _ _ hi hs => hi.step hs) (LogCache.init_inv dev start size disk) h

/-! ## Logged blocks are pinned -/

end Xv6
