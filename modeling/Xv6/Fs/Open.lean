import Xv6.Fs.Sysfile
import Xv6.Fs.Mkfs

/-!
# `sys_open`

`kernel/sysfile.c` lines 304-371.  With `O_CREATE`, `sys_open` first calls `create`, which
enters the new name in its directory; only then does it look for a file structure
(`filealloc`) and a descriptor (`fdalloc`).  When either is missing it closes what it took
and returns `-1`, but the name stays: `sysOpen_create_leaks` runs it on the image `mkfs`
writes with no files.
-/

namespace Xv6

/-! ## Descriptors and the file table -/

namespace FsState

variable {n : Nat} (s : FsState n)

@[simp] theorem setFs_self : s.setFs s.fs = s := rfl
@[simp] theorem setFs_file (fs : Fsys) : (s.setFs fs).file = s.file := rfl
@[simp] theorem setFs_proc (fs : Fsys) : (s.setFs fs).proc = s.proc := rfl
@[simp] theorem setFile_proc (f : Fin NFILE) (x : File) : (s.setFile f x).proc = s.proc := rfl
@[simp] theorem setOfile_file (p : Fin n) (fd : Fin NOFILE) (f : Option (Fin NFILE)) :
    (s.setOfile p fd f).file = s.file := rfl

@[simp] theorem setFile_file_self (f : Fin NFILE) (x : File) : (s.setFile f x).file f = x :=
  Function.update_self _ _ _

end FsState

variable {n : Nat}

/-- The image `mkfs` writes with no files: the root directory, inode `1`, in block `32`
(type `T_DIR` at byte `64`, one link at byte `70`, size `1024` at byte `72`, block `46` at
byte `76`); its entries `.` and `..` in block `46`; blocks `0` to `46` marked in use in the
bitmap, block `45`. -/
def rootOnly : Disk := fun a j =>
  if a = 32 then
    if j.val = 64 ∨ j.val = 70 then 1 else if j.val = 73 then 4 else if j.val = 76 then 46 else 0
  else if a = 45 then
    if j.val < 5 then 255 else if j.val = 5 then 127 else 0
  else if a = 46 then
    if j.val = 0 ∨ j.val = 16 then 1 else if j.val = 2 ∨ j.val = 18 ∨ j.val = 19 then 46 else 0
  else 0

/-- Process `0`, in the root of `rootOnly`, opens `.` `NOFILE` times, which takes all its
descriptors.  Then `open("a", O_CREATE|O_RDWR)` returns `-1`, yet `a`, absent before, is now
in the root directory. -/
theorem sysOpen_create_leaks :
    ∃ s s', FsState.exec (FsState.init Mkfs.sb rootOnly : FsState 1)
        (List.replicate NOFILE (0, .sysOpen [46] O_RDONLY)) = some (.ok s) ∧
      (∃ fs, namei s.fs ⟨0, by decide⟩ [97] = .ok (fs, none)) ∧
      sysOpen s 0 ⟨0, by decide⟩ [97] (O_CREATE ||| O_RDWR) = .ok (s', -1) ∧
      ∃ fs ip, namei s'.fs ⟨0, by decide⟩ [97] = .ok (fs, some ip) := by
  -- the run and the two calls are computed once, by the kernel
  have h : Outcome.holds (fun (s : FsState 1) =>
      Outcome.holds (fun (r : Fsys × Option (Fin NINODE)) => r.2.isNone)
        (some (namei s.fs ⟨0, by decide⟩ [97])) &&
      Outcome.holds (fun (r : FsState 1 × Int) => r.2 == -1 &&
          Outcome.holds (fun (q : Fsys × Option (Fin NINODE)) => q.2.isSome)
            (some (namei r.1.fs ⟨0, by decide⟩ [97])))
        (some (sysOpen s 0 ⟨0, by decide⟩ [97] (O_CREATE ||| O_RDWR))))
      (FsState.exec (FsState.init Mkfs.sb rootOnly : FsState 1)
        (List.replicate NOFILE (0, .sysOpen [46] O_RDONLY))) = true := by
    decide +kernel
  obtain ⟨s, hs, hp⟩ := Outcome.exists_of_holds h
  rw [Bool.and_eq_true] at hp
  obtain ⟨⟨fs, o⟩, hn, hnone⟩ := Outcome.exists_of_holds hp.1
  obtain ⟨⟨s', r⟩, ho, hopen⟩ := Outcome.exists_of_holds hp.2
  rw [Bool.and_eq_true, beq_iff_eq] at hopen
  obtain ⟨rfl, hafter⟩ := hopen
  obtain ⟨⟨fs', o'⟩, hn', hsome⟩ := Outcome.exists_of_holds hafter
  obtain ⟨ip, rfl⟩ := Option.isSome_iff_exists.1 hsome
  rw [Option.isNone_iff_eq_none] at hnone
  subst hnone
  exact ⟨s, s', hs, ⟨fs, Option.some.inj hn⟩, Option.some.inj ho, fs', ip, Option.some.inj hn'⟩

end Xv6
