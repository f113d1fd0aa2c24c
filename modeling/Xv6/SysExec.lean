import Xv6.Vm.Walk
import Xv6.Param

/-!
# `sys_exec`

`kernel/sysfile.c`, `sys_exec`: the path fetched by `argstr`, then the user's vector `argv`
read one pointer at a time by `fetchaddr`; for each pointer that is not null a page from
`kalloc`, into which `fetchstr` copies the string, at most `PGSIZE` bytes with its `NUL`.
At the null pointer `exec` runs; at a failure, and after `exec`, the pages in `argv` are
freed by a loop that stops at the first null entry.

The user's memory is read through `fetchaddr` and `fetchstr`, given as functions: `none`
where they fail, at an address past `p->sz` or not mapped, or at a string with no `NUL` in
its first `PGSIZE` bytes.  `sys_exec` writes only to the pages it takes from the free
list, which no user table maps, so what it reads does not change while it runs.  What
`fetchstr` copies into `argv[i]` is kept beside the page (`strs`), and `exec` is given as
a function of the path, the strings and the memory.  Ghost logs record the pages `kalloc`
returned and the pages passed to `kfree`.

With a free list of pages `kfree` accepts (`sys_exec_args`), `exec` is called exactly when
the path is fetched, the vector's first null pointer comes after fewer than `MAXARG`
strings that can all be fetched, and the free list has a page for each; it is called with
those strings, and every page taken is freed once.  The condition on the free list is
needed (`sys_exec_no_page`).
-/

namespace Xv6

namespace SysExec

/-- The state of `sys_exec`'s loop: the memory, `argv`, the strings copied into its pages,
and the ghost log of the pages `kalloc` returned. -/
structure ArgvState where
  vm : VM
  argv : Fin MAXARG → UInt64
  strs : List (List UInt8)
  allocated : List UInt64

/-- What `sys_exec` leaves: the memory, its result, the strings `exec` was called with if
it was, and the ghost logs of the pages taken and freed. -/
structure Out where
  vm : VM
  ret : Int
  called : Option (List (List UInt8))
  allocated : List UInt64
  freed : List UInt64

section Model

variable (fetchaddr : UInt64 → Option UInt64) (fetchstr : UInt64 → Option (List UInt8))
  (uargv : UInt64)

/-- The loop of `sys_exec` at `i`: the state it ends in, and whether it met the null
pointer; else it took `goto bad`. -/
def argvLoop : Nat → Nat → ArgvState → ArgvState × Bool
  | 0, _, a => (a, false)
  | fuel + 1, i, a =>
    if h : MAXARG ≤ i then (a, false)
    else
      match fetchaddr (uargv + (8 * i).toUInt64) with
      | none => (a, false)
      | some uarg =>
        -- `argv[i] = 0` holds already, from the `memset`
        if uarg = 0 then (a, true)
        else
          match kalloc a.vm with
          -- `argv[i] = kalloc()` stores the `0`
          | none => (a, false)
          | some (pa, vm) =>
            let a := { a with vm, argv := Function.update a.argv ⟨i, Nat.lt_of_not_le h⟩ pa,
                              allocated := a.allocated ++ [pa] }
            match fetchstr uarg with
            | none => (a, false)
            | some str => argvLoop fuel (i + 1) { a with strs := a.strs ++ [str] }

/-- The loop that frees `argv` from `i` on: `kfree(argv[i])` while `i < NELEM(argv)` and
`argv[i] != 0`; with the ghost log of the pages freed. -/
def freeLoop (argv : Fin MAXARG → UInt64) : Nat → Nat → VM → Except String (VM × List UInt64)
  | 0, _, vm => .ok (vm, [])
  | fuel + 1, i, vm =>
    if h : i < MAXARG then
      if argv ⟨i, h⟩ = 0 then .ok (vm, [])
      else
        match kfree vm (argv ⟨i, h⟩) with
        | .error e => .error e
        | .ok vm => (freeLoop argv fuel (i + 1) vm).map fun r => (r.1, argv ⟨i, h⟩ :: r.2)
    else .ok (vm, [])

/-- `sys_exec`, with what `argstr(0, path, MAXPATH)` fetched (`none` if it failed). -/
def sysExec (path : Option (List UInt8))
    (exec : List UInt8 → List (List UInt8) → VM → Except String (VM × Int)) (vm : VM) :
    Except String Out :=
  match path with
  | none => .ok ⟨vm, -1, none, [], []⟩
  | some path =>
    let r := argvLoop fetchaddr fetchstr uargv (MAXARG + 1) 0 ⟨vm, fun _ => 0, [], []⟩
    if r.2 then
      match exec path r.1.strs r.1.vm with
      | .error e => .error e
      | .ok (vm, ret) =>
        (freeLoop r.1.argv MAXARG 0 vm).map fun f => ⟨f.1, ret, some r.1.strs, r.1.allocated, f.2⟩
    else (freeLoop r.1.argv MAXARG 0 r.1.vm).map fun f => ⟨f.1, -1, none, r.1.allocated, f.2⟩

/-- The first `strs.length` pointers of the vector at `uargv` can be fetched, are not null,
and point at strings that can be fetched: `strs`, in order. -/
def PrefixOk (strs : List (List UInt8)) : Prop :=
  ∀ i (h : i < strs.length), ∃ a, fetchaddr (uargv + (8 * i).toUInt64) = some a ∧ a ≠ 0 ∧
    fetchstr a = some strs[i]

/-- The user's arguments: fewer than `MAXARG` strings as in `PrefixOk`, and a null pointer
after them. -/
def ArgvOk (strs : List (List UInt8)) : Prop :=
  PrefixOk fetchaddr fetchstr uargv strs ∧ strs.length < MAXARG ∧
    fetchaddr (uargv + (8 * strs.length).toUInt64) = some 0

end Model

section Spec

variable {fetchaddr : UInt64 → Option UInt64} {fetchstr : UInt64 → Option (List UInt8)}
  {uargv : UInt64}

/-- `ArgvOk` picks out one list: the strings before the first null pointer. -/
theorem ArgvOk.unique {s t : List (List UInt8)} (hs : ArgvOk fetchaddr fetchstr uargv s)
    (ht : ArgvOk fetchaddr fetchstr uargv t) : s = t := by
  -- the null pointer after the shorter list would be a pointer of the longer one
  have hlen : s.length = t.length := by
    by_contra hne
    rcases Nat.lt_or_gt_of_ne hne with h | h
    · obtain ⟨a, ha, ha0, -⟩ := ht.1 s.length h
      rw [hs.2.2, Option.some.injEq] at ha
      exact ha0 ha.symm
    · obtain ⟨a, ha, ha0, -⟩ := hs.1 t.length h
      rw [ht.2.2, Option.some.injEq] at ha
      exact ha0 ha.symm
  apply List.ext_getElem hlen
  intro i hi hi'
  obtain ⟨a, ha, -, hfa⟩ := hs.1 i hi
  obtain ⟨b, hb, -, hfb⟩ := ht.1 i hi'
  rw [ha, Option.some.injEq] at hb
  subst hb
  rw [hfa, Option.some.injEq] at hfb
  exact hfb

theorem PrefixOk.concat {strs : List (List UInt8)} (hp : PrefixOk fetchaddr fetchstr uargv strs)
    {a : UInt64} (ha : fetchaddr (uargv + (8 * strs.length).toUInt64) = some a) (ha0 : a ≠ 0)
    {str : List UInt8} (hs : fetchstr a = some str) :
    PrefixOk fetchaddr fetchstr uargv (strs ++ [str]) := by
  intro i hi
  rw [List.length_append, List.length_singleton] at hi
  rcases Nat.lt_or_ge i strs.length with h | h
  · rw [List.getElem_append_left h]
    exact hp i h
  · have hi' : i = strs.length := by omega
    subst hi'
    exact ⟨a, ha, ha0, by rw [List.getElem_append_right (Nat.le_refl _)]; simpa using hs⟩

/-- The pages taken are the first of `vm0`'s free list, in order, no more than `argv` has
entries; `argv` holds them and `0` after them. -/
structure Taken (vm0 : VM) (a : ArgvState) : Prop where
  freelist : vm0.freelist = a.allocated ++ a.vm.freelist
  kend : a.vm.kend = vm0.kend
  argv : ∀ j : Fin MAXARG, a.argv j = a.allocated.getD j 0
  len : a.allocated.length ≤ MAXARG

theorem Taken.start (vm0 : VM) : Taken vm0 ⟨vm0, fun _ => 0, [], []⟩ :=
  ⟨rfl, rfl, fun _ => rfl, Nat.zero_le _⟩

theorem Taken.strs {vm0 : VM} {a : ArgvState} (ht : Taken vm0 a) (strs : List (List UInt8)) :
    Taken vm0 { a with strs } :=
  ⟨ht.freelist, ht.kend, ht.argv, ht.len⟩

/-- `argv[i] = kalloc()` at the next free entry of `argv`. -/
theorem Taken.take {vm0 : VM} {a : ArgvState} (ht : Taken vm0 a) {pa : UInt64} {vm : VM}
    (hk : kalloc a.vm = some (pa, vm)) (i : Fin MAXARG) (hi : a.allocated.length = i) :
    Taken vm0 { a with vm, argv := Function.update a.argv i pa,
                       allocated := a.allocated ++ [pa] } := by
  obtain ⟨hfl, hkend, -⟩ := kalloc_eq_some hk
  refine ⟨?_, ?_, fun j => ?_, ?_⟩
  · show vm0.freelist = (a.allocated ++ [pa]) ++ vm.freelist
    rw [ht.freelist, hfl, List.append_assoc, List.singleton_append]
  · show vm.kend = vm0.kend
    rw [hkend, ht.kend]
  · show Function.update a.argv i pa j = (a.allocated ++ [pa]).getD j 0
    by_cases hj : j = i
    · subst hj
      rw [Function.update_self, List.getD_eq_getElem?_getD, ← hi,
        List.getElem?_append_right (Nat.le_refl _), Nat.sub_self]
      rfl
    · rw [Function.update_of_ne hj, ht.argv j, List.getD_eq_getElem?_getD,
        List.getD_eq_getElem?_getD]
      have hj' : (j : Nat) ≠ a.allocated.length := fun h => hj (Fin.ext (h.trans hi))
      rcases Nat.lt_or_gt_of_ne hj' with hlt | hgt
      · rw [List.getElem?_append_left hlt]
      · rw [List.getElem?_eq_none (by omega), List.getElem?_eq_none (by simp; omega)]
  · show (a.allocated ++ [pa]).length ≤ MAXARG
    rw [List.length_append, List.length_singleton, hi]
    exact i.isLt

/-- What the loop of `sys_exec` ends with: the pages it took as `Taken` says; and when it
met the null pointer, the user's arguments in `strs` with a page for each. -/
theorem argvLoop_sound {vm0 : VM} (fuel i : Nat) (a : ArgvState) (ht : Taken vm0 a)
    (hi : a.allocated.length = i) (hs : a.strs.length = i)
    (hp : PrefixOk fetchaddr fetchstr uargv a.strs) :
    Taken vm0 (argvLoop fetchaddr fetchstr uargv fuel i a).1 ∧
      ((argvLoop fetchaddr fetchstr uargv fuel i a).2 = true →
        ArgvOk fetchaddr fetchstr uargv (argvLoop fetchaddr fetchstr uargv fuel i a).1.strs ∧
          (argvLoop fetchaddr fetchstr uargv fuel i a).1.allocated.length =
            (argvLoop fetchaddr fetchstr uargv fuel i a).1.strs.length) := by
  induction fuel generalizing i a with
  | zero => exact ⟨ht, nofun⟩
  | succ fuel ih =>
    rw [argvLoop]
    by_cases h : MAXARG ≤ i
    · rw [dif_pos h]
      exact ⟨ht, nofun⟩
    rw [dif_neg h]
    rcases hf : fetchaddr (uargv + (8 * i).toUInt64) with _ | uarg
    · exact ⟨ht, nofun⟩
    dsimp only
    by_cases h0 : uarg = 0
    · -- the null pointer: `a.strs` is the whole vector
      rw [if_pos h0]
      subst h0
      have hlt : a.strs.length < MAXARG := by omega
      exact ⟨ht, fun _ => ⟨⟨hp, hlt, by rw [hs]; exact hf⟩, by rw [hi, hs]⟩⟩
    rw [if_neg h0]
    rcases hk : kalloc a.vm with _ | ⟨pa, vm⟩
    · exact ⟨ht, nofun⟩
    dsimp only
    have ht' := ht.take hk ⟨i, by omega⟩ hi
    rcases hstr : fetchstr uarg with _ | str
    · exact ⟨ht', nofun⟩
    dsimp only
    refine ih (i + 1) _ (ht'.strs _) ?_ ?_ ?_
    · show (a.allocated ++ [pa]).length = i + 1
      rw [List.length_append, hi, List.length_singleton]
    · show (a.strs ++ [str]).length = i + 1
      rw [List.length_append, hs, List.length_singleton]
    · exact hp.concat (by rw [hs]; exact hf) h0 hstr

/-- With the user's arguments `strs` and a page for each, the loop meets the null pointer
having copied `strs`. -/
theorem argvLoop_complete {vm0 : VM} {strs : List (List UInt8)}
    (hok : ArgvOk fetchaddr fetchstr uargv strs) (hfree : strs.length ≤ vm0.freelist.length)
    (fuel i : Nat) (a : ArgvState) (ht : Taken vm0 a) (hi : a.allocated.length = i)
    (hs : a.strs = strs.take i) (hle : i ≤ strs.length) (hfuel : strs.length < i + fuel) :
    (argvLoop fetchaddr fetchstr uargv fuel i a).2 = true ∧
      (argvLoop fetchaddr fetchstr uargv fuel i a).1.strs = strs := by
  induction fuel generalizing i a with
  | zero => omega
  | succ fuel ih =>
    have hmax : ¬MAXARG ≤ i := by have := hok.2.1; omega
    rw [argvLoop, dif_neg hmax]
    rcases Nat.lt_or_eq_of_le hle with hlt | rfl
    · -- a pointer of the vector: not null, its string fetched, and a page free for it
      obtain ⟨uarg, hf, h0, hstr⟩ := hok.1 i hlt
      have hpage : a.vm.freelist ≠ [] := by
        intro hnil
        have := congrArg List.length ht.freelist
        rw [List.length_append, hnil, List.length_nil] at this
        omega
      obtain ⟨pa, vm, hk⟩ : ∃ pa vm, kalloc a.vm = some (pa, vm) := by
        cases hk : kalloc a.vm with
        | none => exact absurd (kalloc_eq_none.mp hk) hpage
        | some r => exact ⟨r.1, r.2, rfl⟩
      rw [hf]
      dsimp only
      rw [if_neg h0, hk]
      dsimp only
      rw [hstr]
      dsimp only
      refine ih (i + 1) _ ((ht.take hk ⟨i, by omega⟩ hi).strs _) ?_ ?_ (by omega) (by omega)
      · show (a.allocated ++ [pa]).length = i + 1
        rw [List.length_append, hi, List.length_singleton]
      · show a.strs ++ [strs[i]] = strs.take (i + 1)
        rw [hs, List.take_add_one, List.getElem?_eq_getElem hlt, Option.toList_some]
    · -- the null pointer after the arguments
      rw [hok.2.2]
      dsimp only
      rw [if_pos rfl]
      exact ⟨rfl, by rw [hs, List.take_length]⟩

/-- The loop that frees `argv`, with the pages `pages` in its first entries and `0` after
them, frees those from `i` on, in order, onto the free list. -/
theorem freeLoop_spec {argv : Fin MAXARG → UInt64} {pages : List UInt64}
    (hargv : ∀ j : Fin MAXARG, argv j = pages.getD j 0) (hlen : pages.length ≤ MAXARG)
    (hnz : ∀ p ∈ pages, p ≠ 0) (fuel i : Nat) (vm : VM) (hfuel : pages.length ≤ i + fuel)
    (hok : ∀ p ∈ pages, pageOk vm.kend p) :
    ∃ vm', freeLoop argv fuel i vm = .ok (vm', pages.drop i) ∧ vm'.kend = vm.kend ∧
      vm'.freelist = (pages.drop i).reverse ++ vm.freelist := by
  induction fuel generalizing i vm with
  | zero =>
    rw [List.drop_eq_nil_of_le (by omega)]
    exact ⟨vm, rfl, rfl, rfl⟩
  | succ fuel ih =>
    rw [freeLoop]
    by_cases hi : i < pages.length
    · -- `argv[i]` is the page `pages[i]`: freed, then the rest
      have hm : i < MAXARG := by omega
      have hp : argv ⟨i, hm⟩ = pages[i] := by
        rw [hargv, List.getD_eq_getElem?_getD, List.getElem?_eq_getElem hi, Option.getD_some]
      have hmem := List.getElem_mem hi
      rw [dif_pos hm, hp, if_neg (hnz _ hmem), kfree_ok (hok _ hmem)]
      obtain ⟨vm', hrun, hkend, hfl⟩ :=
        ih (i + 1) { vm.fill pages[i] 0x0101010101010101 with freelist := pages[i] :: vm.freelist }
          (by omega) hok
      refine ⟨vm', ?_, hkend, ?_⟩
      · dsimp only at hrun ⊢
        rw [hrun, List.drop_eq_getElem_cons hi]
        rfl
      · rw [hfl, List.drop_eq_getElem_cons hi, List.reverse_cons, List.append_assoc,
          List.singleton_append]
    · -- past the pages: the null entry, or the end of `argv`
      rw [List.drop_eq_nil_of_le (by omega)]
      refine ⟨vm, ?_, rfl, rfl⟩
      by_cases hm : i < MAXARG
      · rw [dif_pos hm, if_pos]
        rw [hargv, List.getD_eq_getElem?_getD, List.getElem?_eq_none (by simp; omega),
          Option.getD_none]
      · rw [dif_neg hm]

theorem ne_zero_of_pageOk {kend p : UInt64} (hk : 0 < kend) (hp : pageOk kend p) : p ≠ 0 := by
  rintro rfl
  exact absurd hp.2.1 (UInt64.not_le.2 hk)

/-- `sys_exec` calls `exec` exactly when the path was fetched, the user's vector has fewer
than `MAXARG` strings before its null pointer, all fetched, and the free list has a page for
each; it calls `exec` with those strings, and otherwise returns `-1` with the free list as it
was.  The pages it took are distinct pages of the free list and each is freed once. -/
theorem sys_exec_args (path : Option (List UInt8))
    (exec : List UInt8 → List (List UInt8) → VM → Except String (VM × Int)) (vm : VM)
    (hpages : ∀ p ∈ vm.freelist, pageOk vm.kend p) (hnd : vm.freelist.Nodup)
    (hkend : 0 < vm.kend)
    (hexec : ∀ path strs vm', ∃ vm'' ret, exec path strs vm' = .ok (vm'', ret) ∧
      vm''.kend = vm'.kend) :
    ∃ out, sysExec fetchaddr fetchstr uargv path exec vm = .ok out ∧
      (∀ strs, out.called = some strs ↔
        path ≠ none ∧ ArgvOk fetchaddr fetchstr uargv strs ∧
          strs.length ≤ vm.freelist.length) ∧
      (out.called = none → out.ret = -1 ∧ out.vm.freelist.Perm vm.freelist) ∧
      out.allocated <+: vm.freelist ∧ out.freed = out.allocated ∧ out.allocated.Nodup := by
  cases path with
  | none =>
    exact ⟨_, rfl, fun strs => by simp, fun _ => ⟨rfl, List.Perm.refl _⟩, List.nil_prefix, rfl,
      List.nodup_nil⟩
  | some path =>
    obtain ⟨r, hr⟩ : ∃ r, argvLoop fetchaddr fetchstr uargv (MAXARG + 1) 0
        ⟨vm, fun _ => 0, [], []⟩ = r := ⟨_, rfl⟩
    obtain ⟨ht, hsound⟩ := hr ▸ argvLoop_sound (MAXARG + 1) 0 _ (Taken.start vm) rfl rfl
      (fun _ h => absurd h (Nat.not_lt_zero _))
    have hpre : r.1.allocated <+: vm.freelist := ⟨_, ht.freelist.symm⟩
    have hok : ∀ p ∈ r.1.allocated, pageOk vm.kend p := fun p hp => hpages p (hpre.subset hp)
    have hnz : ∀ p ∈ r.1.allocated, p ≠ 0 := fun p hp => ne_zero_of_pageOk hkend (hok p hp)
    have hfree (vm' : VM) (hk : vm'.kend = vm.kend) :=
      freeLoop_spec ht.argv ht.len hnz MAXARG 0 vm' (by have := ht.len; omega) (hk ▸ hok)
    simp only [sysExec, hr, List.drop_zero] at hfree ⊢
    by_cases h2 : r.2 = true
    · obtain ⟨hargs, hlen⟩ := hsound h2
      obtain ⟨vm'', ret, hex, hk''⟩ := hexec path r.1.strs r.1.vm
      obtain ⟨vm', hrun, -, -⟩ := hfree vm'' (hk''.trans ht.kend)
      refine ⟨⟨vm', ret, some r.1.strs, r.1.allocated, r.1.allocated⟩, ?_, fun strs => ?_,
        nofun, hpre, rfl, hnd.sublist hpre.sublist⟩
      · rw [if_pos h2, hex]
        dsimp only
        rw [hrun]
        rfl
      · constructor
        · rintro ⟨⟩
          exact ⟨Option.some_ne_none _, hargs, hlen ▸ hpre.length_le⟩
        · rintro ⟨-, hs, -⟩
          rw [ArgvOk.unique hargs hs]
    · obtain ⟨vm', hrun, -, hfl⟩ := hfree r.1.vm ht.kend
      refine ⟨⟨vm', -1, none, r.1.allocated, r.1.allocated⟩, ?_, fun strs => ?_,
        fun _ => ⟨rfl, ?_⟩, hpre, rfl, hnd.sublist hpre.sublist⟩
      · rw [if_neg h2, hrun]
        rfl
      · -- with the arguments and a page for each the loop would have met the null pointer
        refine ⟨nofun, ?_⟩
        rintro ⟨-, hs, hl⟩
        have hc := argvLoop_complete hs hl (MAXARG + 1) 0 _ (Taken.start vm) rfl rfl
          (Nat.zero_le _) (by have := hs.2.1; omega)
        rw [hr] at hc
        exact absurd hc.1 h2
      · show vm'.freelist.Perm vm.freelist
        rw [hfl, ht.freelist]
        exact (List.reverse_perm _).append_right _

theorem sys_exec_args_echo :
    ∃ out, sysExec (fun a => if a = 0x1000 then some 0x2000 else if a = 0x1008 then some 0
          else none) (fun a => if a = 0x2000 then some [97] else none) 0x1000 (some [47, 97])
          (fun _ _ vm => .ok (vm, 0)) ⟨fun _ _ => 0, [0x80001000], 0x80000000⟩ = .ok out ∧
      (∀ strs, out.called = some strs ↔
        some [(47 : UInt8), 97] ≠ none ∧
          ArgvOk (fun a => if a = 0x1000 then some 0x2000 else if a = 0x1008 then some 0
            else none) (fun a => if a = 0x2000 then some [97] else none) 0x1000 strs ∧
          strs.length ≤ [(0x80001000 : UInt64)].length) ∧
      (out.called = none → out.ret = -1 ∧ out.vm.freelist.Perm [0x80001000]) ∧
      out.allocated <+: [0x80001000] ∧ out.freed = out.allocated ∧ out.allocated.Nodup :=
  sys_exec_args (some [47, 97]) (fun _ _ vm => .ok (vm, 0)) ⟨fun _ _ => 0, [0x80001000], 0x80000000⟩
    (by rw [List.forall_mem_singleton]; decide) (List.nodup_singleton _) (by decide)
    (fun _ _ vm' => ⟨vm', 0, rfl, rfl⟩)

/-- The condition on the free list is needed: with one argument that can be fetched and no
free page, `sys_exec` returns `-1` without calling `exec`. -/
theorem sys_exec_no_page :
    ArgvOk (fun a => if a = 0x1000 then some 0x2000 else if a = 0x1008 then some 0 else none)
        (fun a => if a = 0x2000 then some [97] else none) 0x1000 [[97]] ∧
      ∃ out, sysExec (fun a => if a = 0x1000 then some 0x2000 else if a = 0x1008 then some 0
          else none) (fun a => if a = 0x2000 then some [97] else none) 0x1000 (some [47, 97])
          (fun _ _ vm => .ok (vm, 0)) ⟨fun _ _ => 0, [], 0x80000000⟩ = .ok out ∧
        out.called = none ∧ out.ret = -1 := by
  refine ⟨⟨fun i hi => ?_, by decide, rfl⟩, _, rfl, rfl, rfl⟩
  obtain rfl : i = 0 := by simpa using hi
  exact ⟨0x2000, rfl, by decide, rfl⟩

end Spec

end SysExec

end Xv6
