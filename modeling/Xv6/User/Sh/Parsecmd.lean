import Xv6.User.Sh.Descent

/-!
# `parsecmd` accepts its grammar

`nulterminate` writes a `NUL` at the end of each word of the tree and nowhere else
(`char_nulterminate`); since the byte at the end of a word goes into no word, each word is
then the string at its start (`cstr_nulterminate`).  With the specs of the parser,
`parsecmd_grammar`: a line whose tokens derive a tree is parsed to that tree, and any other
line panics.
-/

namespace Xv6.Sh

/-! ## `nulterminate` -/

section Nul

theorem char_of_lt {buf : List UInt8} {i : Nat} (h : i < buf.length) : char buf i = buf[i] := by
  rw [char, List.getD_eq_getElem?_getD, List.getElem?_eq_getElem h, Option.getD_some]

theorem char_set_zero (buf : List UInt8) (i j : Nat) :
    char (buf.set j 0) i = if j == i then 0 else char buf i := by
  unfold char
  simp only [List.getD_eq_getElem?_getD, List.getElem?_set]
  by_cases hij : j = i
  · subst hij
    by_cases hi : j < buf.length
    · simp [hi]
    · simp [hi]
  · simp [hij]

theorem ite_or_zero (b b' : Bool) (x : UInt8) :
    (if b' then 0 else if b then 0 else x) = if (b || b') then 0 else x := by
  cases b <;> cases b' <;> rfl

theorem length_nulterminate (c : Cmd (Nat × Nat)) (buf : List UInt8) :
    (nulterminate c buf).length = buf.length := by
  induction c generalizing buf with
  | exec argv =>
    rw [nulterminate]
    induction argv generalizing buf with
    | nil => rfl
    | cons a argv ih => rw [List.foldl_cons, ih, List.length_set]
  | redir c file _ _ ih => rw [nulterminate, List.length_set, ih]
  | pipe l r ihl ihr => rw [nulterminate, ihr, ihl]
  | list l r ihl ihr => rw [nulterminate, ihr, ihl]
  | back c ih => rw [nulterminate, ih]

/-- `nulterminate` writes a `NUL` at the end of each word of the tree, and nothing else. -/
theorem char_nulterminate (c : Cmd (Nat × Nat)) (buf : List UInt8) (i : Nat) :
    char (nulterminate c buf) i = if c.words.any (·.2 == i) then 0 else char buf i := by
  induction c generalizing buf with
  | exec argv =>
    rw [nulterminate, Cmd.words]
    induction argv generalizing buf with
    | nil => rfl
    | cons a argv ih => rw [List.foldl_cons, ih, char_set_zero, ite_or_zero, List.any_cons]
  | redir c file _ _ ih =>
    rw [nulterminate, char_set_zero, ih, ite_or_zero, Cmd.words, List.any_append, List.any_cons,
      List.any_nil, Bool.or_false]
  | pipe l r ihl ihr => rw [nulterminate, ihr, ihl, ite_or_zero, Cmd.words, List.any_append]
  | list l r ihl ihr => rw [nulterminate, ihr, ihl, ite_or_zero, Cmd.words, List.any_append]
  | back c ih => rw [nulterminate, ih, Cmd.words]

theorem cstr_eq_slice {buf buf' : List UInt8} {q eq : Nat} (hqe : q ≤ eq)
    (hlen : buf'.length = buf.length) (hle : eq ≤ buf.length)
    (hin : ∀ i, q ≤ i → i < eq → char buf' i = char buf i ∧ char buf i ≠ 0)
    (hstop : eq < buf.length → char buf' eq = 0) : cstr buf' (q, eq) = slice buf (q, eq) := by
  obtain ⟨k, rfl⟩ : ∃ k, eq = q + k := ⟨eq - q, by omega⟩
  unfold cstr slice
  dsimp only
  rw [Nat.add_sub_cancel_left]
  induction k generalizing q with
  | zero =>
    rw [List.take_zero]
    by_cases hq : q < buf.length
    · have h0 : char buf' q = 0 := hstop hq
      rw [char_of_lt (hlen ▸ hq)] at h0
      rw [List.drop_eq_getElem_cons (hlen ▸ hq), List.takeWhile_cons_of_neg (by simp [h0])]
    · rw [List.drop_eq_nil_of_le (by omega), List.takeWhile_nil]
  | succ k ih =>
    have hq : q < buf.length := by omega
    obtain ⟨he, hne⟩ := hin q le_rfl (by omega)
    rw [char_of_lt (hlen ▸ hq), char_of_lt hq] at he
    rw [char_of_lt hq] at hne
    rw [List.drop_eq_getElem_cons (hlen ▸ hq), List.drop_eq_getElem_cons hq, List.take_succ_cons,
      List.takeWhile_cons_of_pos (by simp [he, hne]), he]
    congr 1
    refine ih (by omega) (by omega) (fun i h1 h2 => hin i (by omega) (by omega)) ?_
    rw [Nat.add_assoc, Nat.add_comm 1 k]
    exact hstop

variable {buf : List UInt8}

/-- After `nulterminate`, the string at each word of the tree is the word: no word ends
inside another, since the byte at an end goes into no word. -/
theorem cstr_nulterminate (h0 : 0 ∉ buf) {c : Cmd (Nat × Nat)}
    (hw : ∀ w ∈ c.words, WordAt buf w.1 w.2) {w : Nat × Nat} (hmem : w ∈ c.words) :
    cstr (nulterminate c buf) w = slice buf w := by
  have hwa := hw w hmem
  refine cstr_eq_slice (le_of_lt hwa.lt) (length_nulterminate c buf) hwa.le ?_ ?_
  · intro i h1 h2
    have hi : i < buf.length := by have := hwa.le; omega
    refine ⟨?_, ?_⟩
    · rw [char_nulterminate, if_neg]
      intro hany
      obtain ⟨w', hw', he⟩ := List.any_eq_true.mp hany
      rw [beq_iff_eq] at he
      subst he
      have hstop := (hw w' hw').stop hi
      rw [hwa.inside _ h1 h2] at hstop
      cases hstop
    · rw [char_of_lt hi]
      intro h
      exact h0 (h ▸ List.getElem_mem hi)
  · intro _
    have hany : c.words.any (·.2 == w.2) = true :=
      List.any_eq_true.mpr ⟨w, hmem, beq_self_eq_true w.2⟩
    rw [char_nulterminate, if_pos hany]

theorem map_cstr_nulterminate (h0 : 0 ∉ buf) {c : Cmd (Nat × Nat)}
    (hw : ∀ w ∈ c.words, WordAt buf w.1 w.2) :
    c.map (cstr (nulterminate c buf)) = c.map (slice buf) :=
  Cmd.map_congr c fun _ hmem => cstr_nulterminate h0 hw hmem

end Nul

/-! ## `parsecmd` -/

section Parsecmd

variable {buf : List UInt8}

theorem length_le_of_char_eq_zero (h0 : 0 ∉ buf) {i : Nat} (h : char buf i = 0) :
    buf.length ≤ i := by
  by_contra hi
  rw [char_of_lt (by omega)] at h
  exact h0 (h ▸ List.getElem_mem _)

theorem peek_eq_length_iff (h0 : 0 ∉ buf) {p : Nat} (hp : p ≤ buf.length) :
    (peek buf p []).2 = buf.length ↔ scan buf p = [] := by
  rw [scan_eq_nil_iff]
  show skipWs buf p = buf.length ↔ _
  constructor
  · intro h
    rw [h]
    exact char_eq_zero buf le_rfl
  · intro h
    have h1 := length_le_of_char_eq_zero h0 h
    have h2 := skipWs_le_length buf hp
    omega

theorem parsecmd_fuel : 4 * (scan buf 0).length + 4 < 4 * buf.length + 5 := by
  have := length_scan_le buf 0
  omega

theorem parsecmd_sound {cmd : Cmd (Nat × Nat)} {buf'} (h0 : 0 ∉ buf)
    (h : parsecmd buf = .ok (cmd, buf')) :
    Derives .line (scan buf 0) cmd ∧ buf' = nulterminate cmd buf := by
  have hs := (parse_sound buf _).1 0 parsecmd_fuel
  unfold parsecmd at h
  rcases hpl : parseline buf (4 * buf.length + 5) 0 with e | ⟨c, p⟩ <;> rw [hpl] at h hs
  · cases h
  · obtain ⟨pre, hpre, hd, hp⟩ := hs
    dsimp only at h
    by_cases hend : (peek buf p []).2 = buf.length
    · rw [if_neg (not_not.mpr hend)] at h
      cases h
      rw [peek_eq_length_iff h0 (hp (Nat.zero_le _))] at hend
      rw [hend, List.append_nil] at hpre
      exact ⟨hpre ▸ hd, rfl⟩
    · rw [if_pos hend] at h
      cases h

theorem parsecmd_complete {c : Cmd (Nat × Nat)} (h0 : 0 ∉ buf) (h : Derives .line (scan buf 0) c) :
    parsecmd buf = .ok (c, nulterminate c buf) := by
  obtain ⟨p, hp, hnil⟩ := parse_complete buf h (4 * buf.length + 5) 0 []
    (List.append_nil _).symm (.inl rfl) parsecmd_fuel
  change parseline buf _ 0 = _ at hp
  have hs := (parse_sound buf _).1 0 parsecmd_fuel
  rw [hp] at hs
  obtain ⟨-, -, -, hle⟩ := hs
  unfold parsecmd
  rw [hp]
  dsimp only
  rw [if_neg (not_not.mpr ((peek_eq_length_iff h0 (hle (Nat.zero_le _))).mpr hnil))]

theorem parsecmd_ok_or_panic :
    (∃ cmd buf', parsecmd buf = .ok (cmd, buf')) ∨ ∃ msg, parsecmd buf = .error (.panic msg) := by
  have hs := (parse_sound buf _).1 0 parsecmd_fuel
  unfold parsecmd
  rcases hpl : parseline buf (4 * buf.length + 5) 0 with e | ⟨c, p⟩ <;> rw [hpl] at hs
  · obtain ⟨msg, rfl⟩ := hs
    exact .inr ⟨msg, rfl⟩
  · dsimp only
    by_cases hend : (peek buf p []).2 = buf.length
    · rw [if_neg (not_not.mpr hend)]
      exact .inl ⟨_, _, rfl⟩
    · rw [if_pos hend]
      exact .inr ⟨_, rfl⟩

end Parsecmd

/-- `parsecmd` accepts exactly its grammar: a line whose tokens derive a tree is parsed to
that tree, each word read as the string `nulterminate` leaves at it, and any other line
panics. -/
theorem parsecmd_grammar (buf : List UInt8) (h0 : 0 ∉ buf) :
    (∀ c, Derives .line (tokens buf) c ↔
      ∃ cmd buf', parsecmd buf = .ok (cmd, buf') ∧ cmd.map (cstr buf') = c) ∧
    ((∃ cmd buf', parsecmd buf = .ok (cmd, buf')) ∨ ∃ msg, parsecmd buf = .error (.panic msg)) := by
  have hwords : ∀ {c : Cmd (Nat × Nat)}, Derives .line (scan buf 0) c →
      ∀ w ∈ c.words, WordAt buf w.1 w.2 :=
    fun hd w hw => wordAt_of_mem buf (hd.words_mem w hw)
  refine ⟨fun c => ⟨fun hd => ?_, ?_⟩, parsecmd_ok_or_panic⟩
  · have htok : (scan buf 0).map (Tok.map (slice buf)) = tokens buf := rfl
    obtain ⟨c0, hd0, rfl⟩ := hd.of_map htok
    exact ⟨c0, _, parsecmd_complete h0 hd0, map_cstr_nulterminate h0 (hwords hd0)⟩
  · rintro ⟨cmd, buf', h, rfl⟩
    obtain ⟨hd, rfl⟩ := parsecmd_sound h0 h
    rw [map_cstr_nulterminate h0 (hwords hd)]
    exact hd.map

theorem parsecmd_grammar_pipe :
    (∀ c, Derives .line (tokens [97, 124, 98]) c ↔
      ∃ cmd buf', parsecmd [97, 124, 98] = .ok (cmd, buf') ∧ cmd.map (cstr buf') = c) ∧
    ((∃ cmd buf', parsecmd [97, 124, 98] = .ok (cmd, buf')) ∨
      ∃ msg, parsecmd [97, 124, 98] = .error (.panic msg)) :=
  parsecmd_grammar [97, 124, 98] (by decide)

example : (parsecmd [97, 124, 98]).toOption =
    some (.pipe (.exec [(0, 1)]) (.exec [(2, 3)]), [97, 0, 98]) := by
  decide +kernel

end Xv6.Sh
