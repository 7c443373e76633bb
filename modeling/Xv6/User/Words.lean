import Xv6.User.Complete

namespace Xv6.User

/-- The words of a command: arguments, and the files of redirections. -/
def Cmd.words : Cmd → List Word
  | .exec argv => argv
  | .redir cmd r => cmd.words ++ [r.file]
  | .pipe left right => left.words ++ right.words
  | .list left right => left.words ++ right.words
  | .back cmd => cmd.words

def Tok.word? : Tok → Option Word
  | .word w => some w
  | _ => none

/-- The string that a pointer to position q points to. -/
def cString (buf : List Byte) (q : Nat) : List Byte := (buf.drop q).takeWhile (· ≠ 0)

/-- The characters of a word. -/
def Word.text (s : List Byte) (w : Word) : List Byte := (s.drop w.q).take (w.eq - w.q)

theorem words_wrap (cmd : Cmd) (rs : List Redir) :
    (wrap cmd rs).words = cmd.words ++ rs.map Redir.file := by
  induction rs generalizing cmd with
  | nil => simp [wrap]
  | cons r rs ih =>
    rw [wrap, List.foldl_cons, ← wrap, ih]
    simp [Cmd.words]

theorem words_back (n : Nat) (cmd : Cmd) : (Cmd.back^[n] cmd).words = cmd.words := by
  induction n generalizing cmd with
  | zero => rfl
  | succ n ih => exact ih (.back cmd)

theorem Redirs.words (h : Redirs ts rs) : ts.filterMap Tok.word? = rs.map Redir.file := by
  induction h with
  | nil => rfl
  | input _ ih => exact congrArg (List.cons _) ih
  | output _ ih => exact congrArg (List.cons _) ih
  | append _ ih => exact congrArg (List.cons _) ih

theorem Args.words (h : Args ts ws rs) :
    (ws ++ rs.map Redir.file).Perm (ts.filterMap Tok.word?) := by
  induction h with
  | nil => exact .refl _
  | @cons rts rs ts ws rs' w head tail ih =>
    simp only [Tok.word?, List.filterMap_cons, List.filterMap_append, head.words, List.map_append,
      List.cons_append]
    refine .cons w (.trans ?_ (.append_left _ ih))
    rw [← List.append_assoc, ← List.append_assoc]
    exact .append_right _ List.perm_append_comm

/-- A command has the words that were read for it. -/
theorem Derives.words (h : Derives nt ts cmd) : cmd.words.Perm (ts.filterMap Tok.word?) := by
  induction h with
  | block _ redirs ih =>
    simp only [words_wrap, List.filterMap_cons, List.filterMap_append, Tok.word?, redirs.words]
    exact ih.append_right _
  | @args rts rs ts ws rs' redirs args _ =>
    simp only [words_wrap, Cmd.words, List.map_append, List.filterMap_append, redirs.words]
    refine .trans ?_ (.append_left _ args.words)
    rw [← List.append_assoc, ← List.append_assoc]
    exact .append_right _ List.perm_append_comm
  | one _ ih => exact ih
  | pipe _ _ ih ihr =>
    simp only [Cmd.words, List.filterMap_append, List.filterMap_cons, Tok.word?]
    exact ih.append ihr
  | last n _ ih => simpa [words_back, List.filterMap_replicate, Tok.word?] using ih
  | list n _ _ ih ihr =>
    simp only [Cmd.words, words_back, List.filterMap_append, List.filterMap_replicate,
      List.filterMap_cons, Tok.word?, List.nil_append]
    exact ih.append ihr

/-- nulterminate() stores a NUL behind every word. -/
theorem nulterminate_eq (cmd : Cmd) (s : List Byte) :
    nulterminate cmd s = cmd.words.foldl (fun s w => s.set w.eq 0) s := by
  induction cmd generalizing s with
  | exec argv => rfl
  | redir cmd r ih => simp [nulterminate, Cmd.words, ih]
  | pipe left right ihl ihr => simp [nulterminate, Cmd.words, ihl, ihr]
  | list left right ihl ihr => simp [nulterminate, Cmd.words, ihl, ihr]
  | back cmd ih => exact ih s

theorem getElem?_ends {ws : List Word} {s : List Byte} (hi : i < s.length) :
    (ws.foldl (fun s w => s.set w.eq 0) s)[i]? =
      if i ∈ ws.map Word.eq then some 0 else s[i]? := by
  induction ws generalizing s with
  | nil => simp
  | cons w ws ih =>
    rw [List.foldl_cons, ih (by rwa [List.length_set]), List.getElem?_set]
    by_cases hm : i ∈ ws.map Word.eq
    · simp [hm]
    · by_cases he : w.eq = i
      · subst he
        simp [hm, hi]
      · simp [hm, he, Ne.symm he]

/-- A word stands between characters that are not part of it. -/
theorem Lex.word_split (h : Lex p l ts) (hw : .word w ∈ ts) : ∃ l₁ txt l₂, l = l₁ ++ (txt ++ l₂) ∧
    w = ⟨p + l₁.length, p + l₁.length + txt.length⟩ ∧ (∀ b ∈ txt, plain b = true ∧ b ≠ 0) ∧
    ∀ b, l₂.head? = some b → plain b = false := by
  induction h with
  | nil => cases hw
  | space _ _ ih =>
    obtain ⟨l₁, txt, l₂, rfl, rfl, htxt⟩ := ih hw
    exact ⟨_ :: l₁, txt, l₂, rfl, by simp; omega, htxt⟩
  | single ht _ ih =>
    rcases List.mem_cons.mp hw with rfl | hw
    · cases ht
    · obtain ⟨l₁, txt, l₂, rfl, rfl, htxt⟩ := ih hw
      exact ⟨_ :: l₁, txt, l₂, rfl, by simp; omega, htxt⟩
  | append _ ih =>
    obtain ⟨l₁, txt, l₂, rfl, rfl, htxt⟩ := ih (List.mem_of_ne_of_mem (by simp) hw)
    exact ⟨62 :: 62 :: l₁, txt, l₂, rfl, by simp; omega, htxt⟩
  | gt _ _ ih =>
    obtain ⟨l₁, txt, l₂, rfl, rfl, htxt⟩ := ih (List.mem_of_ne_of_mem (by simp) hw)
    exact ⟨62 :: l₁, txt, l₂, rfl, by simp; omega, htxt⟩
  | word v l hne hv hl _ ih =>
    rcases List.mem_cons.mp hw with hw | hw
    · cases hw
      exact ⟨[], v, l, rfl, rfl, hv, hl⟩
    · obtain ⟨l₁, txt, l₂, rfl, rfl, htxt⟩ := ih hw
      exact ⟨v ++ l₁, txt, l₂, by simp, by simp; omega, htxt⟩

theorem cString_of_split {l txt : List Byte} (h : ∀ j < txt.length, l[j]? = txt[j]?)
    (hz : l[txt.length]? = some 0) (hne : ∀ b ∈ txt, b ≠ 0) : l.takeWhile (· ≠ 0) = txt := by
  induction txt generalizing l with
  | nil =>
    cases l with
    | nil => rfl
    | cons a l =>
      cases hz
      rfl
  | cons b txt ih =>
    cases l with
    | nil => cases hz
    | cons a l =>
      obtain rfl : a = b := Option.some.inj (h 0 (Nat.zero_lt_succ _))
      rw [List.takeWhile_cons_of_pos (by simpa using hne a List.mem_cons_self)]
      exact congrArg (List.cons a) (ih (fun j hj => h (j + 1) (Nat.succ_lt_succ hj)) hz
        (fun c hc => hne c (List.mem_cons_of_mem a hc)))

/-- After parsecmd() the words of the command are those of the line, and every one of them, read as
a string from the buffer with all the NULs in it, is still the word that was read. -/
theorem words_survive (s : List Byte) (h0 : (0 : Byte) ∉ s) (hp : parsecmd s = .ok (cmd, buf)) :
    ∃ ts, Lex 0 s ts ∧ cmd.words.Perm (ts.filterMap Tok.word?) ∧
      ∀ w ∈ cmd.words, cString buf w.q = w.text s := by
  obtain ⟨ts, hl⟩ := lex_total s.length s (Nat.le_refl _) h0 0
  obtain ⟨⟨c, hr⟩, rfl⟩ := parsecmd_ok.mp hp
  have hle := hl.length_le
  have hd := (parsetree_sound hl (by omega)).returns hr
  refine ⟨ts, hl, hd.words, fun w hw => ?_⟩
  have htok : ∀ v ∈ cmd.words, .word v ∈ ts := by
    intro v hv
    obtain ⟨t, ht, htv⟩ := List.mem_filterMap.mp (hd.words.mem_iff.mp hv)
    cases t with
    | word u =>
      cases htv
      exact ht
    | _ => cases htv
  obtain ⟨l₁, txt, l₂, rfl, rfl, htxt, -⟩ := hl.word_split (htok w hw)
  have htext : Word.text (l₁ ++ (txt ++ l₂)) ⟨0 + l₁.length, 0 + l₁.length + txt.length⟩ = txt := by
    simp [Word.text]
  rw [htext, cString, nulterminate_eq]
  refine cString_of_split (fun j hj => ?_) ?_ (fun b hb => (htxt b hb).2)
  · -- no word ends inside another one
    have hget : (l₁ ++ (txt ++ l₂))[l₁.length + j]? = txt[j]? := by
      rw [List.getElem?_append_right (Nat.le_add_right _ _), Nat.add_sub_cancel_left,
        List.getElem?_append_left hj]
    have hend : l₁.length + j ∉ cmd.words.map Word.eq := by
      intro hm
      obtain ⟨v, hv, he⟩ := List.mem_map.mp hm
      obtain ⟨k₁, txt', k₂, hs, rfl, -, hstop⟩ := hl.word_split (htok v hv)
      have hlen : l₁.length + j = (k₁ ++ txt').length := by
        rw [← he, List.length_append, Nat.zero_add]
      have hb := (htxt txt[j] (List.getElem_mem hj)).1
      rw [hs, hlen, ← List.append_assoc, List.getElem?_append_right (Nat.le_refl _), Nat.sub_self,
        ← List.head?_eq_getElem?, List.getElem?_eq_getElem hj] at hget
      rw [hstop _ hget] at hb
      cases hb
    have hlt : l₁.length + j < (l₁ ++ (txt ++ l₂) ++ [0]).length := by
      simp only [List.length_append]
      omega
    rw [List.getElem?_drop, Nat.zero_add, getElem?_ends hlt, if_neg hend,
      List.getElem?_append_left (by simp only [List.length_append]; omega), hget]
  · rw [List.getElem?_drop, getElem?_ends, if_pos]
    · exact List.mem_map.mpr ⟨_, hw, rfl⟩
    · simp only [List.length_append, List.length_singleton]
      omega

theorem words_survive_abutting : ∃ cmd buf, parsecmd abutting = .ok (cmd, buf) ∧
    cmd.words = [⟨0, 1⟩, ⟨2, 3⟩, ⟨4, 5⟩, ⟨6, 7⟩] ∧ cString buf 2 = [98] := by
  refine ⟨_, _, rfl, rfl, ?_⟩
  obtain ⟨ts, -, -, h⟩ := words_survive abutting (by decide) rfl
  exact h ⟨2, 3⟩ (by decide)

end Xv6.User
