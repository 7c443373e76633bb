import Xv6.Fs.Runs

namespace Xv6.Fs

open Function Lib

/-- The entries of directory i: "." and ".." first, and different names for those in use. -/
structure DirOk (i : Nat) (l : List Dirent) : Prop where
  self : l[0]? = some ⟨i, dot⟩
  up : ∃ d, d ≠ 0 ∧ l[1]? = some ⟨d, dotdot⟩
  named : ∀ (k : Nat) (e : Dirent), l[k]? = some e → e.inum ≠ 0 → e.name ≠ []
  distinct : ∀ (k m : Nat) (e e' : Dirent), l[k]? = some e → l[m]? = some e' → e.inum ≠ 0 →
    e'.inum ≠ 0 → e.name = e'.name → k = m

theorem getElem?_place {l : List Dirent} (hk : k ≤ l.length) (e : Dirent) (m : Nat) :
    (place l k e)[m]? = if m = k then some e else l[m]? := by
  unfold place
  split
  · rename_i hlt
    rw [List.getElem?_set]
    by_cases hm : k = m
    · subst hm
      simp [hlt]
    · simp [hm, Ne.symm hm]
  · have hk' : k = l.length := by omega
    subst hk'
    by_cases hm : m = l.length
    · subst hm
      simp
    · rw [if_neg hm]
      rcases Nat.lt_or_ge m l.length with hlt | hge
      · rw [List.getElem?_append_left hlt]
      · rw [List.getElem?_append_right hge, List.getElem?_eq_none hge, List.getElem?_eq_none]
        simp
        omega

/-- The entries in use have different names. -/
def Distinct (l : List Dirent) : Prop :=
  ∀ (k m : Nat) (e e' : Dirent), l[k]? = some e → l[m]? = some e' → e.inum ≠ 0 → e'.inum ≠ 0 →
    e.name = e'.name → k = m

/-- An entry whose name no other one has may take the place of another. -/
theorem Distinct.place {l : List Dirent} (h : Distinct l) (hk : k ≤ l.length)
    (hnew : ∀ (m : Nat) (e : Dirent), m ≠ k → l[m]? = some e → e.inum ≠ 0 → new.inum ≠ 0 →
      e.name ≠ new.name) : Distinct (place l k new) := by
  intro m m' e e' hm hm' he he' hn
  rw [getElem?_place hk] at hm hm'
  split at hm
  · rename_i hmk
    cases hm
    split at hm'
    · omega
    · rename_i hne
      exact absurd hn.symm (hnew m' e' hne hm' he' he)
  · rename_i hne
    split at hm'
    · cases hm'
      exact absurd hn (hnew m e hne hm he he')
    · exact h m m' e e' hm hm' he he' hn

theorem lookup_eq_none {n : Node} : n.lookup name = none ↔
    ∀ (k : Nat) (e : Dirent), n.entries[k]? = some e → e.inum ≠ 0 → e.name ≠ name := by
  rw [Node.lookup, Option.map_eq_none_iff, List.find?_eq_none]
  constructor
  · intro h k e hk he hname
    have := h e (List.mem_of_getElem? hk)
    simp [he, hname] at this
  · intro h e he
    obtain ⟨k, hk⟩ := List.getElem?_of_mem he
    simp only [Bool.and_eq_true, bne_iff_ne, ne_eq, beq_iff_eq, not_and]
    exact fun h0 hn => h k e hk h0 hn

theorem lookup_eq_some {n : Node} (h : n.lookup name = some i) :
    i ≠ 0 ∧ ∃ k : Nat, n.entries[k]? = some ⟨i, name⟩ := by
  obtain ⟨e, he, rfl⟩ := Option.map_eq_some_iff.mp h
  have hp := List.find?_some he
  simp only [Bool.and_eq_true, bne_iff_ne, ne_eq, beq_iff_eq] at hp
  obtain ⟨k, hk⟩ := List.getElem?_of_mem (List.mem_of_find?_eq_some he)
  refine ⟨hp.1, k, ?_⟩
  rw [hk, ← hp.2]

section
variable {n : Node} {V V' : View} {sb : Superblock} {H : Nat → Prop} {P : Change → Prop}

theorem DirOk.two_le_vacant (h : DirOk i n.entries) (hi : i ≠ 0) (hv : Vacant n k name) :
    2 ≤ k := by
  obtain ⟨d, hd, hup⟩ := h.up
  rcases Nat.lt_or_ge k 2 with hlt | hge
  · have hk : k = 0 ∨ k = 1 := by omega
    rcases hk with rfl | rfl
    · exact absurd (hv.slot _ h.self) hi
    · exact absurd (hv.slot _ hup) hd
  · exact hge

theorem DirOk.two_le_named (h : DirOk i n.entries) (hk : n.entries[k]? = some ⟨j, name⟩)
    (hdot : name ≠ dot ∧ name ≠ dotdot) : 2 ≤ k := by
  obtain ⟨d, -, hup⟩ := h.up
  rcases Nat.lt_or_ge k 2 with hlt | hge
  · have hk' : k = 0 ∨ k = 1 := by omega
    rcases hk' with rfl | rfl
    · rw [h.self] at hk
      cases hk
      exact absurd rfl hdot.1
    · rw [hup] at hk
      cases hk
      exact absurd rfl hdot.2
  · exact hge

theorem DirOk.enter (h : DirOk i n.entries) (hi : i ≠ 0) (hv : Vacant n k name)
    (hname : name ≠ []) : DirOk i (n.enter k ⟨j, name⟩).entries := by
  have hk := h.two_le_vacant hi hv
  obtain ⟨d, hd, hup⟩ := h.up
  have hget := fun m => getElem?_place (e := ⟨j, name⟩) hv.le m
  have hfresh := lookup_eq_none.mp hv.fresh
  simp only [enter_entries]
  refine ⟨?_, ⟨d, hd, ?_⟩, ?_, ?_⟩
  · rw [hget, if_neg (by omega)]
    exact h.self
  · rw [hget, if_neg (by omega)]
    exact hup
  · intro m e hm he
    rw [hget] at hm
    split at hm
    · cases hm
      exact hname
    · exact h.named m e hm he
  · exact Distinct.place h.distinct hv.le (fun m e _ hm he _ => hfresh m e hm he)

theorem DirOk.clear (h : DirOk i n.entries) (hk : n.entries[k]? = some ⟨j, name⟩)
    (hdot : name ≠ dot ∧ name ≠ dotdot) : DirOk i (n.enter k ⟨0, []⟩).entries := by
  have hk2 := h.two_le_named hk hdot
  obtain ⟨d, hd, hup⟩ := h.up
  have hlt : k < n.entries.length := (List.getElem?_eq_some_iff.mp hk).1
  have hget := fun m => getElem?_place (e := ⟨0, []⟩) (Nat.le_of_lt hlt) m
  simp only [enter_entries]
  refine ⟨?_, ⟨d, hd, ?_⟩, ?_, ?_⟩
  · rw [hget, if_neg (by omega)]
    exact h.self
  · rw [hget, if_neg (by omega)]
    exact hup
  · intro m e hm he
    rw [hget] at hm
    split at hm
    · cases hm
      exact absurd rfl he
    · exact h.named m e hm he
  · exact Distinct.place h.distinct (Nat.le_of_lt hlt) (fun m e _ _ _ h0 => absurd rfl h0)

theorem DirOk.of_empty {l : List Dirent} (hi : l[0]? = some ⟨i, dot⟩) (hd : d ≠ 0)
    (hup : l[1]? = some ⟨d, dotdot⟩)
    (hrest : ∀ (k : Nat) (e : Dirent), 2 ≤ k → l[k]? = some e → e.inum = 0) : DirOk i l := by
  have hcases : ∀ (k : Nat) (e : Dirent), l[k]? = some e → e.inum ≠ 0 →
      k = 0 ∧ e = ⟨i, dot⟩ ∨ k = 1 ∧ e = ⟨d, dotdot⟩ := by
    intro k e hk he
    match k with
    | 0 =>
      rw [hi] at hk
      exact .inl ⟨rfl, (Option.some.inj hk).symm⟩
    | 1 =>
      rw [hup] at hk
      exact .inr ⟨rfl, (Option.some.inj hk).symm⟩
    | k + 2 => exact absurd (hrest _ e (by omega) hk) he
  refine ⟨hi, ⟨d, hd, hup⟩, ?_, ?_⟩
  · intro k e hk he
    rcases hcases k e hk he with ⟨-, rfl⟩ | ⟨-, rfl⟩
    · simp [dot]
    · simp [dotdot]
  · intro k m e e' hk hm he he' hn
    rcases hcases k e hk he with ⟨rfl, rfl⟩ | ⟨rfl, rfl⟩
    · rcases hcases m e' hm he' with ⟨rfl, rfl⟩ | ⟨rfl, rfl⟩
      · rfl
      · cases hn
    · rcases hcases m e' hm he' with ⟨rfl, rfl⟩ | ⟨rfl, rfl⟩
      · cases hn
      · rfl

theorem dirOk_new (hd : d ≠ 0) : DirOk i (Node.new T_DIR i d).entries := by
  refine .of_empty rfl hd rfl ?_
  intro k e hk he
  have hlt := (List.getElem?_eq_some_iff.mp he).1
  have hlen : (Node.new T_DIR i d).entries.length = 2 := rfl
  omega

/-- Every directory is well formed, and inode 0 is not in use. -/
structure TreeOk (V : View) : Prop where
  pos : (V 0).type = 0
  dirs : ∀ i, (V i).type = T_DIR → DirOk i (V i).entries

theorem TreeOk.ne_zero (h : TreeOk V) (hi : (V i).type ≠ 0) : i ≠ 0 := by
  rintro rfl
  exact hi h.pos

theorem TreeOk.thin (h : TreeOk V) (ht : Thin H V V') : TreeOk V' := by
  refine ⟨?_, ?_⟩
  · rcases ht 0 with he | ⟨he, -⟩
    · rw [he]
      exact h.pos
    · rw [he]
      rfl
  · intro i hi
    have he := ht.eq_of_type (i := i) (by rw [hi]; decide)
    rw [he] at hi ⊢
    exact h.dirs i hi

theorem TreeOk.set_node (h : TreeOk V) (hi : i ≠ 0) (hn : n.type = T_DIR → DirOk i n.entries) :
    TreeOk (update V i n) := by
  refine ⟨?_, ?_⟩
  · rw [update_of_ne hi.symm]
    exact h.pos
  · intro j hj
    rcases eq_or_ne j i with rfl | hji
    · rw [update_self] at hj ⊢
      exact hn hj
    · rw [update_of_ne hji] at hj ⊢
      exact h.dirs j hj

theorem TreeOk.move (h : TreeOk V) (hm : Move sb V a V') : TreeOk V' := by
  cases hm with
  | create hv hn hne hfree hi ht =>
    rename_i d k i type name
    have hd : d ≠ 0 := h.ne_zero (by rw [hv.dir]; decide)
    refine TreeOk.set_node (h.set_node (Nat.ne_of_gt hi.1) ?_) hd ?_
    · intro htype
      have hty : type = T_DIR := htype
      subst hty
      exact dirOk_new hd
    · exact fun _ => (h.dirs d hv.dir).enter hd hv hne
  | link hv hn hne hi h0 ht =>
    rename_i d k i name
    have hd : d ≠ 0 := h.ne_zero (by rw [hv.dir]; decide)
    refine TreeOk.set_node (h.set_node hi ?_) hd ?_
    · exact fun htype => absurd htype ht
    · exact fun _ => (h.dirs d hv.dir).enter hd hv hne
  | unlink hd hk hl hi hne h0 hdot hn hempty =>
    rename_i d k i name
    refine TreeOk.set_node (h.set_node (h.ne_zero (by rw [hd]; decide)) ?_) hi ?_
    · exact fun _ => (h.dirs d hd).clear hk hdot
    · intro htype
      rw [relink_type] at htype
      rw [relink_entries]
      exact h.dirs i htype

theorem TreeOk.effect (h : TreeOk V) (he : Effect sb H P V V') : TreeOk V' := by
  rcases he with ht | ⟨V1, V2, a, h1, -, hm, h2⟩
  · exact h.thin ht
  · exact ((h.thin h1).move hm).thin h2

end

/-- An image whose directories are well formed. -/
structure GoodImage (sb : Superblock) (disk : Disk) : Prop where
  consistent : Consistent sb disk
  dirs : ∀ i, (disk.inodes i).type = T_DIR → DirOk i (entries disk.data (disk.inodes i))

/-- Directories are well formed, and none of them is open for writing. -/
structure DirsOk (s : Sys) : Prop where
  size : ∀ i, (s.core.disk.inodes i).type = T_DIR →
    (s.core.disk.inodes i).size % direntSize = 0
  dirs : ∀ i, (s.core.disk.inodes i).type = T_DIR →
    DirOk i (entries s.core.disk.data (s.core.disk.inodes i))
  readonly : ∀ f, 0 < (s.ftable f).ref →
    (s.ftable f).type = .inode ∨ (s.ftable f).type = .device → (s.ftable f).writable = true →
    (s.core.disk.inodes (s.core.itable (s.ftable f).ip).inum).type ≠ T_DIR

section
variable {sb : Superblock} {s t : Sys} {disk : Disk} {c : Call}

theorem GoodImage.tree (h : GoodImage sb disk) : TreeOk disk.view := by
  refine ⟨?_, ?_⟩
  · rw [view_type]
    by_contra h0
    exact absurd (h.consistent.fs.inum 0 h0).1 (by decide)
  · intro i hi
    rw [view_type] at hi
    rw [view_entries hi]
    exact h.dirs i hi

theorem SysOk.dirsOk (h : SysOk sb s) (ht : TreeOk s.view) : DirsOk s := by
  obtain ⟨e, hm⟩ := h.mid
  refine ⟨hm.core.fs.dirs, ?_, ?_⟩
  · intro i hi
    rw [← view_entries hi]
    exact ht.dirs i (by rw [view_type]; exact hi)
  · intro f hr hty hw
    have hx : s.points (.inr f) = some (s.ftable f).ip := inode_eq_some.mpr ⟨hr, hty, rfl⟩
    have hro := hm.readonly f _ hx hw
    rw [view_type] at hro
    rw [(hm.core.outside _ (hm.cnt_pos hx)).2.1]
    exact hro

/-- After every sequence of calls on a well-formed image, directories are well formed. -/
theorem dirs_well_formed (sb : Superblock) (disk : Disk) (h : GoodImage sb disk) (cs : List Call)
    (hr : run (step sb) (boot disk) cs = some s) : DirsOk s := by
  have hinv : SysOk sb s ∧ TreeOk s.view := by
    refine run_invariant (I := fun s => SysOk sb s ∧ TreeOk s.view) ?_
      ⟨sysOk_boot h.consistent, h.tree⟩ hr
    rintro s c t ⟨hs, ht⟩ hst
    obtain ⟨hs', hd⟩ := hs.step hst
    exact ⟨hs', ht.effect hd.effect⟩
  exact hinv.1.dirsOk hinv.2

theorem fresh_entries : entries fresh.data (fresh.inodes ROOTINO) =
    [⟨ROOTINO, dot⟩, ⟨ROOTINO, dotdot⟩] ++ List.replicate 62 ⟨0, []⟩ := by
  decide +kernel

theorem fresh_empty (hk : 2 ≤ k) (he : (entries fresh.data (fresh.inodes ROOTINO))[k]? = some e) :
    e.inum = 0 := by
  rw [fresh_entries, List.getElem?_append_right hk] at he
  rw [(List.mem_replicate.mp (List.mem_of_getElem? he)).2]

theorem fresh_good : GoodImage mkfsSb fresh := by
  refine ⟨fresh_consistent, ?_⟩
  intro i hi
  have hroot : i = ROOTINO := by
    by_contra hne
    rw [fresh_inodes hne] at hi
    cases hi
  subst hroot
  have hup : (entries fresh.data (fresh.inodes ROOTINO))[1]? = some ⟨ROOTINO, dotdot⟩ := by
    rw [fresh_entries]
    rfl
  refine .of_empty (by rw [fresh_entries]; rfl) (by decide) hup ?_
  exact fun k e hk he => fresh_empty hk he

/-- Names come and go in a directory, and one slot is used again. -/
def relisting : List Call :=
  [.mkdir 0 [97, 0], .open 0 [97, 47, 102, 0] 0x201, .link 0 [97, 47, 102, 0] [97, 47, 103, 0],
    .unlink 0 [97, 47, 102, 0], .mkdir 0 [97, 47, 104, 0], .open 0 [97, 0] 1, .open 0 [97, 0] 0]

theorem dirs_well_formed_relisting : ∃ s, run (step mkfsSb) (boot fresh) relisting = some s ∧
    DirsOk s ∧ entries s.core.disk.data (s.core.disk.inodes 2) =
      [⟨2, dot⟩, ⟨1, dotdot⟩, ⟨4, [104]⟩, ⟨3, [103]⟩] := by
  obtain ⟨s, hs, hp⟩ : ∃ s, run (step mkfsSb) (boot fresh) relisting = some s ∧
      entries s.core.disk.data (s.core.disk.inodes 2) =
        [⟨2, dot⟩, ⟨1, dotdot⟩, ⟨4, [104]⟩, ⟨3, [103]⟩] := by decide +kernel
  exact ⟨s, hs, dirs_well_formed mkfsSb fresh fresh_good relisting hs, hp⟩

end

end Xv6.Fs
