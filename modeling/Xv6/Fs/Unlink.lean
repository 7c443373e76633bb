import Xv6.Fs.Link

namespace Xv6.Fs

open Function Multiset Lib

/-- The change unlink() makes. -/
def Unlinks (e : Ext) (V : View) (cwd : Nat) (path : List Byte) (a : Change) : Prop :=
  ∃ d name i, a = .unlink d name i ∧ e.Parent V cwd path d name ∧ (V d).lookup name = some i

/-- No inode has lost its last link and is still there, unless somebody holds it. -/
def Settled (e : Ext) (V V' : View) : Prop :=
  ∀ i, ¬ e.Holds i → (V' i).type ≠ 0 → (V' i).nlink = 0 → (V i).nlink = 0

section
variable {sb : Superblock} {e : Ext} {L : Locals} {K : Finset Nat} {c : Core} {E : Panic → Prop}
  {R H : Nat → Prop} {V V' : View}

theorem Thin.settled (h : Thin H V V') : Settled e V V' := by
  intro i _ ht hn
  rw [← h.eq_of_type ht]
  exact hn

theorem Settled.after_thin (h : Settled e V' V'') (ht : Thin H V V') : Settled e V V'' := by
  intro i hi hty hn
  have hn' := h i hi hty hn
  rcases ht i with he | ⟨-, h0, -⟩
  · rw [he] at hn'
    exact hn'
  · exact h0

theorem erase_second {x y : Nat} (h : x ≠ y) :
    (insert x (insert y (∅ : Finset Nat))).erase y = insert x ∅ := by
  rw [Finset.insert_comm, Finset.erase_insert]
  simpa using h.symm

theorem relink_zero (n : Node) : n.relink 0 = n := by
  obtain ⟨type, nlink, links, entries⟩ := n
  simp [Node.relink]

theorem Thin.set_node (h : Thin H' V V') (hH : ∀ j, H j → H' j) (i : Nat) (n : Node) :
    Thin H (update V i n) (update V' i n) := by
  intro j
  rcases eq_or_ne j i with rfl | hj
  · rw [update_self, update_self]
    exact .inl rfl
  · rw [update_of_ne hj, update_of_ne hj]
    exact (h.mono hH) j

/-- Is a locked inode a directory with entries behind "." and ".."? -/
theorem Ok.inUse (h : Ok sb e L K c) (hL : (x, i) ∈ L) (hk : x ∈ K) :
    Outcome (inUse sb x) c E (fun r c' => Ok sb e L K c' ∧ c'.disk = c.disk ∧
      (r = false → (c.disk.view i).type = T_DIR →
        ∀ m e, 2 ≤ m → (c.disk.view i).entries[m]? = some e → e.inum = 0)) := by
  rw [Fs.inUse, outcome_bind, outcome_itype, (h.copy_eq hL hk).1, view_type]
  refine Outcome.ite (fun hd => ?_) (fun hd => ⟨h, rfl, fun _ hd' => absurd hd' hd⟩)
  rw [outcome_bind, isdirempty]
  refine (h.scanDir hL hk hd _ _ 2).bind ?_
  rintro ⟨off, de⟩ c1 ⟨h1, hdisk, hsc⟩
  dsimp only at hsc ⊢
  rw [outcome_pure, outcome_pure]
  refine ⟨h1, hdisk, ?_⟩
  intro hr _ m e hm he
  have hnone : de = none := by simpa using hr
  rw [view_entries hd] at he
  obtain ⟨hlt, rfl⟩ := entries_getElem?.mp he
  have := (hsc.missing hnone).2 m hm hlt
  simpa using this

/-- The entry goes, then the counts of its inode and, for a directory, of the one it was in. -/
theorem Ok.remove (h : Ok sb e ((x, i) ::ₘ {(dp, d)}) (insert x (insert dp ∅)) c)
    (hd : (c.disk.view d).type = T_DIR) (hne : i ≠ d)
    (hk : (c.disk.view d).entries[k]? = some de) :
    Outcome (remove sb dp x (k * direntSize)) c E (fun _ c' => Ok sb e 0 ∅ c' ∧
      Thin e.Holds (update (update c.disk.view d
        (((c.disk.view d).enter k ⟨0, []⟩).relink (-backLinks (c.disk.view i).type))) i
        ((c.disk.view i).relink (-1))) c'.disk.view ∧
      Settled e c.disk.view c'.disk.view) := by
  have hmemx : (x, i) ∈ (x, i) ::ₘ ({(dp, d)} : Locals) := mem_cons_self _ _
  have hmemd : (dp, d) ∈ (x, i) ::ₘ ({(dp, d)} : Locals) :=
    mem_cons_of_mem (mem_singleton_self _)
  have hkx : x ∈ insert x (insert dp (∅ : Finset Nat)) := Finset.mem_insert_self _ _
  have hkd : dp ∈ insert x (insert dp (∅ : Finset Nat)) :=
    Finset.mem_insert_of_mem (Finset.mem_insert_self _ _)
  have hxd : x ≠ dp := by
    rintro rfl
    exact hne ((h.inside _ hmemx).2.symm.trans (h.inside _ hmemd).2)
  have hdd : (c.disk.inodes d).type = T_DIR := by rwa [view_type] at hd
  rw [view_entries hdd] at hk
  have hlt := (entries_getElem?.mp hk).1
  rw [Fs.remove]
  refine (h.writeDirent ⟨0, []⟩ hmemd hkd hdd (Nat.le_of_lt hlt) (by decide)
    ⟨by simp, by simp⟩).bind ?_
  rintro r c1 ⟨h1, hw⟩
  -- the entry exists, so writei cannot fail
  have hr : r = some direntSize := by
    by_contra hr
    have := (hw.failed hr).2.1
    omega
  have hv1 : c1.disk.view = update c.disk.view d ((c.disk.view d).enter k ⟨0, []⟩) :=
    hw.view_done h.fs hdd hr
  have hi1 : c1.disk.view i = c.disk.view i := by rw [hv1, update_of_ne hne]
  rw [if_pos hr, outcome_bind, outcome_itype, (h1.copy_eq hmemx hkx).1, ← view_type, hi1,
    outcome_bind]
  have hback : Outcome (onlyIf ((c.disk.view i).type = T_DIR)
      (Fs.assign dp (fun ip => Dinode.relink ip (-1)))) c1 E (fun _ c' =>
        Ok sb e ((x, i) ::ₘ {(dp, d)}) (insert x (insert dp ∅)) c' ∧
        c'.disk.view = update c.disk.view d
          (((c.disk.view d).enter k ⟨0, []⟩).relink (-backLinks (c.disk.view i).type))) := by
    unfold onlyIf
    refine Outcome.ite (fun hdir => ?_) (fun hdir => ?_)
    · refine (h1.relink hmemd hkd (-1)).imp ?_
      rintro _ c2 ⟨h2, hv2⟩
      refine ⟨h2, ?_⟩
      rw [hv2, hv1, update_self, update_idem, backLinks, if_pos hdir]
    · rw [outcome_pure, backLinks, if_neg hdir, Int.neg_zero, relink_zero]
      exact ⟨h1, hv1⟩
  refine hback.imp ?_
  rintro _ c2 ⟨h2, hv2⟩
  have hswap : (x, i) ::ₘ ({(dp, d)} : Locals) = (dp, d) ::ₘ {(x, i)} := cons_swap _ _ 0
  rw [hswap] at h2
  refine (h2.iunlockput_settles hkd).bind ?_
  rintro _ c3 ⟨h3, hthin3, hset3⟩
  rw [erase_second hxd] at h3
  have hmem3 : (x, i) ∈ ({(x, i)} : Locals) := mem_singleton_self _
  have hk3 : x ∈ insert x (∅ : Finset Nat) := Finset.mem_insert_self _ _
  have hi3 : c3.disk.view i = c.disk.view i := by
    rw [hthin3.held (held_single e x i), hv2, update_of_ne hne]
  refine (h3.relink hmem3 hk3 (-1)).bind ?_
  rintro _ c4 ⟨h4, hv4⟩
  refine (Ok.iunlockput_settles (L := 0) h4 hk3).bind ?_
  rintro _ c5 ⟨h5, hthin5, hset5⟩
  rw [outcome_pure]
  refine ⟨by simpa using h5, ?_, ?_⟩
  · rw [hv4, hi3] at hthin5
    rw [← hv2]
    have hthin4 := hthin3.set_node (H := e.Holds) (fun j hj => hj.held _) i
      ((c.disk.view i).relink (-1))
    exact hthin4.trans (hthin5.mono fun j hj => hj.held 0)
  · intro j hj hty hn
    have h54 := hthin5.eq_of_type hty
    rw [h54] at hty hn
    rcases eq_or_ne j i with rfl | hji
    · -- the inode itself would have been freed by the last iput
      have hfree := hset5 (by simpa [Held] using hj) hn
      rw [← h54, hfree] at hty
      exact absurd rfl hty
    rw [hv4, update_of_ne hji] at hty hn
    have h32 := hthin3.eq_of_type hty
    rcases eq_or_ne j d with rfl | hjd
    · have hheld : ¬ Held e {(x, i)} j := by
        rintro (hh | ⟨y, hy⟩)
        · exact hj hh
        · rw [mem_singleton] at hy
          exact hne (Prod.mk.inj hy).2.symm
      rw [h32] at hn
      rw [hset3 hheld hn] at hty
      exact absurd rfl hty
    · rw [h32, hv2, update_of_ne hjd] at hn
      exact hn

theorem Ok.unlink (A : Allows E e e.Holds c.disk.view R) (U : AllowsUnlink E c.disk.view R)
    (h : Ok sb e 0 ∅ c) (hcwd : 0 < e.cnt cwd) (hroot : R ROOTINO) (hR : R (e.num cwd))
    (path : List Byte) :
    Outcome (unlink sb cwd path) c E (fun _ c' => Ok sb e 0 ∅ c' ∧
      Effect sb e.Holds (Unlinks e c.disk.view cwd path) c.disk.view c'.disk.view ∧
      Settled e c.disk.view c'.disk.view) := by
  rw [Fs.unlink]
  refine (Ok.nameiparent A (by simp) (fun j hj => hj.held 0) h hcwd hroot hR (.refl _ _)
    path).bind ?_
  rintro r c1 ⟨hthin1, hnone, hsome⟩
  split
  · rw [outcome_pure]
    exact ⟨(hnone rfl).1, .inl hthin1, hthin1.settled⟩
  rename_i dp name
  obtain ⟨d, h1, hp, htd, hvd⟩ := hsome dp name rfl
  have hmemd : (dp, d) ∈ ((dp, d) ::ₘ 0 : Locals) := mem_cons_self _ _
  have hkd : dp ∈ insert dp (∅ : Finset Nat) := Finset.mem_insert_self _ _
  have herase : (insert dp (∅ : Finset Nat)).erase dp = ∅ := by simp
  have hRd : R d := hp.reach A hroot hR
  refine (h1.lock hmemd (fun hx => absurd hx (Finset.notMem_empty dp)) ?_).bind ?_
  · intro hz
    rw [hvd, htd] at hz
    cases hz
  rintro _ c2 ⟨h2, hd2, -⟩
  -- every exit so far only gives up the directory
  have hput : ∀ c', Ok sb e ((dp, d) ::ₘ 0) (insert dp ∅) c' → c'.disk = c1.disk →
      Outcome (Fs.iunlockput dp) c' E (fun _ c'' => Ok sb e 0 ∅ c'' ∧
        Effect sb e.Holds (Unlinks e c.disk.view cwd path) c.disk.view c''.disk.view ∧
        Settled e c.disk.view c''.disk.view) := by
    intro c' h' hd'
    refine (h'.iunlockput hkd).imp ?_
    rintro _ c'' ⟨h'', hthin⟩
    rw [herase] at h''
    rw [hd'] at hthin
    have hthin' := hthin1.trans (hthin.mono fun j hj => hj.held 0)
    exact ⟨h'', .inl hthin', hthin'.settled⟩
  refine Outcome.ite (fun _ => ?_) (fun hdot => ?_)
  · exact (hput c2 h2 hd2).bind (fun _ _ h' => h')
  have hdisk : (c2.disk.inodes d).type = T_DIR := by
    rw [hd2, ← view_type, hvd]
    exact htd
  refine (h2.dirlookup (A.room _ (by simp)) hmemd hkd hdisk name).bind ?_
  rintro r c3 ⟨hd3, hnone3, hsome3⟩
  split
  · exact (hput c3 (hnone3 rfl).1 (hd3.trans hd2)).bind (fun _ _ h' => h')
  rename_i x off
  obtain ⟨i, k, h3, hlook, hi0, rfl, hget⟩ := hsome3 x off rfl
  have hmemx : (x, i) ∈ ((x, i) ::ₘ (dp, d) ::ₘ 0 : Locals) := mem_cons_self _ _
  have hmemd' := mem_cons_of_mem (b := (x, i)) hmemd
  have hd3' : c3.disk = c1.disk := hd3.trans hd2
  rw [hd2, hvd] at hlook
  have hRi : R i := A.closed d name i hRd htd hlook
  refine (h3.lock hmemx ?_ ?_).bind ?_
  · intro hx
    have hxd : x = dp := by simpa using hx
    subst hxd
    have hid : i = d := (h3.inside _ hmemx).2.symm.trans (h3.inside _ hmemd').2
    rw [hid] at hlook
    exact U.deadlock d name hRd htd hlook (fun hn => hdot (.inl hn))
      (fun hn => hdot (.inr hn))
  · intro hz
    rw [hd3'] at hz
    exact A.noType_of_thin hRi hthin1 hz
  rintro _ c4 ⟨h4, hd4, hxK, hti⟩
  have hxd : x ≠ dp := by
    rintro rfl
    exact hxK (Finset.mem_insert_self _ _)
  have hid : i ≠ d := by
    rintro rfl
    exact hxd (h3.unique x (h3.inside _ hmemx).1 dp (h3.inside _ hmemd').1
      (h3.ref_pos hmemx) (h3.ref_pos hmemd')
      ((h3.inside _ hmemx).2.trans (h3.inside _ hmemd').2.symm))
  have hkx : x ∈ insert x (insert dp (∅ : Finset Nat)) := Finset.mem_insert_self _ _
  have hv4 : c4.disk.view = c1.disk.view := by rw [hd4, hd3']
  have hVi : c1.disk.view i = c.disk.view i := by
    rw [hd3'] at hti
    exact hthin1.eq_of_type hti
  have hnl : (c4.itable x).copy.nlink = (c1.disk.view i).nlink := by
    rw [(h4.copy_eq hmemx hkx).1, ← hv4, view_nlink (h4.copy_eq hmemx hkx).2]
  rw [outcome_bind, outcome_get, hnl]
  refine Outcome.ite (fun hlow => ?_) (fun hlow => ?_)
  · rw [hVi] at hlow
    exact U.nlink d name i hRd htd hlook hlow (fun hn => hdot (.inl hn))
      (fun hn => hdot (.inr hn))
  refine (h4.inUse hmemx hkx).bind ?_
  rintro full c5 ⟨h5, hd5, hempty⟩
  have hv5 : c5.disk.view = c1.disk.view := by rw [hd5, hv4]
  rw [hv4] at hempty
  refine Outcome.ite (fun _ => ?_) (fun hfull => ?_)
  · refine (h5.iunlockput hkx).bind ?_
    rintro _ c6 ⟨h6, hthin6⟩
    have hK : (insert x (insert dp (∅ : Finset Nat))).erase x = insert dp ∅ :=
      Finset.erase_insert hxK
    rw [hK] at h6
    rw [hv5] at hthin6
    refine (h6.iunlockput hkd).bind ?_
    rintro _ c7 ⟨h7, hthin7⟩
    rw [herase] at h7
    rw [outcome_pure]
    have hthin := (hthin1.trans (hthin6.mono fun j hj => hj.held _)).trans
      (hthin7.mono fun j hj => hj.held 0)
    exact ⟨h7, .inl hthin, hthin.settled⟩
  · have htd5 : (c5.disk.view d).type = T_DIR := by
      rw [hv5, hvd]
      exact htd
    rw [← hd3, hd3', ← hv5] at hget
    refine (Ok.remove h5 htd5 hid hget).imp ?_
    rintro _ c6 ⟨h6, hthin6, hset6⟩
    rw [hv5] at hthin6 hset6 hget
    refine ⟨h6, .inr ⟨c1.disk.view, _, .unlink d name i, hthin1, ?_, ?_, hthin6⟩,
      hset6.after_thin hthin1⟩
    · exact ⟨d, name, i, rfl, hp, hlook⟩
    · refine .unlink (by rw [hvd]; exact htd) hget (by rw [hvd]; exact hlook) hi0 hid
        ?_ ?_ ?_ ?_
      · rw [hd3'] at hti
        exact hti
      · exact not_or.mp hdot
      · omega
      · exact hempty (by simpa using hfull)

end

end Xv6.Fs
