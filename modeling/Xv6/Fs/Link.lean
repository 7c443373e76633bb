import Xv6.Fs.Moves

namespace Xv6.Fs

open Function Lib

/-- The inode a path names. -/
def Ext.lookup (e : Ext) (V : View) (cwd : Nat) (path : List Byte) : Option Nat :=
  walk V (e.start cwd path) (elements path.length path)

/-- The directory a path leads to without its last element, and that element. -/
def Ext.Parent (e : Ext) (V : View) (cwd : Nat) (path : List Byte) (d : Nat) (name : List Byte) :
    Prop :=
  ∃ front, elements path.length path = front ++ [name] ∧
    walk V (e.start cwd path) front = some d

section
variable {sb : Superblock} {e : Ext} {L : Locals} {K : Finset Nat} {c : Core} {E : Panic → Prop}
  {R H : Nat → Prop} {V V' : View}

theorem Ext.Parent.name_ok (h : e.Parent V cwd path d name) (h0 : (0 : Byte) ∉ path) :
    NameOk name ∧ name ≠ [] := by
  obtain ⟨front, he, -⟩ := h
  exact elements_ok h0 path.length (by simp [he])

/-- Only directories matter for a walk. -/
theorem walk_mono
    (hV : ∀ j, (V' j).type = T_DIR → (V j).type = T_DIR ∧ (V' j).entries = (V j).entries)
    (hw : walk V' i elems = some j) : walk V i elems = some j := by
  induction elems generalizing i with
  | nil => exact hw
  | cons name rest ih =>
    unfold walk at hw
    split at hw
    · rename_i ht
      obtain ⟨ht', hent⟩ := hV i ht
      split at hw
      · cases hw
      · rename_i l hl
        rw [walk_cons ht' (j := l)]
        · exact ih hw
        · rw [← hl, Node.lookup, Node.lookup, hent]
    · cases hw

theorem Ext.Parent.mono
    (hV : ∀ j, (V' j).type = T_DIR → (V j).type = T_DIR ∧ (V' j).entries = (V j).entries)
    (h : e.Parent V' cwd path d name) : e.Parent V cwd path d name := by
  obtain ⟨front, he, hw⟩ := h
  exact ⟨front, he, walk_mono hV hw⟩

theorem Thin.dirs (h : Thin H V V') (j : Nat) (ht : (V' j).type = T_DIR) :
    (V j).type = T_DIR ∧ (V' j).entries = (V j).entries := by
  have he := h.eq_of_type (i := j) (by rw [ht]; decide)
  rw [he] at ht ⊢
  exact ⟨ht, rfl⟩

theorem Ext.reach_start (e : Ext) (hroot : R ROOTINO) (hR : R (e.num cwd)) (path : List Byte) :
    R (e.start cwd path) := by
  unfold Ext.start
  split
  · exact hroot
  · exact hR

theorem Ext.Parent.reach (h : e.Parent V cwd path d name) (A : Allows E e H V R)
    (hroot : R ROOTINO) (hR : R (e.num cwd)) : R d := by
  obtain ⟨front, -, hw⟩ := h
  exact walk_reach A (e.reach_start hroot hR path) hw

theorem Ok.namei (A : Allows E e H V R) (hcard : Multiset.card L ≤ 2)
    (hH : ∀ j, H j → Held e L j) (h : Ok sb e L ∅ c) (hcwd : 0 < e.cnt cwd) (hroot : R ROOTINO)
    (hR : R (e.num cwd)) (hthin : Thin H V c.disk.view) (path : List Byte) :
    Outcome (namei sb cwd path) c E (fun r c' => Thin H V c'.disk.view ∧
      (r = none → Ok sb e L ∅ c' ∧ e.lookup V cwd path = none) ∧
      ∀ x, r = some x → ∃ i, Ok sb e ((x, i) ::ₘ L) ∅ c' ∧ e.lookup V cwd path = some i) := by
  rw [Fs.namei]
  refine (Ok.namex A hcard hH h hcwd hroot hR hthin path false).bind ?_
  intro r c1 hn
  rw [outcome_pure]
  refine ⟨hn.thin, ?_, ?_⟩
  · intro hr
    obtain ⟨h1, hw, -⟩ := hn.none (by simpa using hr)
    exact ⟨h1, hw rfl⟩
  · intro x hr
    obtain ⟨⟨y, name⟩, hy, rfl⟩ := Option.map_eq_some_iff.mp hr
    obtain ⟨j, h1, hw, -⟩ := hn.some y name hy
    exact ⟨j, h1, hw rfl⟩

theorem Ok.nameiparent (A : Allows E e H V R) (hcard : Multiset.card L ≤ 2)
    (hH : ∀ j, H j → Held e L j) (h : Ok sb e L ∅ c) (hcwd : 0 < e.cnt cwd) (hroot : R ROOTINO)
    (hR : R (e.num cwd)) (hthin : Thin H V c.disk.view) (path : List Byte) :
    Outcome (nameiparent sb cwd path) c E (fun r c' => Thin H V c'.disk.view ∧
      (r = none → Ok sb e L ∅ c' ∧ ∀ d name, e.Parent V cwd path d name → (V d).type ≠ T_DIR) ∧
      ∀ x name, r = some (x, name) → ∃ d, Ok sb e ((x, d) ::ₘ L) ∅ c' ∧
        e.Parent V cwd path d name ∧ (V d).type = T_DIR ∧ c'.disk.view d = V d) := by
  refine (Ok.namex A hcard hH h hcwd hroot hR hthin path true).imp ?_
  intro r c1 hn
  refine ⟨hn.thin, ?_, ?_⟩
  · intro hr
    obtain ⟨h1, -, hw⟩ := hn.none hr
    refine ⟨h1, ?_⟩
    rintro d name ⟨front, he, hd⟩
    exact hw rfl front name d he hd
  · intro x name hr
    obtain ⟨d, h1, -, hw⟩ := hn.some x name hr
    obtain ⟨front, he, hd, ht, hv⟩ := hw rfl
    exact ⟨d, h1, ⟨front, he, hd⟩, ht, hv⟩

theorem Ok.lock (h : Ok sb e L K c) (hL : (x, i) ∈ L) (hk : x ∈ K → E .deadlock)
    (ht : (c.disk.view i).type = 0 → E .noType) :
    Outcome (Fs.ilock x) c E (fun _ c' => Ok sb e L (insert x K) c' ∧ c'.disk = c.disk ∧ x ∉ K ∧
      (c.disk.view i).type ≠ 0) := by
  obtain ⟨hx, hnum⟩ := h.inside _ hL
  dsimp only at hx hnum
  rw [view_type] at ht ⊢
  rw [← hnum] at ht ⊢
  exact (h.ilock hx (h.ref_pos hL) hk ht).imp (fun _ c' h' => ⟨h'.1, h'.2.1, h'.2.2.1, h'.2.2.2.1⟩)

/-- ip->nlink++ or ip->nlink--, with iupdate. -/
theorem Ok.relink (h : Ok sb e L K c) (hL : (x, i) ∈ L) (hk : x ∈ K) (k : Int) :
    Outcome (Fs.assign x (fun ip => Dinode.relink ip k)) c E (fun _ c' => Ok sb e L K c' ∧
      c'.disk.view = update c.disk.view i ((c.disk.view i).relink k)) := by
  obtain ⟨hx, hnum⟩ := h.inside _ hL
  dsimp only at hx hnum
  obtain ⟨-, hr, hv⟩ := h.locked x hk
  have ht := (h.copy_eq hL hk).2
  refine (h.assign hx hr hv (f := fun ip => Dinode.relink ip k) (fun _ => rfl) (fun _ => rfl)
    (fun _ => rfl)).imp ?_
  rintro _ c1 ⟨h1, hd, -⟩
  refine ⟨h1, ?_⟩
  rw [hd, hnum, view_put ((c.disk.inodes i).relink k) rfl rfl rfl ht]
  congr 1
  simp [Node.relink, Dinode.relink, Disk.view, ht]

/-- A change of an inode that stays referenced can be put off behind the freeing of others. -/
theorem Thin.postpone (h : Thin H' (update V i n) V') (hi : H' i) (hH : ∀ j, H j → H' j) :
    V' i = n ∧ Thin H V (update V' i (V i)) := by
  refine ⟨?_, ?_⟩
  · have he := h.held hi
    rwa [update_self] at he
  · intro j
    rcases eq_or_ne j i with rfl | hj
    · exact .inl (update_self ..)
    · have hj' := h j
      rw [update_of_ne hj] at hj' ⊢
      rcases hj' with he | ⟨he, hn, hh⟩
      · exact .inl he
      · exact .inr ⟨he, hn, fun hh' => hh (hH j hh')⟩

end

/-- Disk blocks can run out while at most the inodes of V are allocated. -/
def Crammed (sb : Superblock) (V : View) : Prop :=
  ∃ s : Disk, FsOk sb s ∧ Full sb s ∧ ∀ i, (s.inodes i).type ≠ 0 → (V i).type ≠ 0

/-- Why dirlink fails. -/
def NoRoom (sb : Superblock) (V : View) (d : Nat) (name : List Byte) : Prop :=
  (V d).lookup name ≠ none ∨
    MAXFILE * BSIZE < (V d).entries.length * direntSize + direntSize ∨ Crammed sb V

/-- Why link() fails. -/
def LinkFails (sb : Superblock) (e : Ext) (V : View) (cwd : Nat) (old new : List Byte) : Prop :=
  e.lookup V cwd old = none ∨
  (∃ i, e.lookup V cwd old = some i ∧ (V i).type = T_DIR) ∨
  (∃ V1, Thin e.Holds V V1 ∧ ∀ d name, e.Parent V1 cwd new d name → (V1 d).type ≠ T_DIR) ∨
  ∃ d name, e.Parent V cwd new d name ∧ NoRoom sb V d name

/-- The change link() makes. -/
def Links (e : Ext) (V : View) (cwd : Nat) (old new : List Byte) (a : Change) : Prop :=
  ∃ d name i, a = .link d name i ∧ e.lookup V cwd old = some i ∧ e.Parent V cwd new d name

section
variable {sb : Superblock} {e : Ext} {L : Locals} {K : Finset Nat} {c : Core} {E : Panic → Prop}
  {R H : Nat → Prop} {V V' : View}

theorem Crammed.of_thin (h : Crammed sb V') (ht : Thin H V V') : Crammed sb V := by
  obtain ⟨s, hs, hfull, hin⟩ := h
  refine ⟨s, hs, hfull, ?_⟩
  intro i hi
  have hi' := hin i hi
  rwa [ht.eq_of_type hi'] at hi'

theorem NoRoom.of_thin (h : NoRoom sb V' d name) (ht : Thin H V V') : NoRoom sb V d name := by
  rcases h with h | h | h
  · rcases ht d with he | ⟨he, -⟩
    · rw [he] at h
      exact .inl h
    · rw [he] at h
      exact absurd rfl h
  · rcases ht d with he | ⟨he, -⟩
    · rw [he] at h
      exact .inr (.inl h)
    · rw [he] at h
      exact absurd h (by decide)
  · exact .inr (.inr (h.of_thin ht))

theorem relink_relink (n : Node) : (n.relink 1).relink (-1) = n := by
  obtain ⟨type, nlink, links, entries⟩ := n
  simp only [Node.relink, Node.mk.injEq, true_and, and_true]
  refine ⟨?_, by omega⟩
  rw [BitVec.add_assoc]
  exact BitVec.add_zero nlink

theorem held_single (e : Ext) (x i : Nat) : Held e {(x, i)} i :=
  .inr ⟨x, Multiset.mem_singleton_self _⟩

theorem Ext.Holds.held (h : e.Holds i) (L : Locals) : Held e L i := .inl h

theorem Ok.linkBad (h : Ok sb e {(x, i)} ∅ c) (ht : (c.disk.view i).type ≠ 0) :
    Outcome (linkBad x) c E (fun r c' => r = false ∧ Ok sb e 0 ∅ c' ∧
      Thin e.Holds (update c.disk.view i ((c.disk.view i).relink (-1))) c'.disk.view) := by
  have hmem : (x, i) ∈ ({(x, i)} : Locals) := Multiset.mem_singleton_self _
  have hk : x ∈ insert x (∅ : Finset Nat) := Finset.mem_insert_self _ _
  rw [Fs.linkBad]
  refine (h.lock hmem (fun hx => absurd hx (Finset.notMem_empty x))
    (fun h0 => absurd h0 ht)).bind ?_
  rintro _ c1 ⟨h1, hd1, -⟩
  refine (h1.relink hmem hk (-1)).bind ?_
  rintro _ c2 ⟨h2, hv2⟩
  refine (Ok.iunlockput (L := 0) h2 hk).bind ?_
  rintro _ c3 ⟨h3, hthin⟩
  rw [outcome_pure]
  refine ⟨rfl, by simpa using h3, ?_⟩
  rw [hv2, hd1] at hthin
  exact hthin.mono (fun j hj => hj.held 0)

/-- The outcome of link() after the count of inode i went up: the name is there, or the count is
what it was. -/
theorem Ok.linkTo (A : Allows E e e.Holds V R) (hi : (V i).type ≠ 0) (hdir : (V i).type ≠ T_DIR)
    (h : Ok sb e {(x, i)} ∅ c)
    (hview : c.disk.view = update V i ((V i).relink 1)) (hcwd : 0 < e.cnt cwd)
    (hroot : R ROOTINO) (hR : R (e.num cwd)) (h0 : (0 : Byte) ∉ new) :
    Outcome (linkTo sb cwd x new) c E (fun r c' => Ok sb e 0 ∅ c' ∧
      (r = true → ∃ V1 V2 d name, Thin e.Holds V V1 ∧ Move sb V1 (.link d name i) V2 ∧
        e.Parent V cwd new d name ∧ Thin e.Holds V2 c'.disk.view) ∧
      (r = false → Thin e.Holds V c'.disk.view ∧
        ((∀ d name, e.Parent V cwd new d name → (V d).type ≠ T_DIR) ∨
          ∃ d name, e.Parent V cwd new d name ∧ NoRoom sb V d name))) := by
  have hmem : (x, i) ∈ ({(x, i)} : Locals) := Multiset.mem_singleton_self _
  have hheld := held_single e x i
  have hH : ∀ j, e.Holds j → Held e {(x, i)} j := fun j hj => hj.held _
  -- directories look the same before and after the count went up
  have hsame : ∀ j, (V j).type = (update V i ((V i).relink 1) j).type ∧
      (V j).entries = (update V i ((V i).relink 1) j).entries := by
    intro j
    rcases eq_or_ne j i with rfl | hj
    · rw [update_self]
      exact ⟨rfl, rfl⟩
    · rw [update_of_ne hj]
      exact ⟨rfl, rfl⟩
  have hpar : ∀ d name, e.Parent (update V i ((V i).relink 1)) cwd new d name →
      e.Parent V cwd new d name := by
    intro d name hp
    refine hp.mono ?_
    intro j hj
    rw [(hsame j).1]
    exact ⟨hj, (hsame j).2.symm⟩
  have hpar' : ∀ d name, e.Parent V cwd new d name →
      e.Parent (update V i ((V i).relink 1)) cwd new d name := by
    intro d name hp
    refine hp.mono ?_
    intro j hj
    rw [← (hsame j).1]
    exact ⟨hj, (hsame j).2⟩
  -- a link() that fails later leaves the count as it was
  have hbad : ∀ c1, Ok sb e {(x, i)} ∅ c1 → Thin (Held e {(x, i)}) c.disk.view c1.disk.view →
      Outcome (Fs.linkBad x) c1 E (fun r c' => r = false ∧ Ok sb e 0 ∅ c' ∧
        Thin e.Holds V c'.disk.view) := by
    intro c1 h1 hthin
    rw [hview] at hthin
    obtain ⟨hself, hthin'⟩ := hthin.postpone hheld hH
    refine (h1.linkBad (by rw [hself]; exact hi)).imp ?_
    rintro r c' ⟨hr, h', hthin2⟩
    rw [hself, relink_relink] at hthin2
    exact ⟨hr, h', hthin'.trans hthin2⟩
  rw [Fs.linkTo]
  refine (Ok.nameiparent (A.relink hH hheld 1) (by simp) (fun _ hj => hj) h hcwd hroot hR
    (by rw [hview]; exact .refl _ _) new).bind ?_
  rintro r c1 ⟨hthin1, hnone, hsome⟩
  rw [← hview] at hthin1
  split
  · obtain ⟨h1, hno⟩ := hnone rfl
    refine (hbad c1 h1 hthin1).imp ?_
    rintro r c' ⟨rfl, h', hthin⟩
    refine ⟨h', by simp, fun _ => ⟨hthin, .inl ?_⟩⟩
    intro d name hp
    rw [(hsame d).1]
    exact hno d name (hpar' d name hp)
  · rename_i dp name
    obtain ⟨d, h1, hp, htd, hvd⟩ := hsome dp name rfl
    obtain ⟨hname, hne⟩ := hp.name_ok h0
    have hmemd : (dp, d) ∈ (dp, d) ::ₘ ({(x, i)} : Locals) := Multiset.mem_cons_self _ _
    have hmemx : (x, i) ∈ (dp, d) ::ₘ ({(x, i)} : Locals) := Multiset.mem_cons_of_mem hmem
    have hk : dp ∈ insert dp (∅ : Finset Nat) := Finset.mem_insert_self _ _
    have hdi : d ≠ i := by
      rintro rfl
      rw [← (hsame d).1] at htd
      exact hdir htd
    have hVd : update V i ((V i).relink 1) d = V d := update_of_ne hdi _ _
    rw [hVd] at htd hvd
    refine (h1.lock hmemd (fun hx => absurd hx (Finset.notMem_empty dp)) ?_).bind ?_
    · intro hz
      rw [hvd, htd] at hz
      cases hz
    rintro _ c2 ⟨h2, hd2, -⟩
    have hv2 : c2.disk.view = c1.disk.view := by rw [hd2]
    obtain ⟨hself, hpost⟩ := (hview ▸ hthin1).postpone hheld hH
    have hiin : (c2.disk.inodes i).type ≠ 0 := by
      rw [← view_type, hv2, hself]
      exact hi
    have hilt : i < 65536 := by
      have := (h2.fs.inum i hiin).2
      have := sb.ninodes_le
      omega
    have hdisk : (c2.disk.inodes d).type = T_DIR := by
      rw [← view_type, hv2, hvd]
      exact htd
    rw [outcome_bind, linkEntry, outcome_bind, outcome_get, h2.dev_eq hmemd, h2.dev_eq hmemx,
      if_pos rfl, (h2.inside _ hmemx).2]
    refine (h2.dirlink (A.room _ (by simp)) hmemd hk hdisk hilt hname).imp ?_
    rintro ok c3 ⟨h3, hd3, htrue, hfalse⟩
    refine (h3.iunlockput hk).bind ?_
    rintro _ c4 ⟨h4, hthin4⟩
    have herase : (insert dp (∅ : Finset Nat)).erase dp = ∅ := by simp
    rw [herase] at h4
    refine Outcome.ite (fun hok => ?_) (fun hok => ?_)
    · obtain ⟨k, hvac, hv3⟩ := htrue hok
      refine (Ok.iput (L := 0) h4 (.inl (Finset.notMem_empty x))).bind ?_
      rintro _ c5 ⟨h5, hthin5⟩
      rw [outcome_pure]
      refine ⟨h5, fun _ => ?_, by simp⟩
      refine ⟨update c1.disk.view i (V i), c3.disk.view, d, name, hpost, ?_,
        hpar d name hp, (hthin4.mono hH).trans (hthin5.mono fun j hj => hj.held 0)⟩
      have hW : c1.disk.view = update (update c1.disk.view i (V i)) i
          ((update c1.disk.view i (V i) i).relink 1) := by
        rw [update_self, update_idem, ← hself, update_eq_self]
      have hWd : update c1.disk.view i (V i) d = c1.disk.view d :=
        update_of_ne hdi _ _
      have hmove : Move sb (update c1.disk.view i (V i)) (.link d name i) _ :=
        .link (k := k) (by rw [hWd, ← hv2]; exact hvac) hname hne
          (Nat.ne_of_gt (h2.fs.inum i hiin).1) (by rw [update_self]; exact hi)
          (by rw [update_self]; exact hdir)
      rw [hv3, hv2]
      rwa [← hW, hWd] at hmove
    · obtain ⟨hthin3, hwhy⟩ := hfalse (by simpa using hok)
      rw [hv2] at hthin3 hwhy
      have hthin13 := hthin1.trans (hthin3.mono fun j hj => hj.cons _)
      refine (hbad c4 h4 (hthin13.trans hthin4)).imp ?_
      rintro r c' ⟨rfl, h', hthin⟩
      refine ⟨h', by simp, fun _ => ⟨hthin, .inr ⟨d, name, hpar d name hp, ?_⟩⟩⟩
      rw [hvd] at hwhy
      rcases hwhy with hw | hw | hw
      · exact .inl hw
      · exact .inr (.inl hw)
      · refine .inr (.inr ⟨c3.disk, h3.fs, hw, ?_⟩)
        intro j hj
        rw [← view_type] at hj
        rw [(hsame j).1, ← hview, ← hthin13.eq_of_type hj]
        exact hj

theorem Ok.link (A : Allows E e e.Holds c.disk.view R) (h : Ok sb e 0 ∅ c) (hcwd : 0 < e.cnt cwd)
    (hroot : R ROOTINO) (hR : R (e.num cwd)) (h0 : (0 : Byte) ∉ new) (old : List Byte) :
    Outcome (link sb cwd old new) c E (fun r c' => Ok sb e 0 ∅ c' ∧
      (r = true → Moved sb e.Holds (Links e c.disk.view cwd old new) c.disk.view c'.disk.view) ∧
      (r = false → Thin e.Holds c.disk.view c'.disk.view ∧
        LinkFails sb e c.disk.view cwd old new)) := by
  rw [Fs.link]
  refine (Ok.namei A (by simp) (fun j hj => hj.held 0) h hcwd hroot hR (.refl _ _) old).bind ?_
  rintro r c1 ⟨hthin1, hnone, hsome⟩
  split
  · obtain ⟨h1, hw⟩ := hnone rfl
    rw [outcome_pure]
    exact ⟨h1, by simp, fun _ => ⟨hthin1, .inl hw⟩⟩
  rename_i x
  obtain ⟨i, h1, hw⟩ := hsome x rfl
  have hmem : (x, i) ∈ ((x, i) ::ₘ 0 : Locals) := Multiset.mem_cons_self _ _
  have hk : x ∈ insert x (∅ : Finset Nat) := Finset.mem_insert_self _ _
  have herase : (insert x (∅ : Finset Nat)).erase x = ∅ := by simp
  have hRi : R i := walk_reach A (e.reach_start hroot hR old) hw
  refine (h1.lock hmem (fun hx => absurd hx (Finset.notMem_empty x))
    (fun hz => A.noType_of_thin hRi hthin1 hz)).bind ?_
  rintro _ c2 ⟨h2, hd2, -, hti⟩
  have hVi : c1.disk.view i = c.disk.view i := hthin1.eq_of_type hti
  rw [outcome_bind, outcome_itype, (h2.copy_eq hmem hk).1, ← view_type, hd2]
  refine Outcome.ite (fun hdir => ?_) (fun hdir => ?_)
  · refine (h2.iunlockput hk).bind ?_
    rintro _ c3 ⟨h3, hthin3⟩
    rw [herase] at h3
    rw [hd2] at hthin3
    rw [outcome_pure]
    rw [hVi] at hdir
    exact ⟨h3, by simp, fun _ => ⟨hthin1.trans (hthin3.mono fun j hj => hj.held 0),
      .inr (.inl ⟨i, hw, hdir⟩)⟩⟩
  · refine (h2.relink hmem hk 1).bind ?_
    rintro _ c3 ⟨h3, hv3⟩
    refine (h3.iunlock hk).bind ?_
    rintro _ c4 ⟨h4, hd4, -⟩
    rw [herase] at h4
    rw [← hd4, hd2] at hv3
    refine (Ok.linkTo (A.thin hthin1) hti hdir h4 hv3 hcwd hroot hR h0).imp ?_
    rintro r c5 ⟨h5, htrue, hfalse⟩
    have hpar : ∀ d name, e.Parent c1.disk.view cwd new d name →
        e.Parent c.disk.view cwd new d name := fun d name hp => hp.mono hthin1.dirs
    cases r with
    | true =>
      obtain ⟨V1, V2, d, name, hthin, hmove, hp, hthin'⟩ := htrue rfl
      refine ⟨h5, fun _ => ⟨V1, V2, _, hthin1.trans hthin, ?_, hmove, hthin'⟩, by simp⟩
      exact ⟨d, name, i, rfl, hw, hpar d name hp⟩
    | false =>
      obtain ⟨hthin, hwhy⟩ := hfalse rfl
      refine ⟨h5, by simp, fun _ => ⟨hthin1.trans hthin, ?_⟩⟩
      rcases hwhy with hno | ⟨d, name, hp, hroom⟩
      · exact .inr (.inr (.inl ⟨_, hthin1, hno⟩))
      · exact .inr (.inr (.inr ⟨d, name, hpar d name hp, hroom.of_thin hthin1⟩))

end

end Xv6.Fs
