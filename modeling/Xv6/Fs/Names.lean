import Xv6.Fs.Refs

namespace Xv6.Fs

open Function Lib

/-- Every entry of the table is in use. -/
def Crowded (e : Ext) (L : Locals) : Prop := ∀ x < NINODE, 0 < e.cnt x + L.count x

/-- The panics a path lookup may end in, for the view V it starts from, the inodes R its paths can
reach and the inodes H that stay referenced: the table is full, or a reached inode is free or can be
freed on the way. -/
structure Allows (E : Panic → Prop) (e : Ext) (H : Nat → Prop) (V : View) (R : Nat → Prop) :
    Prop where
  room : ∀ L : Locals, Multiset.card L ≤ 3 → Crowded e L → E .noInodes
  closed : ∀ i name j, R i → (V i).type = T_DIR → (V i).lookup name = some j → R j
  noType : ∀ i, R i → (V i).type = 0 ∨ (V i).nlink = 0 ∧ ¬ H i → E .noType

/-- The panics of unlink: a bad link count, or an entry that names its own directory. -/
structure AllowsUnlink (E : Panic → Prop) (V : View) (R : Nat → Prop) : Prop where
  nlink : ∀ d name i, R d → (V d).type = T_DIR → (V d).lookup name = some i →
    (V i).nlink.toInt < 1 → name ≠ dot → name ≠ dotdot → E .nlink
  deadlock : ∀ d name, R d → (V d).type = T_DIR → (V d).lookup name = some d → name ≠ dot →
    name ≠ dotdot → E .deadlock

section
variable {sb : Superblock} {e : Ext} {L : Locals} {K : Finset Nat} {c : Core} {E : Panic → Prop}

theorem Ok.igetRoot (h : Ok sb e L K c) (hroom : Crowded e L → E .noInodes) :
    Outcome (Fs.iget ROOTDEV i) c E (fun x c' =>
      Ok sb e ((x, i) ::ₘ L) K c' ∧ c'.disk = c.disk) := by
  refine h.iget (fun hfull => hroom ?_)
  intro x hx
  rw [← h.ref x hx]
  exact hfull x hx

theorem Allows.iget {R : Nat → Prop} (A : Allows E e H V R) (h : Ok sb e L K c)
    (hL : Multiset.card L ≤ 3) :
    Outcome (iget ROOTDEV i) c E (fun x c' =>
      Ok sb e ((x, i) ::ₘ L) K c' ∧ c'.disk = c.disk) :=
  h.igetRoot (A.room L hL)

theorem outcome_itype {Q : Nat → Core → Prop} :
    Outcome (itype x) c E Q ↔ Q (c.itable x).copy.type c := Iff.rfl

theorem Ok.copy_eq (h : Ok sb e L K c) (hL : (x, i) ∈ L) (hk : x ∈ K) :
    (c.itable x).copy = c.disk.inodes i ∧ (c.disk.inodes i).type ≠ 0 := by
  obtain ⟨hx, hnum⟩ := h.inside _ hL
  dsimp only at hnum
  obtain ⟨-, hr, hv⟩ := h.locked x hk
  obtain ⟨hc, ht⟩ := h.clean x hx hr hv
  rw [hc, hnum] at ht
  rw [hc, hnum]
  exact ⟨rfl, ht⟩

theorem Ok.dev_eq (h : Ok sb e L K c) (hL : (x, i) ∈ L) : (c.itable x).dev = ROOTDEV :=
  h.dev x (h.inside _ hL).1 (h.ref_pos hL)

theorem Ok.scanDir (h : Ok sb e L K c) (hL : (dp, d) ∈ L) (hk : dp ∈ K)
    (hd : (c.disk.inodes d).type = T_DIR) (bad : Panic) (p : Dirent → Bool) (k : Nat) :
    Outcome (scanDir sb bad p dp (k * direntSize)) c E (fun r c' => Ok sb e L K c' ∧
      c'.disk = c.disk ∧ Scanned p c.disk.data (c.disk.inodes d) k r.1 r.2) := by
  obtain ⟨hx, hnum⟩ := h.inside _ hL
  dsimp only at hx hnum
  obtain ⟨-, hr, hv⟩ := h.locked dp hk
  have ht0 : (c.disk.inodes d).type ≠ 0 := by rw [hd]; decide
  unfold Fs.scanDir
  refine (h.onInode (Q := fun r t => t = c.disk ∧
    Scanned p c.disk.data (c.disk.inodes d) k r.1 r.2) hx hr hv ?_).imp ?_
  · rw [hnum]
    refine (scan_spec (h.fs.dense ht0) (h.fs.dirs d hd) (by omega) bad p).bind ?_
    rintro ⟨off, de, ip⟩ t ⟨rfl, hip, hsc⟩
    dsimp only at hip hsc ⊢
    rw [ends_pure]
    subst hip
    exact ⟨h.fs, fun _ _ => rfl, rfl, ht0, rfl, hsc⟩
  · rintro r c' ⟨h1, ⟨h2, h3⟩, -⟩
    exact ⟨h1, h2, h3⟩

/-- The search of dirlookup in terms of the view. -/
theorem Scanned.lookup {s : Disk} (hd : (s.inodes d).type = T_DIR)
    (h : Scanned (fun e => e.inum != 0 && e.name == name) s.data (s.inodes d) 0 off r) :
    (∀ e, r = some e → (s.view d).lookup name = some e.inum ∧ e.inum ≠ 0 ∧ e.name = name ∧
      ∃ k, off = k * direntSize ∧ (s.view d).entries[k]? = some e) ∧
    (r = none → (s.view d).lookup name = none) := by
  have hent := view_entries hd
  refine ⟨?_, ?_⟩
  · intro e he
    obtain ⟨k, -, hoff, hget, hp, hall⟩ := h.found e he
    have hp' := hp
    simp only [Bool.and_eq_true, bne_iff_ne, ne_eq, beq_iff_eq] at hp'
    refine ⟨?_, hp'.1, hp'.2, k, hoff, by rw [hent]; exact hget⟩
    obtain ⟨hk, hke⟩ := List.getElem?_eq_some_iff.mp hget
    have hfind : (s.view d).entries.find? (fun e => e.inum != 0 && e.name == name) = some e := by
      rw [hent, List.find?_eq_some_iff_getElem]
      refine ⟨hp, k, hk, hke, ?_⟩
      intro m hm
      have hmlt : m < (entries s.data (s.inodes d)).length := Nat.lt_trans hm hk
      have hmeq := (entries_getElem?.mp (List.getElem?_eq_getElem hmlt)).2
      rw [← hmeq, hall m (Nat.zero_le m) hm]
      rfl
    rw [Node.lookup, hfind]
    rfl
  · intro hr
    obtain ⟨-, hall⟩ := h.missing hr
    rw [Node.lookup, hent, List.find?_eq_none.mpr, Option.map_none]
    intro e he
    obtain ⟨k, hk⟩ := List.getElem?_of_mem he
    obtain ⟨hlt, rfl⟩ := entries_getElem?.mp hk
    rw [hall k (Nat.zero_le k) hlt]
    simp

theorem Ok.dirlookup (h : Ok sb e L K c) (hroom : Crowded e L → E .noInodes)
    (hL : (dp, d) ∈ L) (hk : dp ∈ K)
    (hd : (c.disk.inodes d).type = T_DIR) (name : List Byte) :
    Outcome (dirlookup sb dp name) c E (fun r c' => c'.disk = c.disk ∧
      (r = none → Ok sb e L K c' ∧ (c.disk.view d).lookup name = none) ∧
      ∀ x off, r = some (x, off) → ∃ j k, Ok sb e ((x, j) ::ₘ L) K c' ∧
        (c.disk.view d).lookup name = some j ∧ j ≠ 0 ∧ off = k * direntSize ∧
        (c.disk.view d).entries[k]? = some ⟨j, name⟩) := by
  have hcopy := h.copy_eq hL hk
  rw [Fs.dirlookup, outcome_bind, outcome_itype, hcopy.1, if_pos hd]
  refine (h.scanDir hL hk hd _ _ 0).bind ?_
  rintro ⟨off, de⟩ c1 ⟨h1, hdisk, hsc⟩
  dsimp only at hsc ⊢
  obtain ⟨hfound, hmiss⟩ := hsc.lookup hd
  split
  · rename_i de'
    obtain ⟨hlook, hne, hname, k, hoff, hget⟩ := hfound de' rfl
    rw [outcome_bind, outcome_get, h1.dev_eq hL]
    refine (h1.igetRoot hroom).bind ?_
    rintro x c2 ⟨h2, hdisk2⟩
    rw [outcome_pure]
    refine ⟨hdisk2.trans hdisk, by simp, ?_⟩
    intro y off' hr
    simp only [Option.some.injEq, Prod.mk.injEq] at hr
    obtain ⟨rfl, rfl⟩ := hr
    refine ⟨de'.inum, k, h2, hlook, hne, hoff, ?_⟩
    rw [hget, ← hname]
  · rw [outcome_pure]
    exact ⟨hdisk, fun _ => ⟨h1, hmiss rfl⟩, by simp⟩

theorem Ok.writeDirent (h : Ok sb e L K c) (de : Dirent) (hL : (dp, d) ∈ L) (hk : dp ∈ K)
    (hd : (c.disk.inodes d).type = T_DIR) (hlen : k ≤ (c.disk.inodes d).size / direntSize)
    (hi : de.inum < 65536) (hn : NameOk de.name) :
    Outcome (writeDirent sb dp (k * direntSize) de) c E (fun r c' =>
      Ok sb e L K c' ∧ Writes sb d k de c.disk r c'.disk) := by
  obtain ⟨hx, hnum⟩ := h.inside _ hL
  dsimp only at hx hnum
  obtain ⟨-, hr, hv⟩ := h.locked dp hk
  have hwrite : Ends (writei sb (c.itable dp).inum (c.disk.inodes (c.itable dp).inum) de.bytes
      (k * direntSize) direntSize) c.disk (fun r t =>
        FsOk sb t ∧ (∀ j, j ≠ (c.itable dp).inum → t.inodes j = c.disk.inodes j) ∧
        t.inodes (c.itable dp).inum = r.2 ∧ r.2.type ≠ 0 ∧ Writes sb d k de c.disk r.1 t) := by
    rw [hnum]
    refine (writeEntry_spec h.fs hd hlen hi hn).mono ?_
    rintro r t ⟨hw, hin⟩
    refine ⟨hw.edits.ok, hw.edits.others, hin, ?_, hw⟩
    rw [← hin, hw.same, hd]
    decide
  refine (h.onInode (Q := fun r t => Writes sb d k de c.disk r t) hx hr hv hwrite).imp ?_
  rintro r c' ⟨h1, h2, -⟩
  exact ⟨h1, h2⟩

theorem Writes.type_eq (hw : Writes sb i k de s r t) : (t.inodes i).type = (s.inodes i).type := by
  rw [hw.same]

theorem Writes.view_failed (hw : Writes sb i k de s r t) (hs : FsOk sb s)
    (hr : r ≠ some direntSize) : t.view = s.view :=
  hw.edits.view_same hs hw.same (fun _ => (hw.failed hr).1)

theorem Writes.view_done (hw : Writes sb i k de s r t) (hs : FsOk sb s)
    (hd : (s.inodes i).type = T_DIR) (hr : r = some direntSize) :
    t.view = update s.view i
      { s.view i with entries := place (s.view i).entries k de } := by
  funext j
  rcases eq_or_ne j i with rfl | hj
  · have hty := hw.type_eq
    have hnl : (t.inodes j).nlink = (s.inodes j).nlink := by rw [hw.same]
    have hli : (t.inodes j).links = (s.inodes j).links := by rw [hw.same]
    rw [update_self]
    simp only [Disk.view, hty, hnl, hli, hd, if_true, hw.done hr, T_DIR]
    rfl
  · rw [update_of_ne hj]
    exact hw.edits.view_eq hs hj

def Node.enter (n : Node) (k : Nat) (de : Dirent) : Node :=
  { n with entries := place n.entries k de }

/-- Entry k of a directory is free, or just behind its end, and its name is not taken. -/
structure Vacant (n : Node) (k : Nat) (name : List Byte) : Prop where
  dir : n.type = T_DIR
  slot : ∀ e, n.entries[k]? = some e → e.inum = 0
  le : k ≤ n.entries.length
  fresh : n.lookup name = none

/-- The search of dirlink stops at an empty entry, or behind the last one if there is none. -/
theorem Scanned.slot {s : Disk} (h : Scanned (fun e => e.inum == 0) s.data (s.inodes d) 0 off r)
    (hdir : (s.inodes d).size % direntSize = 0) (hd : (s.inodes d).type = T_DIR) :
    ∃ k, off = k * direntSize ∧ k ≤ (s.inodes d).size / direntSize ∧
      (∀ e, (s.view d).entries[k]? = some e → e.inum = 0) ∧
      (k = (s.inodes d).size / direntSize ↔ ∀ e ∈ (s.view d).entries, e.inum ≠ 0) := by
  have hent := view_entries hd
  cases hr : r with
  | some e' =>
    obtain ⟨k, -, hoff, hget, hp, -⟩ := h.found e' hr
    have hlt := (entries_getElem?.mp hget).1
    rw [beq_iff_eq] at hp
    refine ⟨k, hoff, Nat.le_of_lt hlt, ?_, ?_⟩
    · intro e he
      rw [hent, hget] at he
      cases he
      exact hp
    · refine ⟨fun hk => absurd hk (Nat.ne_of_lt hlt), fun hall => ?_⟩
      rw [hent] at hall
      exact absurd hp (hall e' (List.mem_of_getElem? hget))
  | none =>
    obtain ⟨hoff, hall⟩ := h.missing hr
    refine ⟨(s.inodes d).size / direntSize, ?_, Nat.le_refl _, ?_, ?_⟩
    · rw [Nat.div_mul_cancel (Nat.dvd_of_mod_eq_zero hdir), hoff]
      omega
    · intro e he
      rw [hent] at he
      have := (entries_getElem?.mp he).1
      omega
    · refine ⟨fun _ e he => ?_, fun _ => rfl⟩
      rw [hent] at he
      obtain ⟨k, hk⟩ := List.getElem?_of_mem he
      obtain ⟨hlt, rfl⟩ := entries_getElem?.mp hk
      simpa using hall k (Nat.zero_le k) hlt

/-- An entry found may be one that is locked; then it has another reference. -/
theorem Ok.droppable (h : Ok sb e L K c) (h1 : Ok sb e ((x, i) ::ₘ L) K c') :
    x ∉ K ∨ 1 < (c'.itable x).ref := by
  by_cases hxk : x ∈ K
  · have hx := (h.locked x hxk).1
    have hpos := (h.locked x hxk).2.1
    rw [h.ref x hx] at hpos
    have hmore := h1.ref x hx
    rw [count_cons_self] at hmore
    exact .inr (by omega)
  · exact .inl hxk

/-- dirlink: the entry is there, or nothing happened because the name is taken, the directory has
its maximal size or no block is left. -/
theorem Ok.dirlink (h : Ok sb e L K c) (hroom : Crowded e L → E .noInodes)
    (hL : (dp, d) ∈ L) (hk : dp ∈ K)
    (hd : (c.disk.inodes d).type = T_DIR) (hi : inum < 65536) (hn : NameOk name) :
    Outcome (dirlink sb dp name inum) c E (fun r c' => Ok sb e L K c' ∧
      (c'.disk.inodes d).type = T_DIR ∧
      (r = true → ∃ k, Vacant (c.disk.view d) k name ∧ c'.disk.view =
        update c.disk.view d ((c.disk.view d).enter k ⟨inum, name⟩)) ∧
      (r = false → Thin (Held e L) c.disk.view c'.disk.view ∧
        ((c.disk.view d).lookup name ≠ none ∨
          MAXFILE * BSIZE < (c.disk.view d).entries.length * direntSize + direntSize ∨
          Full sb c'.disk))) := by
  rw [Fs.dirlink]
  refine (h.dirlookup hroom hL hk hd name).bind ?_
  rintro r c1 ⟨hdisk, hnone, hsome⟩
  split
  · rename_i x off
    obtain ⟨j, -, h1, hlook, -⟩ := hsome x off rfl
    refine (h1.iput (h.droppable h1)).bind ?_
    rintro _ c2 ⟨h2, hthin⟩
    rw [outcome_pure]
    rw [hdisk] at hthin
    have hty := (h2.copy_eq hL hk).2
    have hv : c2.disk.view d = c.disk.view d := by
      apply hthin.eq_of_type
      rw [view_type]
      exact hty
    refine ⟨h2, ?_, by simp, fun _ => ⟨hthin, .inl (by simp [hlook])⟩⟩
    rw [← view_type, hv, view_type]
    exact hd
  · obtain ⟨h1, hlook⟩ := hnone rfl
    rw [← hdisk] at hd hlook ⊢
    refine (h1.scanDir hL hk hd _ _ 0).bind ?_
    rintro ⟨off, de⟩ c2 ⟨h2, hdisk2, hsc⟩
    dsimp only at hsc ⊢
    have hent := view_entries hd
    obtain ⟨k, rfl, hle, hslot, -⟩ := hsc.slot (h1.fs.dirs d hd) hd
    rw [← hdisk2] at hd hle hslot hlook hent ⊢
    refine (h2.writeDirent ⟨inum, name⟩ hL hk hd hle hi hn).bind ?_
    rintro r c3 ⟨h3, hw⟩
    rw [outcome_pure]
    refine ⟨h3, hw.type_eq.trans hd, ?_, ?_⟩
    · intro hr
      refine ⟨k, ⟨?_, hslot, ?_, hlook⟩, hw.view_done h2.fs hd (by simpa using hr)⟩
      · rw [view_type]
        exact hd
      · rw [hent, entries_length]
        exact hle
    · intro hr
      have hr' : r ≠ some direntSize := by simpa using hr
      obtain ⟨-, hge, hwhy⟩ := hw.failed hr'
      refine ⟨?_, .inr ?_⟩
      · rw [hw.view_failed h2.fs hr']
        exact .refl _ _
      · have hlen : (c2.disk.view d).entries.length = k := by
          rw [hent, entries_length]
          omega
        rw [hlen]
        exact hwhy

/-- What namex returns: the entry for the inode the elements lead to, with parent set for all but
the last, or nothing if they lead nowhere. -/
structure Named (sb : Superblock) (e : Ext) (L : Locals) (H : Nat → Prop) (V : View) (i : Nat)
    (parent : Bool) (elems : List (List Byte)) (r : Option (Nat × List Byte)) (c : Core) :
    Prop where
  thin : Thin H V c.disk.view
  none : r = none → Ok sb e L ∅ c ∧ (parent = false → walk V i elems = none) ∧
    (parent = true → ∀ front name j, elems = front ++ [name] → walk V i front = some j →
      (V j).type ≠ T_DIR)
  some : ∀ y name, r = some (y, name) → ∃ j, Ok sb e ((y, j) ::ₘ L) ∅ c ∧
    (parent = false → walk V i elems = some j) ∧
    (parent = true → ∃ front, elems = front ++ [name] ∧ walk V i front = some j ∧
      (V j).type = T_DIR ∧ c.disk.view j = V j)

theorem walk_cons {V : View} {rest : List (List Byte)} (ht : (V i).type = T_DIR)
    (hl : (V i).lookup name = some j) :
    walk V i (name :: rest) = walk V j rest := by
  simp [walk, ht, hl]

/-- An inode that was reached may only be missing if it was free or could go. -/
theorem Allows.noType_of_thin {R : Nat → Prop} (A : Allows E e H V R) (hR : R i)
    (hthin : Thin H V V') (h0 : (V' i).type = 0) : E .noType := by
  apply A.noType i hR
  rcases hthin i with he | ⟨-, hn, hh⟩
  · rw [he] at h0
    exact .inl h0
  · exact .inr ⟨hn, hh⟩

theorem Ok.namexLoop {R : Nat → Prop} (A : Allows E e H V R) (hcard : Multiset.card L ≤ 2)
    (hH : ∀ j, H j → Held e L j) (h : Ok sb e ((x, i) ::ₘ L) ∅ c) (hR : R i)
    (hthin : Thin H V c.disk.view) (parent : Bool)
    (elems : List (List Byte)) :
    Outcome (namexLoop sb parent elems x) c E (fun r c' =>
      Named sb e L H V i parent elems r c') := by
  induction elems generalizing x i c with
  | nil =>
    rw [Fs.namexLoop]
    refine Outcome.ite (fun hp => ?_) (fun hp => ?_)
    · refine (h.iput (.inl (Finset.notMem_empty x))).bind ?_
      rintro _ c1 ⟨h1, hthin1⟩
      rw [outcome_pure]
      refine ⟨hthin.trans (hthin1.mono hH), fun _ => ⟨h1, by simp [hp], ?_⟩, by simp⟩
      intro _ front name j he
      exact absurd he (by simp)
    · rw [outcome_pure]
      refine ⟨hthin, by simp, ?_⟩
      intro y name hr
      simp only [Option.some.injEq, Prod.mk.injEq] at hr
      obtain ⟨rfl, -⟩ := hr
      exact ⟨i, h, fun _ => rfl, fun hp' => absurd hp' hp⟩
  | cons name rest ih =>
    have hmem : (x, i) ∈ (x, i) ::ₘ L := Multiset.mem_cons_self _ _
    obtain ⟨hx, hnum⟩ := h.inside _ hmem
    dsimp only at hx hnum
    have hcard1 : Multiset.card ((x, i) ::ₘ L) ≤ 3 := by
      rw [Multiset.card_cons]
      omega
    rw [Fs.namexLoop]
    refine (h.ilock hx (h.ref_pos hmem) (fun hin => absurd hin (Finset.notMem_empty x)) ?_).bind ?_
    · intro h0
      rw [hnum, ← view_type] at h0
      exact A.noType_of_thin hR hthin h0
    rintro _ c1 ⟨h1, hd1, -, ht1, -⟩
    rw [hnum] at ht1
    have hk1 : x ∈ insert x (∅ : Finset Nat) := Finset.mem_insert_self _ _
    have herase : (insert x (∅ : Finset Nat)).erase x = ∅ := by simp
    have hcopy := (h1.copy_eq hmem hk1).1
    -- a locked inode looks as it did when the call started
    have hview : c.disk.view i = V i := hthin.eq_of_type (by rw [view_type]; exact ht1)
    rw [outcome_bind, outcome_itype, hcopy, hd1]
    refine Outcome.ite (fun hdir => ?_) (fun hndir => ?_)
    · have hdirV : (V i).type = T_DIR := by rw [← hview, view_type]; exact hdir
      refine Outcome.ite (fun hp => ?_) (fun hp => ?_)
      · refine (h1.iunlock hk1).bind ?_
        rintro _ c2 ⟨h2, hd2, -⟩
        rw [herase] at h2
        rw [outcome_pure]
        have hd : c2.disk = c.disk := hd2.trans hd1
        simp only [Bool.and_eq_true, List.isEmpty_iff] at hp
        refine ⟨by rw [hd]; exact hthin, by simp, ?_⟩
        intro y n hr
        simp only [Option.some.injEq, Prod.mk.injEq] at hr
        obtain ⟨rfl, rfl⟩ := hr
        refine ⟨i, h2, fun hf => absurd hp.1 (by simp [hf]), fun _ => ⟨[], ?_, rfl, hdirV, ?_⟩⟩
        · rw [hp.2]
          rfl
        · rw [hd]
          exact hview
      · rw [outcome_bind]
        rw [← hd1] at hdir
        refine (h1.dirlookup (A.room _ hcard1) hmem hk1 hdir name).imp ?_
        rintro r c2 ⟨hd2, hnone, hsome⟩
        have hthin2 : Thin H V c2.disk.view := by
          rw [hd2, hd1]
          exact hthin
        split
        · obtain ⟨h2, hlook⟩ := hnone rfl
          rw [hd1, hview] at hlook
          have hstuck : ∀ rest', walk V i (name :: rest') = none := by
            intro rest'
            simp [walk, hlook]
          refine (h2.iunlockput hk1).bind ?_
          rintro _ c3 ⟨h3, hthin3⟩
          rw [herase] at h3
          rw [outcome_pure]
          refine ⟨hthin2.trans (hthin3.mono hH), fun _ => ⟨h3, fun _ => hstuck rest, ?_⟩, by simp⟩
          intro hpt front last j he hw
          cases front with
          | nil =>
            simp only [List.nil_append, List.cons.injEq] at he
            simp [hpt, he.2] at hp
          | cons a front =>
            simp only [List.cons_append, List.cons.injEq] at he
            rw [← he.1, hstuck] at hw
            cases hw
        · rename_i next off
          obtain ⟨j, -, h2, hlook, -⟩ := hsome next off rfl
          rw [hd1, hview] at hlook
          rw [Multiset.cons_swap] at h2
          refine (h2.iunlockput hk1).bind ?_
          rintro _ c3 ⟨h3, hthin3⟩
          rw [herase] at h3
          have hthin4 := hthin2.trans (hthin3.mono fun l hl => (hH l hl).cons _)
          refine (ih h3 (A.closed i name j hR hdirV hlook) hthin4).imp ?_
          rintro r c4 ⟨hthin5, hnone4, hsome4⟩
          refine ⟨hthin5, ?_, ?_⟩
          · intro hr
            obtain ⟨h5, hfull, hfront⟩ := hnone4 hr
            refine ⟨h5, ?_, ?_⟩
            · intro hpf
              rw [walk_cons hdirV hlook]
              exact hfull hpf
            · intro hpt front last l he hw
              cases front with
              | nil =>
                simp only [List.nil_append, List.cons.injEq] at he
                simp [hpt, he.2] at hp
              | cons a front =>
                simp only [List.cons_append, List.cons.injEq] at he
                rw [← he.1, walk_cons hdirV hlook] at hw
                exact hfront hpt front last l he.2 hw
          intro y n hr
          obtain ⟨l, h5, hfull, hfront⟩ := hsome4 y n hr
          refine ⟨l, h5, ?_, ?_⟩
          · intro hpf
            rw [walk_cons hdirV hlook]
            exact hfull hpf
          · intro hpt
            obtain ⟨front, hrest, hwalk, hrem⟩ := hfront hpt
            refine ⟨name :: front, by rw [hrest]; rfl, ?_, hrem⟩
            rw [walk_cons hdirV hlook]
            exact hwalk
    · rw [← view_type, hview] at hndir
      refine (h1.iunlockput hk1).bind ?_
      rintro _ c2 ⟨h2, hthin2⟩
      rw [herase] at h2
      rw [hd1] at hthin2
      rw [outcome_pure]
      have hstuck : ∀ rest', walk V i (name :: rest') = none := by
        intro rest'
        rw [walk, if_neg hndir]
      refine ⟨hthin.trans (hthin2.mono hH), fun _ => ⟨h2, fun _ => hstuck rest, ?_⟩, by simp⟩
      intro _ front last j he hw
      cases front with
      | nil =>
        cases hw
        exact hndir
      | cons a front =>
        simp only [List.cons_append, List.cons.injEq] at he
        rw [← he.1, hstuck] at hw
        cases hw

/-- The inode a path starts from. -/
def Ext.start (e : Ext) (cwd : Nat) (path : List Byte) : Nat :=
  if path.head? = some slash then ROOTINO else e.num cwd

theorem Ok.namex {R : Nat → Prop} (A : Allows E e H V R) (hcard : Multiset.card L ≤ 2)
    (hH : ∀ j, H j → Held e L j) (h : Ok sb e L ∅ c) (hcwd : 0 < e.cnt cwd) (hroot : R ROOTINO)
    (hR : R (e.num cwd)) (hthin : Thin H V c.disk.view) (path : List Byte) (parent : Bool) :
    Outcome (namex sb cwd path parent) c E (fun r c' =>
      Named sb e L H V (e.start cwd path) parent (elements path.length path) r c') := by
  rw [Fs.namex, outcome_bind]
  unfold startAt Ext.start
  refine Outcome.ite (fun hs => ?_) (fun hs => ?_)
  · refine (A.iget h (by omega)).imp ?_
    rintro x c1 ⟨h1, hd⟩
    rw [if_pos hs]
    exact h1.namexLoop A hcard hH hroot (by rw [hd]; exact hthin) parent _
  · refine (h.idup hcwd).imp ?_
    rintro x c1 ⟨h1, hd⟩
    rw [if_neg hs]
    exact h1.namexLoop A hcard hH hR (by rw [hd]; exact hthin) parent _

end

end Xv6.Fs
