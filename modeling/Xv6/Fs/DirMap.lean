import Xv6.Fs.Paths
import Xv6.Fs.Write
import Xv6.Fs.WellFormed

namespace Xv6.Fs

open Function Lib

/-- strncmp() on n bytes of two strings; behind the bytes of a list there are NULs. -/
def strncmp : Nat → List Byte → List Byte → Int
  | 0, _, _ => 0
  | n + 1, p, q =>
    if p.headD 0 ≠ 0 ∧ p.headD 0 = q.headD 0 then strncmp n p.tail q.tail
    else (p.headD 0).toNat - (q.headD 0).toNat

/-- The bytes at s after strncpy(s, t, n). -/
def strncpy : Nat → List Byte → List Byte → List Byte
  | 0, s, _ => s
  | n + 1, s, t =>
    -- the second loop fills up with NULs
    if t.headD 0 = 0 then 0 :: (List.replicate n 0 ++ s.tail.drop n)
    else t.headD 0 :: strncpy n s.tail t.tail

def namecmp (s t : List Byte) : Int := strncmp DIRSIZ s t

/-- dirlookup() with the name as a string of any length. -/
def dirlookupStr (sb : Superblock) (dp : Nat) (name : List Byte) : Ic (Option (Nat × Nat)) := do
  let type ← itype dp
  if type = T_DIR then do
    let (off, de) ← scanDir sb .dirlookupRead
      (fun e => e.inum != 0 && namecmp name e.name == 0) dp 0
    match de with
    | some e => do
      let c ← get
      let x ← iget (c.itable dp).dev e.inum
      return some (x, off)
    | none => return none
  else throw .notDir

/-- dirlink() with the name as a string of any length; buf is what de.name holds before. -/
def dirlinkStr (sb : Superblock) (dp : Nat) (buf name : List Byte) (inum : Nat) : Ic Bool := do
  let found ← dirlookupStr sb dp name
  match found with
  | some (x, _) => do
    iput x
    return false
  | none => do
    let (off, _) ← scanDir sb .dirlinkRead (fun e => e.inum == 0) dp 0
    let de := BitVec.ofNat 8 inum :: BitVec.ofNat 8 (inum / 256) :: strncpy DIRSIZ buf name
    let r ← onInode dp (fun i ip => writei sb i ip de off direntSize)
    return r == some direntSize

/-- The calls that change a directory: dirlink(), and the part of unlink() that zeroes an entry. -/
inductive DirOp where
  | link (buf name : List Byte) (inum : Nat)
  | unlink (name : List Byte)

def DirOp.run (sb : Superblock) (dp : Nat) : DirOp → Ic Bool
  | .link buf name inum => dirlinkStr sb dp buf name inum
  | .unlink name => do
    let found ← dirlookupStr sb dp name
    match found with
    | none => return false
    | some (x, off) => do
      let r ← onInode dp (fun i ip => writei sb i ip (List.replicate direntSize 0) off direntSize)
      if r = some direntSize then do
        iput x
        return true
      else throw .unlinkWrite

def runOps (sb : Superblock) (dp : Nat) : List DirOp → Ic (List Bool)
  | [] => return []
  | op :: ops => do
    let r ← op.run sb dp
    let rs ← runOps sb dp ops
    return r :: rs

/-- The buffer has DIRSIZ bytes, and the inode number fits in an entry and is not zero. -/
def DirOp.Valid : DirOp → Prop
  | .link buf _ inum => buf.length = DIRSIZ ∧ inum ≠ 0 ∧ inum < 65536
  | .unlink _ => True

def DirOp.key : DirOp → List Byte
  | .link _ name _ => nameOf name
  | .unlink name => nameOf name

/-- What a call leaves under its name. -/
def DirOp.value : DirOp → Option Nat
  | .link _ _ inum => some inum
  | .unlink _ => none

/-- A directory as a map: what a call that returned done makes of it. -/
def DirOp.effect (op : DirOp) (done : Bool) (M : List Byte → Option Nat) : List Byte → Option Nat :=
  if done then update M op.key op.value else M

/-- The map after the calls ops, which returned rs. -/
def effects (M : List Byte → Option Nat) : List DirOp → List Bool → List Byte → Option Nat
  | op :: ops, done :: rs => effects (op.effect done M) ops rs
  | _, _ => M

/-- There is an empty entry, or the directory can get one entry longer: that does not exceed the
size of a file, and there are blocks for it. -/
def Extends (sb : Superblock) (s : Disk) (d : Nat) : Prop :=
  (∃ e ∈ (s.view d).entries, e.inum = 0) ∨
    ((s.inodes d).size + direntSize ≤ MAXFILE * BSIZE ∧
      Room sb (touched (s.inodes d).size ((s.inodes d).size + direntSize)) s (s.inodes d))

def DirOp.Fails (M : List Byte → Option Nat) (room : Prop) : DirOp → Prop
  | .link _ name _ => M (nameOf name) ≠ none ∨ ¬ room
  | .unlink name => M (nameOf name) = none

/-- A string of at most n bytes, from its first byte on. -/
theorem cut_succ (n : Nat) (p : List Byte) : (p.take (n + 1)).takeWhile (· ≠ 0) =
    if p.headD 0 = 0 then [] else p.headD 0 :: (p.tail.take n).takeWhile (· ≠ 0) := by
  cases p with
  | nil => rfl
  | cons a p =>
    by_cases ha : a = 0
    · rw [ha]
      rfl
    · rw [List.take_succ_cons, List.takeWhile_cons_of_pos (by simpa using ha), List.headD_cons,
        if_neg ha, List.tail_cons]

theorem strncmp_eq_zero (n : Nat) (p q : List Byte) :
    strncmp n p q = 0 ↔ (p.take n).takeWhile (· ≠ 0) = (q.take n).takeWhile (· ≠ 0) := by
  induction n generalizing p q with
  | zero => exact ⟨fun _ => rfl, fun _ => rfl⟩
  | succ n ih =>
    rw [strncmp, cut_succ, cut_succ]
    generalize p.headD 0 = a
    generalize q.headD 0 = b
    by_cases ha : a = 0
    · rw [if_neg (fun h => h.1 ha), if_pos ha, ha]
      by_cases hb : b = 0
      · rw [if_pos hb, hb]
        exact ⟨fun _ => rfl, fun _ => rfl⟩
      · have hne : b.toNat ≠ BitVec.toNat (0 : Byte) := fun h => hb (BitVec.eq_of_toNat_eq h)
        rw [if_neg hb]
        exact ⟨fun h => absurd (by omega) hne, fun h => (nomatch h)⟩
    · rw [if_neg ha]
      by_cases hab : a = b
      · rw [if_pos ⟨ha, hab⟩, ← hab, if_neg ha, ih, List.cons_inj_right]
      · have hne : a.toNat ≠ b.toNat := fun h => hab (BitVec.eq_of_toNat_eq h)
        rw [if_neg (fun h => hab h.2)]
        refine ⟨fun h => absurd (by omega) hne, fun h => ?_⟩
        split at h
        · cases h
        · exact absurd (List.head_eq_of_cons_eq h) hab

/-- strncmp() does not read behind a NUL. -/
theorem strncmp_cut (n : Nat) (p q : List Byte) :
    strncmp n p ((q.take n).takeWhile (· ≠ 0)) = strncmp n p q := by
  induction n generalizing p q with
  | zero => rfl
  | succ n ih =>
    rw [strncmp, strncmp, cut_succ]
    generalize p.headD 0 = a
    by_cases hb : q.headD 0 = 0
    · rw [if_pos hb, hb, List.headD_nil]
      by_cases ha : a ≠ 0 ∧ a = 0
      · exact absurd ha.2 ha.1
      · rw [if_neg ha, if_neg ha]
    · rw [if_neg hb, List.headD_cons, List.tail_cons, ih]

theorem strncpy_eq {s : List Byte} (hs : s.length = n) (t : List Byte) :
    strncpy n s t = (t.take n).takeWhile (· ≠ 0) ++
      List.replicate (n - ((t.take n).takeWhile (· ≠ 0)).length) 0 := by
  induction n generalizing s t with
  | zero => simp [strncpy, List.length_eq_zero_iff.mp hs]
  | succ n ih =>
    have htail : s.tail.length = n := by
      rw [List.length_tail]
      omega
    rw [strncpy, cut_succ]
    generalize t.headD 0 = c
    split
    · rw [List.drop_of_length_le (Nat.le_of_eq htail), List.append_nil]
      rfl
    · rw [ih htail, List.length_cons, Nat.add_sub_add_right]
      rfl

theorem nameOf_length (name : List Byte) : (nameOf name).length ≤ DIRSIZ :=
  Nat.le_trans (List.takeWhile_sublist _).length_le
    (Nat.le_trans (Nat.le_of_eq List.length_take) (Nat.min_le_left _ _))

theorem nameOf_ok (name : List Byte) : NameOk (nameOf name) := by
  refine ⟨nameOf_length name, fun h => ?_⟩
  simpa using List.mem_takeWhile_imp h

theorem ofBytes_name (bs : List Byte) : (Dirent.ofBytes bs).name = nameOf (bs.drop 2) := by
  have hp : (fun c : Byte => c != 0) = (fun c => decide (c ≠ 0)) := by
    funext c
    by_cases hc : c = 0
    · rw [hc]
      rfl
    · rw [decide_eq_true hc, bne_iff_ne]
      exact hc
  rw [Dirent.ofBytes, nameOf, hp]

/-- namecmp() with the bytes of an entry compares the name it has. -/
theorem namecmp_ofBytes (name bs : List Byte) :
    namecmp name (Dirent.ofBytes bs).name = 0 ↔ (Dirent.ofBytes bs).name = nameOf name := by
  rw [ofBytes_name, namecmp, nameOf, strncmp_cut, strncmp_eq_zero]
  exact eq_comm

theorem scan_congr {p p' : Dirent → Bool} (h : ∀ bs, p (.ofBytes bs) = p' (.ofBytes bs))
    (sb : Superblock) (bad : Panic) (fuel : Nat) (ip : Dinode) (off : Nat) :
    scan sb bad p fuel ip off = scan sb bad p' fuel ip off := by
  induction fuel generalizing ip off with
  | zero => rfl
  | succ fuel ih =>
    rw [scan, scan]
    simp only [h, ih]

theorem scanDir_congr {p p' : Dirent → Bool} (h : ∀ bs, p (.ofBytes bs) = p' (.ofBytes bs))
    (sb : Superblock) (bad : Panic) (dp off : Nat) :
    scanDir sb bad p dp off = scanDir sb bad p' dp off := by
  unfold scanDir
  simp only [scan_congr h]

/-- The two models of dirlookup() agree: it looks for the name up to a NUL or DIRSIZ bytes. -/
theorem dirlookupStr_eq (sb : Superblock) (dp : Nat) (name : List Byte) :
    dirlookupStr sb dp name = dirlookup sb dp (nameOf name) := by
  have hscan : scanDir sb .dirlookupRead (fun e => e.inum != 0 && namecmp name e.name == 0) dp 0 =
      scanDir sb .dirlookupRead (fun e => e.inum != 0 && e.name == nameOf name) dp 0 := by
    apply scanDir_congr
    intro bs
    rw [beq_eq_decide, beq_eq_decide, decide_eq_decide.mpr (namecmp_ofBytes name bs)]
  unfold dirlookupStr dirlookup
  exact hscan ▸ rfl

theorem bytes_strncpy (h : buf.length = DIRSIZ) (inum : Nat) (name : List Byte) :
    (⟨inum, nameOf name⟩ : Dirent).bytes = BitVec.ofNat 8 inum :: BitVec.ofNat 8 (inum / 256) ::
      strncpy DIRSIZ buf name := by
  rw [Dirent.bytes, strncpy_eq h, List.take_of_length_le (nameOf_length name)]
  rfl

theorem dirlinkStr_eq (h : buf.length = DIRSIZ) (sb : Superblock) (dp : Nat) (name : List Byte)
    (inum : Nat) : dirlinkStr sb dp buf name inum = dirlink sb dp (nameOf name) inum := by
  unfold dirlinkStr dirlink writeDirent
  exact dirlookupStr_eq sb dp name ▸ bytes_strncpy h inum name ▸ rfl

section
variable {sb : Superblock} {e : Ext} {L : Locals} {K : Finset Nat} {c : Core} {E : Panic → Prop}
  {s : Disk} {n : Node}

theorem lookup_iff (h : Distinct n.entries) : n.lookup name = some i ↔
    i ≠ 0 ∧ ∃ k : Nat, n.entries[k]? = some ⟨i, name⟩ := by
  refine ⟨lookup_eq_some, ?_⟩
  rintro ⟨hi, k, hk⟩
  cases hl : n.lookup name with
  | none => exact absurd rfl (lookup_eq_none.mp hl k _ hk hi)
  | some j =>
    obtain ⟨hj, m, hm⟩ := lookup_eq_some hl
    have hkm := h k m _ _ hk hm hi hj rfl
    rw [← hkm, hk] at hm
    cases hm
    rfl

/-- What is found after entry k has changed from an empty one, or one with the name key, to
another such one. -/
theorem lookup_place (key : List Byte) (new : Dirent) (h : Distinct n.entries)
    (hk : k ≤ n.entries.length)
    (hold : ∀ e, n.entries[k]? = some e → e.inum = 0 ∨ e.name = key)
    (hnew : new.inum = 0 ∨ new.name = key)
    (hother : ∀ (m : Nat) (e : Dirent), m ≠ k → n.entries[m]? = some e → e.inum ≠ 0 →
      e.name ≠ key) :
    Distinct (n.enter k new).entries ∧ (n.enter k new).lookup =
      update n.lookup key (if new.inum = 0 then none else some new.inum) := by
  have hget := fun m => getElem?_place (e := new) hk m
  have hd : Distinct (n.enter k new).entries := by
    refine h.place hk (fun m e hm he h0 hn0 => ?_)
    rcases hnew with hz | hz
    · exact absurd hz hn0
    · rw [hz]
      exact hother m e hm he h0
  refine ⟨hd, ?_⟩
  funext name
  by_cases hname : name = key
  · subst hname
    rw [update_self]
    split
    · rename_i hz
      rw [lookup_eq_none]
      intro m e hm he
      rw [enter_entries, hget] at hm
      split at hm
      · cases hm
        exact absurd hz he
      · rename_i hne
        exact hother m e hne hm he
    · rename_i hz
      rw [lookup_iff hd]
      refine ⟨hz, k, ?_⟩
      rw [enter_entries, hget, if_pos rfl]
      rcases hnew with hz' | hz'
      · exact absurd hz' hz
      · rw [← hz']
  · rw [update_of_ne hname]
    ext i
    rw [lookup_iff hd, lookup_iff h, enter_entries]
    refine and_congr_right (fun hi => exists_congr (fun m => ?_))
    rw [hget]
    split
    · rename_i hm
      subst hm
      constructor
      · intro he
        cases he
        rcases hnew with hz | hz
        · exact absurd hz hi
        · exact absurd hz hname
      · intro he
        rcases hold _ he with hz | hz
        · exact absurd hz hi
        · exact absurd hz hname
    · exact Iff.rfl

/-- What a function on a locked inode returns does not depend on the table. -/
theorem onInode_value {m : Nat → Dinode → Dk (α × Dinode)} {Q : α → Prop}
    (h : Ends (m (c.itable x).inum (c.itable x).copy) c.disk (fun r _ => Q r.1)) :
    Outcome (onInode x m) c E (fun a _ => Q a) := by
  rw [onInode, outcome_bind, outcome_get, outcome_bind, onDisk, outcome_zoom]
  refine (h.mono (fun r t hr => ?_)).outcome
  exact hr

theorem Ok.writeDirent_complete (h : Ok sb e L K c) (de : Dirent) (hL : (dp, d) ∈ L) (hk : dp ∈ K)
    (hoff : off ≤ (c.disk.inodes d).size) :
    Outcome (Fs.writeDirent sb dp off de) c E (fun r _ => r = some direntSize ↔
      off + direntSize ≤ MAXFILE * BSIZE ∧
        Room sb (touched off (off + direntSize)) c.disk (c.disk.inodes d)) := by
  obtain ⟨hcopy, ht⟩ := h.copy_eq hL hk
  apply onInode_value
  rw [hcopy, (h.inside _ hL).2]
  exact writei_complete h.fs ht (Nat.le_of_eq (bytes_length de).symm) hoff

/-- dirlink() fails exactly if the name is there or the directory cannot be extended. -/
theorem Ok.dirlink_fails (h : Ok sb e L K c) (hroom : Crowded e L → E .noInodes)
    (hL : (dp, d) ∈ L) (hk : dp ∈ K) (hd : (c.disk.inodes d).type = T_DIR) (hi : inum < 65536)
    (hn : NameOk name) :
    Outcome (Fs.dirlink sb dp name inum) c E (fun r _ => r = false ↔
      (c.disk.view d).lookup name ≠ none ∨ ¬ Extends sb c.disk d) := by
  rw [Fs.dirlink]
  refine (h.dirlookup hroom hL hk hd name).bind (fun r c1 h1 => ?_)
  obtain ⟨hdisk, hnone, hsome⟩ := h1
  cases r with
  | some q =>
    obtain ⟨x, off⟩ := q
    obtain ⟨j, -, h1, hlook, -⟩ := hsome x off rfl
    dsimp only
    refine (h1.iput (h.droppable h1)).bind (fun _ c2 _ => ?_)
    rw [outcome_pure, hlook]
    exact ⟨fun _ => .inl (Option.some_ne_none _), fun _ => rfl⟩
  | none =>
    obtain ⟨h1, hlook⟩ := hnone rfl
    have hdir := h.fs.dirs d hd
    rw [← hdisk] at hd hlook hdir ⊢
    dsimp only
    refine (h1.scanDir hL hk hd _ _ 0).bind (fun r c2 h2 => ?_)
    obtain ⟨off, de⟩ := r
    obtain ⟨h2, hdisk2, hsc⟩ := h2
    obtain ⟨k, rfl, hle, -, hlast⟩ := hsc.slot hdir hd
    rw [← hdisk2] at hd hle hlast hlook hdir ⊢
    have hsize := Nat.div_mul_cancel (Nat.dvd_of_mod_eq_zero hdir)
    have hoff : k * direntSize ≤ (c2.disk.inodes d).size := by
      rw [← hsize]
      exact Nat.mul_le_mul_right _ hle
    dsimp only
    refine ((h2.writeDirent ⟨inum, name⟩ hL hk hd hle hi hn).and
      (h2.writeDirent_complete (E := E) ⟨inum, name⟩ hL hk hoff)).bind (fun r c3 h3 => ?_)
    obtain ⟨⟨-, hw⟩, hfull⟩ := h3
    rw [outcome_pure, hlook, beq_eq_false_iff_ne]
    have hext : r = some direntSize ↔ Extends sb c2.disk d := by
      by_cases hend : k = (c2.disk.inodes d).size / direntSize
      · rw [hfull, Extends, hend, hsize]
        constructor
        · exact .inr
        · intro hc
          rcases hc with ⟨e', he', h0⟩ | hc
          · exact absurd h0 (hlast.mp hend e' he')
          · exact hc
      · have hempty : ∃ e ∈ (c2.disk.view d).entries, e.inum = 0 := by
          by_contra hno
          exact hend (hlast.mpr (fun e' he' h0 => hno ⟨e', he', h0⟩))
        constructor
        · exact fun _ => .inl hempty
        · intro _
          by_contra hr
          have := (hw.failed hr).2.1
          omega
    rw [ne_eq, hext]
    exact ⟨.inr, fun hc => hc.resolve_left (fun hc => hc rfl)⟩

/-- The directory d, held and locked by the call in the entry dp, is the map M. Its other
references are in e. -/
structure IsMap (sb : Superblock) (e : Ext) (K : Finset Nat) (dp d : Nat)
    (M : List Byte → Option Nat) (c : Core) : Prop where
  ok : Ok sb e {(dp, d)} K c
  held : dp ∈ K
  dir : (c.disk.inodes d).type = T_DIR
  distinct : Distinct (c.disk.view d).entries
  found : (c.disk.view d).lookup = M

theorem IsMap.lookup (h : IsMap sb e K dp d M c) (hroom : Crowded e {(dp, d)} → E .noInodes)
    (name : List Byte) :
    Outcome (dirlookupStr sb dp name) c E (fun r c' =>
      r.map (fun q => (c'.itable q.1).inum) = M (nameOf name)) := by
  rw [dirlookupStr_eq]
  refine (h.ok.dirlookup hroom (Multiset.mem_singleton_self _) h.held h.dir _).imp
    (fun r c1 h1 => ?_)
  obtain ⟨-, hnone, hsome⟩ := h1
  rw [← h.found]
  cases r with
  | none => rw [(hnone rfl).2, Option.map_none]
  | some q =>
    obtain ⟨j, -, h1, hlook, -⟩ := hsome q.1 q.2 rfl
    rw [hlook, Option.map_some, (h1.inside _ (Multiset.mem_cons_self _ _)).2]

theorem IsMap.same (h : IsMap sb e K dp d M c) (hok : Ok sb e {(dp, d)} K c')
    (hv : c'.disk.view d = c.disk.view d) : IsMap sb e K dp d M c' := by
  refine ⟨hok, h.held, ?_, ?_, ?_⟩
  · rw [← view_type, hv, view_type]
    exact h.dir
  · rw [hv]
    exact h.distinct
  · rw [hv]
    exact h.found

theorem IsMap.link (h : IsMap sb e K dp d M c) (hroom : Crowded e {(dp, d)} → E .noInodes)
    (hv : (DirOp.link buf name inum).Valid) :
    Outcome (dirlinkStr sb dp buf name inum) c E (fun r c' =>
      IsMap sb e K dp d ((DirOp.link buf name inum).effect r M) c' ∧
      (r = false ↔ (DirOp.link buf name inum).Fails M (Extends sb c.disk d))) := by
  obtain ⟨hbuf, hi0, hi⟩ := hv
  have hmem : (dp, d) ∈ ({(dp, d)} : Locals) := Multiset.mem_singleton_self _
  have hn := nameOf_ok name
  rw [dirlinkStr_eq hbuf]
  refine ((h.ok.dirlink hroom hmem h.held h.dir hi hn).and
    (h.ok.dirlink_fails hroom hmem h.held h.dir hi hn)).imp (fun r c1 h1 => ?_)
  obtain ⟨⟨hok, hdir, htrue, hfalse⟩, hfail⟩ := h1
  rw [h.found] at hfail
  refine ⟨?_, hfail⟩
  cases r with
  | true =>
    obtain ⟨k, hvac, hview⟩ := htrue rfl
    have hself : c1.disk.view d = (c.disk.view d).enter k ⟨inum, nameOf name⟩ := by
      rw [hview, update_self]
    obtain ⟨hdist, hlook⟩ := lookup_place (nameOf name) ⟨inum, nameOf name⟩
      h.distinct hvac.le (fun e he => .inl (hvac.slot e he)) (.inr rfl)
      (fun m e _ hm he => lookup_eq_none.mp hvac.fresh m e hm he)
    refine ⟨hok, h.held, hdir, ?_, ?_⟩
    · rw [hself]
      exact hdist
    · rw [hself, hlook, h.found, if_neg hi0]
      rfl
  | false => exact h.same hok ((hfalse rfl).1.held (.inr ⟨dp, hmem⟩))

/-- The sixteen zero bytes that unlink() writes. -/
theorem writeDirent_zero (sb : Superblock) (dp off : Nat) :
    onInode dp (fun i ip => writei sb i ip (List.replicate direntSize 0) off direntSize) =
      writeDirent sb dp off ⟨0, []⟩ := rfl

theorem IsMap.unlink (h : IsMap sb e K dp d M c) (hroom : Crowded e {(dp, d)} → E .noInodes)
    (name : List Byte) :
    Outcome ((DirOp.unlink name).run sb dp) c E (fun r c' =>
      IsMap sb e K dp d ((DirOp.unlink name).effect r M) c' ∧
      (r = false ↔ (DirOp.unlink name).Fails M (Extends sb c.disk d))) := by
  have hmem : (dp, d) ∈ ({(dp, d)} : Locals) := Multiset.mem_singleton_self _
  rw [DirOp.run, dirlookupStr_eq]
  refine (h.ok.dirlookup hroom hmem h.held h.dir _).bind (fun r c1 h1 => ?_)
  obtain ⟨hdisk, hnone, hsome⟩ := h1
  cases r with
  | none =>
    obtain ⟨hok, hlook⟩ := hnone rfl
    rw [h.found] at hlook
    dsimp only
    rw [outcome_pure]
    exact ⟨h.same hok (by rw [hdisk]), fun _ => hlook, fun _ => rfl⟩
  | some q =>
    obtain ⟨x, off⟩ := q
    obtain ⟨j, k, h1, hlook, -, rfl, hget⟩ := hsome x off rfl
    have hlt := (List.getElem?_eq_some_iff.mp hget).1
    have hsize : k < (c1.disk.inodes d).size / direntSize := by
      rw [view_entries h.dir, entries_length, ← hdisk] at hlt
      exact hlt
    have hdir1 : (c1.disk.inodes d).type = T_DIR := by
      rw [hdisk]
      exact h.dir
    dsimp only
    rw [outcome_bind, writeDirent_zero]
    refine (h1.writeDirent ⟨0, []⟩ (Multiset.mem_cons_of_mem hmem) h.held hdir1
      (Nat.le_of_lt hsize) (by decide) ⟨by decide, by decide⟩).imp (fun r c2 h2 => ?_)
    obtain ⟨h2, hw⟩ := h2
    -- the entry is in the file, so that writing it needs no block
    have hr : r = some direntSize := by
      by_contra hr
      have := (hw.failed hr).2.1
      omega
    rw [if_pos hr]
    refine (h2.iput (h.ok.droppable h2)).bind (fun _ c3 h3 => ?_)
    obtain ⟨h3, hthin⟩ := h3
    have hself : c3.disk.view d = (c.disk.view d).enter k ⟨0, []⟩ := by
      rw [hthin.held (.inr ⟨dp, hmem⟩), hw.view_done h1.fs hdir1 hr, update_self, hdisk]
      rfl
    have hold : ∀ e, (c.disk.view d).entries[k]? = some e → e.inum = 0 ∨ e.name = nameOf name := by
      intro e he
      rw [hget] at he
      cases he
      exact .inr rfl
    have hother : ∀ (m : Nat) (e : Dirent), m ≠ k → (c.disk.view d).entries[m]? = some e →
        e.inum ≠ 0 → e.name ≠ nameOf name := by
      intro m e hm he h0 hname
      exact hm (h.distinct m k e _ he hget h0 (lookup_eq_some hlook).1 hname)
    obtain ⟨hdist, hlook'⟩ := lookup_place (nameOf name) ⟨0, []⟩ h.distinct (Nat.le_of_lt hlt)
      hold (.inl rfl) hother
    rw [outcome_pure]
    refine ⟨⟨h3, h.held, ?_, ?_, ?_⟩, fun hc => (nomatch hc), fun hc => ?_⟩
    · rw [← view_type, hself, enter_type, view_type]
      exact h.dir
    · rw [hself]
      exact hdist
    · rw [hself, hlook', h.found, if_pos rfl]
      rfl
    · rw [DirOp.Fails, ← h.found, hlook] at hc
      cases hc

theorem IsMap.step (h : IsMap sb e K dp d M c) (hroom : Crowded e {(dp, d)} → E .noInodes)
    (op : DirOp) (hv : op.Valid) :
    Outcome (op.run sb dp) c E (fun r c' => IsMap sb e K dp d (op.effect r M) c' ∧
      (r = false ↔ op.Fails M (Extends sb c.disk d))) := by
  cases op with
  | link buf name inum => exact h.link hroom hv
  | unlink name => exact h.unlink hroom name

theorem IsMap.run (h : IsMap sb e K dp d M c) (hroom : Crowded e {(dp, d)} → E .noInodes)
    (hops : ∀ op ∈ ops, op.Valid) :
    Outcome (runOps sb dp ops) c E (fun rs c' => IsMap sb e K dp d (effects M ops rs) c') := by
  induction ops generalizing M c with
  | nil => exact h
  | cons op ops ih =>
    rw [runOps]
    refine (h.step hroom op (hops op List.mem_cons_self)).bind (fun r c1 h1 => ?_)
    refine (ih h1.1 (fun o ho => hops o (List.mem_cons_of_mem _ ho))).bind (fun rs c2 h2 => ?_)
    exact h2

/-- A directory is a map from names to inode numbers: after any calls a lookup finds what was
linked last under the same name and not removed since, a call fails exactly when its name is in
the way or the directory cannot be extended, and only the name of a call that returns success is
affected. The kernel stops only if dirlookup() finds the inode table full. -/
theorem directory_is_map (h : IsMap sb e K dp d M c) (hops : ∀ op ∈ ops, op.Valid) :
    Outcome (runOps sb dp ops) c (fun p => p = .noInodes ∧ Crowded e {(dp, d)}) (fun rs c' =>
      (∀ name, Outcome (dirlookupStr sb dp name) c'
        (fun p => p = .noInodes ∧ Crowded e {(dp, d)}) (fun r c'' =>
          r.map (fun q => (c''.itable q.1).inum) = effects M ops rs (nameOf name))) ∧
      ∀ op : DirOp, op.Valid → Outcome (op.run sb dp) c'
        (fun p => p = .noInodes ∧ Crowded e {(dp, d)}) (fun r c'' =>
          (r = false ↔ op.Fails (effects M ops rs) (Extends sb c'.disk d)) ∧
          (c''.disk.view d).lookup = op.effect r (effects M ops rs))) := by
  refine (h.run (fun hc => ⟨rfl, hc⟩) hops).imp (fun rs c' h' => ⟨fun name => ?_, fun op hv => ?_⟩)
  · exact h'.lookup (fun hc => ⟨rfl, hc⟩) name
  · refine (h'.step (fun hc => ⟨rfl, hc⟩) op hv).imp (fun r c'' h'' => ?_)
    exact ⟨h''.2, h''.1.found⟩

end

/-- The root directory after boot, locked, is a map. -/
theorem isMap_root : ∃ e c, ((iget ROOTDEV ROOTINO >>= ilock : Ic Unit)).run (boot fresh).core =
    .ok ((), c) ∧ IsMap mkfsSb e {0} 0 ROOTINO (c.disk.view ROOTINO).lookup c := by
  obtain ⟨e, hmid⟩ := (sysOk_run fresh_consistent (show run (step mkfsSb) (boot fresh) [] = _
    from rfl)).mid
  have hx : ((iget ROOTDEV ROOTINO : Ic Nat).run (boot fresh).core).toOption.any
      (fun q => decide (q.1 = 0)) = true := by decide +kernel
  obtain ⟨⟨x, c1⟩, hr1, hx⟩ := ok_of_any hx
  obtain rfl : x = 0 := of_decide_eq_true hx
  obtain ⟨h1, hdisk1⟩ := (hmid.core.iget (E := fun _ => True) (fun _ => trivial)).returns hr1
  have hd : ((iget ROOTDEV ROOTINO >>= ilock : Ic Unit).run (boot fresh).core).toOption.any
      (fun _ => true) = true := by decide +kernel
  obtain ⟨⟨u, c⟩, hr, -⟩ := ok_of_any hd
  have hlock : (ilock 0).run c1 = .ok ((), c) := by
    rw [StateT.run_bind, hr1] at hr
    exact hr
  have hmem : (0, ROOTINO) ∈ (0, ROOTINO) ::ₘ (0 : Locals) := Multiset.mem_cons_self _ _
  obtain ⟨h2, hdisk2, -⟩ := (h1.ilock (h1.inside _ hmem).1 (h1.ref_pos hmem) (E := fun _ => True)
    (fun _ => trivial) (fun _ => trivial)).returns hlock
  have hdisk : c.disk = fresh := hdisk2.trans hdisk1
  have hty : (fresh.inodes ROOTINO).type = T_DIR := rfl
  refine ⟨e, c, hr, h2, Finset.mem_singleton_self _, by rw [hdisk]; exact hty, ?_, rfl⟩
  have hroot := fresh_good.dirs ROOTINO hty
  rw [hdisk, view_entries hty]
  exact hroot.distinct

/-- A process that links "a" twice in the root directory and removes it. -/
theorem directory_is_map_root : ∃ e c rs c',
    ((iget ROOTDEV ROOTINO >>= ilock : Ic Unit)).run (boot fresh).core = .ok ((), c) ∧
    (runOps mkfsSb 0 [.link (List.replicate 14 7) [97] 5, .link (List.replicate 14 7) [97, 0, 98] 6,
      .unlink [97, 0]]).run c = .ok (rs, c') ∧ rs = [true, false, true] ∧
    Outcome (dirlookupStr mkfsSb 0 [97]) c' (fun p => p = .noInodes ∧ Crowded e {(0, ROOTINO)})
      (fun r _ => r = none) := by
  have hd : ((iget ROOTDEV ROOTINO >>= ilock >>= fun _ => runOps mkfsSb 0
      [.link (List.replicate 14 7) [97] 5, .link (List.replicate 14 7) [97, 0, 98] 6,
        .unlink [97, 0]] : Ic (List Bool)).run (boot fresh).core).toOption.any
      (fun q => decide (q.1 = [true, false, true])) = true := by decide +kernel
  obtain ⟨⟨rs, c'⟩, hr, hp⟩ := ok_of_any hd
  have hrs := of_decide_eq_true hp
  obtain ⟨e, c, hc, hmap⟩ := isMap_root
  rw [StateT.run_bind, hc] at hr
  have hops : ∀ op ∈ [DirOp.link (List.replicate 14 7) [97] 5,
      .link (List.replicate 14 7) [97, 0, 98] 6, .unlink [97, 0]], op.Valid := by
    intro op hop
    simp only [List.mem_cons, List.not_mem_nil, or_false] at hop
    rcases hop with rfl | rfl | rfl
    · exact ⟨rfl, by decide, by decide⟩
    · exact ⟨rfl, by decide, by decide⟩
    · trivial
  have hall := (directory_is_map hmap hops).returns hr
  refine ⟨e, c, rs, c', hc, hr, hrs, (hall.1 [97]).imp (fun r c'' h => ?_)⟩
  dsimp only at hrs
  rw [hrs] at h
  have hkey : nameOf [97, 0] = nameOf [97] := by decide
  have hnone : effects (c.disk.view ROOTINO).lookup [DirOp.link (List.replicate 14 7) [97] 5,
      .link (List.replicate 14 7) [97, 0, 98] 6, .unlink [97, 0]] [true, false, true]
      (nameOf [97]) = none := by
    rw [← hkey]
    simp [effects, DirOp.effect, DirOp.key, DirOp.value]
  rw [hnone, Option.map_eq_none_iff] at h
  exact h

end Xv6.Fs
