import Xv6.Fs.Dirents

namespace Xv6.Fs

open Lib

/-- What the directory tree shows of an inode. -/
structure Node where
  type : Nat
  nlink : BitVec 16
  links : Int
  entries : List Dirent

def Node.free : Node := ⟨0, 0, 0, []⟩

abbrev View := Nat → Node

def Disk.view (s : Disk) : View := fun i =>
  if (s.inodes i).type = 0 then Node.free
  else
    { type := (s.inodes i).type
      nlink := (s.inodes i).nlink
      links := (s.inodes i).links
      entries := if (s.inodes i).type = T_DIR then Fs.entries s.data (s.inodes i) else [] }

/-- The inode number under a name, as dirlookup finds it. -/
def Node.lookup (n : Node) (name : List Byte) : Option Nat :=
  (n.entries.find? (fun e => e.inum != 0 && e.name == name)).map Dirent.inum

/-- Where a list of path elements leads. -/
def walk (V : View) : Nat → List (List Byte) → Option Nat
  | i, [] => some i
  | i, name :: rest =>
    if (V i).type = T_DIR then
      match (V i).lookup name with
      | none => none
      | some j => walk V j rest
    else none

/-- Between V and V' some inodes without links that nobody outside holds were freed. -/
def Thin (H : Nat → Prop) (V V' : View) : Prop :=
  ∀ i, V' i = V i ∨ V' i = Node.free ∧ (V i).nlink = 0 ∧ ¬ H i

theorem Thin.refl (H : Nat → Prop) (V : View) : Thin H V V := fun _ => .inl rfl

theorem Thin.trans (h : Thin H V V') (h' : Thin H V' V'') : Thin H V V'' := by
  intro i
  rcases h' i with h2 | ⟨h2, hn, hh⟩
  · rw [h2]
    exact h i
  · rcases h i with h1 | ⟨-, hn', hh'⟩
    · rw [h1] at hn
      exact .inr ⟨h2, hn, hh⟩
    · exact .inr ⟨h2, hn', hh'⟩

theorem Thin.mono (h : Thin H V V') (hH : ∀ i, H' i → H i) : Thin H' V V' := by
  intro i
  rcases h i with he | ⟨he, hn, hh⟩
  · exact .inl he
  · exact .inr ⟨he, hn, fun h' => hh (hH i h')⟩

theorem Thin.held (h : Thin H V V') (hi : H i) : V' i = V i := by
  rcases h i with he | ⟨-, -, hh⟩
  · exact he
  · exact absurd hi hh

theorem Thin.eq_of_type (h : Thin H V V') (ht : (V' i).type ≠ 0) : V' i = V i := by
  rcases h i with he | ⟨he, -⟩
  · exact he
  · rw [he] at ht
    exact absurd rfl ht

section
variable {sb : Superblock} {s t : Disk}

theorem view_type (s : Disk) (i : Nat) : (s.view i).type = (s.inodes i).type := by
  unfold Disk.view
  split
  · rename_i h
    exact h.symm
  · rfl

theorem view_free (h : (s.inodes i).type = 0) : s.view i = Node.free := by simp [Disk.view, h]

theorem view_nlink (h : (s.inodes i).type ≠ 0) : (s.view i).nlink = (s.inodes i).nlink := by
  simp [Disk.view, h]

theorem view_entries (h : (s.inodes i).type = T_DIR) :
    (s.view i).entries = Fs.entries s.data (s.inodes i) := by
  have h0 : (s.inodes i).type ≠ 0 := by rw [h]; decide
  simp [Disk.view, h, T_DIR]

/-- Nodes look the same if their inodes and, for directories, their bytes are. -/
theorem view_congr (hi : t.inodes i = s.inodes i)
    (hb : (s.inodes i).type = T_DIR → ∀ pos < (s.inodes i).size,
      byteAt t.data (s.inodes i) pos = byteAt s.data (s.inodes i) pos) : t.view i = s.view i := by
  unfold Disk.view
  rw [hi]
  by_cases h0 : (s.inodes i).type = 0
  · simp [h0]
  · by_cases hd : (s.inodes i).type = T_DIR
    · rw [entries_congr rfl (hb hd)]
    · simp [hd]

theorem Edits.view_eq (h : Edits sb i s t) (hs : FsOk sb s) (hj : j ≠ i) : t.view j = s.view j := by
  apply view_congr (h.others j hj)
  intro hd pos hp
  exact h.byteAt_eq hs hj (by rw [hd]; decide) hp

/-- An edit that keeps the entries keeps the whole view. -/
theorem Edits.view_same (h : Edits sb i s t) (hs : FsOk sb s)
    (hsame : t.inodes i =
      { s.inodes i with size := (t.inodes i).size, addrs := (t.inodes i).addrs })
    (hent : (s.inodes i).type = T_DIR →
      entries t.data (t.inodes i) = entries s.data (s.inodes i)) : t.view = s.view := by
  funext j
  rcases eq_or_ne j i with rfl | hj
  · have hty : (t.inodes j).type = (s.inodes j).type := by rw [hsame]
    have hnl : (t.inodes j).nlink = (s.inodes j).nlink := by rw [hsame]
    have hli : (t.inodes j).links = (s.inodes j).links := by rw [hsame]
    unfold Disk.view
    rw [hty, hnl, hli]
    by_cases hd : (s.inodes j).type = T_DIR
    · rw [hent hd]
    · simp [hd]
  · exact h.view_eq hs hj

theorem view_put (ip : Dinode) (hi : ip.addrs = (s.inodes i).addrs)
    (hsz : ip.size = (s.inodes i).size) (hty : ip.type = (s.inodes i).type)
    (h0 : (s.inodes i).type ≠ 0) :
    (s.put i ip).view = Function.update s.view i
      { s.view i with nlink := ip.nlink, links := ip.links } := by
  funext j
  rcases eq_or_ne j i with rfl | hj
  · have hent : entries s.data ip = entries s.data (s.inodes j) := by
      apply entries_congr hsz
      intro pos _
      unfold byteAt blk
      rw [slotAddr_congr hi (fun _ => rfl)]
    simp [Disk.view, hty, h0, hent]
  · rw [Function.update_of_ne hj]
    apply view_congr (put_inodes_of_ne hj)
    intro _ pos _
    rfl

end

end Xv6.Fs
