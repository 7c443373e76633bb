import Mathlib.Data.BitVec
import Xv6.Lib.Window
import Xv6.Console.Model

namespace Xv6.Console
open Function List Lib
open Loops (Byte Word INPUT_BUF_SIZE ctrlD newline)

/-- The committed bytes that nobody has read lie between r and w, the line that is being
typed between w and e. -/
structure Buffered (s : Cons) (pending line : List Byte) : Prop where
  ring : Window (2 ^ 32) INPUT_BUF_SIZE s.buf s.r.toNat s.e.toNat (pending ++ line)
  write : s.w.toNat = (s.r.toNat + pending.length) % 2 ^ 32
  plain : newline ∉ line

theorem Buffered.committed (h : Buffered s pending line) :
    Window (2 ^ 32) INPUT_BUF_SIZE s.buf s.r.toNat s.w.toNat pending := by
  rw [h.write]
  exact h.ring.split.1

theorem Buffered.edited (h : Buffered s pending line) :
    Window (2 ^ 32) INPUT_BUF_SIZE s.buf s.w.toNat s.e.toNat line := by
  rw [h.write]
  exact h.ring.split.2

theorem Buffered.empty_iff (h : Buffered s pending line) : s.r = s.w ↔ pending = [] := by
  rw [← BitVec.toNat_inj]
  exact h.committed.eq_iff

theorem Buffered.fresh_iff (h : Buffered s pending line) : s.e = s.w ↔ line = [] := by
  rw [← BitVec.toNat_inj, eq_comm]
  exact h.edited.eq_iff

theorem Buffered.unread (h : Buffered s pending line) :
    (s.w - s.r).toNat = pending.length := by
  rw [BitVec.toNat_sub]
  exact h.committed.length_eq

theorem Buffered.unfinished (h : Buffered s pending line) :
    (s.e - s.w).toNat = line.length := by
  rw [BitVec.toNat_sub]
  exact h.edited.length_eq

theorem Buffered.count (h : Buffered s pending line) :
    (s.e - s.r).toNat = pending.length + line.length := by
  rw [BitVec.toNat_sub, ← length_append]
  exact h.ring.length_eq

theorem toNat_pred (x : Word) : (x - 1).toNat = (2 ^ 32 - 1 + x.toNat) % 2 ^ 32 :=
  BitVec.toNat_sub x 1

theorem toNat_succ (x : Word) : (x + 1).toNat = (x.toNat + 1) % 2 ^ 32 :=
  BitVec.toNat_add x 1

theorem Buffered.pop (h : Buffered s pending (line ++ [b])) :
    s.at (s.e - 1) = b ∧ Buffered { s with e := s.e - 1 } pending line := by
  have hr := h.ring
  rw [← append_assoc] at hr
  obtain ⟨hb, hw⟩ := hr.back
  constructor
  · rw [Cons.at, toNat_pred]
    exact hb
  · constructor
    · dsimp only
      rw [toNat_pred]
      exact hw
    · exact h.write
    · exact fun hm => h.plain (mem_append_left _ hm)

theorem Buffered.erase (h : Buffered s pending line) : Buffered s.erase pending line.dropLast := by
  unfold Cons.erase
  rcases eq_nil_or_concat line with rfl | ⟨l, b, rfl⟩
  · rw [if_neg (not_not_intro (h.fresh_iff.mpr rfl))]
    exact h
  · rw [if_pos (fun he => by simpa using h.fresh_iff.mp he), concat_eq_append,
      dropLast_concat]
    rw [concat_eq_append] at h
    exact h.pop.2

/-- The line is taken back character by character. There is no newline in it to stop at. -/
theorem Buffered.killLine (h : Buffered s pending line) :
    Buffered (s.killLine line.length) pending [] := by
  induction line using List.reverseRecOn generalizing s with
  | nil => exact h
  | append_singleton l b ih =>
    obtain ⟨hb, hp⟩ := h.pop
    have hne : s.e ≠ s.w := fun he => by simpa using h.fresh_iff.mp he
    have hnl : s.at (s.e - 1) ≠ newline := by
      rw [hb]
      intro he
      exact h.plain (by simp [he])
    rw [length_append, length_singleton, Cons.killLine, if_pos ⟨hne, hnl⟩]
    exact ih hp

theorem Buffered.push (h : Buffered s pending line)
    (hroom : pending.length + line.length < INPUT_BUF_SIZE) (c : Byte) :
    Window (2 ^ 32) INPUT_BUF_SIZE (update s.buf (s.e.toNat % INPUT_BUF_SIZE) c)
      s.r.toNat (s.e + 1).toNat (pending ++ (line ++ [c])) := by
  have hl : (pending ++ line).length < INPUT_BUF_SIZE := by rwa [length_append]
  rw [toNat_succ, ← append_assoc]
  exact (h.ring.write hl c).advance hl (update_self ..)

/-- The default case of consoleintr() does to the buffer what it means to the line. k
committed bytes have been read. -/
theorem Buffered.store {l : Line} (h : Buffered s (l.committed.drop k) l.line)
    (hk : k ≤ l.committed.length) (c : Byte) :
    Buffered (s.store c).1 ((l.add (l.committed.length - k) c).committed.drop k)
      (l.add (l.committed.length - k) c).line := by
  have hlen : (l.committed.drop k).length = l.committed.length - k := length_drop
  unfold Line.add Cons.store
  rw [h.count, hlen]
  by_cases hroom : c ≠ 0 ∧ l.committed.length - k + l.line.length < INPUT_BUF_SIZE
  · rw [if_pos hroom, if_pos hroom]
    dsimp only
    generalize (if c = carriageReturn then newline else c) = b
    have hw := h.push (by rw [hlen]; exact hroom.2) b
    have hcount : (s.e + 1 - s.r).toNat = l.committed.length - k + (l.line ++ [b]).length := by
      rw [BitVec.toNat_sub, hw.length_eq, length_append, hlen]
    rw [hcount]
    by_cases hcommit : b = newline ∨ b = ctrlD ∨
        l.committed.length - k + (l.line ++ [b]).length = INPUT_BUF_SIZE
    · rw [if_pos hcommit, if_pos hcommit, drop_append_of_le_length hk]
      constructor
      · simpa using hw
      · exact hw.stop
      · simp
    rw [if_neg hcommit, if_neg hcommit]
    rw [not_or] at hcommit
    constructor
    · exact hw
    · exact h.write
    · intro hm
      rcases mem_append.mp hm with hm | hm
      · exact h.plain hm
      · exact hcommit.1 (mem_singleton.mp hm).symm
  · rw [if_neg hroom, if_neg hroom]
    exact h

theorem Buffered.intr {l : Line} (h : Buffered s (l.committed.drop k) l.line)
    (hk : k ≤ l.committed.length) (c : Byte) :
    Buffered (s.intr c).1 ((l.input (l.committed.length - k) c).committed.drop k)
      (l.input (l.committed.length - k) c).line := by
  unfold Cons.intr
  split
  · next hc =>
    rw [Line.input, if_pos (.inl hc)]
    exact h
  next hp =>
  split
  · next hc =>
    subst hc
    rw [h.unfinished]
    exact h.killLine
  next hu =>
  split
  · next hc =>
    subst hc
    exact h.erase
  next hh =>
  split
  · next hc =>
    subst hc
    exact h
  next hcc =>
  split
  · next hc =>
    subst hc
    exact h.erase
  next hd =>
  split
  · next hc =>
    subst hc
    exact h
  next hl =>
    rw [Line.input, if_neg (by simp [hp, hcc, hl]), if_neg hu, if_neg (by simp [hh, hd])]
    exact h.store hk c

theorem Buffered.take (h : Buffered s (b :: pending) line) :
    s.at s.r = b ∧ Buffered { s with r := s.r + 1 } pending line := by
  obtain ⟨hb, hw⟩ := h.ring.pop
  refine ⟨hb, ?_, ?_, h.plain⟩
  · dsimp only
    rw [toNat_succ]
    exact hw
  · dsimp only
    rw [toNat_succ, h.write, Nat.mod_add_mod, length_cons]
    congr 1
    omega

/-- The bytes a read still wants, and how many it asked for. -/
def Pc.wants : Pc → Option (Int × Int)
  | .user _ => none
  | .enter n target | .head n target | .test n target | .asleep n target => some (n, target)

def Wanted (x : Int × Int) : Prop := 0 < x.2 ∧ 0 ≤ x.1 ∧ x.1 ≤ x.2

structure Inv (s : Sys) : Prop where
  buffer : Buffered s.cons (s.spec.committed.drop s.log.length) s.spec.line
  log : s.log = (s.spec.committed.take s.log.length).map Event.of
  reads : ∀ p x, (s.pc p).wants = some x → Wanted x

theorem inv_start (procs : Table) : Inv (start procs) where
  buffer := ⟨window_nil (by decide) (by decide) _, rfl, by simp [start]⟩
  log := rfl
  reads := fun _ _ h => by cases h

theorem Inv.log_le (h : Inv s) : s.log.length ≤ s.spec.committed.length := by
  have hl := congrArg List.length h.log
  rw [length_map, length_take] at hl
  omega

theorem wants_update {s : Sys} (h : ∀ q x, (s.pc q).wants = some x → Wanted x)
    (hc : ∀ x, c.wants = some x → Wanted x) (q : Nat) (x : Int × Int)
    (hx : (update s.pc p c q).wants = some x) : Wanted x := by
  rcases eq_or_ne q p with rfl | hne
  · rw [update_self] at hx
    exact hc x hx
  · rw [update_of_ne hne] at hx
    exact h q x hx

theorem Inv.goto {t : Sys} (h : Inv s) (hcons : t.cons = s.cons) (hspec : t.spec = s.spec)
    (hlog : t.log = s.log) (hpc : t.pc = update s.pc p c)
    (hc : ∀ x, c.wants = some x → Wanted x) : Inv t where
  buffer := by
    rw [hcons, hspec, hlog]
    exact h.buffer
  log := by
    rw [hspec, hlog]
    exact h.log
  reads := by
    rw [hpc]
    exact wants_update h.reads hc

/-- A process takes the next committed byte, and gets what it stands for. -/
theorem Inv.take {t : Sys} (h : Inv s) (hne : s.cons.r ≠ s.cons.w)
    (hcons : t.cons = { s.cons with r := s.cons.r + 1 }) (hspec : t.spec = s.spec)
    (hlog : t.log = s.log ++ [Event.of (s.cons.at s.cons.r)])
    (hpc : t.pc = update s.pc p c)
    (hc : ∀ x, c.wants = some x → Wanted x) : Inv t := by
  obtain ⟨b, l, hbl⟩ := exists_cons_of_ne_nil
    (fun he => hne (h.buffer.empty_iff.mpr he))
  have hbuf := h.buffer
  rw [hbl] at hbuf
  obtain ⟨hb, hbuf⟩ := hbuf.take
  have hget : s.spec.committed[s.log.length]? = some b := by
    rw [← List.head?_drop, hbl]
    rfl
  have hlen : t.log.length = s.log.length + 1 := by
    rw [hlog, length_append, length_singleton]
  constructor
  · rw [hcons, hspec, hlen, ← tail_drop, hbl]
    exact hbuf
  · rw [hspec, hlen, take_add_one, hget, map_append, ← h.log, hlog, hb]
    rfl
  · rw [hpc]
    exact wants_update h.reads hc

theorem Inv.ret (h : Inv s) (hv : v ≠ 0) : Inv (s.ret p v) :=
  h.goto (p := p) (c := .user v) rfl rfl (if_neg hv) rfl (fun _ hx => by cases hx)

theorem Inv.readChar (h : Inv s) (hne : s.cons.r ≠ s.cons.w) (hn : 0 < n) (hw : Wanted (n, m)) :
    Inv (readChar s p n m true) := by
  obtain ⟨hm, -, hle⟩ := hw
  dsimp only at hm hle
  unfold Console.readChar
  dsimp only
  split
  · next hd =>
    split
    · next hlt =>
      -- the end of file is put back for a read of its own
      have he : { s.cons with r := s.cons.r + 1 - 1 } = s.cons := by
        rw [BitVec.add_sub_cancel]
      exact h.goto (p := p) (c := .user (m - n)) he rfl (if_neg (by omega)) rfl
        (fun _ hx => by cases hx)
    · next hge =>
      refine h.take hne (p := p) (c := .user (m - n)) rfl rfl ?_ rfl (fun _ hx => by cases hx)
      rw [Event.of, if_pos hd]
      exact if_pos (by omega)
  · next hd =>
    have hof : Event.of (s.cons.at s.cons.r) = .byte (s.cons.at s.cons.r) := if_neg hd
    rw [if_pos rfl]
    split
    · refine h.take hne (p := p) (c := .user (m - (n - 1))) rfl rfl ?_ rfl
        (fun _ hx => by cases hx)
      rw [hof]
      exact if_neg (by omega)
    · refine h.take hne (p := p) (c := .head (n - 1) m) rfl rfl ?_ rfl ?_
      · rw [hof]
        rfl
      · intro x hx
        cases hx
        exact ⟨hm, by dsimp only; omega, by dsimp only; omega⟩

theorem Inv.go (h : Inv s) (hgo : go s p true = some t) : Inv t := by
  unfold Console.go at hgo
  split at hgo
  · cases hgo
  · next n m hpc =>
    obtain ⟨-, hgo⟩ := Option.ite_none_right_eq_some.mp hgo
    cases hgo
    exact h.goto rfl rfl rfl rfl (fun x hx => h.reads p x (by rw [hpc]; exact hx))
  · next n m hpc =>
    have hw : Wanted (n, m) := h.reads p (n, m) (by rw [hpc]; rfl)
    split at hgo
    · next hn =>
      split at hgo
      · cases hgo
        exact h.goto rfl rfl rfl rfl (fun x hx => h.reads p x (by rw [hpc]; exact hx))
      · next hne =>
        cases hgo
        exact h.readChar hne hn hw
    · next hn =>
      cases hgo
      obtain ⟨h1, -, -⟩ := hw
      dsimp only at h1
      exact h.ret (by omega)
  · next n m hpc =>
    split at hgo
    · cases hgo
      exact h.ret (by decide)
    · cases hgo
      exact h.goto rfl rfl rfl rfl (fun x hx => h.reads p x (by rw [hpc]; exact hx))
  · next n m hpc =>
    cases hgo
    exact h.goto rfl rfl rfl rfl (fun x hx => h.reads p x (by rw [hpc]; exact hx))

theorem Inv.setProcs {t : Sys} (h : Inv s) (hcons : t.cons = s.cons) (hpc : t.pc = s.pc)
    (hspec : t.spec = s.spec) (hlog : t.log = s.log) : Inv t where
  buffer := by
    rw [hcons, hspec, hlog]
    exact h.buffer
  log := by
    rw [hspec, hlog]
    exact h.log
  reads := by
    rw [hpc]
    exact h.reads

theorem Inv.mark (h : Inv s) (c : Byte) (q : Option Nat) : Inv (s.mark c q) := by
  unfold Sys.mark
  split
  · exact h
  · split
    · exact h.setProcs rfl rfl rfl rfl
    · exact h

/-- Typing adds to the committed bytes and takes none away. -/
theorem input_committed (k : Nat) (c : Byte) (l : Line) :
    l.committed <+: (l.input k c).committed := by
  unfold Line.input Line.add
  dsimp only
  repeat' split
  all_goals simp

theorem Inv.intr (h : Inv s) (c : Byte) (q : Option Nat) : Inv (s.intr c q) := by
  have hm := h.mark c q
  obtain ⟨l, hl⟩ := input_committed ((s.mark c q).spec.committed.length - (s.mark c q).log.length)
    c (s.mark c q).spec
  constructor
  · exact hm.buffer.intr hm.log_le c
  · have hlog := hm.log
    unfold Sys.intr
    dsimp only
    rw [← hl, take_append_of_le_length hm.log_le]
    exact hlog
  · exact hm.reads

/-- A read asks for something, and its destination can be written. -/
def Proper : Act → Prop
  | .read _ n => 0 < n
  | .go _ copied => copied = true
  | _ => True

instance (a : Act) : Decidable (Proper a) :=
  match a with
  | .read .. => inferInstanceAs (Decidable (_ < _))
  | .go .. => inferInstanceAs (Decidable (_ = _))
  | .sched _ | .yield _ | .kill _ | .elsewhere .. | .intr .. => isTrue trivial

theorem Inv.step (h : Inv s) (hp : Proper a) (hst : step s a = some t) : Inv t := by
  cases a with
  | sched p =>
    obtain ⟨-, hst⟩ := Option.ite_none_right_eq_some.mp hst
    cases hst
    exact h.setProcs rfl rfl rfl rfl
  | yield p =>
    obtain ⟨-, hst⟩ := Option.ite_none_right_eq_some.mp hst
    cases hst
    exact h.setProcs rfl rfl rfl rfl
  | kill i =>
    cases hst
    exact h.setProcs rfl rfl rfl rfl
  | elsewhere p r =>
    obtain ⟨-, hst⟩ := Option.ite_none_right_eq_some.mp hst
    cases hst
    exact h.setProcs rfl rfl rfl rfl
  | intr c q =>
    obtain ⟨-, hst⟩ := Option.ite_none_right_eq_some.mp hst
    cases hst
    exact h.intr c q
  | read p n =>
    obtain ⟨-, hst⟩ := Option.ite_none_right_eq_some.mp hst
    cases hst
    refine h.goto rfl rfl rfl rfl ?_
    intro x hx
    cases hx
    exact ⟨hp, Int.le_of_lt hp, Int.le_refl n⟩
  | go p copied =>
    cases hp
    exact h.go (Option.ite_none_right_eq_some.mp hst).2

theorem ret_log {s : Sys} (h : l <+: s.log) : l <+: (s.ret p v).log := by
  unfold Sys.ret Sys.goto
  dsimp only
  split
  · exact h.trans (prefix_append ..)
  · exact h

/-- Nothing that was delivered or committed is taken back. -/
theorem step_grows (hst : step s a = some t) :
    s.spec.committed <+: t.spec.committed ∧ s.log <+: t.log := by
  cases a with
  | intr c q =>
    obtain ⟨-, hst⟩ := Option.ite_none_right_eq_some.mp hst
    cases hst
    have hm : (s.mark c q).spec = s.spec ∧ (s.mark c q).log = s.log := by
      unfold Sys.mark
      split
      · exact ⟨rfl, rfl⟩
      · split <;> exact ⟨rfl, rfl⟩
    constructor
    · rw [← hm.1]
      exact input_committed ..
    · rw [← hm.2]
      exact prefix_rfl
  | go p copied =>
    replace hst := (Option.ite_none_right_eq_some.mp hst).2
    unfold go at hst
    split at hst
    · cases hst
    · obtain ⟨-, hst⟩ := Option.ite_none_right_eq_some.mp hst
      cases hst
      exact ⟨prefix_rfl, prefix_rfl⟩
    · split at hst
      · split at hst
        · cases hst
          exact ⟨prefix_rfl, prefix_rfl⟩
        cases hst
        unfold readChar
        dsimp only
        split
        · split <;> exact ⟨prefix_rfl, ret_log prefix_rfl⟩
        · split
          · split
            · exact ⟨prefix_rfl, ret_log (prefix_append ..)⟩
            · exact ⟨prefix_rfl, prefix_append ..⟩
          · exact ⟨prefix_rfl, ret_log prefix_rfl⟩
      · cases hst
        exact ⟨prefix_rfl, ret_log prefix_rfl⟩
    · split at hst
      · cases hst
        exact ⟨prefix_rfl, ret_log prefix_rfl⟩
      · cases hst
        exact ⟨prefix_rfl, prefix_rfl⟩
    · cases hst
      exact ⟨prefix_rfl, prefix_rfl⟩
  | kill i =>
    cases hst
    exact ⟨prefix_rfl, prefix_rfl⟩
  | _ =>
    obtain ⟨-, hst⟩ := Option.ite_none_right_eq_some.mp hst
    cases hst
    exact ⟨prefix_rfl, prefix_rfl⟩

/-- The three indices are in order. Readers have been given the committed bytes from the first
one on, each once, with a read of 0 bytes in the place of every end of file. The committed bytes
that are left and the line that is being typed are in the buffer, and no step takes back what
has been committed or delivered. -/
structure Discipline (s : Sys) : Prop where
  order : (s.cons.w - s.cons.r).toNat ≤ (s.cons.e - s.cons.r).toNat ∧
    (s.cons.e - s.cons.r).toNat ≤ INPUT_BUF_SIZE
  delivered : s.log <+: s.spec.committed.map Event.of
  unread : s.log.length + (s.cons.w - s.cons.r).toNat = s.spec.committed.length
  held : ∀ k b, s.spec.committed[s.log.length + k]? = some b →
    s.cons.at (s.cons.r + BitVec.ofNat 32 k) = b
  typed : ∀ k b, s.spec.line[k]? = some b → s.cons.at (s.cons.w + BitVec.ofNat 32 k) = b
  grows : ∀ a t, step s a = some t →
    s.spec.committed <+: t.spec.committed ∧ s.log <+: t.log

theorem at_offset {s : Cons} {i : Word} {l : List Byte}
    (h : Window (2 ^ 32) INPUT_BUF_SIZE s.buf i.toNat hi l) (hk : l[k]? = some b) :
    s.at (i + BitVec.ofNat 32 k) = b := by
  rw [Cons.at, BitVec.toNat_add, BitVec.toNat_ofNat, Nat.add_mod_mod,
    Nat.mod_mod_of_dvd _ h.wraps]
  exact h.cells k b hk

theorem Inv.discipline (h : Inv s) : Discipline s where
  order := by
    have hroom := h.buffer.ring.room
    rw [h.buffer.unread, h.buffer.count]
    rw [length_append] at hroom
    exact ⟨Nat.le_add_right .., hroom⟩
  delivered := by
    rw [h.log, map_take]
    exact take_prefix ..
  unread := by
    have hle := h.log_le
    rw [h.buffer.unread, length_drop]
    omega
  held := by
    intro k b hb
    rw [← List.getElem?_drop] at hb
    exact at_offset h.buffer.committed hb
  typed := by
    intro k b hb
    exact at_offset h.buffer.edited hb
  grows := fun _ _ hst => step_grows hst

/-- The console delivers lines as they were typed. -/
theorem line_discipline {procs : Table} (hp : Along step (fun _ => Proper) (start procs) as)
    (h : run step (start procs) as = some s) : Discipline s := by
  have hi : Inv s :=
    along_invariant (fun _ _ _ hs hp hst => hs.step hp hst) (inv_start procs) hp h
  exact hi.discipline

/-- The keys a, b, backspace, c, newline and C('D'), and two reads. -/
def session : List Act :=
  [.intr 97 none, .intr 98 none, .intr 8 none, .intr 99 none, .intr 12 none, .intr 13 none,
    .intr 4 none, .read 1 9, .go 1 true, .go 1 true, .go 1 true, .go 1 true,
    .read 2 9, .go 2 true, .go 2 true, .intr 100 none]

theorem line_discipline_session :
    ∃ s, run step (start fun _ => { state := .running }) session = some s ∧
      s.log = [.byte 97, .byte 99, .byte newline, .eof] ∧ s.spec.line = [100] ∧
      s.pc 1 = .user 3 ∧ s.pc 2 = .user 0 ∧ Discipline s := by
  obtain ⟨s, hs, h1, h2, h3, h4⟩ : ∃ s,
      run step (start fun _ => { state := .running }) session = some s ∧
      s.log = [.byte 97, .byte 99, .byte newline, .eof] ∧ s.spec.line = [100] ∧
      s.pc 1 = .user 3 ∧ s.pc 2 = .user 0 := by decide +kernel
  have hp : Along step (fun _ => Proper) (start fun _ => { state := .running }) session := by
    decide +kernel
  exact ⟨s, hs, h1, h2, h3, h4, line_discipline hp hs⟩

end Xv6.Console
