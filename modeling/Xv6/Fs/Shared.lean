import Xv6.Fs.Write

namespace Xv6.Fs.Shared
open Function List Lib

/-- A call on the open file: fileread() of n bytes to a buffer with room, filewrite() of n bytes
from a buffer with the bytes src, of which done bytes are written. -/
inductive Job where
  | read (room n : Nat)
  | write (src : List Byte) (n done : Nat)
deriving DecidableEq

/-- n1 of filewrite(). -/
def chunkSize (n done : Nat) : Nat := min (n - done) writeMax

/-- Where a process is in fileread() or filewrite(). In adding, v is what has been loaded from
f->off, and v + r is to be stored. -/
inductive Pc where
  | idle
  | entering (j : Job)
  | locked (j : Job)
  | calling (j : Job) (off : Nat)
  | returned (j : Job) (r : Option Nat)
  | adding (j : Job) (r v : Nat)
  | unlocking (j : Job) (r : Option Nat)
deriving DecidableEq

/-- The bytes that a call of readi() or writei() has moved from start on. -/
structure Chunk where
  start : Nat
  bytes : List Byte
deriving DecidableEq

/-- One struct file on inode i, the lock of the inode, the processes that share the file, and the
chunks they have moved. -/
structure Sys where
  disk : Disk
  readable : Bool
  writable : Bool
  off : Nat
  lock : Option Nat
  pc : Nat → Pc
  chunks : List Chunk

inductive Act where
  | fileread (p room n : Nat)
  | filewrite (p : Nat) (src : List Byte) (n : Nat)
  | go (p : Nat)

/-- The call of readi() or writei(), with the bytes it has moved. -/
def Job.transfer (sb : Superblock) (i : Nat) (ip : Dinode) (off : Nat) :
    Job → Dk (Option (List Byte))
  | .read room n => do
    let r ← readi sb ip (some room) off n
    return r.1
  | .write src n done => do
    let r ← writei sb i ip (src.drop done) off (chunkSize n done)
    return r.1.map (fun tot => (src.drop done).take tot)

/-- What follows iunlock(). -/
def Job.next : Job → Option Nat → Pc
  | .read _ _, _ => .idle
  | .write src n done, r =>
    if r = some (chunkSize n done) then
      if done + chunkSize n done < n then .entering (.write src n (done + chunkSize n done))
      else .idle
    else .idle

def record (chunks : List Chunk) (off : Nat) : Option (List Byte) → List Chunk
  | none | some [] => chunks
  | some (b :: bs) => chunks ++ [⟨off, b :: bs⟩]

/-- The process holds the lock of the inode. -/
def Pc.holds : Pc → Bool
  | .idle | .entering _ => false
  | _ => true

def Pc.job : Pc → Option Job
  | .idle => none
  | .entering j | .locked j | .calling j _ | .returned j _ | .adding j _ _
  | .unlocking j _ => some j

/-- What f->off is at each point of a process that holds the lock, when the last chunk ends at
stop. -/
def Pc.Due (off stop : Nat) : Pc → Prop
  | .idle | .entering _ => True
  | .locked _ | .unlocking _ _ => off = stop
  | .calling _ o => o = off ∧ off = stop
  | .returned _ r => off + r.getD 0 = stop ∧ (0 < r.getD 0 → stop < 4294967296)
  | .adding _ r v => v = off ∧ off + r = stop ∧ stop < 4294967296

def Sys.at (s : Sys) (p : Nat) (c : Pc) : Sys := { s with pc := update s.pc p c }

/-- The next step of process p. -/
def go (sb : Superblock) (i : Nat) (s : Sys) (p : Nat) : Option Sys :=
  match s.pc p with
  | .idle => none
  | .entering j =>
    if s.lock = none then some { s.at p (.locked j) with lock := some p } else none
  | .locked j => some (s.at p (.calling j s.off))
  | .calling j off =>
    match (j.transfer sb i (s.disk.inodes i) off).run s.disk with
    | .ok (r, d) => some { s.at p (.returned j (r.map List.length)) with
        disk := d, chunks := record s.chunks off r }
    | .error _ => none
  | .returned j none => some (s.at p (.unlocking j none))
  | .returned j (some r) =>
    if 0 < r then some (s.at p (.adding j r s.off)) else some (s.at p (.unlocking j (some r)))
  | .adding j r v =>
    some { s.at p (.unlocking j (some r)) with off := (v + r) % 4294967296 }
  | .unlocking j r => some { s.at p (j.next r) with lock := none }

def step (sb : Superblock) (i : Nat) (s : Sys) : Act → Option Sys
  | .fileread p room n =>
    if s.pc p = .idle then
      some (s.at p (if s.readable = true then .entering (.read room n) else .idle))
    else none
  | .filewrite p src n =>
    if s.pc p = .idle then
      some (s.at p (if s.writable = true ∧ 0 < n then .entering (.write src n 0) else .idle))
    else none
  | .go p => go sb i s p

def total (chunks : List Chunk) : Nat := (chunks.map (fun c => c.bytes.length)).sum

/-- Each chunk starts where the one before it ends, the first at off. -/
def Tiles : Nat → List Chunk → Prop
  | _, [] => True
  | off, c :: cs => c.start = off ∧ Tiles (off + c.bytes.length) cs

theorem total_append (cs ds : List Chunk) : total (cs ++ ds) = total cs + total ds := by
  simp [total]

theorem Tiles.snoc (h : Tiles off cs) (hc : c.start = off + total cs) : Tiles off (cs ++ [c]) := by
  induction cs generalizing off with
  | nil => exact ⟨by simpa [total] using hc, trivial⟩
  | cons d cs ih =>
    refine ⟨h.1, ih h.2 ?_⟩
    simp only [total, map_cons, sum_cons] at hc ⊢
    omega

/-- A chunk lies between the start of the first one and the end of the last. -/
theorem Tiles.bounds (h : Tiles off cs) (hc : c ∈ cs) :
    off ≤ c.start ∧ c.start + c.bytes.length ≤ off + total cs := by
  induction cs generalizing off with
  | nil => cases hc
  | cons d cs ih =>
    have hsum : total (d :: cs) = d.bytes.length + total cs := by simp [total]
    rcases mem_cons.mp hc with rfl | hc
    · have hstart := h.1
      omega
    · have hb := ih h.2 hc
      omega

theorem Tiles.disjoint (h : Tiles off cs) :
    cs.Pairwise (fun c d => c.start + c.bytes.length ≤ d.start) := by
  induction cs generalizing off with
  | nil => exact .nil
  | cons c cs ih =>
    refine .cons (fun d hd => ?_) (ih h.2)
    have hb := h.2.bounds hd
    have hstart := h.1
    omega

section
variable {sb : Superblock} {i : Nat} {s t : Sys} {d d' : Disk}

/-- A file keeps what lies below off. -/
theorem window_eq {l l' : List Byte} (h : l.take off = l'.take off) (hb : a + k ≤ off) :
    (l.drop a).take k = (l'.drop a).take k := by
  have hl : l.take (a + k) = l'.take (a + k) := by
    have hmin : min (a + k) off = a + k := Nat.min_eq_left hb
    rw [← hmin, ← take_take, ← take_take, h]
  rw [take_drop, take_drop, hl]

/-- What a call of readi() or writei() at off leaves: nothing below off has changed, and the bytes
it has moved are those of the file from off on. -/
structure Moved (sb : Superblock) (i : Nat) (d : Disk) (off : Nat) (r : Option (List Byte))
    (d' : Disk) : Prop where
  ok : FsOk sb d'
  type : (d'.inodes i).type = (d.inodes i).type
  below : (d'.bytes i).take off = (d.bytes i).take off
  bytes : ∀ bs, r = some bs → bs ≠ [] → ((d'.bytes i).drop off).take bs.length = bs

theorem readi_moved (h : FsOk sb d) (ht : (d.inodes i).type ≠ 0) (room n : Nat) :
    Ends (readi sb (d.inodes i) (some room) off n) d (fun r d' => Moved sb i d off r.1 d') := by
  refine (readi_result (h.dense ht) (some room) off n).mono (fun r d' hr => ?_)
  obtain ⟨rfl, -, hr⟩ := hr
  refine ⟨h, rfl, rfl, fun bs hbs hne => ?_⟩
  rw [hr] at hbs
  split at hbs
  · cases hbs
    exact absurd rfl hne
  · split at hbs
    · cases hbs
      rw [content_eq_bytes, length_take, ← take_eq_take_min]
    · cases hbs

theorem written_moved (hw : Written sb i src n d (d.inodes i) off 0 (tot, off', ip') u c)
    (h : FsOk sb d) (ht : (d.inodes i).type ≠ 0) (hoff : off ≤ (d.inodes i).size)
    (hd : d' = u.put i { ip' with size := max ip'.size off' }) :
    (d'.bytes i).take off = (d.bytes i).take off ∧
      ((d'.bytes i).drop off).take tot = src.take tot := by
  obtain ⟨-, -, hbytes, -⟩ := hw.result h ht
  have hcopied := hw.copied
  dsimp only at hcopied
  rw [hd, hbytes, bytes_eq_map (h.filled i ht)]
  constructor
  · rw [← map_take, ← map_take, take_range, take_range,
      Nat.min_eq_left (by omega), Nat.min_eq_left hoff]
    apply map_congr_left
    intro pos hpos
    exact paste_out _ _ (.inl (mem_range.mp hpos))
  · apply ext_getElem
    · simp
      omega
    · intro k h1 h2
      have hk : k < tot ∧ k < src.length := by
        rw [length_take] at h2
        omega
      simp only [getElem_take, getElem_drop, getElem_map, getElem_range, paste]
      rw [if_pos (Nat.le_add_right off k), Nat.add_sub_cancel_left,
        List.getElem?_take_of_lt (by omega), List.getElem?_eq_getElem hk.2, Option.getD_some]

theorem writei_moved (h : FsOk sb d) (ht : (d.inodes i).type ≠ 0)
    (hdir : (d.inodes i).type ≠ T_DIR) (src : List Byte) (off n : Nat) :
    Ends (writei sb i (d.inodes i) src off n) d (fun r d' =>
      Moved sb i d off (r.1.map (fun tot => src.take tot)) d') := by
  by_cases hgo : off ≤ (d.inodes i).size ∧ off + n ≤ MAXFILE * BSIZE
  · refine ((writei_spec h ht hdir src off n).and (writei_written h ht hgo.1 hgo.2)).mono
      (fun r d' hr => ?_)
    obtain ⟨⟨hedits, hin, hsame⟩, tot, off', ip', u, c, hw, hr1, hr2, hd⟩ := hr
    rw [hr2] at hd
    obtain ⟨hbelow, hbytes⟩ := written_moved hw h ht hgo.1 hd
    refine ⟨hedits.ok, by rw [hin, hsame], hbelow, fun bs hbs hne => ?_⟩
    rw [hr1] at hbs
    cases hbs
    have hcopied := hw.copied
    dsimp only at hcopied
    have hlen : (src.take tot).length = tot := by
      rw [length_take]
      omega
    rw [hlen, hbytes]
  · refine (writei_refused src hgo).mono (fun r d' hr => ?_)
    obtain ⟨rfl, rfl⟩ := hr
    exact ⟨h, rfl, rfl, fun bs hbs => by cases hbs⟩

theorem transfer_moved (h : FsOk sb d) (ht : (d.inodes i).type ≠ 0) (j : Job)
    (hdir : ∀ src n done, j = .write src n done → (d.inodes i).type ≠ T_DIR) :
    Ends (j.transfer sb i (d.inodes i) off) d (fun r d' => Moved sb i d off r d') := by
  cases j with
  | read room n =>
    rw [Job.transfer]
    refine (readi_moved h ht room n).bind (fun r d' hr => ?_)
    rw [ends_pure]
    exact hr
  | write src n done =>
    rw [Job.transfer]
    refine (writei_moved h ht (hdir src n done rfl) _ _ _).bind (fun r d' hr => ?_)
    rw [ends_pure]
    exact hr

/-- The chunks that have been moved since f->off was start tile the file from there on, and the
file has their bytes. -/
structure Stored (sb : Superblock) (i start : Nat) (s : Sys) : Prop where
  ok : FsOk sb s.disk
  alloc : (s.disk.inodes i).type ≠ 0
  dir : s.writable = true → (s.disk.inodes i).type ≠ T_DIR
  tiles : Tiles start s.chunks
  bytes : ∀ c ∈ s.chunks, ((s.disk.bytes i).drop c.start).take c.bytes.length = c.bytes
  inside : s.chunks = [] ∨ start + total s.chunks ≤ (s.disk.inodes i).size

/-- f->off is the end of the last chunk, as far as the holder of the lock has stored it. -/
structure Turns (start : Nat) (s : Sys) : Prop where
  held : ∀ p, (s.pc p).holds = true ↔ s.lock = some p
  jobs : ∀ p src n done, (s.pc p).job = some (.write src n done) → s.writable = true
  due : ∀ p, (s.pc p).Due s.off (start + total s.chunks)
  free : s.lock = none → s.off = start + total s.chunks

theorem due_of_not_holds {c : Pc} (h : c.holds = false) : c.Due off stop := by
  cases c <;> trivial

theorem Turns.only (h : Turns start s) (hp : (s.pc p).holds = true) (hq : q ≠ p) :
    (s.pc q).holds = false := by
  by_contra hne
  have hlock := (h.held p).mp hp
  rw [(h.held q).mp (by simpa using hne)] at hlock
  exact hq (Option.some.inj hlock)

theorem Turns.step_with (h : Turns start s) (hpc : t.pc = update s.pc p c)
    (hw : t.writable = s.writable) (hself : c.holds = true ↔ t.lock = some p)
    (hheld : ∀ q ≠ p, (s.pc q).holds = true ↔ t.lock = some q)
    (hjob : ∀ src n done, c.job = some (.write src n done) → s.writable = true)
    (hdue : c.Due t.off (start + total t.chunks))
    (hothers : ∀ q ≠ p, (s.pc q).Due t.off (start + total t.chunks))
    (hfree : t.lock = none → t.off = start + total t.chunks) : Turns start t := by
  refine ⟨fun q => ?_, fun q => ?_, fun q => ?_, hfree⟩
  · rw [hpc]
    rcases eq_or_ne q p with rfl | hq
    · rw [update_self]
      exact hself
    · rw [update_of_ne hq]
      exact hheld q hq
  · rw [hpc, hw]
    rcases eq_or_ne q p with rfl | hq
    · rw [update_self]
      exact hjob
    · rw [update_of_ne hq]
      exact h.jobs q
  · rw [hpc]
    rcases eq_or_ne q p with rfl | hq
    · rw [update_self]
      exact hdue
    · rw [update_of_ne hq]
      exact hothers q hq

theorem Turns.move (h : Turns start s) (hp : (s.pc p).holds = true) (hc : c.holds = true)
    (hjob : c.job = (s.pc p).job) (hpc : t.pc = update s.pc p c) (hlock : t.lock = s.lock)
    (hw : t.writable = s.writable) (hdue : c.Due t.off (start + total t.chunks)) :
    Turns start t := by
  have hself := (h.held p).mp hp
  refine h.step_with hpc hw ?_ ?_ ?_ hdue ?_ ?_
  · rw [hlock, hc, hself]
    simp
  · intro q _
    rw [hlock]
    exact h.held q
  · rw [hjob]
    exact h.jobs p
  · exact fun q hq => due_of_not_holds (h.only hp hq)
  · intro hn
    rw [hlock, hself] at hn
    cases hn

theorem Turns.aside (h : Turns start s) (hp : (s.pc p).holds = false) (hc : c.holds = false)
    (hjob : ∀ src n done, c.job = some (.write src n done) → s.writable = true) :
    Turns start (s.at p c) := by
  refine h.step_with rfl rfl ?_ (fun q _ => h.held q) hjob (due_of_not_holds hc)
    (fun q _ => h.due q) h.free
  have hnot := (h.held p).not.mp (by rw [hp]; decide)
  exact ⟨fun hf => absurd (hc.symm.trans hf) (by decide), fun hl => absurd hl hnot⟩

theorem Turns.acquire (h : Turns start s) (hp : s.pc p = .entering j) (hn : s.lock = none) :
    Turns start { s.at p (.locked j) with lock := some p } := by
  have hout : ∀ q, (s.pc q).holds = false := by
    intro q
    have hnot := (h.held q).not.mpr (by rw [hn]; simp)
    simpa using hnot
  refine h.step_with rfl rfl (by simp [Pc.holds]) ?_ ?_ (h.free hn) ?_ (fun hl => by cases hl)
  · intro q hq
    simp [hout q, hq.symm]
  · have hj := h.jobs p
    rw [hp] at hj
    exact hj
  · exact fun q _ => due_of_not_holds (hout q)

theorem next_not_holds (j : Job) (r : Option Nat) : (j.next r).holds = false := by
  cases j with
  | read room n => rfl
  | write src n done =>
    simp only [Job.next]
    split
    · split <;> rfl
    · rfl

theorem next_job {j : Job} (h : (j.next r).job = some (.write src n done)) :
    ∃ src' n' done', j = .write src' n' done' := by
  cases j with
  | read room n => cases h
  | write src' n' done' => exact ⟨src', n', done', rfl⟩

theorem Turns.release (h : Turns start s) (hp : s.pc p = .unlocking j r) :
    Turns start { s.at p (j.next r) with lock := none } := by
  have hholds : (s.pc p).holds = true := by rw [hp]; rfl
  refine h.step_with rfl rfl (by simp [next_not_holds]) ?_ ?_
    (due_of_not_holds (next_not_holds j r)) ?_ ?_
  · intro q hq
    simp [h.only hholds hq]
  · intro src n done hj
    obtain ⟨src', n', done', rfl⟩ := next_job hj
    exact h.jobs p src' n' done' (by rw [hp]; rfl)
  · exact fun q hq => due_of_not_holds (h.only hholds hq)
  · intro _
    have hd := h.due p
    rw [hp] at hd
    exact hd

theorem length_bytes (d : Disk) (i : Nat) : (d.bytes i).length = (d.inodes i).size := by
  simp [Disk.bytes, content]

/-- The bytes of the chunks before a transfer stay, since it starts where they end. -/
theorem Stored.keep (h : Stored sb i start s) (hm : Moved sb i s.disk (start + total s.chunks) r d)
    (hc : c ∈ s.chunks) : ((d.bytes i).drop c.start).take c.bytes.length = c.bytes := by
  rw [window_eq hm.below (h.tiles.bounds hc).2]
  exact h.bytes c hc

theorem Stored.inside_keep (h : Stored sb i start s)
    (hm : Moved sb i s.disk (start + total s.chunks) r d) :
    s.chunks = [] ∨ start + total s.chunks ≤ (d.inodes i).size := by
  refine h.inside.imp_right (fun hle => ?_)
  have hlen := congrArg List.length hm.below
  rw [length_take, length_take, length_bytes, length_bytes] at hlen
  omega

theorem Stored.transfer (h : Stored sb i start s)
    (hm : Moved sb i s.disk (start + total s.chunks) r d) (hdisk : t.disk = d)
    (hchunks : t.chunks = record s.chunks (start + total s.chunks) r)
    (hw : t.writable = s.writable) :
    Stored sb i start t ∧ total t.chunks = total s.chunks + (r.map List.length).getD 0 := by
  have halloc : (t.disk.inodes i).type ≠ 0 := by
    rw [hdisk, hm.type]
    exact h.alloc
  have hdir : t.writable = true → (t.disk.inodes i).type ≠ T_DIR := by
    rw [hdisk, hm.type, hw]
    exact h.dir
  have hsame : t.chunks = s.chunks → Stored sb i start t := by
    intro he
    refine ⟨hdisk ▸ hm.ok, halloc, hdir, he ▸ h.tiles, ?_, ?_⟩
    · rw [he, hdisk]
      exact fun c hc => h.keep hm hc
    · rw [he, hdisk]
      exact h.inside_keep hm
  rcases r with _ | (_ | ⟨b, bs⟩)
  · exact ⟨hsame hchunks, by rw [hchunks]; rfl⟩
  · exact ⟨hsame hchunks, by rw [hchunks]; rfl⟩
  have hnew := hm.bytes (b :: bs) rfl (by simp)
  have htotal : total t.chunks = total s.chunks + (b :: bs).length := by
    rw [hchunks, record, total_append]
    simp [total]
  refine ⟨⟨hdisk ▸ hm.ok, halloc, hdir, ?_, ?_, .inr ?_⟩, htotal⟩
  · rw [hchunks]
    exact h.tiles.snoc rfl
  · rw [hchunks, hdisk]
    intro c hc
    rcases mem_append.mp hc with hc | hc
    · exact h.keep hm hc
    · obtain rfl := mem_singleton.mp hc
      exact hnew
  · have hlen := congrArg List.length hnew
    rw [length_take, length_drop, length_bytes] at hlen
    rw [htotal, hdisk]
    simp only [length_cons] at hlen ⊢
    omega

theorem Stored.same (h : Stored sb i start s) (hdisk : t.disk = s.disk)
    (hchunks : t.chunks = s.chunks) (hw : t.writable = s.writable) : Stored sb i start t := by
  constructor
  · exact hdisk ▸ h.ok
  · exact hdisk ▸ h.alloc
  · rw [hdisk, hw]
    exact h.dir
  · exact hchunks ▸ h.tiles
  · rw [hdisk, hchunks]
    exact h.bytes
  · rw [hdisk, hchunks]
    exact h.inside

structure Inv (sb : Superblock) (i start : Nat) (s : Sys) : Prop where
  stored : Stored sb i start s
  turns : Turns start s

/-- A process that holds the lock reads or stores f->off. -/
theorem Inv.move (h : Inv sb i start s) (hp : (s.pc p).holds = true) (hc : c.holds = true)
    (hjob : c.job = (s.pc p).job) (hdue : c.Due off (start + total s.chunks)) :
    Inv sb i start { s.at p c with off := off } :=
  ⟨h.stored.same rfl rfl rfl, h.turns.move hp hc hjob rfl rfl rfl hdue⟩

theorem inv_go (h : Inv sb i start s) (hs : go sb i s p = some t) : Inv sb i start t := by
  have hdue := h.turns.due p
  unfold go at hs
  cases hp : s.pc p with
  | idle =>
    rw [hp] at hs
    cases hs
  | entering j =>
    simp only [hp] at hs
    split at hs
    · rename_i hn
      cases hs
      exact ⟨h.stored.same rfl rfl rfl, h.turns.acquire hp hn⟩
    · cases hs
  | locked j =>
    simp only [hp, Option.some.injEq] at hs hdue
    subst hs
    exact h.move (by rw [hp]; rfl) rfl (by rw [hp]; rfl) ⟨rfl, hdue⟩
  | calling j off =>
    simp only [hp] at hs hdue
    obtain ⟨rfl, hoff⟩ := hdue
    obtain ⟨r, d, hr, hm⟩ : Ends (j.transfer sb i (s.disk.inodes i) s.off) s.disk (fun r d' =>
        Moved sb i s.disk s.off r d') := transfer_moved h.stored.ok h.stored.alloc j (by
      rintro src n done rfl
      exact h.stored.dir (h.turns.jobs p src n done (by rw [hp]; rfl)))
    rw [hr] at hs
    cases hs
    rw [hoff] at hm
    obtain ⟨hst, htotal⟩ := h.stored.transfer
      (t := { s.at p (.returned j (r.map List.length)) with
        disk := d, chunks := record s.chunks s.off r }) hm rfl (by rw [hoff]) rfl
    refine ⟨hst, h.turns.move (c := .returned j (r.map List.length)) (by rw [hp]; rfl) rfl
      (by rw [hp]; rfl) rfl rfl rfl ⟨?_, fun hpos => ?_⟩⟩
    · rw [htotal, ← Nat.add_assoc, ← hoff]
      rfl
    · -- the file is too short for the sum to wrap
      have hsize := hst.ok.size_le i hst.alloc
      have hbound : MAXFILE * BSIZE = 274432 := rfl
      rcases hst.inside with hnil | hle
      · rw [hnil] at htotal
        simp only [total, map_nil, sum_nil] at htotal
        omega
      · exact Nat.lt_of_le_of_lt hle (by omega)
  | returned j r =>
    simp only [hp] at hs hdue
    obtain ⟨hstop, hwrap⟩ := hdue
    cases r with
    | none =>
      cases hs
      exact h.move (by rw [hp]; rfl) rfl (by rw [hp]; rfl) hstop
    | some r =>
      dsimp only at hs
      split at hs
      · rename_i hpos
        cases hs
        exact h.move (by rw [hp]; rfl) rfl (by rw [hp]; rfl) ⟨rfl, hstop, hwrap hpos⟩
      · rename_i hzero
        cases hs
        refine h.move (by rw [hp]; rfl) rfl (by rw [hp]; rfl) ?_
        simp only [Option.getD_some] at hstop
        simp only [Pc.Due]
        omega
  | adding j r v =>
    simp only [hp, Option.some.injEq] at hs hdue
    subst hs
    obtain ⟨rfl, hstop, hwrap⟩ := hdue
    refine h.move (by rw [hp]; rfl) rfl (by rw [hp]; rfl) ?_
    rw [hstop, Nat.mod_eq_of_lt hwrap]
    rfl
  | unlocking j r =>
    simp only [hp, Option.some.injEq] at hs
    subst hs
    exact ⟨h.stored.same rfl rfl rfl, h.turns.release hp⟩

theorem inv_step (h : Inv sb i start s) (hs : step sb i s a = some t) : Inv sb i start t := by
  cases a with
  | fileread p room n =>
    obtain ⟨hp, hs⟩ := Option.ite_none_right_eq_some.mp hs
    cases hs
    refine ⟨h.stored.same rfl rfl rfl, h.turns.aside (by rw [hp]; rfl) ?_ ?_⟩
    · split <;> rfl
    · intro src n done hj
      split at hj <;> cases hj
  | filewrite p src n =>
    obtain ⟨hp, hs⟩ := Option.ite_none_right_eq_some.mp hs
    cases hs
    refine ⟨h.stored.same rfl rfl rfl, h.turns.aside (by rw [hp]; rfl) ?_ ?_⟩
    · split <;> rfl
    · intro src' n' done hj
      split at hj
      · rename_i hw
        exact hw.1
      · cases hj
  | go p => exact inv_go h hs

/-- A file that nobody is reading or writing. -/
structure Quiet (sb : Superblock) (i : Nat) (s : Sys) : Prop where
  ok : FsOk sb s.disk
  alloc : (s.disk.inodes i).type ≠ 0
  dir : s.writable = true → (s.disk.inodes i).type ≠ T_DIR
  idle : ∀ p, s.pc p = .idle
  lock : s.lock = none
  chunks : s.chunks = []

theorem Quiet.inv (h : Quiet sb i s) : Inv sb i s.off s := by
  have hidle : ∀ p, (s.pc p).holds = false := fun p => by rw [h.idle p]; rfl
  refine ⟨⟨h.ok, h.alloc, h.dir, ?_, ?_, .inl h.chunks⟩, ⟨?_, ?_, ?_, ?_⟩⟩
  · rw [h.chunks]
    trivial
  · rw [h.chunks]
    intro c hc
    cases hc
  · intro p
    simp [hidle p, h.lock]
  · intro p src n done hj
    rw [h.idle p] at hj
    cases hj
  · exact fun p => due_of_not_holds (hidle p)
  · intro _
    rw [h.chunks]
    rfl

/-- Processes that share an open file: whatever the order of their steps, each chunk starts where
the one before it has ended, no two chunks overlap, the file has the bytes of every chunk, and once
the lock is free f->off is the end of the last one. -/
theorem shared_offset (h : Quiet sb i s) (hr : run (step sb i) s as = some t) :
    Tiles s.off t.chunks ∧
    t.chunks.Pairwise (fun c d => c.start + c.bytes.length ≤ d.start) ∧
    (∀ c ∈ t.chunks, ((t.disk.bytes i).drop c.start).take c.bytes.length = c.bytes) ∧
    (t.lock = none → t.off = s.off + total t.chunks) := by
  have hinv : Inv sb i s.off t :=
    run_invariant (fun _ _ _ hi hs => inv_step hi hs) h.inv hr
  exact ⟨hinv.stored.tiles, hinv.stored.tiles.disjoint, hinv.stored.bytes, hinv.turns.free⟩

end

/-- An open file on a disk, with the offset 0. -/
def sharing (d : Disk) : Sys := ⟨d, true, true, 0, none, fun _ => .idle, []⟩

/-- Two processes write two bytes each; the second one calls while the first has the lock. -/
def twoWriters : List Act :=
  [.filewrite 1 [97, 98] 2, .go 1, .filewrite 2 [99, 100] 2, .go 1, .go 1, .go 1, .go 1, .go 1,
    .go 2, .go 2, .go 2, .go 2, .go 2, .go 2]

theorem shared_offset_two : ∃ d t, run (step mkfsSb 2) (sharing d) twoWriters = some t ∧
    t.chunks = [⟨0, [97, 98]⟩, ⟨2, [99, 100]⟩] ∧ Tiles 0 t.chunks ∧ t.off = 4 := by
  have hd : (run (Fs.step mkfsSb) (boot fresh) [.open 0 [47, 97, 0] 0x202]).any (fun s =>
      decide ((s.core.disk.inodes 2).type = T_FILE) &&
      (run (step mkfsSb 2) (sharing s.core.disk) twoWriters).any (fun t =>
        decide (t.lock = none ∧ t.chunks = [⟨0, [97, 98]⟩, ⟨2, [99, 100]⟩]))) = true := by
    decide +kernel
  obtain ⟨s, hs, hp⟩ := (Option.any_eq_true _ _).mp hd
  rw [Bool.and_eq_true] at hp
  obtain ⟨t, ht, hres⟩ := (Option.any_eq_true _ _).mp hp.2
  have htype : (s.core.disk.inodes 2).type = T_FILE := of_decide_eq_true hp.1
  obtain ⟨hfree, hchunks⟩ := of_decide_eq_true hres
  obtain ⟨e, hmid⟩ := (sysOk_run fresh_consistent hs).mid
  have hquiet : Quiet mkfsSb 2 (sharing s.core.disk) := by
    refine ⟨hmid.core.fs, ?_, fun _ => ?_, fun _ => rfl, rfl, rfl⟩
    · rw [sharing, htype]
      decide
    · rw [sharing, htype]
      decide
  obtain ⟨htiles, -, -, hoff⟩ := shared_offset hquiet ht
  refine ⟨s.core.disk, t, ht, hchunks, htiles, ?_⟩
  rw [hoff hfree, hchunks]
  rfl

end Xv6.Fs.Shared
