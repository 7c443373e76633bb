import Xv6.Log.Redo

namespace Xv6.Log
open Function List Lib

/-- One memory follows another by issuing exactly these block writes, and its buffers
show them. -/
structure Issues (m m' : Mem) (ws : List (Nat × Block)) : Prop where
  cached : m'.cached = applyWrites ws m.cached
  issued : m'.issued = m.issued ++ ws
  lh : m'.lh = m.lh

theorem Issues.refl (m : Mem) : Issues m m [] := ⟨rfl, by simp, rfl⟩

theorem Issues.trans {m m' m'' : Mem} (h : Issues m m' ws) (h' : Issues m' m'' vs) :
    Issues m m'' (ws ++ vs) := by
  refine ⟨?_, ?_, h'.lh.trans h.lh⟩
  · rw [h'.cached, h.cached, applyWrites_append]
  · rw [h'.issued, h.issued, append_assoc]

theorem Issues.bwrite (m : Mem) (b : Nat) (v : Block) : Issues m (m.bwrite b v) [(b, v)] :=
  ⟨rfl, rfl, rfl⟩

/-- The log slots filled by the loop of write_log. -/
def slotWrites (g : Geometry) (vs : List Block) : List (Nat × Block) :=
  vs.zipIdx.map (fun (v, tail) => (g.start + tail + 1, v))

theorem slotWrites_addr (hw : w ∈ slotWrites g vs) :
    g.start < w.1 ∧ w.1 ≤ g.start + vs.length := by
  obtain ⟨⟨v, i⟩, hv, rfl⟩ := mem_map.mp hw
  have hi := snd_lt_of_mem_zipIdx hv
  dsimp only at hi ⊢
  omega

theorem writeLog_loop (g : Geometry) (l : List Word) (k : Nat) (m : Mem)
    (hl : ∀ b ∈ l, ¬ g.Area b.toNat) (hk : k + l.length < g.size) :
    Issues m
      ((l.zipIdx k).foldl (fun m (b, tail) => m.bwrite (g.start + tail + 1) (m.bread b.toNat)) m)
      (((l.map (fun b => m.cached b.toNat)).zipIdx k).map
        (fun (v, tail) => (g.start + tail + 1, v))) := by
  induction l generalizing k m with
  | nil => exact Issues.refl m
  | cons b l ih =>
    simp only [length_cons] at hk
    have hstep := Issues.bwrite m (g.start + k + 1) (m.bread b.toNat)
    have hrest := ih (k + 1) (m.bwrite (g.start + k + 1) (m.bread b.toNat))
      (fun c hc => hl c (mem_cons_of_mem _ hc)) (by omega)
    have hsame : l.map (fun c => (m.bwrite (g.start + k + 1) (m.bread b.toNat)).cached c.toNat) =
        l.map (fun c => m.cached c.toNat) := by
      apply map_congr_left
      intro c hc
      have hne : c.toNat ≠ g.start + k + 1 := by
        intro he
        exact hl c (mem_cons_of_mem _ hc) ⟨by omega, by omega⟩
      simp [Mem.bwrite, update_of_ne hne]
    rw [hsame] at hrest
    exact hstep.trans hrest

theorem installTrans_loop (g : Geometry) (l : List Word) (k : Nat) (m : Mem)
    (hl : ∀ b ∈ l, ¬ g.Area b.toNat) (hk : k + l.length < g.size) :
    Issues m
      ((l.zipIdx k).foldl (fun m (b, tail) => m.bwrite b.toNat (m.bread (g.start + tail + 1))) m)
      ((l.zipIdx k).map (fun (b, tail) => (b.toNat, m.cached (g.start + tail + 1)))) := by
  induction l generalizing k m with
  | nil => exact Issues.refl m
  | cons b l ih =>
    simp only [length_cons] at hk
    have hstep := Issues.bwrite m b.toNat (m.bread (g.start + k + 1))
    have hrest := ih (k + 1) (m.bwrite b.toNat (m.bread (g.start + k + 1)))
      (fun c hc => hl c (mem_cons_of_mem _ hc)) (by omega)
    have hsame : (l.zipIdx (k + 1)).map (fun (c, tail) =>
          (c.toNat, (m.bwrite b.toNat (m.bread (g.start + k + 1))).cached (g.start + tail + 1))) =
        (l.zipIdx (k + 1)).map (fun (c, tail) => (c.toNat, m.cached (g.start + tail + 1))) := by
      apply map_congr_left
      rintro ⟨c, i⟩ hc
      have hi := snd_lt_add_of_mem_zipIdx hc
      have hne : g.start + i + 1 ≠ b.toNat := by
        intro he
        dsimp only at hi
        exact hl b mem_cons_self ⟨by omega, by omega⟩
      simp [Mem.bwrite, update_of_ne hne]
    rw [hsame] at hrest
    exact hstep.trans hrest

theorem headerN_fill (lh : List Word) (hb : Block) (hn : lh.length ≤ LOGSIZE) :
    headerN (fillHeader lh hb) = lh.length := by
  have hl : lh.length ≤ 30 := hn
  have hlt : lh.length < 2 ^ 31 := by omega
  have hi : (BitVec.ofNat 32 lh.length).toInt = lh.length := by
    rw [BitVec.toInt_ofNat', Int.bmod_eq_of_le] <;> omega
  simp [headerN, fillHeader, hi]

/-- read_head finds what write_head stored, whatever else the header block held. -/
theorem headerList_fill (lh : List Word) (hb : Block) (hn : lh.length ≤ LOGSIZE) :
    headerList (fillHeader lh hb) = lh := by
  have hl : lh.length ≤ 30 := hn
  apply ext_getElem
  · simp [headerList, headerN_fill lh hb hn]
  · intro i hi hi'
    have hw : i + 1 < BSIZE / 4 := by
      have hb : BSIZE / 4 = 256 := rfl
      omega
    simp [headerList, headerBlock, hw, fillHeader, hi']

theorem headerList_zero {hb : Block} (h : hb 0 = 0) : headerList hb = [] := by
  simp [headerList, headerN, h]

theorem absorb_new {l : List Word} {b : Word} (hb : b ∉ l) : absorb l b = l ++ [b] := by
  induction l with
  | nil => rfl
  | cons c cs ih =>
    simp only [mem_cons, not_or] at hb
    simp [absorb, Ne.symm hb.1, ih hb.2]

theorem updateAll_spec (ws : List (Word × Block)) (m : Mem)
    (hn : (ws.map Prod.fst).Nodup) (hd : ∀ w ∈ ws, w.1 ∉ m.lh) :
    m.updateAll ws =
      ⟨applyWrites (ws.map (fun w => (w.1.toNat, w.2))) m.cached,
        m.lh ++ ws.map Prod.fst, m.issued⟩ := by
  induction ws generalizing m with
  | nil => simp [Mem.updateAll]
  | cons w ws ih =>
    simp only [map_cons, nodup_cons] at hn
    have hw : absorb m.lh w.1 = m.lh ++ [w.1] := absorb_new (hd w mem_cons_self)
    have hrest : ∀ v ∈ ws, v.1 ∉ (m.update w.1 w.2).lh := by
      intro v hv
      simp only [Mem.update, hw, mem_append, mem_singleton, not_or]
      refine ⟨hd v (mem_cons_of_mem _ hv), ?_⟩
      intro he
      exact hn.1 (he ▸ mem_map.mpr ⟨v, hv, rfl⟩)
    have h := ih (m.update w.1 w.2) hn.2 hrest
    simp only [Mem.updateAll, foldl_cons] at h ⊢
    rw [h]
    simp [Mem.update, hw]

def Group.blocks (G : Group g) : List Word := G.writes.map Prod.fst

def Group.values (G : Group g) : List Block := G.writes.map Prod.snd

theorem start_in_area (g : Geometry) : g.Area g.start := ⟨Nat.le_refl _, by have := g.header; omega⟩

theorem Group.lt_size (G : Group g) : G.writes.length < g.size := by
  have := G.room
  have := g.header
  omega

theorem Group.blocks_lt (G : Group g) : 0 + G.blocks.length < g.size := by
  simpa [Group.blocks] using G.lt_size

theorem Group.blocks_out (G : Group g) : ∀ b ∈ G.blocks, ¬ g.Area b.toNat := by
  intro b hb
  obtain ⟨w, hw, rfl⟩ := mem_map.mp hb
  exact G.home w hw

theorem Group.home_addr (G : Group g) (hb : b ∈ G.homeWrites.map Prod.fst) : ¬ g.Area b := by
  simp only [Group.homeWrites, map_map, mem_map, comp_apply] at hb
  obtain ⟨w, hw, rfl⟩ := hb
  exact G.home w hw

theorem Group.home_nodup (G : Group g) : (G.homeWrites.map Prod.fst).Nodup := by
  have he : G.homeWrites.map Prod.fst = G.blocks.map BitVec.toNat := by
    simp [Group.homeWrites, Group.blocks, comp_def]
  rw [he]
  exact G.nodup.map (fun _ _ h => BitVec.eq_of_toNat_eq h)

/-- The first slots of the log hold the contents this group is to install. -/
def SlotsHold (g : Geometry) (c : Disk) (G : Group g) : Prop :=
  ∀ i (hi : i < G.writes.length), c (g.start + i + 1) = (G.writes.get ⟨i, hi⟩).2

theorem slotWrites_nodup (g : Geometry) (vs : List Block) :
    ((slotWrites g vs).map Prod.fst).Nodup := by
  have he : (slotWrites g vs).map Prod.fst =
      (vs.zipIdx.map Prod.snd).map (fun i => g.start + i + 1) := by
    simp only [slotWrites, map_map]
    rfl
  rw [he, zipIdx_map_snd]
  exact (nodup_range').map (fun a b h => by simpa using h)

theorem slots_after_writes (G : Group g) (c : Disk) :
    SlotsHold g (applyWrites (slotWrites g G.values) c) G := by
  intro i hi
  have hm : (g.start + i + 1, (G.writes.get ⟨i, hi⟩).2) ∈ slotWrites g G.values := by
    refine mem_map.mpr ⟨((G.writes.get ⟨i, hi⟩).2, i), ?_, rfl⟩
    rw [mk_mem_zipIdx_iff_getElem?]
    simp [Group.values, hi]
  exact applyWrites_mem _ c (slotWrites_nodup g _) hm

/-- Writes that stay off the slots leave them holding the group. -/
theorem SlotsHold.writes {G : Group g} (h : SlotsHold g c G) (ws : List (Nat × Block))
    (hw : ∀ b ∈ ws.map Prod.fst, b = g.start ∨ ¬ g.Area b) : SlotsHold g (applyWrites ws c) G := by
  intro i hi
  rw [applyWrites_other, h i hi]
  intro hm
  have := G.lt_size
  rcases hw _ hm with he | hn
  · omega
  · exact hn ⟨by omega, by omega⟩

/-- Reading the slots back pairs every block of the group with its new contents. -/
theorem SlotsHold.installs {G : Group g} (h : SlotsHold g c G) :
    G.blocks.zipIdx.map (fun (b, tail) => (b.toNat, c (g.start + tail + 1))) = G.homeWrites := by
  apply ext_getElem
  · simp [Group.blocks, Group.homeWrites]
  · intro i hi hi'
    have hlt : i < G.writes.length := by simpa [Group.homeWrites] using hi'
    have hs := h i hlt
    simp only [get_eq_getElem] at hs
    simp [Group.blocks, Group.homeWrites, hs]

theorem updated_values (G : Group g) (d : Disk) :
    G.blocks.map (fun b => applyWrites G.homeWrites d b.toNat) = G.values := by
  simp only [Group.blocks, Group.values, map_map]
  apply map_congr_left
  intro w hw
  exact applyWrites_mem G.homeWrites d G.home_nodup (w := (w.1.toNat, w.2))
    (mem_map.mpr ⟨w, hw, rfl⟩)

/-- Between commits the buffers agree with the disk and the in-memory header is empty. -/
structure Rest (n : Node) : Prop where
  cached : n.mem.cached = n.disk
  lh : n.mem.lh = []
  issued : n.mem.issued = []

theorem Rest.loaded {n : Node} (h : Rest n) (G : Group g) :
    n.mem.updateAll G.writes = ⟨applyWrites G.homeWrites n.disk, G.blocks, []⟩ := by
  rw [updateAll_spec _ _ G.nodup (by simp [h.lh]), h.cached, h.lh, h.issued]
  rfl

/-- The four phases of commit, as the list of block writes it issues. -/
def phases (g : Geometry) (d : Disk) (G : Group g) : List (Nat × Block) :=
  slotWrites g G.values ++ (g.start, fillHeader G.blocks (d g.start)) ::
    (G.homeWrites ++ [(g.start, fillHeader [] (fillHeader G.blocks (d g.start)))])

theorem start_not_slot (g : Geometry) (vs : List Block) :
    g.start ∉ (slotWrites g vs).map Prod.fst := by
  intro hm
  obtain ⟨w, hw, he⟩ := mem_map.mp hm
  have := (slotWrites_addr hw).1
  omega

theorem start_not_home (G : Group g) : g.start ∉ G.homeWrites.map Prod.fst :=
  fun hm => G.home_addr hm (start_in_area g)

theorem writeHead_issues (g : Geometry) (m : Mem) :
    Issues m (writeHead g m) [(g.start, fillHeader m.lh (m.cached g.start))] :=
  Issues.bwrite m _ _

theorem writeLog_issues {n : Node} (h : Rest n) (G : Group g) :
    Issues (n.mem.updateAll G.writes) (writeLog g (n.mem.updateAll G.writes))
      (slotWrites g G.values) := by
  have hloop := writeLog_loop g G.blocks 0 (n.mem.updateAll G.writes) G.blocks_out G.blocks_lt
  rw [h.loaded G] at hloop ⊢
  simpa only [updated_values, writeLog, slotWrites] using hloop

theorem installTrans_issues {G : Group g} {m : Mem} (hs : SlotsHold g m.cached G)
    (hlh : m.lh = G.blocks) : Issues m (installTrans g m) G.homeWrites := by
  have hloop := installTrans_loop g G.blocks 0 m G.blocks_out G.blocks_lt
  rw [hs.installs] at hloop
  simpa only [installTrans, hlh] using hloop

/-- A commit of a nonempty group issues its four phases and leaves log.lh empty. -/
theorem commit_issues {n : Node} (h : Rest n) (G : Group g) (hne : G.writes ≠ []) :
    (commit g (n.mem.updateAll G.writes)).issued = phases g n.disk G ∧
    (commit g (n.mem.updateAll G.writes)).cached =
      applyWrites (phases g n.disk G) (applyWrites G.homeWrites n.disk) ∧
    (commit g (n.mem.updateAll G.writes)).lh = [] := by
  have hlog := writeLog_issues h G
  have hm := h.loaded G
  generalize n.mem.updateAll G.writes = m at hlog hm ⊢
  have hlh : m.lh = G.blocks := by rw [hm]
  have hcache : m.cached = applyWrites G.homeWrites n.disk := by rw [hm]
  have hstart : (writeLog g m).cached g.start = n.disk g.start := by
    rw [hlog.cached, applyWrites_other _ _ _ (start_not_slot g _), hcache,
      applyWrites_other _ _ _ (start_not_home G)]
  have hhead := hlog.trans (writeHead_issues g (writeLog g m))
  rw [hstart, hlog.lh, hlh] at hhead
  have hslots : SlotsHold g (writeHead g (writeLog g m)).cached G := by
    rw [hhead.cached, applyWrites_append]
    exact (slots_after_writes G m.cached).writes _ (by simp)
  have hinst := installTrans_issues hslots (hhead.lh.trans hlh)
  have hall := hhead.trans hinst
  have hfull : (installTrans g (writeHead g (writeLog g m))).cached g.start =
      fillHeader G.blocks (n.disk g.start) := by
    rw [hinst.cached, applyWrites_other _ _ _ (start_not_home G), hhead.cached, applyWrites_append]
    simp
  have hclear := writeHead_issues g { installTrans g (writeHead g (writeLog g m)) with lh := [] }
  simp only [hfull] at hclear
  have hpos : m.lh.length > 0 := by
    simpa [hlh, Group.blocks] using length_pos_iff.mpr hne
  have hcommit : commit g m =
      writeHead g { installTrans g (writeHead g (writeLog g m)) with lh := [] } := by
    simp only [commit, hpos, ↓reduceIte]
  rw [hcommit, hclear.issued, hclear.cached, hclear.lh, hall.issued, hall.cached, hcache, hm]
  refine ⟨?_, ?_, rfl⟩
  · simp [phases]
  · simp [phases, applyWrites_append]

/-- The log is empty and the home blocks are these. -/
structure Clean (g : Geometry) (d h : Disk) : Prop where
  empty : d g.start 0 = 0
  home : ∀ b, ¬ g.Area b → d b = h b

/-- The header names the whole group and the slots hold its contents. Nothing is said
about the group's own home blocks: any of them may have been written already. -/
structure Sealed (g : Geometry) (d h : Disk) (G : Group g) : Prop where
  header : headerList (d g.start) = G.blocks
  slots : SlotsHold g d G
  home : ∀ b, ¬ g.Area b → b ∉ G.homeWrites.map Prod.fst → d b = h b

def Group.install (G : Group g) (h : Disk) : Disk := applyWrites G.homeWrites h

theorem fill_empty (hb : Block) : fillHeader [] hb 0 = 0 := by simp [fillHeader]

theorem Clean.header_write (h : Clean g d e) (hb : Block) (hz : hb 0 = 0) :
    Clean g (update d g.start hb) e := by
  refine ⟨by simpa using hz, ?_⟩
  intro b hout
  have hne : b ≠ g.start := by
    intro he
    exact hout (he ▸ start_in_area g)
  rw [update_of_ne hne]
  exact h.home b hout

/-- Once every home write is redone only the header still has to be cleared. -/
theorem Sealed.installed (h : Sealed g d e G) (hb : Block) (hz : hb 0 = 0) :
    Clean g (update (applyWrites G.homeWrites d) g.start hb) (G.install e) := by
  refine ⟨by simpa using hz, ?_⟩
  intro b hout
  have hne : b ≠ g.start := by
    intro he
    exact hout (he ▸ start_in_area g)
  rw [update_of_ne hne]
  apply applyWrites_congr
  by_cases hm : b ∈ G.homeWrites.map Prod.fst
  · exact Or.inl hm
  · exact Or.inr (h.home b hout hm)

/-- Home writes of the group itself leave the disk sealed. -/
theorem Sealed.redo (h : Sealed g d e G) (k : Nat) :
    Sealed g (applyWrites (G.homeWrites.take k) d) e G := by
  have hsub : ∀ b ∈ (G.homeWrites.take k).map Prod.fst, b ∈ G.homeWrites.map Prod.fst := by
    intro b hb
    obtain ⟨w, hw, rfl⟩ := mem_map.mp hb
    exact mem_map.mpr ⟨w, mem_of_mem_take hw, rfl⟩
  refine ⟨?_, h.slots.writes _ (fun b hb => Or.inr (G.home_addr (hsub b hb))), ?_⟩
  · rw [applyWrites_other _ _ _ (fun hm => start_not_home G (hsub _ hm))]
    exact h.header
  · intro b hout hb
    rw [applyWrites_other _ _ _ (fun hm => hb (hsub b hm))]
    exact h.home b hout hb

theorem recoverWrites_clean (h : Clean g d e) :
    recoverWrites g d = [(g.start, fillHeader [] (d g.start))] := by
  simp [recoverWrites, recoverFromLog, readHead, boot, Mem.bread, headerList_zero h.empty,
    installTrans, writeHead, Mem.bwrite]

theorem recoverWrites_sealed (h : Sealed g d e G) :
    recoverWrites g d = G.homeWrites ++ [(g.start, fillHeader [] (d g.start))] := by
  have hread : readHead g (boot d) = ⟨d, G.blocks, []⟩ := by
    simp [readHead, boot, Mem.bread, h.header]
  have hinst := installTrans_issues (m := ⟨d, G.blocks, []⟩) h.slots rfl
  have hstart : (installTrans g ⟨d, G.blocks, []⟩).cached g.start = d g.start := by
    rw [hinst.cached, applyWrites_other _ _ _ (start_not_home G)]
  simp [recoverWrites, recoverFromLog, hread, writeHead, Mem.bwrite, Mem.bread, hstart,
    hinst.issued]

theorem retry_clean (h : Clean g d e) (k : Nat) : Clean g (retry g d k) e := by
  rw [retry, recoverWrites_clean h]
  cases k with
  | zero => simpa using h
  | succ k => simpa using h.header_write _ (fill_empty _)

/-- A recovery cut anywhere leaves a disk from which recovery still works. -/
theorem retry_sealed (h : Sealed g d e G) (k : Nat) :
    Sealed g (retry g d k) e G ∨ Clean g (retry g d k) (G.install e) := by
  rw [retry, recoverWrites_sealed h]
  by_cases hk : k ≤ G.homeWrites.length
  · left
    rw [take_append_of_le_length hk]
    exact h.redo k
  · right
    rw [take_of_length_le (by simp; omega), applyWrites_append]
    exact h.installed (fillHeader [] (d g.start)) (fill_empty _)

theorem installTrans_some (g : Geometry) (m : Mem) : ∃ ws, Issues m (installTrans g m) ws := by
  unfold installTrans
  generalize m.lh.zipIdx = l
  induction l generalizing m with
  | nil => exact ⟨[], Issues.refl m⟩
  | cons p l ih =>
    obtain ⟨ws, hw⟩ := ih (m.bwrite p.1.toNat (m.bread (g.start + p.2 + 1)))
    exact ⟨_, (Issues.bwrite m _ _).trans hw⟩

/-- After a completed recovery the buffers agree with the disk, whatever it held. -/
theorem restart_rest (g : Geometry) (d : Disk) : Rest (restart g d) := by
  obtain ⟨ws, hw⟩ := installTrans_some g (readHead g (boot d))
  have hh := writeHead_issues g { installTrans g (readHead g (boot d)) with lh := [] }
  have hshown : (installTrans g (readHead g (boot d))).cached =
      applyWrites (installTrans g (readHead g (boot d))).issued d := by
    rw [hw.cached, hw.issued]
    rfl
  refine ⟨?_, hh.lh, rfl⟩
  change (recoverFromLog g (boot d)).cached = applyWrites (recoverFromLog g (boot d)).issued d
  rw [recoverFromLog, hh.cached, hh.issued, applyWrites_append, ← hshown]

theorem restart_clean (h : Clean g d e) : Clean g (restart g d).disk e := by
  have hr := retry_clean h 1
  simpa [retry, restart, recoverWrites_clean h] using hr

theorem restart_sealed (h : Sealed g d e G) : Clean g (restart g d).disk (G.install e) := by
  rw [restart, recoverWrites_sealed h]
  simp only [applyWrites_append]
  exact h.installed (fillHeader [] (d g.start)) (fill_empty _)

theorem retries_clean (h : Clean g d e) (ks : List Nat) : Clean g (ks.foldl (retry g) d) e := by
  induction ks generalizing d with
  | nil => exact h
  | cons k ks ih => exact ih (retry_clean h k)

theorem retries_sealed (h : Sealed g d e G) (ks : List Nat) :
    Sealed g (ks.foldl (retry g) d) e G ∨ Clean g (ks.foldl (retry g) d) (G.install e) := by
  induction ks generalizing d with
  | nil => exact Or.inl h
  | cons k ks ih =>
    rcases retry_sealed h k with hs | hc
    · exact ih hs
    · exact Or.inr (retries_clean hc ks)

theorem Clean.slot_writes (h : Clean g d e) (G : Group g) (k : Nat) :
    Clean g (applyWrites ((slotWrites g G.values).take k) d) e := by
  have hoff : ∀ b ∈ ((slotWrites g G.values).take k).map Prod.fst, b ≠ g.start ∧ g.Area b := by
    intro b hb
    obtain ⟨w, hw, rfl⟩ := mem_map.mp hb
    have ha := slotWrites_addr (mem_of_mem_take hw)
    have hl := G.lt_size
    simp only [Group.values, length_map] at ha
    exact ⟨by omega, by omega, by omega⟩
  refine ⟨?_, ?_⟩
  · rw [applyWrites_other _ _ _ (fun hm => (hoff _ hm).1 rfl)]
    exact h.empty
  · intro b hout
    rw [applyWrites_other _ _ _ (fun hm => hout (hoff b hm).2)]
    exact h.home b hout

/-- The first write_head is the commit point: it turns a clean disk into a sealed one. -/
theorem Clean.seal (h : Clean g d e) (G : Group g) (hb : Block) :
    Sealed g (update (applyWrites (slotWrites g G.values) d) g.start
      (fillHeader G.blocks hb)) e G := by
  have hlen : G.blocks.length ≤ LOGSIZE := by simpa [Group.blocks] using G.fits
  have hs := h.slot_writes G (slotWrites g G.values).length
  rw [take_length] at hs
  refine ⟨?_, ?_, ?_⟩
  · simpa using headerList_fill G.blocks hb hlen
  · exact (slots_after_writes G d).writes [(g.start, fillHeader G.blocks hb)] (by simp)
  · intro b hout _
    have hne : b ≠ g.start := by
      intro he
      exact hout (he ▸ start_in_area g)
    rw [update_of_ne hne]
    exact hs.home b hout

theorem commit_nothing {n : Node} (h : Rest n) (G : Group g) (he : G.writes = []) :
    commit g (n.mem.updateAll G.writes) = ⟨n.disk, [], []⟩ := by
  rw [h.loaded G]
  simp [commit, Group.blocks, Group.homeWrites, he]

theorem commitWrites_empty {n : Node} (h : Rest n) (G : Group g) (he : G.writes = []) :
    n.commitWrites g G = [] := by
  rw [Node.commitWrites, commit_nothing h G he]

theorem install_empty (G : Group g) (e : Disk) (he : G.writes = []) : G.install e = e := by
  simp [Group.install, Group.homeWrites, he]

/-- Every prefix of the four phases, with the header write deciding which side of the
commit the disk is on. -/
theorem phases_cut (h : Clean g d e) (G : Group g) (k : Nat) :
    if ((phases g d G).take k).any (fun w => w.1 == g.start) then
      Sealed g (applyWrites ((phases g d G).take k) d) e G ∨
        Clean g (applyWrites ((phases g d G).take k) d) (G.install e)
    else Clean g (applyWrites ((phases g d G).take k) d) e := by
  by_cases hk : k ≤ (slotWrites g G.values).length
  · have hno : ((slotWrites g G.values).take k).any (fun w => w.1 == g.start) = false := by
      rw [any_eq_false]
      intro w hw
      have := (slotWrites_addr (mem_of_mem_take hw)).1
      simp
      omega
    rw [phases, take_append_of_le_length hk, hno]
    exact h.slot_writes G k
  · obtain ⟨j, rfl⟩ : ∃ j, k = (slotWrites g G.values).length + (j + 1) :=
      ⟨k - (slotWrites g G.values).length - 1, by omega⟩
    have hs := h.seal G (d g.start)
    rw [phases, take_length_add_append, take_succ_cons]
    simp only [any_append, any_cons, beq_self_eq_true, Bool.true_or, Bool.or_true,
      ↓reduceIte, applyWrites_append, applyWrites_cons]
    by_cases hj : j ≤ G.homeWrites.length
    · left
      rw [take_append_of_le_length hj]
      exact hs.redo j
    · right
      rw [take_of_length_le (by simp; omega), applyWrites_append]
      exact hs.installed (fillHeader [] (fillHeader G.blocks (d g.start))) (fill_empty _)

theorem crash_cut {n : Node} (hr : Rest n) (h : Clean g n.disk e) (G : Group g) (k : Nat) :
    if ((n.commitWrites g G).take k).any (fun w => w.1 == g.start) then
      Sealed g (n.crash g G k) e G ∨ Clean g (n.crash g G k) (G.install e)
    else Clean g (n.crash g G k) e := by
  by_cases he : G.writes = []
  · simpa [Node.crash, commitWrites_empty hr G he] using h
  · have hp := phases_cut h G k
    simpa only [Node.crash, Node.commitWrites, (commit_issues hr G he).1] using hp

theorem commit_rest {n : Node} (hr : Rest n) (G : Group g) : Rest (n.commit g G) := by
  by_cases he : G.writes = []
  · have hc := commit_nothing hr G he
    exact ⟨by simp [Node.commit, commitWrites_empty hr G he, hc], by simp [Node.commit, hc], rfl⟩
  obtain ⟨hi, hc, hl⟩ := commit_issues hr G he
  refine ⟨?_, hl, rfl⟩
  simp only [Node.commit, Node.commitWrites, hi, hc]
  funext x
  apply applyWrites_congr
  by_cases hm : x ∈ G.homeWrites.map Prod.fst
  · left
    simp only [phases, map_append, map_cons, mem_append, mem_cons]
    exact Or.inr (Or.inr (Or.inl hm))
  · right
    rw [applyWrites_other _ _ _ hm]

theorem commit_clean {n : Node} (hr : Rest n) (h : Clean g n.disk e) (G : Group g) :
    Clean g (n.commit g G).disk (G.install e) := by
  by_cases he : G.writes = []
  · simpa [Node.commit, commitWrites_empty hr G he, install_empty G e he] using h
  · have hs := h.seal G (n.disk g.start)
    have hc := hs.installed (fillHeader [] (fillHeader G.blocks (n.disk g.start))) (fill_empty _)
    simpa only [Node.commit, Node.commitWrites, (commit_issues hr G he).1, phases,
      applyWrites_append, applyWrites_cons, applyWrites_nil] using hc

def installAll (Gs : List (Group g)) (e : Disk) : Disk := Gs.foldl (fun e G => G.install e) e

theorem commits_clean {n : Node} (hr : Rest n) (h : Clean g n.disk e) (Gs : List (Group g)) :
    Rest (Gs.foldl (Node.commit g) n) ∧
      Clean g (Gs.foldl (Node.commit g) n).disk (installAll Gs e) := by
  induction Gs generalizing n e with
  | nil => exact ⟨hr, h⟩
  | cons G Gs ih => exact ih (commit_rest hr G) (commit_clean hr h G)

/-- One session, however its last commit and its recoveries were cut. -/
theorem session_clean {n : Node} (hr : Rest n) (h : Clean g n.disk e) (s : Session g) :
    Clean g (s.run n).disk (installAll (s.committed n) e) := by
  obtain ⟨hrest, hclean⟩ := commits_clean hr h s.done
  have hcut := crash_cut hrest hclean s.torn s.cut
  unfold Session.committed
  by_cases hreach : s.headReached n = true
  · rw [if_pos (by simpa [Session.headReached, Session.before] using hreach)] at hcut
    have hall : installAll (s.done ++ [s.torn]) e = s.torn.install (installAll s.done e) := by
      simp [installAll]
    simp only [hreach, ↓reduceIte, hall]
    rcases hcut with hs | hc
    · rcases retries_sealed hs s.retries with hs | hc
      · exact restart_sealed hs
      · exact restart_clean hc
    · exact restart_clean (retries_clean hc s.retries)
  · rw [if_neg (by simpa [Session.headReached, Session.before] using hreach)] at hcut
    simp only [hreach]
    exact restart_clean (retries_clean hcut s.retries)

theorem play_clean {n : Node} (hr : Rest n) (h : Clean g n.disk e) (ss : List (Session g)) :
    Clean g (play n ss).1.disk (installAll (play n ss).2 e) := by
  induction ss generalizing n e with
  | nil => exact h
  | cons s ss ih =>
    have hnext := ih (n := s.run n) (restart_rest g _) (session_clean hr h s)
    simpa only [play, installAll, foldl_append] using hnext

/-- Whatever was cut, wherever it was cut and however often recovery itself was cut,
the home blocks are exactly what the groups whose commit point was reached make of
the formatted disk, and the log is empty. -/
theorem recovery_atomic (g : Geometry) (d : Formatted g) (ss : List (Session g)) :
    (play (restart g d.disk) ss).1.disk g.start 0 = 0 ∧
    ∀ b, ¬ g.Area b →
      (play (restart g d.disk) ss).1.disk b =
        installAll (play (restart g d.disk) ss).2 d.disk b := by
  have hd : Clean g d.disk d.disk := ⟨d.empty, fun _ _ => rfl⟩
  have h := play_clean (restart_rest g d.disk) (restart_clean hd) ss
  exact ⟨h.empty, h.home⟩

end Xv6.Log
