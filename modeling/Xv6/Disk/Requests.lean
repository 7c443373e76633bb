import Xv6.Disk.Chains
import Xv6.Lib.Run
import Xv6.Lib.Tally
import Xv6.Lib.Window

namespace Xv6.Virtio

open Function List Lib

/-- The process holds chain c for request r. -/
def Pc.Has (x : Pc) (r : Request) (c : Chain) : Prop :=
  x = .ready r c ∨ x = .wait r c

theorem Pc.has_chain {x : Pc} : x.chain = some c ↔ ∃ r, x.Has r c := by
  cases x <;> simp [Pc.chain, Pc.Has]

theorem Pc.Has.request {x : Pc} (h : x.Has r c) : x.request = some r := by
  rcases h with rfl | rfl <;> rfl

theorem Pc.Has.chain {x : Pc} (h : x.Has r c) : x.chain = some c := has_chain.mpr ⟨r, h⟩

/-- Updating one process does not matter to a point that neither its old nor its new state is at. -/
theorem update_pc_iff {pc : Nat → Pc} (hold : pc p ≠ y) (hnew : x ≠ y) :
    update pc p x q = y ↔ pc q = y := by
  rcases eq_or_ne q p with rfl | hq
  · simp [hold, hnew]
  · rw [update_of_ne hq]

theorem chain_update (pc : Nat → Pc) (p : Nat) (x : Pc) :
    (fun q => (update pc p x q).chain) = update (fun q => (pc q).chain) p x.chain :=
  comp_update Pc.chain pc p x

theorem Descs.same {pc : Nat → Pc} (h : Descs free (fun q => (pc q).chain))
    (hx : x.chain = (pc p).chain) : Descs free (fun q => (update pc p x q).chain) := by
  rw [chain_update, hx, update_eq_self]
  exact h

theorem request_update (pc : Nat → Pc) (h : x.request = (pc p).request) (q : Nat) :
    (update pc p x q).request = (pc q).request := by
  rcases eq_or_ne q p with rfl | hq
  · rw [update_self, h]
  · rw [update_of_ne hq]

/-- What holds of every call in progress. -/
structure Calls (s : State) : Prop where
  held : ∀ p r, (s.pc p).request = some r → s.locked r.b = true
  alone : ∀ p q r r', (s.pc p).request = some r → (s.pc q).request = some r' → r.b = r'.b → p = q
  ready : ∀ p r c, s.pc p = .ready r c → s.lock = some (.proc p) ∧ s.flag r.b = true
  linked : ∀ p r c, (s.pc p).Has r c → Linked s.disk.desc c r
  info : ∀ p r c, (s.pc p).Has r c → (s.disk.info c.head).b = some r.b
  served : ∀ p r c, (s.pc p).Has r c → s.served r.b = if s.flag r.b then 0 else 1

theorem Calls.not_ready (h : Calls s)
    (hl : ∀ p, s.lock = some (.proc p) → ∀ r c, s.pc p ≠ .ready r c) (p : Nat)
    (r : Request) (c : Chain) : s.pc p ≠ .ready r c :=
  fun hp => hl p (h.ready p r c hp).1 r c hp

/-- The heads between the driver's publishing them and its seeing them again. -/
def inFlight (s : State) (av us : List Nat) : List Nat :=
  av ++ (s.device.taken ++ (s.device.posting.toList ++ us))

/-- The two rings hold av and us, and the heads in flight are those of the unanswered requests. -/
structure Flight (s : State) (av us : List Nat) : Prop where
  avail : Window IDX NUM s.disk.avail.ring s.device.seen s.disk.avail.idx av
  used : Window IDX NUM s.disk.used.ring s.disk.usedIdx s.disk.used.idx us
  nodup : (inFlight s av us).Nodup
  mem : ∀ x, x ∈ inFlight s av us ↔
    ∃ p r c, s.pc p = .wait r c ∧ c.head = x ∧ s.flag r.b = true
  done : ∀ x ∈ s.device.posting.toList ++ us, (s.disk.info x).status = 0
  slot : ∀ p r c, s.pc p = .ready r c → s.disk.avail.ring (s.disk.avail.idx % NUM) = c.head
  posted : ∀ x, s.device.posting = some x → s.disk.used.ring (s.disk.used.idx % NUM) = x

structure Inv (s : State) : Prop where
  fine : s.panicked = none
  descs : Descs s.disk.free (fun p => (s.pc p).chain)
  calls : Calls s
  flight : ∃ av us, Flight s av us

theorem inv_boot : Inv boot := by
  refine ⟨rfl, ?_, ?_, [], [], ?_⟩
  · refine ⟨?_, ?_, ?_, ?_⟩ <;> simp +contextual [boot, virtioDiskInit, Pc.chain]
  · refine ⟨?_, ?_, ?_, ?_, ?_, ?_⟩ <;> simp [boot, Pc.request, Pc.Has]
  · refine ⟨?_, ?_, ?_, ?_, ?_, ?_, ?_⟩
    · exact window_nil (by decide) (by decide) _
    · exact window_nil (by decide) (by decide) _
    all_goals simp [boot, inFlight]

theorem Inv.head_small (h : Inv s) (hf : Flight s av us) (hx : x ∈ inFlight s av us) :
    x < NUM := by
  obtain ⟨p, r, c, hp, rfl, -⟩ := (hf.mem x).mp hx
  exact h.descs.small p c c.head (by rw [hp]; rfl) c.head_mem

theorem Inv.owner {c c' : Chain} (h : Inv s) (hq : (s.pc q).Has r' c') (hp : (s.pc p).Has r c)
    (he : c'.head = c.head) : q = p :=
  h.descs.unique q p c' c c.head hq.chain hp.chain (he ▸ c'.head_mem) c.head_mem

theorem room_of_nodup {l : List Nat} (hn : (x :: l).Nodup) (hs : ∀ y ∈ x :: l, y < NUM) :
    l.length < NUM := by
  have hle := length_le_of_nodup hn hs
  rwa [length_cons] at hle

/-- The avail ring has room for a head that is not in flight. -/
theorem Inv.avail_room (h : Inv s) (hf : Flight s av us) (hx : x ∉ inFlight s av us)
    (hs : x < NUM) : av.length < NUM := by
  apply room_of_nodup (x := x)
  · rw [nodup_cons]
    exact ⟨fun hm => hx (mem_append_left _ hm), (nodup_append.mp hf.nodup).1⟩
  · intro y hy
    rcases mem_cons.mp hy with rfl | hy
    · exact hs
    · exact h.head_small hf (mem_append_left _ hy)

theorem used_room (hp : s.device.posting = some x) (hn : (inFlight s av us).Nodup)
    (hs : ∀ y ∈ inFlight s av us, y < NUM) : us.length < NUM := by
  simp only [inFlight, hp, Option.toList_some, cons_append, nil_append] at hn hs
  apply room_of_nodup (nodup_append.mp (nodup_append.mp hn).2.1).2.1
  exact fun y hy => hs y (mem_append_right _ (mem_append_right _ hy))

theorem Calls.congr (h : Calls s) (hpc : s'.pc = s.pc) (hl : s'.locked = s.locked)
    (hf : s'.flag = s.flag) (hs : s'.served = s.served)
    (hlock : ∀ p r c, s.pc p = .ready r c → s'.lock = s.lock)
    (hd : ∀ p r c, (s.pc p).Has r c → ∀ i ∈ c.descs, s'.disk.desc i = s.disk.desc i)
    (hi : ∀ i, (s'.disk.info i).b = (s.disk.info i).b) : Calls s' := by
  refine ⟨?_, ?_, ?_, ?_, ?_, ?_⟩
  · rw [hpc, hl]
    exact h.held
  · rw [hpc]
    exact h.alone
  · intro p r c hp
    rw [hpc] at hp
    rw [hlock p r c hp, hf]
    exact h.ready p r c hp
  · intro p r c hp
    rw [hpc] at hp
    exact (h.linked p r c hp).congr (hd p r c hp)
  · intro p r c hp
    rw [hpc] at hp
    rw [hi]
    exact h.info p r c hp
  · rw [hpc, hf, hs]
    exact h.served

theorem call_inv (h : Inv s) (hs : call s p r = some t) : Inv t := by
  unfold call at hs
  split at hs
  · rename_i hp
    split at hs
    · cases hs
    rename_i hlock
    cases hs
    have hwait : ∀ q r' c, update s.pc p (.alloc r) q = .wait r' c ↔
        s.pc q = .wait r' c := fun q r' c => update_pc_iff (by simp [hp]) (by simp)
    have hready : ∀ q r' c, update s.pc p (.alloc r) q = .ready r' c ↔
        s.pc q = .ready r' c := fun q r' c => update_pc_iff (by simp [hp]) (by simp)
    have hhas : ∀ q r' c, (update s.pc p (.alloc r) q).Has r' c ↔
        (s.pc q).Has r' c := fun q r' c => or_congr (hready q r' c) (hwait q r' c)
    have hfree : ∀ q r', (s.pc q).request = some r' → r'.b ≠ r.b := by
      intro q r' hq he
      rw [← he, h.calls.held q r' hq] at hlock
      exact hlock rfl
    refine ⟨h.fine, ?_, ⟨?_, ?_, ?_, ?_, ?_, ?_⟩, ?_⟩
    · exact h.descs.same (by rw [hp]; rfl)
    · intro q r' hq
      dsimp only at hq ⊢
      rcases eq_or_ne q p with rfl | hqp
      · rw [update_self] at hq
        cases hq
        exact update_self ..
      · rw [update_of_ne hqp] at hq
        rw [update_of_ne (hfree q r' hq)]
        exact h.calls.held q r' hq
    · intro q q' r₁ r₂ hq hq' hb
      dsimp only at hq hq'
      rcases eq_or_ne q p with rfl | hqp
      · rcases eq_or_ne q' q with rfl | hqq
        · rfl
        · rw [update_self] at hq
          rw [update_of_ne hqq] at hq'
          cases hq
          exact absurd hb.symm (hfree q' r₂ hq')
      · rw [update_of_ne hqp] at hq
        rcases eq_or_ne q' p with rfl | hqq
        · rw [update_self] at hq'
          cases hq'
          exact absurd hb (hfree q r₁ hq)
        · rw [update_of_ne hqq] at hq'
          exact h.calls.alone q q' r₁ r₂ hq hq' hb
    · exact fun q r' c hq => h.calls.ready q r' c ((hready q r' c).mp hq)
    · exact fun q r' c hq => h.calls.linked q r' c ((hhas q r' c).mp hq)
    · exact fun q r' c hq => h.calls.info q r' c ((hhas q r' c).mp hq)
    · exact fun q r' c hq => h.calls.served q r' c ((hhas q r' c).mp hq)
    · obtain ⟨av, us, hf⟩ := h.flight
      refine ⟨av, us, hf.avail, hf.used, hf.nodup, fun x => ?_, hf.done, ?_, hf.posted⟩
      · simp only [hwait]
        exact hf.mem x
      · exact fun q r' c hq => hf.slot q r' c ((hready q r' c).mp hq)
  · cases hs

/-- Without three free descriptors nothing changes that anybody looks at. -/
theorem rolled_inv (h : Inv s) (hd : Rolled s.disk d) : Inv { s with disk := d } := by
  obtain ⟨desc, rfl⟩ : ∃ desc, d = { s.disk with desc := desc } := ⟨_, hd.same⟩
  obtain ⟨av, us, hf⟩ := h.flight
  refine ⟨h.fine, h.descs, ?_, av, us, ?_⟩
  · refine h.calls.congr rfl rfl rfl rfl (fun _ _ _ _ => rfl) ?_ (fun _ => rfl)
    intro p r c hp i hi
    exact hd.kept i (h.descs.busy hp.chain hi)
  · exact ⟨hf.avail, hf.used, hf.nodup, hf.mem, hf.done, hf.slot, hf.posted⟩

theorem Inv.fresh {c c' : Chain} (h : Inv s) (hc : ∀ i ∈ c.descs, i < NUM ∧ s.disk.free i = true)
    (hq : (s.pc q).Has r' c') (hi : i ∈ c'.descs) : i ∉ c.descs := by
  intro hic
  have hb := h.descs.busy hq.chain hi
  rw [(hc i hic).2] at hb
  cases hb

theorem alloc_calls (h : Inv s) (hp : s.pc p = .alloc r) (hn : c.descs.Nodup)
    (hc : ∀ i ∈ c.descs, i < NUM ∧ s.disk.free i = true) (hlock : s.lock = none)
    (free : Nat → Bool) :
    Calls { s with
      disk := format { s.disk with free := free } c r
      flag := update s.flag r.b true
      served := update s.served r.b 0
      pc := update s.pc p (.ready r c)
      lock := some (.proc p) } := by
  have hreq := request_update s.pc (p := p) (x := .ready r c) (by rw [hp]; rfl)
  -- another call in progress is for another buffer, and its chain is another one
  have hother : ∀ q r' c', q ≠ p → (s.pc q).Has r' c' → r'.b ≠ r.b := by
    intro q r' c' hqp hq hb
    exact hqp (h.calls.alone q p r' r hq.request (by rw [hp]; rfl) hb)
  have hhas : ∀ q r' c', (update s.pc p (.ready r c) q).Has r' c' →
      q = p ∧ r' = r ∧ c' = c ∨ q ≠ p ∧ (s.pc q).Has r' c' := by
    intro q r' c' hq
    rcases eq_or_ne q p with rfl | hqp
    · rw [update_self] at hq
      rcases hq with hq | hq
      · cases hq
        exact .inl ⟨rfl, rfl, rfl⟩
      · cases hq
    · rw [update_of_ne hqp] at hq
      exact .inr ⟨hqp, hq⟩
  refine ⟨?_, ?_, ?_, ?_, ?_, ?_⟩
  · intro q r' hq
    rw [hreq] at hq
    exact h.calls.held q r' hq
  · intro q q' r₁ r₂ hq hq' hb
    rw [hreq] at hq hq'
    exact h.calls.alone q q' r₁ r₂ hq hq' hb
  · intro q r' c' hq
    rcases hhas q r' c' (.inl hq) with ⟨rfl, rfl, rfl⟩ | ⟨hqp, hq'⟩
    · exact ⟨rfl, update_self ..⟩
    · change update s.pc p (.ready r c) q = _ at hq
      rw [update_of_ne hqp] at hq
      exact absurd hq (h.calls.not_ready (by simp [hlock]) q r' c')
  · intro q r' c' hq
    rcases hhas q r' c' hq with ⟨rfl, rfl, rfl⟩ | ⟨hqp, hq⟩
    · exact formatDesc_linked hn _ r'
    · apply (h.calls.linked q r' c' hq).congr
      intro i hi
      exact formatDesc_other (h.fresh hc hq hi) _ r
  · intro q r' c' hq
    rcases hhas q r' c' hq with ⟨rfl, rfl, rfl⟩ | ⟨hqp, hq⟩
    · simp [format]
    · have hne : c'.head ≠ c.head := by
        intro he
        exact h.fresh hc hq c'.head_mem (he ▸ c.head_mem)
      simp only [format, update_of_ne hne]
      exact h.calls.info q r' c' hq
  · intro q r' c' hq
    rcases hhas q r' c' hq with ⟨rfl, rfl, rfl⟩ | ⟨hqp, hq⟩
    · simp
    · simp only [update_of_ne (hother q r' c' hqp hq)]
      exact h.calls.served q r' c' hq

theorem alloc_flight (h : Inv s) (hf : Flight s av us) (hp : s.pc p = .alloc r)
    (hc : ∀ i ∈ c.descs, i < NUM ∧ s.disk.free i = true) (hlock : s.lock = none)
    (free : Nat → Bool) :
    Flight { s with
      disk := format { s.disk with free := free } c r
      flag := update s.flag r.b true
      served := update s.served r.b 0
      pc := update s.pc p (.ready r c)
      lock := some (.proc p) } av us := by
  have hnew : c.head ∉ inFlight s av us := by
    intro hx
    obtain ⟨q, r', c', hq, he, -⟩ := (hf.mem _).mp hx
    exact h.fresh hc (.inr hq) c'.head_mem (he ▸ c.head_mem)
  have hroom := h.avail_room hf hnew (hc c.head c.head_mem).1
  refine ⟨hf.avail.write hroom _, hf.used, hf.nodup, fun x => ?_, fun x hx => ?_, ?_, hf.posted⟩
  · change x ∈ inFlight s av us ↔ _
    rw [hf.mem x]
    constructor
    · rintro ⟨q, r', c', hq, he, hfl⟩
      have hqp : q ≠ p := fun hqp => by simp [hqp, hp] at hq
      refine ⟨q, r', c', ?_, he, ?_⟩
      · exact (update_of_ne hqp ..).trans hq
      · by_cases hb : r'.b = r.b
        · simp [hb]
        · simp [hb, hfl]
    · rintro ⟨q, r', c', hq, he, hfl⟩
      have hqp : q ≠ p := fun hqp => by simp [hqp] at hq
      simp only [update_of_ne hqp] at hq
      have hb : r'.b ≠ r.b := by
        intro hb
        exact hqp (h.calls.alone q p r' r (by rw [hq]; rfl) (by rw [hp]; rfl) hb)
      simp only [update_of_ne hb] at hfl
      exact ⟨q, r', c', hq, he, hfl⟩
  · have hx' : x ≠ c.head := by
      rintro rfl
      exact hnew (mem_append_right _ (mem_append_right _ hx))
    simp only [format, update_of_ne hx']
    exact hf.done x hx
  · intro q r' c' hq
    have hqp : q = p := by
      by_contra hqp
      simp only [update_of_ne hqp] at hq
      exact h.calls.not_ready (by simp [hlock]) q r' c' hq
    subst hqp
    simp only [update_self, Pc.ready.injEq] at hq
    simp [format, hq.2]

theorem alloc_inv (h : Inv s) (hs : alloc s p = some t) : Inv t := by
  unfold alloc at hs
  split at hs
  · rename_i r hp hlock
    rcases alloc3Desc_spec s.disk with ⟨d, hd, hroll⟩ | ⟨c, d, hd, hn, hc, heq, hfree⟩
    · rw [hd] at hs
      cases hs
      exact rolled_inv h hroll
    rw [hd] at hs
    cases hs
    obtain ⟨av, us, hf⟩ := h.flight
    rw [heq]
    refine ⟨h.fine, ?_, alloc_calls h hp hn hc hlock _, av, us,
      alloc_flight h hf hp hc hlock _⟩
    change Descs d.free (fun q => (update s.pc p (.ready r c) q).chain)
    rw [chain_update]
    exact h.descs.take (by simp [hp, Pc.chain]) hn hc hfree
  · cases hs

theorem publish_inv (h : Inv s) (hs : publish s p = some t) : Inv t := by
  unfold publish at hs
  split at hs
  · rename_i r c hp
    cases hs
    have hreq := request_update s.pc (p := p) (x := .wait r c) (by rw [hp]; rfl)
    have hhas : ∀ q r' c', (update s.pc p (.wait r c) q).Has r' c' →
        (s.pc q).Has r' c' := by
      intro q r' c' hq
      rcases eq_or_ne q p with rfl | hqp
      · rw [update_self] at hq
        rcases hq with hq | hq
        · cases hq
        · cases hq
          exact .inl hp
      · rwa [update_of_ne hqp] at hq
    have hready : ∀ q r' c', update s.pc p (.wait r c) q = .ready r' c' →
        q ≠ p ∧ s.pc q = .ready r' c' := by
      intro q r' c' hq
      rcases eq_or_ne q p with rfl | hqp
      · simp at hq
      · rw [update_of_ne hqp] at hq
        exact ⟨hqp, hq⟩
    have hlock := (h.calls.ready p r c hp).1
    obtain ⟨av, us, hf⟩ := h.flight
    have hnew : c.head ∉ inFlight s av us := by
      intro hx
      obtain ⟨q, r', c', hq, he, -⟩ := (hf.mem _).mp hx
      obtain rfl := h.owner (.inr hq) (.inl hp) he
      rw [hp] at hq
      cases hq
    have hperm : (inFlight s (av ++ [c.head]) us).Perm (c.head :: inFlight s av us) := by
      unfold inFlight
      rw [append_assoc]
      exact perm_middle
    have hroom := h.avail_room hf hnew (h.descs.small p c c.head (by rw [hp]; rfl) c.head_mem)
    refine ⟨h.fine, ?_, ⟨?_, ?_, ?_, ?_, ?_, ?_⟩, av ++ [c.head], us, ?_, hf.used, ?_, fun x => ?_,
      hf.done, ?_, hf.posted⟩
    · exact h.descs.same (by rw [hp]; rfl)
    · intro q r' hq
      rw [hreq] at hq
      exact h.calls.held q r' hq
    · intro q q' r₁ r₂ hq hq' hb
      rw [hreq] at hq hq'
      exact h.calls.alone q q' r₁ r₂ hq hq' hb
    · exact fun q r' c' hq => h.calls.ready q r' c' (hready q r' c' hq).2
    · exact fun q r' c' hq => h.calls.linked q r' c' (hhas q r' c' hq)
    · exact fun q r' c' hq => h.calls.info q r' c' (hhas q r' c' hq)
    · exact fun q r' c' hq => h.calls.served q r' c' (hhas q r' c' hq)
    · exact hf.avail.advance hroom (hf.slot p r c hp)
    · exact hperm.nodup_iff.mpr (nodup_cons.mpr ⟨hnew, hf.nodup⟩)
    · refine hperm.mem_iff.trans ?_
      rw [mem_cons, hf.mem x]
      constructor
      · rintro (rfl | ⟨q, r', c', hq, he, hfl⟩)
        · exact ⟨p, r, c, update_self .., rfl, (h.calls.ready p r c hp).2⟩
        · have hqp : q ≠ p := fun hqp => by simp [hqp, hp] at hq
          exact ⟨q, r', c', (update_of_ne hqp ..).trans hq, he, hfl⟩
      · rintro ⟨q, r', c', hq, he, hfl⟩
        rcases eq_or_ne q p with rfl | hqp
        · simp only [update_self, Pc.wait.injEq] at hq
          exact .inl (by rw [← he, hq.2])
        · simp only [update_of_ne hqp] at hq
          exact .inr ⟨q, r', c', hq, he, hfl⟩
    · intro q r' c' hq
      obtain ⟨hqp, hq⟩ := hready q r' c' hq
      have hl := (h.calls.ready q r' c' hq).1
      rw [hlock] at hl
      cases hl
      exact absurd rfl hqp
  · cases hs

/-- Only the lock changes hands, and no process is between filling in and publishing a request. -/
theorem lock_inv (h : Inv s) (hl : ∀ p r c, s.pc p ≠ .ready r c) (l : Option Holder) :
    Inv { s with lock := l } := by
  obtain ⟨av, us, hf⟩ := h.flight
  refine ⟨h.fine, h.descs, ?_, av, us, hf.avail, hf.used, hf.nodup, hf.mem, hf.done, hf.slot,
    hf.posted⟩
  exact h.calls.congr rfl rfl rfl rfl (fun p r c hp => absurd hp (hl p r c))
    (fun _ _ _ _ _ _ => rfl) (fun _ => rfl)

/-- The owner of an answered request frees its chain. -/
theorem finish_spec (h : Inv s) (hp : s.pc p = .wait r c) :
    ∃ free desc, finish s p r c = { s with
        disk := { s.disk with
          free := free
          desc := desc
          info := update s.disk.info c.head { s.disk.info c.head with b := none } }
        pc := update s.pc p .idle
        locked := update s.locked r.b false
        lock := none } ∧
      (∀ i, free i = if i ∈ c.descs then true else s.disk.free i) ∧
      ∀ i, i ∉ c.descs → desc i = s.disk.desc i := by
  have hchain : (s.pc p).chain = some c := by rw [hp]; rfl
  obtain ⟨d, hd, heq, hfree, hdesc⟩ := freeChain_ok (d := { s.disk with
      info := update s.disk.info c.head { s.disk.info c.head with b := none } })
    (h.calls.linked p r c (.inr hp)) (h.descs.nodup p c hchain)
    (fun i hi => ⟨h.descs.small p c i hchain hi, h.descs.busy hchain hi⟩)
  refine ⟨d.free, d.desc, ?_, hfree, hdesc⟩
  simp only [finish, hd]
  rw [heq]

theorem finish_inv (h : Inv s) (hp : s.pc p = .wait r c) (hflag : s.flag r.b = false)
    (hnr : ∀ q r' c', s.pc q ≠ .ready r' c') : Inv (finish s p r c) := by
  obtain ⟨free, desc, he, hfree, hdesc⟩ := finish_spec h hp
  have hchain : (s.pc p).chain = some c := by rw [hp]; rfl
  have hreq : ∀ q r', (update s.pc p .idle q).request = some r' →
      q ≠ p ∧ (s.pc q).request = some r' := by
    intro q r' hq
    rcases eq_or_ne q p with rfl | hqp
    · rw [update_self] at hq
      cases hq
    · rw [update_of_ne hqp] at hq
      exact ⟨hqp, hq⟩
  have hhas : ∀ q r' c', (update s.pc p .idle q).Has r' c' →
      q ≠ p ∧ (s.pc q).Has r' c' := by
    intro q r' c' hq
    have hqp := (hreq q r' hq.request).1
    rw [update_of_ne hqp] at hq
    exact ⟨hqp, hq⟩
  have happart : ∀ q r' c' i, q ≠ p → (s.pc q).Has r' c' → i ∈ c'.descs → i ∉ c.descs :=
    fun q r' c' i hqp hq hi hic => hqp (h.descs.unique q p c' c i hq.chain hchain hi hic)
  obtain ⟨av, us, hf⟩ := h.flight
  rw [he]
  refine ⟨h.fine, ?_, ⟨?_, ?_, ?_, ?_, ?_, ?_⟩, av, us, hf.avail, hf.used, hf.nodup, fun x => ?_,
    fun x hx => ?_, ?_, hf.posted⟩
  · change Descs free (fun q => (update s.pc p .idle q).chain)
    rw [chain_update]
    exact h.descs.drop hchain hfree
  · intro q r' hq
    obtain ⟨hqp, hq⟩ := hreq q r' hq
    have hb : r'.b ≠ r.b := fun hb => hqp (h.calls.alone q p r' r hq (by rw [hp]; rfl) hb)
    exact (update_of_ne hb ..).trans (h.calls.held q r' hq)
  · intro q q' r₁ r₂ hq hq' hb
    exact h.calls.alone q q' r₁ r₂ (hreq q r₁ hq).2 (hreq q' r₂ hq').2 hb
  · intro q r' c' hq
    obtain ⟨hqp, -⟩ := hreq q r' (congrArg Pc.request hq)
    exact absurd ((update_of_ne hqp ..).symm.trans hq) (hnr q r' c')
  · intro q r' c' hq
    obtain ⟨hqp, hq⟩ := hhas q r' c' hq
    apply (h.calls.linked q r' c' hq).congr
    exact fun i hi => hdesc i (happart q r' c' i hqp hq hi)
  · intro q r' c' hq
    obtain ⟨hqp, hq⟩ := hhas q r' c' hq
    have hne : c'.head ≠ c.head := by
      intro hh
      exact happart q r' c' c'.head hqp hq c'.head_mem (hh ▸ c.head_mem)
    simp only [update_of_ne hne]
    exact h.calls.info q r' c' hq
  · intro q r' c' hq
    exact h.calls.served q r' c' (hhas q r' c' hq).2
  · refine (hf.mem x).trans ?_
    constructor
    · rintro ⟨q, r', c', hq, hx, hfl⟩
      have hqp : q ≠ p := by
        rintro rfl
        rw [hp] at hq
        cases hq
        rw [hflag] at hfl
        cases hfl
      exact ⟨q, r', c', (update_of_ne hqp ..).trans hq, hx, hfl⟩
    · rintro ⟨q, r', c', hq, hx, hfl⟩
      obtain ⟨hqp, -⟩ := hreq q r' (congrArg Pc.request hq)
      exact ⟨q, r', c', (update_of_ne hqp ..).symm.trans hq, hx, hfl⟩
  · have hst := hf.done x hx
    by_cases hxc : x = c.head
    · subst hxc
      simpa using hst
    · simpa [update_of_ne hxc] using hst
  · intro q r' c' hq
    obtain ⟨hqp, -⟩ := hreq q r' (congrArg Pc.request hq)
    exact absurd ((update_of_ne hqp ..).symm.trans hq) (hnr q r' c')

theorem check_inv (h : Inv s) (hs : check s p = some t) : Inv t := by
  unfold check at hs
  split at hs
  · rename_i r c hp
    split at hs
    · rename_i hlock
      have hnr : ∀ q r' c', s.pc q ≠ .ready r' c' := by
        apply h.calls.not_ready
        intro q hq r' c' hq'
        rcases hlock with hl | hl
        · rw [hl] at hq
          cases hq
        · rw [hl] at hq
          cases hq
          rw [hp] at hq'
          cases hq'
      split at hs
      · cases hs
        exact lock_inv h hnr none
      · rename_i hflag
        cases hs
        exact finish_inv h hp (by simpa using hflag) hnr
    · cases hs
  · cases hs

theorem intrEnter_inv (h : Inv s) (hs : intrEnter s = some t) : Inv t := by
  obtain ⟨hlock, he⟩ := Option.ite_none_right_eq_some.mp hs
  cases he
  exact lock_inv h (h.calls.not_ready (by simp [hlock])) _

/-- One turn of the interrupt handler's loop: the next completion is that of a waiting process,
and its head is the first in the used ring. -/
theorem intrStep_spec (h : Inv s) (hs : intrStep s = some t)
    (hne : s.disk.usedIdx ≠ s.disk.used.idx) :
    ∃ av us p r c, Flight s av (c.head :: us) ∧ s.lock = some .intr ∧ s.pc p = .wait r c ∧
      s.flag r.b = true ∧ s.disk.used.ring (s.disk.usedIdx % NUM) = c.head ∧
      t = { s with
        flag := update s.flag r.b false
        served := update s.served r.b (s.served r.b + 1)
        disk := { s.disk with usedIdx := (s.disk.usedIdx + 1) % IDX } } := by
  obtain ⟨av, us, hf⟩ := h.flight
  cases us with
  | nil => exact absurd (hf.used.eq_iff.mpr rfl) hne
  | cons x us =>
    obtain ⟨p, r, c, hp, rfl, hfl⟩ := (hf.mem x).mp (by simp [inFlight])
    have hid := hf.used.pop.1
    have hdone := hf.done c.head (by simp)
    have hinfo := h.calls.info p r c (.inr hp)
    simp only [intrStep, ne_eq, hne, not_false_eq_true, if_true, hid, hdone, hinfo] at hs
    obtain ⟨hlock, he⟩ := Option.ite_none_right_eq_some.mp hs
    cases he
    exact ⟨av, us, p, r, c, hf, hlock, hp, hfl, hid, rfl⟩

theorem intrStep_inv (h : Inv s) (hs : intrStep s = some t) : Inv t := by
  by_cases hne : s.disk.usedIdx = s.disk.used.idx
  · obtain ⟨hlock, hs⟩ := Option.ite_none_right_eq_some.mp hs
    rw [if_neg (not_not.mpr hne)] at hs
    cases hs
    exact lock_inv h (h.calls.not_ready (by simp [hlock])) _
  obtain ⟨av, us, p, r, c, hf, hlock, hp, hfl, hid, rfl⟩ := intrStep_spec h hs hne
  have hother : ∀ q r' c', q ≠ p → (s.pc q).Has r' c' → r'.b ≠ r.b := by
    intro q r' c' hqp hq hb
    exact hqp (h.calls.alone q p r' r hq.request (by rw [hp]; rfl) hb)
  have hperm : (inFlight s av (c.head :: us)).Perm (c.head :: inFlight s av us) := by
    unfold inFlight
    rw [← append_assoc, ← append_assoc, ← append_assoc, ← append_assoc]
    exact perm_middle
  have hnodup := hperm.nodup_iff.mp hf.nodup
  rw [nodup_cons] at hnodup
  refine ⟨h.fine, h.descs, ⟨h.calls.held, h.calls.alone, ?_, h.calls.linked, h.calls.info, ?_⟩,
    av, us, hf.avail, hf.used.pop.2, hnodup.2, fun x => ?_, fun x hx => ?_, hf.slot, hf.posted⟩
  · exact fun q r' c' hq => absurd hq (h.calls.not_ready (by simp [hlock]) q r' c')
  · intro q r' c' hq
    rcases eq_or_ne q p with rfl | hqp
    · have hr : r' = r := by
        have hreq := hq.request
        rw [hp] at hreq
        exact (Option.some.inj hreq).symm
      have hz := h.calls.served q r' c' hq
      rw [hr, hfl] at hz
      simp [hr, hz]
    · simp only [update_of_ne (hother q r' c' hqp hq)]
      exact h.calls.served q r' c' hq
  · constructor
    · intro hx
      have hxc : x ≠ c.head := fun hxc => hnodup.1 (hxc ▸ hx)
      obtain ⟨q, r', c', hq, rfl, hfl'⟩ := (hf.mem x).mp (hperm.mem_iff.mpr (.tail _ hx))
      have hqp : q ≠ p := by
        rintro rfl
        rw [hp] at hq
        cases hq
        exact hxc rfl
      refine ⟨q, r', c', hq, rfl, ?_⟩
      exact (update_of_ne (hother q r' c' hqp (.inr hq)) ..).trans hfl'
    · rintro ⟨q, r', c', hq, rfl, hfl'⟩
      have hb : r'.b ≠ r.b := fun hb => by simp [hb] at hfl'
      simp only [update_of_ne hb] at hfl'
      have hx := hperm.mem_iff.mp ((hf.mem c'.head).mpr ⟨q, r', c', hq, rfl, hfl'⟩)
      rcases mem_cons.mp hx with he | hx
      · obtain rfl := h.owner (.inr hq) (.inr hp) he
        rw [hp] at hq
        cases hq
        exact absurd rfl hb
      · exact hx
  · apply hf.done x
    rcases mem_append.mp hx with hx | hx
    · exact mem_append_left _ hx
    · exact mem_append_right _ (.tail _ hx)

/-- A device step changes no chain and nothing that the calls depend on. -/
theorem device_calls (h : Calls s) (hi : ∀ i, (d.info i).b = (s.disk.info i).b)
    (hd : ∀ i, d.desc i = s.disk.desc i) (dev : Device) :
    Calls { s with disk := d, device := dev } :=
  h.congr rfl rfl rfl rfl (fun _ _ _ _ => rfl) (fun _ _ _ _ i _ => hd i) hi

theorem devTake_inv (h : Inv s) (hs : devTake s = some t) : Inv t := by
  unfold devTake at hs
  split at hs
  · rename_i hne
    cases hs
    obtain ⟨av, us, hf⟩ := h.flight
    cases av with
    | nil => exact absurd (hf.avail.eq_iff.mpr rfl) hne
    | cons x av =>
      obtain ⟨hx, hav⟩ := hf.avail.pop
      have hperm : (inFlight { s with device := { s.device with
          seen := (s.device.seen + 1) % IDX
          taken := s.device.taken ++ [s.disk.avail.ring (s.device.seen % NUM)] } } av us).Perm
          (inFlight s (x :: av) us) := by
        simp only [inFlight, hx, append_assoc, cons_append, nil_append]
        rw [← append_assoc]
        exact perm_middle.trans (by rw [append_assoc])
      refine ⟨h.fine, h.descs, device_calls h.calls (fun _ => rfl) (fun _ => rfl) _, av, us, hav,
        hf.used, hperm.nodup_iff.mpr hf.nodup, fun y => ?_, hf.done, hf.slot, hf.posted⟩
      exact hperm.mem_iff.trans (hf.mem y)
  · cases hs

theorem putStatus_b (info : Nat → Info) (a : Ptr) (i : Nat) :
    (putStatus info a i).b = (info i).b := by
  unfold putStatus
  split
  · rename_i j
    by_cases hij : i = j
    · simp [hij]
    · simp [hij]
  · rfl

theorem devFinish_inv (h : Inv s) (hs : devFinish s k = some t) : Inv t := by
  unfold devFinish at hs
  split at hs
  · rename_i x hpost hk
    cases hs
    obtain ⟨av, us, hf⟩ := h.flight
    have hxt : x ∈ s.device.taken := mem_of_getElem? hk
    have hx : x ∈ inFlight s av us :=
      mem_append_right _ (mem_append_left _ hxt)
    obtain ⟨p, r, c, hp, rfl, hfl⟩ := (hf.mem x).mp hx
    have hl := h.calls.linked p r c (.inr hp)
    have hperm : (inFlight { s with device := { s.device with
        taken := s.device.taken.eraseIdx k, posting := some c.head } } av us).Perm
        (inFlight s av us) := by
      simp only [inFlight, hpost, Option.toList_some, Option.toList_none, nil_append,
        cons_append]
      apply List.Perm.append_left
      refine perm_middle.trans ?_
      rw [← cons_append]
      apply List.Perm.append_right
      obtain ⟨hlt, hget⟩ := List.getElem?_eq_some_iff.mp hk
      rw [← hget]
      exact getElem_cons_eraseIdx_perm hlt
    have hroom : us.length < NUM := used_room rfl (hperm.nodup_iff.mpr hf.nodup)
      (fun y hy => h.head_small hf (hperm.mem_iff.mp hy))
    have hinfo : ∀ y, y = c.head ∨ (s.disk.info y).status = 0 →
        (putStatus s.disk.info (.status c.head) y).status = 0 := by
      intro y hy
      by_cases hyc : y = c.head
      · simp [putStatus, hyc]
      · simpa [putStatus, hyc] using hy
    simp only [hl.head, hl.data, hl.status]
    refine ⟨h.fine, h.descs, ?_, av, us, hf.avail, hf.used.write hroom _,
      hperm.nodup_iff.mpr hf.nodup, fun y => ?_, fun y hy => ?_, hf.slot, ?_⟩
    · apply device_calls h.calls
      · exact fun i => putStatus_b ..
      · exact fun i => rfl
    · exact hperm.mem_iff.trans (hf.mem y)
    · apply hinfo
      simp only [Option.toList_some, cons_append, nil_append, mem_cons] at hy
      rcases hy with rfl | hy
      · exact .inl rfl
      · exact .inr (hf.done y (mem_append_right _ hy))
    · intro y hy
      cases hy
      exact update_self ..
  · cases hs

theorem devPost_inv (h : Inv s) (hs : devPost s = some t) : Inv t := by
  unfold devPost at hs
  split at hs
  · rename_i x hpost
    cases hs
    obtain ⟨av, us, hf⟩ := h.flight
    have hperm : (inFlight { s with device := { s.device with posting := none } } av
        (us ++ [x])).Perm (inFlight s av us) := by
      simp only [inFlight, hpost, Option.toList_some, Option.toList_none, nil_append,
        cons_append]
      apply List.Perm.append_left
      apply List.Perm.append_left
      exact perm_append_singleton x us
    have hroom := used_room hpost hf.nodup (fun y hy => h.head_small hf hy)
    refine ⟨h.fine, h.descs, ?_, av, us ++ [x], hf.avail, hf.used.advance hroom (hf.posted x hpost),
      hperm.nodup_iff.mpr hf.nodup, fun y => ?_, fun y hy => ?_, hf.slot, fun y hy => by simp at hy⟩
    · apply device_calls h.calls
      · exact fun i => rfl
      · exact fun i => rfl
    · exact hperm.mem_iff.trans (hf.mem y)
    · apply hf.done y
      simp only [Option.toList_none, nil_append, mem_append, mem_singleton] at hy
      rw [hpost]
      simpa [or_comm] using hy
  · cases hs

theorem step_inv (h : Inv s) (hs : step s a = some t) : Inv t := by
  unfold step at hs
  split at hs
  · cases a with
    | call p r => exact call_inv h hs
    | alloc p => exact alloc_inv h hs
    | publish p => exact publish_inv h hs
    | check p => exact check_inv h hs
    | intrEnter => exact intrEnter_inv h hs
    | intrStep => exact intrStep_inv h hs
    | devTake => exact devTake_inv h hs
    | devFinish k => exact devFinish_inv h hs
    | devPost => exact devPost_inv h hs
  · cases hs

theorem run_inv (hr : run step boot as = some s) : Inv s :=
  run_invariant (fun _ _ _ h hs => step_inv h hs) inv_boot hr

/-- Only the interrupt handler clears the flag of a buffer. -/
theorem flag_kept (hs : step s a = some t) (ha : a ≠ .intrStep) (hb : s.flag b = true) :
    t.flag b = true := by
  unfold step at hs
  split at hs
  · cases a with
    | alloc p =>
      simp only [alloc] at hs
      repeat' split at hs
      all_goals cases hs
      · exact hb
      · exact hb
      · simp only [update_apply]
        split
        · rfl
        · exact hb
    | check p =>
      simp only [check] at hs
      repeat' split at hs
      all_goals cases hs
      · exact hb
      · simp only [finish]
        split <;> exact hb
    | intrStep => exact absurd rfl ha
    | call | publish | intrEnter | devTake | devFinish | devPost =>
      simp only [call, publish, intrEnter, devTake, devFinish, devPost] at hs
      repeat' split at hs
      all_goals cases hs
      exact hb
  · cases hs

/-- What the driver keeps in every state: descriptors are free or in one chain of three, a
completion is for the process that published the head and ends its wait, which nothing else
does, a call returns after exactly one completion, and nothing stays allocated. -/
structure Exact (s : State) : Prop where
  fine : s.panicked = none
  three : ∀ p c, (s.pc p).chain = some c → c.descs.Nodup ∧ c.descs.length = 3
  descs : ∀ i, i < NUM →
    s.disk.free i = true ∧ (∀ p c, (s.pc p).chain = some c → i ∉ c.descs) ∨
    s.disk.free i = false ∧ ∃! p, ∃ c, (s.pc p).chain = some c ∧ i ∈ c.descs
  completes : ∀ t, step s .intrStep = some t → s.disk.usedIdx ≠ s.disk.used.idx →
    ∃ p r c, s.pc p = .wait r c ∧ s.disk.used.ring (s.disk.usedIdx % NUM) = c.head ∧
      s.flag r.b = true ∧ t.flag = update s.flag r.b false
  waits : ∀ a t b, step s a = some t → s.flag b = true → t.flag b = false → a = .intrStep
  once : ∀ p t r c, s.pc p = .wait r c → step s (.check p) = some t → t.pc p = .idle →
    s.served r.b = 1
  quiet : (∀ p, s.pc p = .idle) → ∀ i, i < NUM → s.disk.free i = true

theorem Inv.desc_cases (h : Inv s) (hi : i < NUM) :
    s.disk.free i = true ∧ (∀ p c, (s.pc p).chain = some c → i ∉ c.descs) ∨
    s.disk.free i = false ∧ ∃! p, ∃ c, (s.pc p).chain = some c ∧ i ∈ c.descs := by
  cases hf : s.disk.free i with
  | true =>
    refine .inl ⟨rfl, fun p c hp hic => ?_⟩
    have hb := h.descs.busy hp hic
    rw [hf] at hb
    cases hb
  | false =>
    obtain ⟨p, c, hp, hic⟩ := (h.descs.taken i hi).mp hf
    refine .inr ⟨rfl, p, ⟨c, hp, hic⟩, ?_⟩
    rintro q ⟨c', hq, hic'⟩
    exact h.descs.unique q p c' c i hq hp hic' hic

theorem Inv.returns_once (h : Inv s) (hp : s.pc p = .wait r c) (hs : step s (.check p) = some t)
    (ht : t.pc p = .idle) : s.served r.b = 1 := by
  have hserved := h.calls.served p r c (.inr hp)
  cases hfl : s.flag r.b with
  | false =>
    rw [hserved, hfl]
    rfl
  | true =>
    -- a process whose buffer is still with the disk goes back to sleep
    simp only [step, h.fine, if_true, check, hp, hfl] at hs
    split at hs
    · cases hs
      rw [hp] at ht
      cases ht
    · cases hs

theorem requests_exact (hr : run step boot as = some s) : Exact s := by
  have h := run_inv hr
  refine ⟨h.fine, fun p c hp => ⟨h.descs.nodup p c hp, rfl⟩, fun i hi => h.desc_cases hi,
    fun t hs hne => ?_, fun a t b hs hb ht => ?_, fun p t r c hp hs ht => h.returns_once hp hs ht,
    fun hidle i hi => ?_⟩
  · simp only [step, h.fine, if_true] at hs
    obtain ⟨-, -, p, r, c, -, -, hp, hfl, hid, rfl⟩ := intrStep_spec h hs hne
    exact ⟨p, r, c, hp, hid, hfl, rfl⟩
  · by_contra ha
    rw [flag_kept hs ha hb] at ht
    cases ht
  · rcases h.desc_cases hi with hfree | ⟨-, p, ⟨c, hp, -⟩, -⟩
    · exact hfree.1
    · rw [hidle p] at hp
      cases hp

/-- Two requests answered in the other order, and a third that has to wait for descriptors. -/
def outOfOrder : List Act :=
  [.call 0 ⟨7, 3, true⟩, .alloc 0, .publish 0, .check 0, .call 1 ⟨9, 4, false⟩, .alloc 1,
    .publish 1, .check 1, .call 2 ⟨5, 1, false⟩, .alloc 2, .devTake, .devTake, .devFinish 1,
    .devPost, .intrEnter, .intrStep, .devFinish 0, .devPost, .intrStep, .intrStep, .check 1,
    .alloc 2, .publish 2, .check 2, .check 0]

theorem requests_exact_outOfOrder :
    ∃ s, run step boot outOfOrder = some s ∧ s.pc 0 = .idle ∧
      s.pc 2 = .wait ⟨5, 1, false⟩ ⟨3, 4, 5⟩ ∧ Exact s := by
  obtain ⟨s, hs, h₀, h₂⟩ : ∃ s, run step boot outOfOrder = some s ∧ s.pc 0 = .idle ∧
      s.pc 2 = .wait ⟨5, 1, false⟩ ⟨3, 4, 5⟩ := by decide
  exact ⟨s, hs, h₀, h₂, requests_exact hs⟩

end Xv6.Virtio
