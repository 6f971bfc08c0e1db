import Xv6.VirtioInv

/-!
# Runs of the virtio driver and the device

The device and the interrupt handler keep the invariant too (`Inv.take`, `Inv.complete`, `Inv.handle`), so it holds
in every state of every run (`virtio_inv`). A head goes from the `avail` ring to the device, from there to the
`used` ring, and leaves it when the handler clears `b->disk` : each of these steps permutes the pending heads or
takes one of them away. `virtio_protocol` is what follows for the callers.
-/

namespace Xv6

open Function (update_self update_of_ne)

set_option linter.unusedSectionVars false

namespace VirtioSys

variable {P C B : Type} [DecidableEq P] [DecidableEq C] [DecidableEq B] {s s' : VirtioSys P C B}
  {h : VirtioHist P} {p : P} {c : C} {b : B} {x : Idx} {pc : RwPc B}

/-! ## The steps of the device -/

theorem Inv.length_pending_le (hi : s.Inv h) : (h.pending s.devTaken).length ≤ NUM := by
  have hsub : h.pending s.devTaken ⊆ List.range NUM := by
    intro i hmem
    obtain ⟨q, b, y, -, -, hc, -, -, hiy⟩ := hi.of_pending hmem
    exact List.mem_range.mpr ((hi.chains.mem q y hc).2 i hiy).1
  have hle := (hi.pending.nodup.subperm hsub).length_le
  rwa [List.length_range] at hle

theorem prefix_concat {α : Type} {l m : List α} (h : l <+: m) (hlt : l.length < m.length) :
    l ++ [m[l.length]] <+: m := by
  have heq : l ++ [m[l.length]] = m.take (l.length + 1) := by
    rw [← List.take_append_getElem hlt]
    congr 1
    exact List.prefix_iff_eq_take.mp h
  rw [heq]
  exact List.take_prefix ..

/-- The device takes the next head. -/
theorem Inv.take (hi : s.Inv h) (hne : s.devIdx ≠ s.disk.availIdx) :
    ({ s with
      devIdx := s.devIdx + 1
      devTaken := s.devTaken ++ [s.disk.availRing (Ring.cell NUM s.devIdx)] } : VirtioSys P C B).Inv
        { h with taken := h.taken ++ [s.disk.availRing (Ring.cell NUM s.devIdx)] } := by
  have hp := hi.pending
  have hlt : h.taken.length < h.posted.length := by
    have hle := hp.avail.le
    have hne := mt (hp.avail.empty_iff (by decide)).mpr hne
    omega
  have hhead := hp.avail.head num_dvd hlt
  rw [hhead]
  have hdrop : h.posted.drop h.taken.length =
      h.posted[h.taken.length] :: h.posted.drop (h.taken.length + 1) := List.drop_eq_getElem_cons hlt
  have hperm : (VirtioHist.pending { h with taken := h.taken ++ [h.posted[h.taken.length]] }
      (s.devTaken ++ [h.posted[h.taken.length]])).Perm (h.pending s.devTaken) := by
    simp only [VirtioHist.pending, List.length_append, List.length_singleton, hdrop, List.append_assoc,
      List.cons_append]
    exact (List.Perm.append_left _ List.perm_middle).trans List.perm_middle
  refine ⟨hi.locked.frame (fun _ => rfl) (fun _ => rfl) rfl, hi.chains.frame (fun _ => rfl) rfl, hi.formatted,
    hi.owned, ⟨hi.sleepers.free, hi.sleepers.buf⟩, ⟨?_, hp.used, ?_, hp.processed, hperm.nodup_iff.mpr hp.nodup,
      fun i => hperm.mem_iff.trans (hp.mem i), hp.status, hp.owner, hp.done, hp.post, hp.reclaim, hp.entry⟩,
    hi.panic⟩
  · rw [List.length_append, List.length_singleton]
    exact hp.avail.take hlt
  · exact prefix_concat hp.taken hlt

theorem length_used (h : VirtioHist P) (devTaken : List ℕ) :
    (h.completed.length - h.processed.length) + devTaken.length ≤ (h.pending devTaken).length := by
  simp [VirtioHist.pending]
  omega

/-- The history when the device has completed the chain at `i`. -/
def completes (h : VirtioHist P) (i : ℕ) : VirtioHist P :=
  { h with
    completed := h.completed ++ [i]
    done := match h.owner i with
      | some p => Function.update h.done p true
      | none => h.done }

theorem done_completes (h : VirtioHist P) (i : ℕ) (hp : h.done p = true) : (completes h i).done p = true := by
  unfold completes
  cases h.owner i with
  | none => exact hp
  | some q =>
    by_cases hq : p = q
    · simp [hq]
    · simp [hq, hp]

/-- The device completes a chain. -/
theorem Inv.complete {i : ℕ} (hi : s.Inv h) (hmem : i ∈ s.devTaken) :
    ({ s with disk := s.disk.complete i, devTaken := s.devTaken.erase i } : VirtioSys P C B).Inv
      (completes h i) := by
  have hp := hi.pending
  have hpend : i ∈ h.pending s.devTaken := by simp [VirtioHist.pending, hmem]
  obtain ⟨p, b, x, hx, -, -, -, rfl, -⟩ := hi.of_pending hpend
  have hlast := (hi.formatted p b x (RwPc.formatted_of_posted hx)).1.lastAddr
  have hstatus : (s.disk.complete x.i0).infoStatus = Function.update s.disk.infoStatus x.i0 0 := by
    simp only [VirtioDisk.complete, hlast]
  have hroom : h.completed.length < h.processed.length + NUM := by
    have hused := length_used h s.devTaken
    have hle := hi.length_pending_le
    have hpos := List.length_pos_of_mem hmem
    have := hp.used.le
    omega
  have hdrop : (h.completed ++ [x.i0]).drop h.processed.length =
      h.completed.drop h.processed.length ++ [x.i0] := List.drop_append_of_le_length hp.used.le
  have hperm : ((completes h x.i0).pending (s.devTaken.erase x.i0)).Perm (h.pending s.devTaken) := by
    simp only [completes, VirtioHist.pending, hdrop]
    refine List.Perm.append_left _ ?_
    rw [← List.append_assoc]
    refine (List.perm_append_singleton _ _).trans ?_
    rw [← List.cons_append]
    exact List.Perm.append_right _ (List.perm_cons_erase hmem).symm
  have hused := hp.used.put_elem num_dvd hroom x.i0
  refine ⟨hi.locked.frame (fun _ => rfl) (fun _ => rfl) rfl, hi.chains.frame (fun _ => rfl) rfl,
    hi.formatted.frame hi.chains (fun _ => rfl) (fun _ _ => rfl) rfl, hi.owned,
    ⟨hi.sleepers.free, hi.sleepers.buf⟩, ⟨hp.avail, hused, hp.taken, ?_, hperm.nodup_iff.mpr hp.nodup,
      fun j => hperm.mem_iff.trans (hp.mem j), fun j hj => ?_, hp.owner, fun q b' y hy hdone => ?_, hp.post,
      hp.reclaim, fun c hc => ?_⟩, hi.panic⟩
  · exact hp.processed.trans (List.prefix_append ..)
  · rw [hstatus]
    by_cases hj' : j = x.i0
    · rw [hj', update_self]
    · rw [update_of_ne hj']
      have hj : j ∈ (h.completed ++ [x.i0]).drop h.processed.length := hj
      rw [hdrop, List.mem_append, List.mem_singleton] at hj
      exact hp.status j (hj.resolve_right hj')
  · have hdone : y.i0 ∈ (h.completed ++ [x.i0]).drop h.processed.length ∨ s.onDisk b' = false := hdone
    rw [hdrop, List.mem_append, List.mem_singleton, or_right_comm] at hdone
    obtain hdone | heq := hdone
    · exact done_completes h x.i0 (hp.done q b' y hy hdone)
    · have howner := hp.owner q b' y hy
      rw [heq] at howner
      simp [completes, howner]
  · intro heq
    have hlen := (hused.empty_iff (by decide)).mp heq
    have := hp.used.le
    simp at hlen
    omega

/-! ## The steps of virtio_disk_intr -/

theorem Locked.setIntr {ic : IntrPc} (hl : s.Locked) (hold : s.vdiskLock = none ∨ s.vdiskLock = some (.intr c))
    (hrw : s'.rw = s.rw) (hintr : s'.intr = Function.update s.intr c ic)
    (hlock : s'.vdiskLock = if ic.locked then some (.intr c) else none) : s'.Locked := by
  refine ⟨fun q => ?_, fun e => ?_⟩
  · have := hl.rw q
    rw [hrw, hlock]
    obtain hv | hv := hold <;> rw [hv] at this <;> cases ic.locked <;> simpa using this
  · rw [hintr, hlock]
    by_cases he : e = c
    · cases hic : ic.locked <;> simp [he, hic]
    · have := hl.intr e
      obtain hv | hv := hold <;> rw [hv] at this <;> cases ic.locked <;>
        simpa [update_of_ne he, Ne.symm he] using this

theorem locked_update {ic : IntrPc} (hic : ic.locked = (s.intr c).locked) (e : C) :
    (Function.update s.intr c ic e).locked = (s.intr e).locked := by
  by_cases he : e = c
  · rw [he, update_self, hic]
  · rw [update_of_ne he]

/-- A CPU goes on; the rings stay. -/
theorem Inv.setIntr {ic : IntrPc} (hi : s.Inv h) (hlocked : s'.Locked)
    (hs : s' = { s with intr := Function.update s.intr c ic, vdiskLock := s'.vdiskLock })
    (hentry : ic = .entry → s.disk.usedIdx ≠ s.disk.usedRingIdx) : s'.Inv h := by
  rw [hs] at hlocked ⊢
  refine ⟨hlocked, hi.chains.frame (fun _ => rfl) rfl, hi.formatted, hi.owned,
    ⟨hi.sleepers.free, hi.sleepers.buf⟩,
    hi.pending.frame (.refl s) (fun _ => rfl) (fun _ _ _ hq => hq)
      hi.pending.reclaim fun e he => ?_, hi.panic⟩
  by_cases hec : e = c
  · rw [hec] at he
    exact hentry ((update_self c ic s.intr).symm.trans he)
  · exact hi.pending.entry e ((update_of_ne hec ic s.intr).symm.trans he)

/-- The history when the handler has gone over the entry `i` of the `used` ring. -/
def processes (h : VirtioHist P) (i : ℕ) : VirtioHist P :=
  { h with processed := h.processed ++ [i] }

/-- The next entry of the `used` ring is the head of a request that the device has completed. -/
theorem Inv.entry (hi : s.Inv h) (hc : s.intr c = .entry) :
    ∃ (hlt : h.processed.length < h.completed.length) (p : P) (b : B) (x : Idx),
      s.disk.usedRing (Ring.cell NUM s.disk.usedIdx) = h.completed[h.processed.length] ∧
      (s.rw p).posted = some (b, x) ∧ x.i0 = h.completed[h.processed.length] ∧
      s.disk.infoStatus x.i0 = 0 ∧ s.disk.infoB x.i0 = some b := by
  have hp := hi.pending
  have hlt : h.processed.length < h.completed.length := by
    have hle := hp.used.le
    have hne := mt (hp.used.empty_iff (by decide)).mpr (hp.entry c hc)
    omega
  have hmem : h.completed[h.processed.length] ∈ h.completed.drop h.processed.length := by
    rw [List.drop_eq_getElem_cons hlt]
    exact List.mem_cons_self
  obtain ⟨p, b, x, hx, -, -, -, hhead, -⟩ :=
    hi.of_pending (List.mem_append_right _ (List.mem_append_right _ hmem))
  refine ⟨hlt, p, b, x, hp.used.head num_dvd hlt, hx, hhead, ?_, ?_⟩
  · rw [hhead]
    exact hp.status _ hmem
  · exact (hi.formatted p b x (RwPc.formatted_of_posted hx)).2

theorem pending_processes (hlt : h.processed.length < h.completed.length) (devTaken : List ℕ) :
    (h.pending devTaken).Perm
      (h.completed[h.processed.length] ::
        (processes h h.completed[h.processed.length]).pending devTaken) := by
  simp only [VirtioHist.pending, processes, List.length_append, List.length_singleton,
    List.drop_eq_getElem_cons hlt, ← List.append_assoc]
  exact List.perm_middle

theorem Pending.processes (hi : s.Inv h) (hlt : h.processed.length < h.completed.length)
    (hx : (s.rw p).posted = some (b, x)) (hhead : x.i0 = h.completed[h.processed.length])
    (hrw : s'.rw = s.rw) (hdev : s'.devIdx = s.devIdx ∧ s'.devTaken = s.devTaken)
    (hon : s'.onDisk = Function.update s.onDisk b false)
    (hdisk : s'.disk = { s.disk with usedIdx := s.disk.usedIdx + 1 })
    (hentry : ∀ c, s'.intr c ≠ .entry) :
    s'.Pending (VirtioSys.processes h h.completed[h.processed.length]) := by
  have hp := hi.pending
  have hperm := pending_processes hlt s.devTaken
  have hnodup := hperm.nodup_iff.mp hp.nodup
  have hdrop := List.drop_eq_getElem_cons hlt
  have hbuf := (RwPc.buf_of_formatted (RwPc.formatted_of_posted hx)).1
  have hother : ∀ q b', (s.rw q).buf = some b' → q ≠ p → s'.onDisk b' = s.onDisk b' := fun q b' hq hne => by
    rw [hon]
    exact update_of_ne (hi.owned.ne hbuf hq hne) ..
  have hself : s'.onDisk b = false := by rw [hon, update_self]
  have hmem : ∀ i, i ∈ h.completed.drop (h.processed.length + 1) → i ∈ h.completed.drop h.processed.length := by
    intro i hi
    rw [hdrop]
    exact List.mem_cons_of_mem _ hi
  have hlen : (VirtioSys.processes h h.completed[h.processed.length]).processed.length =
      h.processed.length + 1 := List.length_append
  constructor
  · rw [hdisk, hdev.1]
    exact hp.avail
  · rw [hdisk, hlen]
    exact hp.used.take hlt
  · exact hp.taken
  · exact prefix_concat hp.processed hlt
  · rw [hdev.2]
    exact (List.nodup_cons.mp hnodup).2
  · intro i
    rw [hdev.2, hrw]
    constructor
    · intro hi'
      have hne : i ≠ x.i0 := by
        rintro rfl
        rw [hhead] at hi'
        exact (List.nodup_cons.mp hnodup).1 hi'
      obtain ⟨q, b', y, hy, hyb, -, hb', hyi, -⟩ :=
        hi.of_pending (hperm.mem_iff.mpr (List.mem_cons_of_mem _ hi'))
      have hq : q ≠ p := by
        rintro rfl
        cases hx.symm.trans hy
        exact hne hyi.symm
      exact ⟨q, b', y, hy, by rw [hother q b' hyb hq, hb'], hyi⟩
    · rintro ⟨q, b', y, hy, hb', rfl⟩
      obtain ⟨hyb, hyc⟩ := RwPc.buf_of_formatted (RwPc.formatted_of_posted hy)
      have hq : q ≠ p := by
        rintro rfl
        cases hx.symm.trans hy
        rw [hself] at hb'
        cases hb'
      rw [hother q b' hyb hq] at hb'
      have hold := hperm.mem_iff.mp ((hp.mem y.i0).mpr ⟨q, b', y, hy, hb', rfl⟩)
      refine (List.mem_cons.mp hold).resolve_left fun heq => hq ?_
      have hxc := (RwPc.buf_of_formatted (RwPc.formatted_of_posted hx)).2
      exact hi.chains.sole q p y x y.i0 hyc hxc (by simp [Idx.toList]) (by simp [Idx.toList, heq, hhead])
  · intro i hi'
    rw [hlen] at hi'
    rw [hdisk]
    exact hp.status i (hmem i hi')
  · rw [hrw]
    exact hp.owner
  · intro q b' y hy hdone
    rw [hrw] at hy
    rw [hlen] at hdone
    by_cases hq : q = p
    · subst hq
      cases hx.symm.trans hy
      refine hp.done q b x hx (Or.inl ?_)
      rw [hhead, hdrop]
      exact List.mem_cons_self
    · rw [hother q b' (RwPc.buf_of_formatted (RwPc.formatted_of_posted hy)).1 hq] at hdone
      exact hp.done q b' y hy (hdone.imp_left (hmem _))
  · intro q b' y hq
    rw [hrw] at hq
    have hqp : q ≠ p := by
      rintro rfl
      rw [hq] at hx
      cases hx
    rw [hother q b' (by rw [hq]; rfl) hqp, hdisk]
    exact hp.post q b' y hq
  · intro q b' y hq
    rw [hrw] at hq
    rw [hon]
    by_cases hb : b' = b
    · rw [hb, update_self]
    · rw [update_of_ne hb]
      exact hp.reclaim q b' y hq
  · exact fun c hc => absurd hc (hentry c)

/-- The handler finishes the request of an entry. -/
theorem Inv.processes (hi : s.Inv h) (hc : s.intr c = .entry)
    (hlt : h.processed.length < h.completed.length) (hx : (s.rw p).posted = some (b, x))
    (hhead : x.i0 = h.completed[h.processed.length]) :
    ({ s.wakeup (.buf b) with
      onDisk := Function.update s.onDisk b false
      disk := { s.disk with usedIdx := s.disk.usedIdx + 1 } }.setIntr c .test).Inv
        (VirtioSys.processes h h.completed[h.processed.length]) := by
  have hlocked : (s.intr c).locked = true := by rw [hc]; rfl
  have hsame : IntrPc.test.locked = (s.intr c).locked := hlocked.symm
  refine ⟨hi.locked.frame (fun _ => rfl) (locked_update hsame) rfl,
    hi.chains.frame (fun _ => rfl) rfl, hi.formatted.frame hi.chains (fun _ => rfl) (fun _ _ => rfl) rfl,
    hi.owned, ⟨fun q hq => ?_, fun q b' hq => ?_⟩, .processes hi hlt hx hhead rfl ⟨rfl, rfl⟩ rfl rfl fun e he => ?_,
    hi.panic⟩
  · exact hi.sleepers.free q (asleep_of_wakeup hq).1
  · obtain ⟨hq, hne⟩ := asleep_of_wakeup (k := .buf b) hq
    obtain ⟨hwait, hon⟩ := hi.sleepers.buf q b' hq
    refine ⟨hwait, ?_⟩
    have hb : b' ≠ b := fun heq => hne (by rw [heq])
    exact (update_of_ne hb ..).trans hon
  · -- no other CPU is in the handler with the lock
    have he' : (s.intr e).locked = true := by
      rw [← locked_update hsame e]
      exact (congrArg IntrPc.locked he).trans rfl
    have heq : e = c := by
      simpa using ((hi.locked.intr e).mp he').symm.trans ((hi.locked.intr c).mp hlocked)
    rw [heq] at he
    have htest : Function.update s.intr c .test c = .entry := he
    rw [update_self] at htest
    cases htest

/-- A step of the handler. -/
theorem Inv.handle (hi : s.Inv h) (hs : s.handle c = some s') : s'.Inv (h.next s (.handle c)) := by
  unfold VirtioSys.handle at hs
  unfold VirtioHist.next
  cases hc : s.intr c with
  | out => simp [hc] at hs
  | lock =>
    simp only [hc] at hs ⊢
    split at hs
    · next hfree =>
      cases hs
      exact hi.setIntr (hi.locked.setIntr (Or.inl hfree) rfl rfl rfl) rfl (by simp)
    · cases hs
  | test =>
    simp only [hc] at hs ⊢
    cases hs
    split_ifs with hne
    · exact hi.setIntr (hi.locked.frame (fun _ => rfl) (locked_update (by rw [hc]; rfl)) rfl) rfl fun _ => hne
    · have hheld := (hi.locked.intr c).mp (by rw [hc]; rfl)
      exact hi.setIntr (hi.locked.setIntr (Or.inr hheld) rfl rfl rfl) rfl (by simp)
  | entry =>
    simp only [hc] at hs ⊢
    obtain ⟨hlt, p, b, x, hring, hx, hhead, hstatus, hinfo⟩ := hi.entry hc
    rw [hhead] at hstatus hinfo
    rw [hring] at hs ⊢
    simp only [hstatus, hinfo, ne_eq, not_true_eq_false, if_false] at hs
    cases hs
    exact hi.processes hc hlt hx hhead

/-! ## Every run -/

theorem Owned.call {write : Bool} (ho : s.Owned) (hb : s.holder b = some p) :
    (s.goto p (.lock b write)).Owned := by
  intro q b' hq
  rw [goto_rw] at hq
  by_cases hqp : q = p
  · rw [hqp, update_self] at hq
    cases hq
    rw [hqp]
    exact hb
  · rw [update_of_ne hqp] at hq
    exact ho q b' hq

/-- A process calls `virtio_disk_rw`. -/
theorem Inv.call {write : Bool} (hi : s.Inv h) (hrw : s.rw p = .out) (hb : s.holder b = some p) :
    (s.goto p (.lock b write)).Inv h := by
  exact ⟨hi.locked.frame (update_rw_eq hrw rfl) (fun _ => rfl) rfl,
    hi.chains.frame (update_rw_eq hrw rfl) rfl,
    hi.formatted.frame hi.chains (update_rw_eq hrw rfl) (fun _ _ => rfl) rfl, hi.owned.call hb,
    hi.sleepers.goto (hi.sleepers.awake (by simp [hrw]) (by simp [hrw])) (fun _ _ hk => hk) rfl fun _ hb => hb,
    hi.pending.frame (.refl s) (update_rw_eq hrw rfl)
      (fun q b' y hq => goto_eq hq (by simp))
      (fun q b' y hq => hi.pending.reclaim q b' y (goto_eq hq (by simp))) hi.pending.entry, hi.panic⟩

/-- A buffer is locked or unlocked that no request uses. -/
theorem Inv.setHolder {o : Option P} (hi : s.Inv h) (hfree : ∀ q, (s.rw q).buf ≠ some b) :
    ({ s with holder := Function.update s.holder b o } : VirtioSys P C B).Inv h := by
  refine ⟨hi.locked.frame (fun _ => rfl) (fun _ => rfl) rfl, hi.chains.frame (fun _ => rfl) rfl, hi.formatted,
    fun q b' hq => ?_, ⟨hi.sleepers.free, hi.sleepers.buf⟩,
    hi.pending.frame (.refl s) (fun _ => rfl) (fun _ _ _ hq => hq)
      hi.pending.reclaim hi.pending.entry, hi.panic⟩
  have hne : b' ≠ b := by
    rintro rfl
    exact hfree q hq
  exact (update_of_ne hne ..).trans (hi.owned q b' hq)

/-- A process is woken by something else. -/
theorem Inv.rouse (hi : s.Inv h) (p : P) :
    ({ s with asleep := Function.update s.asleep p none } : VirtioSys P C B).Inv h := by
  refine ⟨hi.locked.frame (fun _ => rfl) (fun _ => rfl) rfl, hi.chains.frame (fun _ => rfl) rfl, hi.formatted,
    hi.owned, hi.sleepers.frame (fun q k hq => ?_) (fun _ _ => rfl) fun _ hb => hb,
    hi.pending.frame (.refl s) (fun _ => rfl) (fun _ _ _ hq => hq)
      hi.pending.reclaim hi.pending.entry, hi.panic⟩
  have hne : q ≠ p := by
    rintro rfl
    cases (update_self q none s.asleep).symm.trans hq
  exact (update_of_ne hne ..).symm.trans hq

/-- What a step does to the invariant, whoever makes it. -/
theorem Inv.step {a : VirtioAct P C B} (hi : s.Inv h) (hs : s.step a = some s') : s'.Inv (h.next s a) := by
  unfold VirtioSys.step at hs
  rw [if_neg (by simp [hi.panic])] at hs
  cases a with
  | acquiresleep p b =>
    dsimp only at hs
    split at hs
    · next hfree =>
      cases hs
      refine hi.setHolder fun q hq => ?_
      cases hfree.symm.trans (hi.owned q b hq)
    · cases hs
  | releasesleep p b =>
    dsimp only at hs
    split at hs
    · next hout =>
      obtain ⟨hheld, rfl⟩ := of_guard hs
      refine hi.setHolder fun q hq => ?_
      obtain rfl := Option.some.inj (hheld.symm.trans (hi.owned q b hq))
      rw [hout] at hq
      cases hq
    · cases hs
  | call p b write =>
    dsimp only at hs
    split at hs
    · next hout =>
      obtain ⟨hheld, rfl⟩ := of_guard hs
      exact hi.call hout hheld
    · cases hs
  | run p => exact hi.run hs
  | rouse p =>
    cases hs
    exact hi.rouse p
  | intr c =>
    dsimp only at hs
    split at hs
    · next hout =>
      cases hs
      exact hi.setIntr (hi.locked.frame (fun _ => rfl) (locked_update (by rw [hout]; rfl)) rfl) rfl (by simp)
    · cases hs
  | handle c => exact hi.handle hs
  | take =>
    obtain ⟨hne, rfl⟩ := of_guard hs
    exact hi.take hne
  | complete i =>
    obtain ⟨hmem, rfl⟩ := of_guard hs
    exact hi.complete hmem

theorem onDisk_acquire (hs : s.acquire p pc = some s') : s'.onDisk = s.onDisk := by
  unfold VirtioSys.acquire at hs
  split at hs
  · cases hs
    rfl
  · cases hs

/-- `virtio_disk_rw` does not clear `b->disk`. -/
theorem onDisk_run (hs : s.run p = some s') (hb : s.onDisk b = true) : s'.onDisk b = true := by
  unfold VirtioSys.run at hs
  split at hs
  · cases hs
  · rwa [onDisk_acquire hs]
  · split at hs <;> cases hs
    · exact hb
    · exact hb
    · split_ifs <;> exact hb
  · rwa [onDisk_acquire hs]
  · next b' write x _ =>
    cases hs
    by_cases hbb : b = b'
    · simp [goto, hbb]
    · simpa [goto, hbb] using hb
  · cases hs
    exact hb
  · cases hs
    split_ifs <;> exact hb
  · rwa [onDisk_acquire hs]
  · split at hs <;> cases hs
    · exact hb
    · exact hb

/-- `b->disk` is cleared by the handler, at the entry of the request of `b`. -/
theorem Inv.onDisk_handle (hi : s.Inv h) (hs : s.handle c = some s') (hb : s.onDisk b = true)
    (hb' : s'.onDisk b = false) :
    ∃ p x, (s.rw p).posted = some (b, x) ∧ x.i0 ∈ h.completed.drop h.processed.length := by
  unfold VirtioSys.handle at hs
  cases hc : s.intr c with
  | out => simp [hc] at hs
  | lock =>
    simp only [hc] at hs
    split at hs
    · cases hs
      cases hb.symm.trans hb'
    · cases hs
  | test =>
    simp only [hc] at hs
    cases hs
    split_ifs at hb' <;> cases hb.symm.trans hb'
  | entry =>
    simp only [hc] at hs
    obtain ⟨hlt, p, b', x, hring, hx, hhead, hstatus, hinfo⟩ := hi.entry hc
    rw [hring, ← hhead] at hs
    simp only [hstatus, hinfo, ne_eq, not_true_eq_false, if_false] at hs
    cases hs
    have hbb : b = b' := by
      by_contra hne
      exact absurd (hb.symm.trans ((update_of_ne hne ..).symm.trans hb')) (by simp)
    refine ⟨p, x, hbb ▸ hx, ?_⟩
    rw [hhead, List.drop_eq_getElem_cons hlt]
    exact List.mem_cons_self

/-- Whatever step clears `b->disk`, the device has completed the chain of `b`. -/
theorem Inv.onDisk_step {a : VirtioAct P C B} (hi : s.Inv h) (hs : s.step a = some s')
    (hb : s.onDisk b = true) (hb' : s'.onDisk b = false) :
    ∃ p x, (s.rw p).posted = some (b, x) ∧ x.i0 ∈ h.completed.drop h.processed.length := by
  unfold VirtioSys.step at hs
  rw [if_neg (by simp [hi.panic])] at hs
  cases a with
  | run p =>
    rw [onDisk_run hs hb] at hb'
    cases hb'
  | handle c => exact hi.onDisk_handle hs hb hb'
  | _ =>
    -- no other step touches `b->disk`
    dsimp only at hs
    repeat' split at hs
    all_goals cases hs
    all_goals cases hb.symm.trans hb'

theorem eq_iff_of_prefix {α : Type} {l m : List α} (h : l <+: m) : l = m ↔ m.length = l.length :=
  ⟨fun heq => by rw [heq], fun heq => h.eq_of_length heq.symm⟩

end VirtioSys

/-- The invariant holds in every state of every run. -/
theorem virtio_inv {P C B : Type} [DecidableEq P] [DecidableEq C] [DecidableEq B]
    {s : VirtioSys P C B} {h : VirtioHist P} (hr : (virtioMachine P C B).Reachable (s, h)) : s.Inv h := by
  refine hr.invariant (I := fun x => x.1.Inv x.2) (fun x h0 => ?_) fun x a y _ hx _ hs => ?_
  · obtain ⟨h0, h1⟩ := h0
    rw [h1]
    exact VirtioSys.init_inv h0
  · obtain ⟨hs, hh⟩ := Machine.observe_step.mp hs
    rw [hh]
    exact hx.step hs

/-- The request protocol, in every state of every run. The descriptors that are not free are the disjoint union of the
chains of the requests; `info` has the buffer of the request that owns a head; `b->disk` is cleared only
when the device has completed the chain of `b`, and nobody sleeps on a buffer that is done; the rings are gone
through without a skip or a repetition; nothing panics; and an `alloc3_desc` that fails leaves `free`
as it was. -/
theorem virtio_protocol {P C B : Type} [DecidableEq P] [DecidableEq C] [DecidableEq B]
    {s : VirtioSys P C B} {h : VirtioHist P} (hr : (virtioMachine P C B).Reachable (s, h)) :
    (∀ i < NUM, s.disk.free i = false ↔ ∃ p x, (s.rw p).chain = some x ∧ i ∈ x.toList) ∧
    (∀ p x, (s.rw p).chain = some x → x.toList.Nodup ∧ ∀ i ∈ x.toList, i < NUM) ∧
    (∀ p q x y, (s.rw p).chain = some x → (s.rw q).chain = some y → p ≠ q → x.toList.Disjoint y.toList) ∧
    (∀ p b x, (s.rw p).formatted = some (b, x) → s.disk.infoB x.i0 = some b) ∧
    (∀ a s' b, s.step a = some s' → s.onDisk b = true → s'.onDisk b = false →
      ∃ p x, (s.rw p).posted = some (b, x) ∧ h.done p = true ∧ h.owner x.i0 = some p) ∧
    (∀ p b x, (s.rw p).posted = some (b, x) → s.onDisk b = false → h.done p = true) ∧
    (∀ p b, s.asleep p = some (.buf b) → s.onDisk b = true) ∧
    (h.taken <+: h.posted ∧ (s.devIdx = s.disk.availIdx ↔ h.taken = h.posted)) ∧
    (h.processed <+: h.completed ∧ (s.disk.usedIdx = s.disk.usedRingIdx ↔ h.processed = h.completed)) ∧
    s.panic = none ∧
    ∀ d w, s.disk.alloc3Desc = .ok (none, d, w) → d.free = s.disk.free := by
  have hi := virtio_inv hr
  have hp := hi.pending
  refine ⟨fun i hlt => ⟨hi.chains.covered i hlt, ?_⟩, ?_, ?_, ?_, ?_, ?_, ?_, ⟨hp.taken, ?_⟩, ⟨hp.processed, ?_⟩,
    hi.panic, ?_⟩
  · rintro ⟨p, x, hx, hmem⟩
    exact ((hi.chains.mem p x hx).2 i hmem).2
  · intro p x hx
    exact ⟨(hi.chains.mem p x hx).1, fun i hmem => ((hi.chains.mem p x hx).2 i hmem).1⟩
  · intro p q x y hx hy hne i hix hiy
    exact hne (hi.chains.sole p q x y i hx hy hix hiy)
  · intro p b x hx
    exact (hi.formatted p b x hx).2
  · intro a s' b hs hb hb'
    obtain ⟨p, x, hx, hmem⟩ := hi.onDisk_step hs hb hb'
    exact ⟨p, x, hx, hp.done p b x hx (Or.inl hmem), hp.owner p b x hx⟩
  · intro p b x hx hoff
    exact hp.done p b x hx (Or.inr hoff)
  · intro p b hs
    exact (hi.sleepers.buf p b hs).2
  · rw [VirtioSys.eq_iff_of_prefix hp.taken]
    exact hp.avail.empty_iff (by decide)
  · rw [VirtioSys.eq_iff_of_prefix hp.processed]
    exact hp.used.empty_iff (by decide)
  · intro d w hd
    exact (VirtioDisk.alloc3Desc_none hd).1

/-- A driver with two processes, two buffers and one CPU. -/
def twoBuffers : VirtioSys Bool Unit Bool where
  disk := ⟨fun _ => ⟨.null, 0, 0, 0⟩, 0, fun _ => 0, 0, fun _ => 0, fun _ => true, 0, fun _ => none, fun _ => 0,
    fun _ => ⟨0, 0⟩⟩
  onDisk := fun _ => false
  blockno := fun b => if b then 1 else 0
  holder := fun _ => none
  vdiskLock := none
  rw := fun _ => .out
  asleep := fun _ => none
  intr := fun _ => .out
  devIdx := 0
  devTaken := []
  panic := none

/-- Two requests are posted, the device completes the second one first, and the handler wakes its owner. -/
theorem virtio_protocol_two : ∃ x : VirtioSys Bool Unit Bool × VirtioHist Bool,
    (virtioMachine Bool Unit Bool).Reachable x ∧
    (x.2.posted = [0, 3] ∧ x.2.completed = [3] ∧ x.1.asleep true = none ∧ x.1.asleep false = some (.buf false)) ∧
    x.1.onDisk false = true ∧ x.1.panic = none := by
  have h0 : twoBuffers.Init :=
    ⟨fun _ _ => rfl, rfl, rfl, rfl, rfl, rfl, fun _ => rfl, fun _ => rfl, fun _ => rfl, rfl, rfl⟩
  obtain ⟨x, hr, hx⟩ := Machine.reachable_of_exec (M := virtioMachine Bool Unit Bool) (s := (twoBuffers, .start))
    ⟨h0, rfl⟩
    ([false, true].flatMap (fun p => [.acquiresleep p p, .call p p true, .run p, .run p, .run p, .run p, .run p])
      ++ [.take, .take, .complete 3, .intr (), .handle (), .handle (), .handle (), .handle ()])
    (fun x => x.2.posted = [0, 3] ∧ x.2.completed = [3] ∧ x.1.asleep true = none ∧
      x.1.asleep false = some (.buf false)) (by decide +kernel)
  obtain ⟨-, -, -, -, -, -, hasleep, -, -, hpanic, -⟩ := virtio_protocol hr
  exact ⟨x, hr, hx, hasleep false false hx.2.2.2, hpanic⟩

end Xv6
