import Xv6.LogSteps

/-!
# The steps of commit() and recover_from_log()

Each step of the process in commit() or recover_from_log() keeps the invariant of the log
(`LogInv.run`). Most are steps of the cache; the others are

* the write of a log block (`LogInv.write_log`) and of a home block (`LogInv.write_home`), and the bunpin
  after it (`LogInv.unpin`);
* the reading of the header (`LogInv.read_head`) and its two writes : the one that commits
  (`LogInv.write_head`) and the one that erases the transaction (`LogInv.clear_head`);
* the ends of the loops (`LogInv.next_copy`) and of the whole (`LogInv.clear_put`,
  `LogInv.finish`).
-/

set_option linter.unusedSectionVars false

namespace Xv6

open Function (update_self update_of_ne)

variable {P : Type*} [DecidableEq P] {start : ℕ} {d₀ disk : ℕ → Block} {s s' : LogSys P}
  {h h' : LogHist P} {p q : P} {i : BufId} {b j k : ℕ} {d : Block} {txs : List Tx} {t : Tx}

/-! ## The disk -/

theorem not_home (h₁ : start ≤ b) (h₂ : b ≤ start + LOGBLOCKS) : ¬ LogSys.home start b := by
  unfold LogSys.home
  omega

theorem home_start : ¬ LogSys.home start start :=
  not_home (Nat.le_refl _) (Nat.le_add_right _ _)

theorem WfHead.not_home {lh : List ℕ} (hwf : WfHead start lh) (hj : j < lh.length) :
    ¬ LogSys.home start (start + j + 1) :=
  Xv6.not_home (by omega) (by have := hwf.length; omega)

theorem WfHead.nil : WfHead start [] :=
  ⟨List.nodup_nil, Nat.zero_le _, by simp, by simp⟩

/-- A write to a log block. -/
theorem Clean.update_log (hc : Clean start d₀ disk txs) (hb : ¬ LogSys.home start b) (hne : b ≠ start) :
    Clean start d₀ (Function.update disk b d) txs where
  head := by rw [update_of_ne hne.symm, hc.head]
  home b' hb' := by
    rw [update_of_ne (by rintro rfl; exact hb hb'), hc.home b' hb']

/-- A write to a home block, of a transaction that is installed up to there at least. -/
theorem Sealed.install (hS : Sealed start d₀ disk txs t k) (hwf : WfHead start (places t))
    (hj : j < t.length) (hjk : j ≤ k) :
    Sealed start d₀ (Function.update disk t[j].1 t[j].2) txs t (max k (j + 1)) := by
  have hhome : LogSys.home start t[j].1 := hwf.home _ (List.mem_map_of_mem (List.getElem_mem hj))
  have hover : Function.update (overlay (replay d₀ txs) (t.take k)) t[j].1 t[j].2 =
      overlay (replay d₀ txs) (t.take (max k (j + 1))) := by
    obtain rfl | hlt := Nat.eq_or_lt_of_le hjk
    · rw [max_eq_right (by omega), overlay_take_succ hj]
    · rw [max_eq_left (by omega), update_overlay_take hwf.nodup hj hlt]
  refine ⟨?_, fun j' hj' => ?_, fun b hb => ?_⟩
  · rw [update_of_ne (by intro heq; exact home_start (heq ▸ hhome)), hS.head]
  · rw [update_of_ne, hS.logged j' hj']
    intro heq
    exact hwf.not_home (by simpa using hj') (heq ▸ hhome)
  · rw [← hover, Function.update_apply, Function.update_apply, hS.home b hb]

theorem Installing.length {u w : ℕ} (hg : Installing start d₀ s h t k u w) :
    t.length = s.lh.length := by
  rw [← hg.places, length_places]

/-- The contents of a buffer that is held. -/
theorem Bufs.Over.held {c : Bufs P} {pins : BufId → ℕ} {l : List ℕ} (ho : c.Over disk pins l t)
    (hr : ⟨p, i, .holds⟩ ∈ c.refs) (hb : (c.buf i).blockno = some b) :
    (c.buf i).valid = true ∧ (c.buf i).data = overlay disk t b := by
  have hlock := (ho.inv.lock i p).mpr hr
  have hv := ho.inv.valid i (by simp [hlock])
  exact ⟨hv, ho.data i b hb hv⟩

/-! ## Writes -/

/-- A bwrite by the process in commit() or recover_from_log(). -/
theorem LogInv.run_bwrite {next : OpPc} (hI : LogInv start d₀ s h) (hp : (s.pc p).busy = true)
    (hmem : ⟨p, i, .holds⟩ ∈ (s.pc p).locals p) (hb : (s.bufs.buf i).blockno = some b)
    (hactive : h'.active = h.active) (hpins : h'.pins = h.pins) (hbusy : next.busy = true)
    (hrec : next.recovers = (s.pc p).recovers) (hlocals : ((s.pc p).locals p).Perm (next.locals p))
    (hroles : next.roles start s.lh ⊆ (s.pc p).roles start s.lh)
    (hdisk : DiskInv start d₀ (Function.update s.disk b d) h'.done h'.last)
    (hinv : BusyInv start d₀
      { s with bufs := s.bufs.setData i d, disk := Function.update s.disk b d } h' next) :
    LogInv start d₀ (s.bwrite p i d next) h' := by
  have hholds := (hI.owns p hp).mem hmem rfl
  rw [LogSys.bwrite, if_pos (hI.bufs.holding hholds)]
  simp only [hb]
  refine hI.of_run hp rfl rfl rfl rfl rfl hactive hbusy hrec hdisk ?_ hI.lh ?_ (fun x hx => ?_) ?_
  · rw [hpins]
    exact hI.bufs.setData i d
  · exact fun r hr => (hI.owns p hp).perm hlocals r hr
  · exact (Bufs.setData_blockno s.bufs i x.1 d).1.trans (hI.blocks p hp x (hroles hx))
  · exact hinv.congr rfl rfl fun _ _ => id

section Copy

variable {tail : ℕ} {l x : BufId} {kind : CopyKind} {pc pc' : CopyPc}

/-- What the process knows between the two breads of a round and the bwrite. -/
theorem LogInv.held (hI : LogInv start d₀ s h) (hpc : s.pc p = .copy kind tail (.write l x)) :
    (⟨p, x, .holds⟩ ∈ s.bufs.refs ∧ (s.bufs.buf x).blockno = some (s.lh.getD tail 0)) ∧
    ⟨p, l, .holds⟩ ∈ s.bufs.refs ∧ (s.bufs.buf l).blockno = some (start + tail + 1) := by
  have hp := LogSys.busy_of hpc rfl
  have howns := hI.owns p hp
  have hblocks := hI.blocks p hp
  rw [hpc] at howns hblocks
  exact ⟨⟨howns.mem List.mem_cons_self rfl, hblocks _ (List.mem_cons_of_mem _ List.mem_cons_self)⟩,
    howns.mem (List.mem_cons_of_mem _ List.mem_cons_self) rfl, hblocks _ List.mem_cons_self⟩

/-- write_log copies a block of the cache to the log. -/
theorem LogInv.write_log (hI : LogInv start d₀ s h) (hpc : s.pc p = .copy .writeLog tail (.write l x)) :
    LogInv start d₀ (s.bwrite p l (s.bufs.buf x).data (.copy .writeLog tail (.unlock x l))) h := by
  have hp := LogSys.busy_of hpc rfl
  have hbusy := hI.busy p hp
  rw [hpc] at hbusy
  obtain ⟨htail, -, hg⟩ := hbusy
  obtain ⟨⟨hx, hxb⟩, -, hlb⟩ := hI.held hpc
  have hlen : tail < h.pending.length := by rwa [← length_places, hg.places]
  have hlog := hI.lh.not_home htail
  -- the cache holds the pending write
  have hdata : (s.bufs.buf x).data = h.pending[tail].2 := by
    rw [(hg.cache.held hx hxb).2]
    refine overlay_of_mem (hg.places ▸ hI.lh.nodup) ?_
    rw [← hg.places, getD_places hlen]
    exact List.getElem_mem hlen
  have hclean := hg.clean.update_log (d := (s.bufs.buf x).data) hlog (by omega)
  refine hI.run_bwrite hp (by rw [hpc]; exact List.mem_cons_of_mem _ List.mem_cons_self) hlb rfl rfl rfl
    (by rw [hpc]; rfl) (by rw [hpc]; exact .refl _) (List.nil_subset _) ?_ ?_
  · rw [hg.last]
    exact hclean
  · refine ⟨htail, rfl, hg.last, hclean, hg.places, hg.cache.write hlb ?_, fun j hj hjk => ?_⟩
    · rw [hg.places]
      exact fun hmem => hlog (hI.lh.home _ hmem)
    · dsimp only
      obtain rfl | hne := eq_or_ne j tail
      · rw [update_self, hdata]
      · rw [update_of_ne (by omega)]
        refine hg.logged j hj ?_
        simp only [CopyPc.written] at hjk ⊢
        omega

/-- The log block of a transaction that is being installed. -/
theorem Installing.log_data {u w : ℕ} (hg : Installing start d₀ s h t k u w) (hlh : WfHead start s.lh)
    (htail : tail < t.length) (hl : ⟨p, l, .holds⟩ ∈ s.bufs.refs)
    (hlb : (s.bufs.buf l).blockno = some (start + tail + 1)) : (s.bufs.buf l).data = t[tail].2 := by
  rw [(hg.cache.held hl hlb).2, overlay_of_not_mem, hg.placed.logged tail htail]
  rw [places_drop, hg.places]
  intro hmem
  exact hlh.not_home (hg.length ▸ htail) (hlh.home _ (List.mem_of_mem_drop hmem))

/-- install_trans copies a block of the log to its home. -/
theorem LogInv.write_home {recovering : Bool} (hI : LogInv start d₀ s h)
    (hpc : s.pc p = .copy (.install recovering) tail (.write l x)) :
    LogInv start d₀ (s.bwrite p x (s.bufs.buf l).data
      (.copy (.install recovering) tail (if recovering then .unlock l x else .unpin l x))) h := by
  have hp := LogSys.busy_of hpc rfl
  have hbusy := hI.busy p hp
  rw [hpc] at hbusy
  obtain ⟨⟨hx, hxb⟩, hl, hlb⟩ := hI.held hpc
  have hmem : ⟨p, x, .holds⟩ ∈ (s.pc p).locals p := by rw [hpc]; exact List.mem_cons_self
  cases recovering with
  | false =>
    obtain ⟨htail, t, hg⟩ := hbusy
    have hlen : tail < t.length := hg.length ▸ htail
    have hnodup : (places t).Nodup := hg.places ▸ hI.lh.nodup
    have hsealed := hg.placed.install (hg.places ▸ hI.lh) hlen (Nat.le_refl _)
    have hover := hg.cache
    rw [← hg.places, getD_places hlen] at hxb
    simp only [CopyPc.written, CopyPc.unpinned, Nat.add_zero] at hsealed hover
    rw [max_eq_right (by omega)] at hsealed
    rw [List.drop_eq_getElem_cons hlen] at hover
    rw [hg.log_data hI.lh hlen hl hlb]
    refine hI.run_bwrite hp hmem hxb rfl rfl rfl (by rw [hpc]; rfl) (by rw [hpc]; exact .refl _)
      (by rw [hpc]; exact List.Subset.refl _) ?_ ?_
    · rw [hg.last]
      exact ⟨hg.places ▸ hI.lh, Or.inl ⟨_, hsealed⟩⟩
    · refine ⟨htail, t, hg.last, hsealed, hg.places, hg.pending, hover.install hxb ?_⟩
      have hcons := hnodup.sublist (List.drop_sublist tail _)
      rw [← places_drop, List.drop_eq_getElem_cons hlen, places_cons, List.nodup_cons] at hcons
      exact hcons.1
  | true =>
    obtain ⟨htail, -, t, k, hk, hg⟩ := hbusy
    have hlen : tail < t.length := hg.length ▸ htail
    have hsealed := hg.placed.install (hg.places ▸ hI.lh) hlen hk
    rw [← hg.places, getD_places hlen] at hxb
    rw [hg.log_data hI.lh hlen hl hlb]
    refine hI.run_bwrite hp hmem hxb rfl rfl rfl (by rw [hpc]; rfl)
      (by rw [hpc]; exact .swap _ _ _) (List.nil_subset _) ?_ ?_
    · rw [hg.last]
      exact ⟨hg.places ▸ hI.lh, Or.inl ⟨_, hsealed⟩⟩
    · refine ⟨htail, rfl, t, _, le_max_right _ _, hg.last, hsealed, hg.places, hg.pending,
        hg.cache.write hxb ?_⟩
      rw [← hg.length, List.drop_length]
      exact List.not_mem_nil

/-- install_trans unpins the block it has written. -/
theorem LogInv.unpin (hI : LogInv start d₀ s h)
    (hpc : s.pc p = .copy (.install false) tail (.unpin l x)) :
    LogInv start d₀ ({ s with bufs := s.bufs.bunpin x }.goto p (.copy (.install false) tail (.unlock l x)))
      { h with pins := Function.update h.pins x (h.pins x - 1) } := by
  have hp := LogSys.busy_of hpc rfl
  have hbusy := hI.busy p hp
  have howns := hI.owns p hp
  have hblocks := hI.blocks p hp
  rw [hpc] at hbusy howns hblocks
  obtain ⟨htail, t, hg⟩ := hbusy
  have hxb := hblocks _ (List.mem_cons_of_mem _ List.mem_cons_self)
  have hlen : tail < t.length := hg.length ▸ htail
  have hover := hg.cache
  simp only [CopyPc.written, CopyPc.unpinned, Nat.add_zero] at hover
  rw [List.drop_eq_getElem_cons htail] at hover
  have hxb' : (s.bufs.buf x).blockno = some s.lh[tail] := by
    rw [hxb, List.getD_eq_getElem?_getD, List.getElem?_eq_getElem htail, Option.getD_some]
  have hnodup := hI.lh.nodup.sublist (List.drop_sublist tail _)
  rw [List.drop_eq_getElem_cons htail, List.nodup_cons] at hnodup
  have hover' := hover.bunpin hxb' (by rw [places_drop, hg.places]; exact hnodup.1)
  refine hI.of_run hp rfl rfl rfl rfl rfl rfl rfl (by rw [hpc]; rfl) hI.disk hover'.inv hI.lh ?_
    (fun x hx => by cases hx) ⟨htail, t, hg.last, hg.placed, hg.places, hg.pending, hover'⟩
  exact fun r hr => howns.perm (.swap _ _ _) r hr

end Copy

/-! ## The header -/

section Head

variable {kind : HeadKind}

/-- What the process knows of the header block when it reads or writes it. -/
theorem LogInv.held_head (hI : LogInv start d₀ s h) (hpc : s.pc p = .head kind (.io i)) :
    ⟨p, i, .holds⟩ ∈ s.bufs.refs ∧ (s.bufs.buf i).blockno = some start := by
  have hp := LogSys.busy_of hpc rfl
  have howns := hI.owns p hp
  have hblocks := hI.blocks p hp
  rw [hpc] at howns hblocks
  exact ⟨howns.mem List.mem_cons_self rfl, hblocks _ List.mem_cons_self⟩

/-- What the header says is well formed. -/
theorem DiskInv.wf_head {last : Option Tx} (hd : DiskInv start d₀ disk txs last) :
    WfHead start (readHead (disk start)) := by
  cases last with
  | none =>
    rw [Clean.head hd]
    exact .nil
  | some t =>
    obtain ⟨hwf, ⟨k, hS⟩ | hc⟩ := hd
    · rwa [hS.head]
    · rw [hc.head]
      exact .nil

/-- read_head. -/
theorem LogInv.read_head (hI : LogInv start d₀ s h) (hpc : s.pc p = .head .read (.io i)) :
    LogInv start d₀ ({ s with lh := readHead (s.bufs.buf i).data }.goto p (.head .read (.unlock i))) h := by
  have hp := LogSys.busy_of hpc rfl
  have hbusy := hI.busy p hp
  have howns := hI.owns p hp
  rw [hpc] at hbusy howns
  obtain ⟨hi, hib⟩ := hI.held_head hpc
  have hdata : (s.bufs.buf i).data = s.disk start := (hbusy.1.cache.held hi hib).2
  rw [hdata]
  exact hI.of_run hp rfl rfl rfl rfl rfl rfl rfl (by rw [hpc]; rfl) hI.disk hI.bufs hI.disk.wf_head
    howns (fun x hx => by cases hx) ⟨⟨hbusy.1.pending, hbusy.1.cache⟩, fun _ => rfl⟩

/-- The write of the header is the commit. -/
theorem LogInv.write_head (hI : LogInv start d₀ s h) (hpc : s.pc p = .head .commit (.io i)) :
    LogInv start d₀ (s.bwrite p i (fillHead (s.bufs.buf i).data s.lh) (.head .commit (.unlock i)))
      { h with last := some h.pending, pending := [] } := by
  have hp := LogSys.busy_of hpc rfl
  have hg := hI.busy p hp
  rw [hpc] at hg
  replace hg : Gathering start d₀ s h s.lh.length := hg
  obtain ⟨hi, hib⟩ := hI.held_head hpc
  have hwf : WfHead start (places h.pending) := hg.places ▸ hI.lh
  have hsealed : Sealed start d₀ (Function.update s.disk start (fillHead (s.bufs.buf i).data s.lh)) h.done
      h.pending 0 := by
    refine ⟨?_, fun j hj => ?_, fun b hb => ?_⟩
    · rw [update_self, readHead_fillHead _ hI.lh.length hI.lh.lt, hg.places]
    · rw [update_of_ne (by omega)]
      exact hg.logged j hj (by rwa [← hg.places, length_places])
    · rw [update_of_ne (by rintro rfl; exact home_start hb)]
      exact hg.clean.home b hb
  refine hI.run_bwrite hp (by rw [hpc]; exact List.mem_cons_self) hib rfl rfl rfl (by rw [hpc]; rfl)
    (by rw [hpc]; exact .refl _) (List.nil_subset _) ⟨hwf, Or.inl ⟨0, hsealed⟩⟩ ?_
  refine ⟨h.pending, rfl, hsealed, hg.places, rfl, hg.cache.write hib fun hmem => ?_⟩
  exact home_start (hwf.home _ hmem)

/-- The second write of the header erases the transaction. -/
theorem LogInv.clear_head {recovering : Bool} (hI : LogInv start d₀ s h)
    (hpc : s.pc p = .head (.clear recovering) (.io i)) :
    LogInv start d₀
      (s.bwrite p i (fillHead (s.bufs.buf i).data s.lh) (.head (.clear recovering) (.unlock i))) h := by
  have hp := LogSys.busy_of hpc rfl
  have hbusy := hI.busy p hp
  rw [hpc] at hbusy
  obtain ⟨he, hlh, hhome, -⟩ := hbusy
  obtain ⟨hi, hib⟩ := hI.held_head hpc
  have hread : readHead (Function.update s.disk start (fillHead (s.bufs.buf i).data s.lh) start) = [] := by
    rw [update_self, readHead_fillHead _ hI.lh.length hI.lh.lt, hlh]
  have hhome' : ∀ b, LogSys.home start b → Function.update s.disk start
      (fillHead (s.bufs.buf i).data s.lh) b = replay d₀ (h.done ++ h.last.toList) b := fun b hb => by
    rw [update_of_ne (by rintro rfl; exact home_start hb), hhome b hb]
  refine hI.run_bwrite hp (by rw [hpc]; exact List.mem_cons_self) hib rfl rfl rfl (by rw [hpc]; rfl)
    (by rw [hpc]; exact .refl _) (List.nil_subset _) ?_ ?_
  · have hdisk := hI.disk
    cases hlast : h.last with
    | none =>
      rw [hlast, Option.toList_none, List.append_nil] at hhome'
      exact ⟨hread, hhome'⟩
    | some t =>
      rw [hlast] at hhome' hdisk
      exact ⟨hdisk.1, Or.inr ⟨hread, hhome'⟩⟩
  · exact ⟨⟨he.pending, he.cache.write hib List.not_mem_nil⟩, hlh, hhome', fun _ => hread⟩

end Head

/-! ## The loops -/

section Loops

variable {tail u w : ℕ} {y : BufId} {kind : CopyKind} {recovering : Bool}

theorem LogSys.put_goto (s : LogSys P) (p : P) (i : BufId) (pc pc' : OpPc) :
    (s.put p i pc).goto p pc' = s.put p i pc' := by
  simp [LogSys.put, LogSys.goto]

/-- After the last round of install_trans. -/
theorem Installing.installed (hg : Installing start d₀ s h t k u w) (hk : s.lh.length ≤ k)
    (hu : s.lh.length ≤ u) (hw : s.lh.length ≤ w) :
    BusyInv start d₀ { s with lh := [] } h (.head (.clear recovering) .get) := by
  have hover := hg.cache
  rw [List.drop_eq_nil_of_le hu, List.drop_eq_nil_of_le (hg.length.trans_le hw)] at hover
  refine ⟨⟨hg.pending, hover⟩, rfl, fun b hb => ?_, fun hd => by cases hd⟩
  rw [hg.last, Option.toList_some, replay_concat, ← List.take_of_length_le (hg.length.trans_le hk)]
  exact hg.placed.home b hb

theorem LogInv.next_copy (hI : LogInv start d₀ s h) (hpc : s.pc p = .copy kind tail (.putLast y)) :
    LogInv start d₀ ((s.put p y .out).nextCopy p kind tail) h := by
  have hp := LogSys.busy_of hpc rfl
  have hbusy := hI.busy p hp
  rw [hpc] at hbusy
  have hlocals : (s.pc p).locals p = [⟨p, y, .released⟩] := by rw [hpc]; rfl
  have hlh : (s.put p y .out).lh = s.lh := rfl
  unfold LogSys.nextCopy
  split_ifs with hnext
  · rw [LogSys.put_goto]
    refine hI.run_put hp rfl (by rw [hpc]; cases kind <;> rfl) hlocals rfl rfl ?_
    match kind with
    | .writeLog => exact ⟨hnext, rfl, hbusy.2.2⟩
    | .install false => exact ⟨hnext, hbusy.2⟩
    | .install true => exact ⟨hnext, rfl, hbusy.2.2⟩
  · rw [hlh] at hnext
    match kind with
    | .writeLog =>
      obtain ⟨htail, -, hg⟩ := hbusy
      have hlast : tail + 1 = s.lh.length := by omega
      simp only [CopyPc.written, hlast] at hg
      rw [LogSys.put_goto]
      exact hI.run_put hp rfl (by rw [hpc]; rfl) hlocals rfl rfl hg
    | .install recovering =>
      have hinv : BusyInv start d₀ { s with lh := [] } h (.head (.clear recovering) .get) := by
        cases recovering with
        | false =>
          obtain ⟨htail, t, hg⟩ := hbusy
          simp only [CopyPc.written, CopyPc.unpinned] at hg
          exact hg.installed (by omega) (by omega) (by omega)
        | true =>
          obtain ⟨htail, -, t, k, hk, hg⟩ := hbusy
          simp only [CopyPc.written] at hk
          exact hg.installed (by omega) (Nat.le_refl _) (Nat.le_refl _)
      have := hI.run_put_lh hp .nil rfl (by rw [hpc]; rfl) hlocals rfl rfl hinv
      simpa [LogSys.put, LogSys.goto, LogSys.afterCopy] using this

theorem LogInv.start_copy_commit (hI : LogInv start d₀ s h) (hpc : s.pc p = .head .commit (.put i)) :
    LogInv start d₀ ((s.put p i .out).startCopy p (.install false)) h := by
  have hp := LogSys.busy_of hpc rfl
  have hbusy := hI.busy p hp
  rw [hpc] at hbusy
  obtain ⟨t, hg⟩ : ∃ t, Installing start d₀ s h t 0 0 0 := hbusy
  have hlocals : (s.pc p).locals p = [⟨p, i, .released⟩] := by rw [hpc]; rfl
  have hlh : (s.put p i .out).lh = s.lh := rfl
  unfold LogSys.startCopy
  rw [hlh, LogSys.put_goto, LogSys.put_goto]
  split_ifs with hnil
  · refine hI.run_put hp rfl (by rw [hpc]; rfl) hlocals rfl rfl ?_
    have hinv : BusyInv start d₀ { s with lh := [] } h (.head (.clear false) .get) :=
      hg.installed (by simp [hnil]) (by simp [hnil]) (by simp [hnil])
    exact hinv.congr rfl hnil fun _ _ => id
  · exact hI.run_put hp rfl (by rw [hpc]; rfl) hlocals rfl rfl
      ⟨List.length_pos_of_ne_nil hnil, t, hg⟩

/-- Recovery installs the transaction that the header names, if it names one. -/
theorem LogInv.start_copy_read (hI : LogInv start d₀ s h) (hpc : s.pc p = .head .read (.put i)) :
    LogInv start d₀ ((s.put p i .out).startCopy p (.install true)) h := by
  have hp := LogSys.busy_of hpc rfl
  have hbusy := hI.busy p hp
  rw [hpc] at hbusy
  obtain ⟨he, hread⟩ := hbusy
  replace hread := hread rfl
  have hdisk := hI.disk
  have hlocals : (s.pc p).locals p = [⟨p, i, .released⟩] := by rw [hpc]; rfl
  have hlh : (s.put p i .out).lh = s.lh := rfl
  unfold LogSys.startCopy
  rw [hlh, LogSys.put_goto, LogSys.put_goto]
  split_ifs with hnil
  · refine hI.run_put hp rfl (by rw [hpc]; rfl) hlocals rfl rfl
      ⟨he, hnil, fun b hb => ?_, fun hd => by cases hd⟩
    cases hlast : h.last with
    | none =>
      rw [hlast] at hdisk
      simpa using hdisk.home b hb
    | some t =>
      rw [hlast] at hdisk
      obtain ⟨-, ⟨k, hS⟩ | hc⟩ := hdisk
      · have ht : t = [] := by
          rw [hS.head, hnil] at hread
          exact List.map_eq_nil_iff.mp hread.symm
        rw [hS.home b hb, ht, Option.toList_some, replay_concat, List.take_nil]
      · exact hc.home b hb
  · refine hI.run_put hp rfl (by rw [hpc]; rfl) hlocals rfl rfl
      ⟨List.length_pos_of_ne_nil hnil, ?_⟩
    cases hlast : h.last with
    | none =>
      rw [hlast] at hdisk
      exact absurd (hread.trans hdisk.head) hnil
    | some t =>
      rw [hlast] at hdisk
      obtain ⟨-, ⟨k, hS⟩ | hc⟩ := hdisk
      · have hlen : s.lh.length ≤ t.length := by
          rw [hread, hS.head, length_places]
        refine ⟨rfl, t, k, Nat.zero_le k, hlast, hS, hS.head.symm.trans hread.symm, he.pending, ?_⟩
        have hlen' : t.length ≤ s.lh.length := by
          rw [hread, hS.head, length_places]
        rw [List.drop_length, List.drop_eq_nil_of_le hlen']
        exact he.cache
      · exact absurd (hread.trans hc.head) hnil

/-- The transaction has been erased : it is one of those that are done. -/
theorem LogInv.erased (hI : LogInv start d₀ s h) (hpc : s.pc p = .head (.clear recovering) (.put i)) :
    s.lh = [] ∧ ⟨p, i, .released⟩ ∈ s.bufs.refs ∧
    Gathering start d₀ { s with bufs := s.bufs.put p i }
      { h with done := h.done ++ h.last.toList, last := none } 0 := by
  have hp := LogSys.busy_of hpc rfl
  have hbusy := hI.busy p hp
  have howns := hI.owns p hp
  rw [hpc] at hbusy howns
  obtain ⟨he, hlh, hhome, hhead⟩ := hbusy
  have hmem := howns.mem List.mem_cons_self rfl
  refine ⟨hlh, hmem, rfl, ⟨hhead rfl, hhome⟩, ?_, ?_, fun j _ hj => by omega⟩
  · simp [he.pending, hlh]
  · simp only [he.pending, hlh]
    exact he.cache.put hmem

/-- commit() returns. -/
theorem LogInv.clear_put (hI : LogInv start d₀ s h) (hpc : s.pc p = .head (.clear false) (.put i)) :
    LogInv start d₀ (s.put p i .finish) { h with done := h.done ++ h.last.toList, last := none } := by
  have hp := LogSys.busy_of hpc rfl
  have howns := hI.owns p hp
  rw [hpc] at howns
  obtain ⟨hlh, hmem, hg⟩ := hI.erased hpc
  exact hI.of_run hp rfl rfl rfl rfl rfl rfl rfl (by rw [hpc]; rfl) hg.clean hg.cache.inv hI.lh
    (howns.erase rfl) (fun x hx => by cases hx) ⟨hlh, hg.congr rfl rfl fun _ _ => id⟩

/-- recover_from_log() returns. -/
theorem LogInv.recovered (hI : LogInv start d₀ s h) (hpc : s.pc p = .head (.clear true) (.put i)) :
    LogInv start d₀ { s.put p i .out with phase := .up }
      { h with done := h.done ++ h.last.toList, last := none } := by
  have hp := LogSys.busy_of hpc rfl
  obtain ⟨-, -, hg⟩ := hI.erased hpc
  obtain ⟨hnone, hmode⟩ := hI.mode hp
  rw [hpc] at hmode
  refine LogInv.of_idle (fun q => ?_) rfl hmode.2 hI.nodup (fun q => ?_) hI.outstanding hI.lh
    (hg.congr rfl rfl fun _ _ => id) hI.panic
  · by_contra hq
    obtain ⟨hqp, hq⟩ := LogSys.out_busy (s := s) rfl hq
    exact hqp (hI.one q p hq hp)
  · refine Iff.trans ?_ (LogSys.out_inOp (s := s) (p := p) rfl).symm
    simp [hnone, hI.not_inOp hnone q]

/-- The end of end_op by the process that has committed. -/
theorem LogInv.finish (hI : LogInv start d₀ s h) (hpc : s.pc p = .finish) :
    LogInv start d₀ ({ s with committing := false }.goto p .out).wakeup h := by
  have hp := LogSys.busy_of hpc rfl
  have hbusy := hI.busy p hp
  rw [hpc] at hbusy
  obtain ⟨hnone, hmode⟩ := hI.mode hp
  rw [hpc] at hmode
  refine LogInv.of_idle (fun q => ?_) hmode.1 rfl hI.nodup (fun q => ?_) hI.outstanding hI.lh
    (hbusy.2.congr rfl rfl fun _ _ => id) hI.panic
  · rw [LogSys.wakeup_busy]
    by_contra hq
    obtain ⟨hqp, hq⟩ := LogSys.out_busy (s := s) rfl hq
    exact hqp (hI.one q p hq hp)
  · rw [LogSys.wakeup_inOp]
    refine Iff.trans ?_ (LogSys.out_inOp (s := s) (p := p) rfl).symm
    simp [hnone, hI.not_inOp hnone q]

end Loops

/-! ## All together -/

section Run

variable {tail : ℕ} {kind : CopyKind} {pc pc' : CopyPc} {hkind : HeadKind}

theorem BusyInv.copy_congr (hb : BusyInv start d₀ s h (.copy kind tail pc))
    (hw : pc'.written = pc.written) (hu : pc'.unpinned = pc.unpinned) (hn : pc'.unpins = false) :
    BusyInv start d₀ s h (.copy kind tail pc') := by
  match kind with
  | .writeLog | .install true =>
    simp only [BusyInv, hw] at hb ⊢
    exact ⟨hb.1, hn, hb.2.2⟩
  | .install false =>
    simp only [BusyInv, hw, hu] at hb ⊢
    exact hb

theorem LogInv.copyStep (hI : LogInv start d₀ s h) (hpc : s.pc p = .copy kind tail pc)
    (hs : s.copyStep start p kind tail pc = some s') : LogInv start d₀ s' (h.upd s (.run p)) := by
  have hp := LogSys.busy_of hpc rfl
  have hbusy := hI.busy p hp
  have hrec : ∀ pc', (OpPc.copy kind tail pc').recovers = (s.pc p).recovers := by
    intro pc'
    rw [hpc]
    cases kind <;> rfl
  rw [hpc] at hbusy
  cases pc <;> simp only [LogHist.upd, hpc] <;> simp only [LogSys.copyStep, Option.some.injEq] at hs
  case getLog =>
    subst hs
    exact hI.run_bget hp (fun _ => rfl) (fun _ => hrec _) (fun _ => by rw [hpc]; rfl)
      (fun _ x hx => Or.inr (List.mem_singleton.mp hx)) fun _ => hbusy.copy_congr rfl rfl rfl
  case lockLog l =>
    exact hI.run_acquire hp hs rfl (hrec _) (by rw [hpc]; rfl) rfl (by rw [hpc]; rfl)
      (hbusy.copy_congr rfl rfl rfl)
  case getHome l =>
    subst hs
    refine hI.run_bget hp (fun _ => rfl) (fun _ => hrec _) (fun _ => by rw [hpc]; rfl) (fun x y hy => ?_)
      fun _ => hbusy.copy_congr rfl rfl rfl
    rw [hpc]
    obtain rfl | hy := List.mem_cons.mp hy
    · exact Or.inl List.mem_cons_self
    · exact Or.inr (List.mem_singleton.mp hy)
  case lockHome l x =>
    exact hI.run_acquire hp hs rfl (hrec _) (by rw [hpc]; rfl) rfl (by rw [hpc]; rfl)
      (hbusy.copy_congr rfl rfl rfl)
  case write l x =>
    cases kind with
    | writeLog =>
      cases hs
      exact hI.write_log hpc
    | install recovering =>
      cases hs
      exact hI.write_home hpc
  case unpin l x =>
    subst hs
    match kind with
    | .install false => exact hI.unpin hpc
    | .install true | .writeLog => cases hbusy.2.1
  case unlock x y =>
    subst hs
    exact hI.run_release hp rfl (hrec _) (by rw [hpc]; rfl) rfl rfl (hbusy.copy_congr rfl rfl rfl)
  case put x y =>
    subst hs
    exact hI.run_put hp rfl (hrec _) (by rw [hpc]; rfl) rfl rfl (hbusy.copy_congr rfl rfl rfl)
  case unlockLast y =>
    subst hs
    exact hI.run_release hp rfl (hrec _) (by rw [hpc]; rfl) rfl rfl (hbusy.copy_congr rfl rfl rfl)
  case putLast y =>
    subst hs
    exact hI.next_copy hpc

theorem BusyInv.head_congr {pc pc' : HeadPc} (hb : BusyInv start d₀ s h (.head hkind pc))
    (hd : pc'.done = pc.done) : BusyInv start d₀ s h (.head hkind pc') := by
  cases hkind <;> simpa only [BusyInv, hd] using hb

theorem LogInv.headStep {pc : HeadPc} (hI : LogInv start d₀ s h) (hpc : s.pc p = .head hkind pc)
    (hs : s.headStep start p hkind pc = some s') : LogInv start d₀ s' (h.upd s (.run p)) := by
  have hp := LogSys.busy_of hpc rfl
  have hbusy := hI.busy p hp
  have hrec : ∀ pc', (OpPc.head hkind pc').recovers = (s.pc p).recovers := by
    intro pc'
    rw [hpc]
    cases hkind <;> rfl
  rw [hpc] at hbusy
  cases pc with
  | get =>
    cases hs
    have hinv : LogInv start d₀ (s.bget p start fun i => .head hkind (.lock i)) h :=
      hI.run_bget hp (fun _ => rfl) (fun _ => hrec _) (fun _ => by rw [hpc]; rfl)
        (fun _ x hx => Or.inr (List.mem_singleton.mp hx)) fun _ => hbusy.head_congr rfl
    cases hkind <;> simpa only [LogHist.upd, hpc] using hinv
  | lock i =>
    have hinv := hI.run_acquire hp hs rfl (hrec _) (by rw [hpc]; rfl) rfl (by rw [hpc]; rfl)
      (hbusy.head_congr rfl)
    cases hkind <;> simpa only [LogHist.upd, hpc] using hinv
  | io i =>
    have hholding := hI.bufs.holding (hI.held_head hpc).1
    cases hkind with
    | read =>
      cases hs
      simpa only [LogHist.upd, hpc] using hI.read_head hpc
    | commit =>
      cases hs
      simpa only [LogHist.upd, hpc, hholding, if_true] using hI.write_head hpc
    | clear recovering =>
      cases hs
      simpa only [LogHist.upd, hpc] using hI.clear_head hpc
  | unlock i =>
    cases hs
    have hinv : LogInv start d₀ (s.releasesleep p i (.head hkind (.put i))) h :=
      hI.run_release hp rfl (hrec _) (by rw [hpc]; rfl) rfl rfl (hbusy.head_congr rfl)
    cases hkind <;> simpa only [LogHist.upd, hpc] using hinv
  | put i =>
    match hkind with
    | .read =>
      cases hs
      simpa only [LogHist.upd, hpc] using hI.start_copy_read hpc
    | .commit =>
      cases hs
      simpa only [LogHist.upd, hpc] using hI.start_copy_commit hpc
    | .clear false =>
      cases hs
      simpa only [LogHist.upd, hpc] using hI.clear_put hpc
    | .clear true =>
      cases hs
      simpa only [LogHist.upd, hpc] using hI.recovered hpc

theorem LogInv.run (hI : LogInv start d₀ s h) (hs : s.run start p = some s') :
    LogInv start d₀ s' (h.upd s (.run p)) := by
  unfold LogSys.run at hs
  split at hs
  · rename_i kind tail pc hpc
    exact hI.copyStep hpc hs
  · rename_i kind pc hpc
    exact hI.headStep hpc hs
  · rename_i hpc
    cases hs
    simpa only [LogHist.upd, hpc] using hI.finish hpc
  · cases hs

end Run

end Xv6
