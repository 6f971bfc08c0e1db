import Xv6.LogInv

/-!
# Every step keeps the invariant of the log
-/

set_option linter.unusedSectionVars false

namespace Xv6

variable {P : Type*} [DecidableEq P] {start : ℕ} {d₀ : ℕ → Block} {s s' : LogSys P}
  {h h' : LogHist P} {p q : P}

/-! ## References and blocks -/

namespace Bufs

variable {c c' : Bufs P} {pins : BufId → ℕ} {L L' : List (Ref P)} {r r' : Ref P} {i : BufId}

theorem Owns.perm (ho : c.Owns p L) (hL : L.Perm L') : c.Owns p L' :=
  fun r hr => (ho r hr).trans (hL.count_eq r)

theorem Owns.mem (ho : c.Owns p L) (hr : r ∈ L) (hp : r.proc = p) : r ∈ c.refs := by
  rw [← List.count_pos_iff, ho r hp]
  exact List.count_pos_iff.mpr hr

theorem Owns.cons (ho : c.Owns p L) (hc : c'.refs = r :: c.refs) : c'.Owns p (r :: L) := by
  intro r' hr'
  rw [hc, List.count_cons, List.count_cons, ho r' hr']

theorem Owns.cons_of_ne (ho : c.Owns p L) (hc : c'.refs = r :: c.refs) (hr : r.proc ≠ p) :
    c'.Owns p L := by
  intro r' hr'
  rw [hc, List.count_cons_of_ne (by rintro rfl; exact hr hr'), ho r' hr']

theorem Owns.erase (ho : c.Owns p (r :: L)) (hc : c'.refs = c.refs.erase r) : c'.Owns p L := by
  intro r' hr'
  rw [hc, List.count_erase, ho r' hr', List.count_cons]
  omega

theorem Owns.erase_of_ne (ho : c.Owns p L) (hc : c'.refs = c.refs.erase r) (hr : r.proc ≠ p) :
    c'.Owns p L := by
  intro r' hr'
  rw [hc, List.count_erase_of_ne (by rintro rfl; exact hr hr'), ho r' hr']

theorem Owns.move (ho : c.Owns p (r :: L)) (hc : c'.refs = r' :: c.refs.erase r) :
    c'.Owns p (r' :: L) := by
  have herase : Owns { c with refs := c.refs.erase r } p L := ho.erase rfl
  exact herase.cons hc

theorem Owns.move_of_ne (ho : c.Owns p L) (hc : c'.refs = r' :: c.refs.erase r) (hr : r.proc ≠ p)
    (hr' : r'.proc ≠ p) : c'.Owns p L := by
  have herase : Owns { c with refs := c.refs.erase r } p L := ho.erase_of_ne rfl hr
  exact herase.cons_of_ne hc hr'

theorem Inv.in_use (hc : c.Inv pins) (hr : r ∈ c.refs) : 0 < (c.buf r.buf).refcnt := by
  have hpos : 0 < refsTo c.refs r.buf := List.countP_pos_iff.mpr ⟨r, hr, by simp⟩
  have := hc.count r.buf
  omega

theorem Inv.holding (hc : c.Inv pins) (hr : ⟨p, i, .holds⟩ ∈ c.refs) :
    c.holdingsleep p i = true := by
  simp [holdingsleep, (hc.lock i p).mpr hr]

theorem Blocks.of_same {roles : List (BufId × ℕ)} (hb : c.Blocks roles)
    (hsame : ∀ x ∈ roles, (c'.buf x.1).blockno = (c.buf x.1).blockno) : c'.Blocks roles :=
  fun x hx => (hsame x hx).trans (hb x hx)

end Bufs

/-- A buffer with a role is one the process refers to. -/
theorem OpPc.mem_locals {pc : OpPc} {lh : List ℕ} {x : BufId × ℕ} (hx : x ∈ pc.roles start lh) (p : P) :
    ∃ r ∈ pc.locals p, r.buf = x.1 ∧ r.proc = p := by
  cases pc with
  | copy kind tail pc =>
    cases pc <;> simp only [roles, CopyPc.roles, List.not_mem_nil, List.mem_cons, or_false] at hx
    case lockLog | getHome => exact ⟨_, List.mem_cons_self, by rw [hx], rfl⟩
    case lockHome | write | unpin =>
      obtain rfl | rfl := hx
      · exact ⟨_, List.mem_cons_of_mem _ List.mem_cons_self, rfl, rfl⟩
      · exact ⟨_, List.mem_cons_self, rfl, rfl⟩
  | head kind pc =>
    cases pc <;> simp only [roles, HeadPc.roles, List.not_mem_nil, List.mem_cons, or_false] at hx
    all_goals exact ⟨_, List.mem_cons_self, by rw [hx], rfl⟩
  | _ => cases hx

/-! ## Steps of the cache -/

theorem Gathering.congr {k : ℕ} (hg : Gathering start d₀ s h k) (hdisk : s'.disk = s.disk)
    (hlh : s'.lh = s.lh) (hover : ∀ l t, s.bufs.Over s.disk h.pins l t → s'.bufs.Over s.disk h.pins l t) :
    Gathering start d₀ s' h k where
  last := hg.last
  clean := hdisk ▸ hg.clean
  places := hlh ▸ hg.places
  cache := by
    rw [hdisk, hlh]
    exact hover _ _ hg.cache
  logged := hdisk ▸ hg.logged

theorem Installing.congr {t : Tx} {k u w : ℕ} (hg : Installing start d₀ s h t k u w)
    (hdisk : s'.disk = s.disk) (hlh : s'.lh = s.lh)
    (hover : ∀ l t, s.bufs.Over s.disk h.pins l t → s'.bufs.Over s.disk h.pins l t) :
    Installing start d₀ s' h t k u w where
  last := hg.last
  placed := hdisk ▸ hg.placed
  places := hlh ▸ hg.places
  pending := hg.pending
  cache := by
    rw [hdisk, hlh]
    exact hover _ _ hg.cache

theorem Empty.congr (he : Empty s h) (hdisk : s'.disk = s.disk)
    (hover : ∀ l t, s.bufs.Over s.disk h.pins l t → s'.bufs.Over s.disk h.pins l t) : Empty s' h where
  pending := he.pending
  cache := by
    rw [hdisk]
    exact hover _ _ he.cache

/-- A step of the cache that keeps the contents. -/
theorem BusyInv.congr {pc : OpPc} (hb : BusyInv start d₀ s h pc) (hdisk : s'.disk = s.disk)
    (hlh : s'.lh = s.lh) (hover : ∀ l t, s.bufs.Over s.disk h.pins l t → s'.bufs.Over s.disk h.pins l t) :
    BusyInv start d₀ s' h pc := by
  unfold BusyInv at hb ⊢
  split at hb
  · exact ⟨hlh ▸ hb.1, hb.2.1, hb.2.2.congr hdisk hlh hover⟩
  · split_ifs at hb ⊢
    · obtain ⟨t, ht⟩ := hb
      exact ⟨t, ht.congr hdisk hlh hover⟩
    · rw [hlh]
      exact hb.congr hdisk hlh hover
  · obtain ⟨htail, t, ht⟩ := hb
    exact ⟨hlh ▸ htail, t, ht.congr hdisk hlh hover⟩
  · obtain ⟨htail, hu, t, k, hk, ht⟩ := hb
    rw [hlh]
    exact ⟨htail, hu, t, k, hk, ht.congr hdisk hlh hover⟩
  · exact ⟨hb.1.congr hdisk hover, fun hd => by rw [hlh, hdisk]; exact hb.2 hd⟩
  · obtain ⟨he, hl, hhome, hhead⟩ := hb
    refine ⟨he.congr hdisk hover, hlh.trans hl, ?_, ?_⟩
    · rw [hdisk]
      exact hhome
    · rw [hdisk]
      exact hhead
  · exact ⟨hlh.trans hb.1, hb.2.congr hdisk hlh hover⟩
  · trivial

/-- The steps of bread and brelse, as the rest of the log sees them. -/
structure CacheStep (s : LogSys P) (h : LogHist P) (p : P) (c' : Bufs P) : Prop where
  inv : c'.Inv h.pins
  cache : ∀ l t, s.bufs.Over s.disk h.pins l t → c'.Over s.disk h.pins l t
  owns : ∀ q, q ≠ p → ∀ L, s.bufs.Owns q L → c'.Owns q L
  blockno : ∀ r ∈ s.bufs.refs, (c'.buf r.buf).blockno = (s.bufs.buf r.buf).blockno

theorem CacheStep.blocks {c' : Bufs P} {L : List (Ref P)} {pc : OpPc} (hc : CacheStep s h p c')
    (hown : s.bufs.Owns q L) (hL : pc.locals q = L) (hb : s.bufs.Blocks (pc.roles start s.lh)) :
    c'.Blocks (pc.roles start s.lh) := by
  refine hb.of_same fun x hx => ?_
  obtain ⟨r, hr, hbuf, hproc⟩ := OpPc.mem_locals hx q
  rw [← hbuf]
  exact hc.blockno r (hown.mem (hL ▸ hr) hproc)

/-- An ordinary process uses a buffer. -/
theorem LogInv.of_cache {c' : Bufs P} (hI : LogInv start d₀ s h) (hup : s.phase = .up)
    (hp : (s.pc p).busy = false) (hc : CacheStep s h p c') : LogInv start d₀ { s with bufs := c' } h where
  disk := hI.disk
  bufs := hc.inv
  lh := hI.lh
  nodup := hI.nodup
  mem := hI.mem
  outstanding := hI.outstanding
  one := hI.one
  recovers := hI.recovers
  commits := hI.commits
  committing := hI.committing
  up := hI.up
  off hoff := by cases hup.symm.trans hoff
  someone := hI.someone
  owns q hq := by
    refine hc.owns q ?_ _ (hI.owns q hq)
    rintro rfl
    rw [hp] at hq
    cases hq
  blocks q hq := hc.blocks (hI.owns q hq) rfl (hI.blocks q hq)
  busy q hq := (hI.busy q hq).congr rfl rfl hc.cache
  idle hup hcom := (hI.idle hup hcom).congr rfl rfl hc.cache
  panic := hI.panic

theorem LogInv.fail {e : LogPanic} (hI : LogInv start d₀ s h)
    (he : e = .noBuffers ∨ e = .tooBig) : LogInv start d₀ (s.fail e) h where
  disk := hI.disk
  bufs := hI.bufs
  lh := hI.lh
  nodup := hI.nodup
  mem := hI.mem
  outstanding := hI.outstanding
  one := hI.one
  recovers := hI.recovers
  commits := hI.commits
  committing := hI.committing
  up := hI.up
  off hoff := by
    obtain ⟨hbusy, hlh, hrefs, he⟩ := hI.off hoff
    exact ⟨hbusy, hlh, hrefs, he.congr rfl fun _ _ => id⟩
  someone := hI.someone
  owns := hI.owns
  blocks := hI.blocks
  busy q hq := (hI.busy q hq).congr rfl rfl fun _ _ => id
  idle hup hcom := (hI.idle hup hcom).congr rfl rfl fun _ _ => id
  panic := by
    right
    obtain rfl | rfl := he
    · exact Or.inl rfl
    · exact Or.inr rfl

section

variable {c' : Bufs P} {i : BufId} {b : ℕ}

theorem CacheStep.got (hI : LogInv start d₀ s h) (hg : Bufs.Got s.bufs p b i c') :
    CacheStep s h p c' where
  inv := hg.inv hI.bufs
  cache _ _ ho := ho.got hg
  owns _ hq _ hown := hown.cons_of_ne hg.refs (Ne.symm hq)
  blockno _ hr := (hg.same (hI.bufs.in_use hr)).blockno

theorem CacheStep.acquire (hI : LogInv start d₀ s h) (ha : s.bufs.acquire s.disk p i = some c') :
    CacheStep s h p c' where
  inv := hI.bufs.acquire ha
  cache _ _ ho := ho.acquire ha
  owns _ hq _ hown := hown.move_of_ne (Bufs.acquire_refs ha).2 (Ne.symm hq) (Ne.symm hq)
  blockno r _ := by
    by_cases hri : r.buf = i
    · rw [hri]
      exact (Bufs.acquire_self ha).1
    · rw [Bufs.acquire_of_ne ha hri]

theorem CacheStep.releasesleep (hI : LogInv start d₀ s h) (hmem : ⟨p, i, .holds⟩ ∈ s.bufs.refs) :
    CacheStep s h p (s.bufs.releasesleep p i) where
  inv := hI.bufs.releasesleep hmem
  cache _ _ ho := ho.releasesleep hmem
  owns _ hq _ hown := by
    have hrefs : (s.bufs.releasesleep p i).refs =
        ⟨p, i, .released⟩ :: s.bufs.refs.erase ⟨p, i, .holds⟩ := rfl
    exact hown.move_of_ne hrefs (Ne.symm hq) (Ne.symm hq)
  blockno r _ := (Bufs.releasesleep_same s.bufs p i r.buf).blockno

theorem CacheStep.put (hI : LogInv start d₀ s h) (hmem : ⟨p, i, .released⟩ ∈ s.bufs.refs) :
    CacheStep s h p (s.bufs.put p i) where
  inv := hI.bufs.put hmem
  cache _ _ ho := ho.put hmem
  owns _ hq _ hown := hown.erase_of_ne (r := ⟨p, i, .released⟩) rfl (Ne.symm hq)
  blockno r _ := (Bufs.put_same s.bufs p i r.buf).blockno

end

/-! ## Steps of commit() and recover_from_log() -/

theorem OpPc.busy_of_recovers {pc : OpPc} (hr : pc.recovers = true) : pc.busy = true := by
  cases pc <;> first | rfl | cases hr

/-- One process is in commit() or recover_from_log(). -/
theorem LogInv.of_busy {pc : OpPc} (hpc : s.pc p = pc) (hbusy : pc.busy = true)
    (hother : ∀ q, q ≠ p → (s.pc q).busy = false) (hnoOp : ∀ q, s.pc q ≠ .inOp)
    (hactive : h.active = []) (hout : s.outstanding = 0)
    (hmode : if pc.recovers then s.phase = .booting ∧ s.committing = false
      else s.phase = .up ∧ s.committing = true)
    (hdisk : DiskInv start d₀ s.disk h.done h.last) (hbufs : s.bufs.Inv h.pins)
    (hlh : WfHead start s.lh) (howns : s.bufs.Owns p (pc.locals p))
    (hblocks : s.bufs.Blocks (pc.roles start s.lh)) (hinv : BusyInv start d₀ s h pc)
    (hpanic : s.panic = none ∨ s.panic = some .noBuffers ∨ s.panic = some .tooBig) :
    LogInv start d₀ s h := by
  have honly : ∀ {q}, (s.pc q).busy = true → q = p := by
    intro q hq
    by_contra hqp
    simp [hother q hqp] at hq
  subst hpc
  refine ⟨hdisk, hbufs, hlh, by simp [hactive], fun q => ?_, by simp [hactive, hout], fun q r hq hr => ?_,
    fun q hq => ?_, fun q hq hr => ?_, fun hc => ?_, fun _ => hactive, fun hoff => ?_,
    fun _ => ⟨p, hbusy⟩, fun q hq => ?_, fun q hq => ?_, fun q hq => ?_, fun hup hc => ?_, hpanic⟩
  · simp [hactive, hnoOp q]
  · rw [honly hq, honly hr]
  · obtain rfl := honly (OpPc.busy_of_recovers hq)
    rw [if_pos hq] at hmode
    exact hmode.1
  · obtain rfl := honly hq
    rw [if_neg (by simp [hr])] at hmode
    exact hmode.2
  · split_ifs at hmode
    · simp [hmode.2] at hc
    · exact ⟨hmode.1, hactive⟩
  · split_ifs at hmode <;> simp [hmode.1] at hoff
  · obtain rfl := honly hq
    exact howns
  · obtain rfl := honly hq
    exact hblocks
  · obtain rfl := honly hq
    exact hinv
  · split_ifs at hmode
    · simp [hmode.1] at hup
    · simp [hmode.2] at hc

/-- Where the machine is while a process is in commit() or recover_from_log(). -/
theorem LogInv.mode (hI : LogInv start d₀ s h) (hp : (s.pc p).busy = true) :
    h.active = [] ∧ if (s.pc p).recovers then s.phase = .booting ∧ s.committing = false
      else s.phase = .up ∧ s.committing = true := by
  split_ifs with hr
  · have hboot := hI.recovers p hr
    refine ⟨hI.up (by simp [hboot]), hboot, ?_⟩
    by_contra hc
    have hup := (hI.committing (by simpa using hc)).1
    simp [hboot] at hup
  · have hc := hI.commits p hp (by simpa using hr)
    exact ⟨(hI.committing hc).2, (hI.committing hc).1, hc⟩

theorem LogInv.not_inOp (hI : LogInv start d₀ s h) (hactive : h.active = []) (q : P) :
    s.pc q ≠ .inOp := by
  rw [Ne, ← hI.mem, hactive]
  exact List.not_mem_nil

/-- The process in commit() or recover_from_log() goes on in it. -/
theorem LogInv.of_run {pc : OpPc} (hI : LogInv start d₀ s h) (hp : (s.pc p).busy = true)
    (hpc : s'.pc = Function.update s.pc p pc) (hout : s'.outstanding = s.outstanding)
    (hcom : s'.committing = s.committing) (hphase : s'.phase = s.phase) (hpanic : s'.panic = s.panic)
    (hactive : h'.active = h.active) (hbusy : pc.busy = true)
    (hrec : pc.recovers = (s.pc p).recovers) (hdisk : DiskInv start d₀ s'.disk h'.done h'.last)
    (hbufs : s'.bufs.Inv h'.pins) (hlh : WfHead start s'.lh) (howns : s'.bufs.Owns p (pc.locals p))
    (hblocks : s'.bufs.Blocks (pc.roles start s'.lh)) (hinv : BusyInv start d₀ s' h' pc) :
    LogInv start d₀ s' h' := by
  obtain ⟨hnone, hmode⟩ := hI.mode hp
  have hpcp : s'.pc p = pc := by rw [hpc, Function.update_self]
  have hother : ∀ {q}, q ≠ p → s'.pc q = s.pc q := fun hq => by rw [hpc, Function.update_of_ne hq]
  refine LogInv.of_busy hpcp hbusy (fun q hq => ?_) (fun q => ?_) (hactive.trans hnone) ?_ ?_ hdisk
    hbufs hlh howns hblocks hinv (hpanic ▸ hI.panic)
  · rw [hother hq]
    by_contra hq'
    exact hq (hI.one q p (by simpa using hq') hp)
  · by_cases hq : q = p
    · subst hq
      rw [hpcp]
      rintro rfl
      cases hbusy
    · rw [hother hq]
      exact hI.not_inOp hnone q
  · rw [hout, hI.outstanding, hnone]
    rfl
  · rw [hrec, hphase, hcom]
    exact hmode

/-- A step of the cache by the process in commit() or recover_from_log(). -/
theorem LogInv.run_cache {c' : Bufs P} {pc : OpPc} (hI : LogInv start d₀ s h)
    (hp : (s.pc p).busy = true) (hc : CacheStep s h p c') (hbusy : pc.busy = true)
    (hrec : pc.recovers = (s.pc p).recovers) (howns : c'.Owns p (pc.locals p))
    (hblocks : c'.Blocks (pc.roles start s.lh)) (hinv : BusyInv start d₀ s h pc) :
    LogInv start d₀ ({ s with bufs := c' }.goto p pc) h :=
  hI.of_run hp rfl rfl rfl rfl rfl rfl hbusy hrec hI.disk hc.inv hI.lh howns hblocks
    (hinv.congr rfl rfl hc.cache)

variable {i : BufId} {b : ℕ} {next : OpPc}

theorem LogInv.run_bget {next : BufId → OpPc} (hI : LogInv start d₀ s h) (hp : (s.pc p).busy = true)
    (hbusy : ∀ i, (next i).busy = true) (hrec : ∀ i, (next i).recovers = (s.pc p).recovers)
    (hlocals : ∀ i, (next i).locals p = ⟨p, i, .wants⟩ :: (s.pc p).locals p)
    (hroles : ∀ i, ∀ x ∈ (next i).roles start s.lh, x ∈ (s.pc p).roles start s.lh ∨ x = (i, b))
    (hinv : ∀ i, BusyInv start d₀ s h (next i)) : LogInv start d₀ (s.bget p b next) h := by
  unfold LogSys.bget
  cases hg : s.bufs.bget p b with
  | none => exact hI.fail (Or.inl rfl)
  | some x =>
    obtain ⟨i, c'⟩ := x
    have hgot := hI.bufs.got hg
    have hc := CacheStep.got hI hgot
    refine hI.run_cache hp hc (hbusy i) (hrec i) ?_ (fun x hx => ?_) (hinv i)
    · rw [hlocals]
      exact (hI.owns p hp).cons hgot.refs
    · obtain hx | rfl := hroles i x hx
      · exact hc.blocks (hI.owns p hp) rfl (hI.blocks p hp) x hx
      · exact hgot.blockno

theorem LogInv.run_acquire {L : List (Ref P)} (hI : LogInv start d₀ s h) (hp : (s.pc p).busy = true)
    (hs : s.acquire p i next = some s') (hbusy : next.busy = true)
    (hrec : next.recovers = (s.pc p).recovers)
    (hlocals : (s.pc p).locals p = ⟨p, i, .wants⟩ :: L) (hlocals' : next.locals p = ⟨p, i, .holds⟩ :: L)
    (hroles : next.roles start s.lh = (s.pc p).roles start s.lh) (hinv : BusyInv start d₀ s h next) :
    LogInv start d₀ s' h := by
  obtain ⟨c', ha, rfl⟩ := Option.map_eq_some_iff.mp hs
  have hc := CacheStep.acquire hI ha
  refine hI.run_cache hp hc hbusy hrec ?_ ?_ hinv
  · rw [hlocals']
    exact (hlocals ▸ hI.owns p hp).move (Bufs.acquire_refs ha).2
  · rw [hroles]
    exact hc.blocks (hI.owns p hp) rfl (hI.blocks p hp)

theorem LogInv.run_release {L : List (Ref P)} (hI : LogInv start d₀ s h) (hp : (s.pc p).busy = true)
    (hbusy : next.busy = true) (hrec : next.recovers = (s.pc p).recovers)
    (hlocals : (s.pc p).locals p = ⟨p, i, .holds⟩ :: L)
    (hlocals' : next.locals p = ⟨p, i, .released⟩ :: L) (hroles : next.roles start s.lh = [])
    (hinv : BusyInv start d₀ s h next) : LogInv start d₀ (s.releasesleep p i next) h := by
  have hown := hI.owns p hp
  rw [hlocals] at hown
  have hmem := hown.mem List.mem_cons_self rfl
  rw [LogSys.releasesleep, if_pos (hI.bufs.holding hmem)]
  refine hI.run_cache hp (CacheStep.releasesleep hI hmem) hbusy hrec ?_ ?_ hinv
  · rw [hlocals']
    exact hown.move rfl
  · rw [hroles]
    exact fun x hx => by cases hx

/-- The end of a brelse, where `log.lh` may change too. -/
theorem LogInv.run_put_lh {L : List (Ref P)} {lh : List ℕ} (hI : LogInv start d₀ s h)
    (hp : (s.pc p).busy = true) (hlh : WfHead start lh) (hbusy : next.busy = true)
    (hrec : next.recovers = (s.pc p).recovers)
    (hlocals : (s.pc p).locals p = ⟨p, i, .released⟩ :: L) (hlocals' : next.locals p = L)
    (hroles : next.roles start lh = []) (hinv : BusyInv start d₀ { s with lh := lh } h next) :
    LogInv start d₀ { s.put p i next with lh := lh } h := by
  have hown := hI.owns p hp
  rw [hlocals] at hown
  have hmem := hown.mem List.mem_cons_self rfl
  have hc := CacheStep.put hI hmem
  refine hI.of_run hp rfl rfl rfl rfl rfl rfl hbusy hrec hI.disk hc.inv hlh ?_ ?_
    (hinv.congr rfl rfl hc.cache)
  · rw [hlocals']
    exact hown.erase rfl
  · rw [hroles]
    exact fun x hx => by cases hx

theorem LogInv.run_put {L : List (Ref P)} (hI : LogInv start d₀ s h) (hp : (s.pc p).busy = true)
    (hbusy : next.busy = true) (hrec : next.recovers = (s.pc p).recovers)
    (hlocals : (s.pc p).locals p = ⟨p, i, .released⟩ :: L) (hlocals' : next.locals p = L)
    (hroles : next.roles start s.lh = []) (hinv : BusyInv start d₀ s h next) :
    LogInv start d₀ (s.put p i next) h :=
  hI.run_put_lh hp hI.lh hbusy hrec hlocals hlocals' hroles hinv

/-! ## Steps while nobody is in commit() or recover_from_log() -/

/-- A wakeup changes only processes that sleep in begin_op. -/
theorem LogSys.wakeup_pc (s : LogSys P) (q : P) :
    s.wakeup.pc q = s.pc q ∨ s.pc q = .waits ∧ s.wakeup.pc q = .wakes := by
  by_cases hw : s.pc q = .waits
  · exact Or.inr ⟨hw, if_pos hw⟩
  · exact Or.inl (if_neg hw)

theorem LogSys.wakeup_busy (s : LogSys P) (q : P) : (s.wakeup.pc q).busy = (s.pc q).busy := by
  obtain heq | ⟨hw, heq⟩ := s.wakeup_pc q
  · rw [heq]
  · rw [hw, heq]
    rfl

theorem LogSys.wakeup_inOp (s : LogSys P) (q : P) : s.wakeup.pc q = .inOp ↔ s.pc q = .inOp := by
  obtain heq | ⟨hw, heq⟩ := s.wakeup_pc q
  · rw [heq]
  · simp [hw, heq]

/-- A process leaves commit() or an operation. -/
theorem LogSys.out_busy (hpc : s'.pc = Function.update s.pc p .out) (hq : ¬ (s'.pc q).busy = false) :
    q ≠ p ∧ (s.pc q).busy = true := by
  rw [hpc, Function.update_apply] at hq
  split_ifs at hq with hqp
  · exact absurd rfl hq
  · exact ⟨hqp, by simpa using hq⟩

theorem LogSys.out_inOp (hpc : s'.pc = Function.update s.pc p .out) :
    s'.pc q = .inOp ↔ q ≠ p ∧ s.pc q = .inOp := by
  rw [hpc, Function.update_apply]
  split_ifs with hqp <;> simp [hqp]

theorem LogInv.of_idle (hbusy : ∀ q, (s.pc q).busy = false) (hup : s.phase = .up)
    (hcom : s.committing = false) (hnodup : h.active.Nodup) (hmem : ∀ q, q ∈ h.active ↔ s.pc q = .inOp)
    (hout : s.outstanding = h.active.length) (hlh : WfHead start s.lh)
    (hg : Gathering start d₀ s h 0)
    (hpanic : s.panic = none ∨ s.panic = some .noBuffers ∨ s.panic = some .tooBig) :
    LogInv start d₀ s h := by
  have hnot : ∀ q, (s.pc q).busy ≠ true := fun q => by simp [hbusy q]
  refine ⟨?_, hg.cache.inv, hlh, hnodup, hmem, hout, fun q _ hq => absurd hq (hnot q),
    fun q hq => absurd (OpPc.busy_of_recovers hq) (hnot q), fun q hq => absurd hq (hnot q),
    fun hc => by simp [hcom] at hc, fun hne => absurd hup hne, fun hoff => by simp [hup] at hoff,
    fun hsome => by simp [hup, hcom] at hsome,
    fun q hq => absurd hq (hnot q), fun q hq => absurd hq (hnot q), fun q hq => absurd hq (hnot q),
    fun _ _ => hg, hpanic⟩
  rw [hg.last]
  exact hg.clean

theorem LogInv.not_busy (hI : LogInv start d₀ s h) (hup : s.phase = .up) (hcom : s.committing = false)
    (q : P) : (s.pc q).busy = false := by
  by_contra hq
  have hmode := (hI.mode (by simpa using hq)).2
  simp [hup, hcom] at hmode

end Xv6
