import Mathlib.Data.List.Perm.Subperm
import Xv6.VirtioDisk

/-!
# The virtio request protocol

The invariant of the driver and the device, in parts : who holds `vdisk_lock` (`Locked`); the descriptors that are
not free are the chains of the requests, each in one chain (`Chains`); a chain that has been formatted
is linked, and `info` has its buffer (`Formatted`); who sleeps on what (`Sleepers`); and where the requests
are between the driver and the device (`Pending`) : the heads in the `avail` ring, in the device and in the
`used` ring are, without repetition, the heads of the requests that wait. Every step of `virtio_disk_rw` keeps
it (`Inv.run`).
-/

namespace Xv6

open Function (update_self update_of_ne)

set_option linter.unusedSectionVars false

namespace RwPc

variable {B : Type}

/-- The process holds `vdisk_lock`. -/
def locked : RwPc B → Bool
  | alloc _ _ | format _ _ _ | post _ _ | wait _ _ | reclaim _ _ => true
  | _ => false

/-- The buffer of the request. -/
def buf : RwPc B → Option B
  | out => none
  | lock b _ | alloc b _ | allocSleep b _ | format b _ _ | post b _ | wait b _ | waitSleep b _ | reclaim b _ =>
    some b

/-- The descriptors of the request. -/
def chain : RwPc B → Option Idx
  | format _ _ x | post _ x | wait _ x | waitSleep _ x | reclaim _ x => some x
  | _ => none

/-- The request, once its descriptors are formatted. -/
def formatted : RwPc B → Option (B × Idx)
  | post b x | wait b x | waitSleep b x | reclaim b x => some (b, x)
  | _ => none

/-- The request, once it is in the `avail` ring. -/
def posted : RwPc B → Option (B × Idx)
  | wait b x | waitSleep b x | reclaim b x => some (b, x)
  | _ => none

theorem buf_of_formatted {pc : RwPc B} {b : B} {x : Idx} (h : pc.formatted = some (b, x)) :
    pc.buf = some b ∧ pc.chain = some x := by
  cases pc <;> simp_all [formatted, buf, chain]

theorem formatted_of_posted {pc : RwPc B} {y : B × Idx} (h : pc.posted = some y) :
    pc.formatted = some y := by
  cases pc <;> simp_all [formatted, posted]

end RwPc

/-- The CPU holds `vdisk_lock`. -/
def IntrPc.locked : IntrPc → Bool
  | test | entry => true
  | _ => false

/-- The heads in the `avail` ring, in the device, and in the `used` ring. -/
def VirtioHist.pending {P : Type} (h : VirtioHist P) (devTaken : List ℕ) : List ℕ :=
  h.posted.drop h.taken.length ++ (devTaken ++ h.completed.drop h.processed.length)

namespace VirtioSys

variable {P C B : Type} [DecidableEq P] [DecidableEq C] [DecidableEq B]

/-- `vdisk_lock` is held by whom its place says. -/
structure Locked (s : VirtioSys P C B) : Prop where
  rw : ∀ p, (s.rw p).locked = true ↔ s.vdiskLock = some (.rw p)
  intr : ∀ c, (s.intr c).locked = true ↔ s.vdiskLock = some (.intr c)

/-- The descriptors that are not free are the chains of the requests, each in one of them. -/
structure Chains (s : VirtioSys P C B) : Prop where
  mem : ∀ p x, (s.rw p).chain = some x → x.toList.Nodup ∧ ∀ i ∈ x.toList, i < NUM ∧ s.disk.free i = false
  sole : ∀ p q x y i, (s.rw p).chain = some x → (s.rw q).chain = some y → i ∈ x.toList → i ∈ y.toList → p = q
  covered : ∀ i < NUM, s.disk.free i = false → ∃ p x, (s.rw p).chain = some x ∧ i ∈ x.toList

/-- A formatted chain is linked, and `info` has its buffer. -/
def Formatted (s : VirtioSys P C B) : Prop :=
  ∀ p b x, (s.rw p).formatted = some (b, x) → s.disk.Linked x ∧ s.disk.infoB x.i0 = some b

/-- The buffers are locked by the processes that use them. -/
def Owned (s : VirtioSys P C B) : Prop :=
  ∀ p b, (s.rw p).buf = some b → s.holder b = some p

/-- A process sleeps for descriptors, or for a request of its own that is not done. -/
structure Sleepers (s : VirtioSys P C B) : Prop where
  free : ∀ p, s.asleep p = some .free → ∃ b write, s.rw p = .allocSleep b write
  buf : ∀ p b, s.asleep p = some (.buf b) → (∃ x, s.rw p = .waitSleep b x) ∧ s.onDisk b = true

/-- The rings hold the requests that wait, in order, and `b->disk` says which ones do. -/
structure Pending (s : VirtioSys P C B) (h : VirtioHist P) : Prop where
  avail : Ring.Holds s.disk.availRing s.devIdx s.disk.availIdx h.posted h.taken.length
  used : Ring.Holds s.disk.usedRing s.disk.usedIdx s.disk.usedRingIdx h.completed h.processed.length
  taken : h.taken <+: h.posted
  processed : h.processed <+: h.completed
  nodup : (h.pending s.devTaken).Nodup
  mem : ∀ i, i ∈ h.pending s.devTaken ↔
    ∃ p b x, (s.rw p).posted = some (b, x) ∧ s.onDisk b = true ∧ x.i0 = i
  status : ∀ i ∈ h.completed.drop h.processed.length, s.disk.infoStatus i = 0
  owner : ∀ p b x, (s.rw p).posted = some (b, x) → h.owner x.i0 = some p
  done : ∀ p b x, (s.rw p).posted = some (b, x) →
    x.i0 ∈ h.completed.drop h.processed.length ∨ s.onDisk b = false → h.done p = true
  post : ∀ p b x, s.rw p = .post b x →
    s.onDisk b = true ∧ s.disk.availRing (Ring.cell NUM s.disk.availIdx) = x.i0
  reclaim : ∀ p b x, s.rw p = .reclaim b x → s.onDisk b = false
  entry : ∀ c, s.intr c = .entry → s.disk.usedIdx ≠ s.disk.usedRingIdx

/-- The invariant. -/
structure Inv (s : VirtioSys P C B) (h : VirtioHist P) : Prop where
  locked : s.Locked
  chains : s.Chains
  formatted : s.Formatted
  owned : s.Owned
  sleepers : s.Sleepers
  pending : s.Pending h
  panic : s.panic = none

variable {s s' : VirtioSys P C B} {h h' : VirtioHist P} {p q : P} {c : C} {b : B} {x : Idx} {pc : RwPc B}

theorem init_inv (h0 : s.Init) : s.Inv .start where
  locked := ⟨fun p => by simp [h0.rw, h0.vdiskLock, RwPc.locked],
    fun c => by simp [h0.intr, h0.vdiskLock, IntrPc.locked]⟩
  chains := by
    refine ⟨fun p x hx => ?_, fun p q x y i hx => ?_, fun i hi hfree => ?_⟩
    · rw [h0.rw] at hx
      cases hx
    · rw [h0.rw] at hx
      cases hx
    · rw [h0.free i hi] at hfree
      cases hfree
  formatted p b x hx := by
    rw [h0.rw] at hx
    cases hx
  owned p b hb := by
    rw [h0.rw] at hb
    cases hb
  sleepers := by
    refine ⟨fun p hp => ?_, fun p b hp => ?_⟩
    · rw [h0.asleep] at hp
      cases hp
    · rw [h0.asleep] at hp
      cases hp
  pending := by
    have hrw : ∀ p, (s.rw p).posted = none := fun p => by rw [h0.rw]; rfl
    refine ⟨?_, ?_, List.prefix_rfl, List.prefix_rfl, ?_, fun i => ?_, ?_, fun p b x hx => ?_,
      fun p b x hx => ?_, fun p b x hx => ?_, fun p b x hx => ?_, fun c hc => ?_⟩
    · rw [h0.devIdx, h0.availIdx]
      exact .empty _
    · rw [h0.usedIdx, h0.usedRingIdx]
      exact .empty _
    · simp [VirtioHist.pending, VirtioHist.start, h0.devTaken]
    · simp [VirtioHist.pending, VirtioHist.start, h0.devTaken, hrw]
    · simp [VirtioHist.start]
    · rw [hrw] at hx
      cases hx
    · rw [hrw] at hx
      cases hx
    · rw [h0.rw] at hx
      cases hx
    · rw [h0.rw] at hx
      cases hx
    · rw [h0.intr] at hc
      cases hc
  panic := h0.panic

/-! ## What the parts depend on -/

@[simp] theorem goto_rw : (s.goto p pc).rw = Function.update s.rw p pc := rfl

/-- A process that goes on within the same part of its request. -/
theorem update_rw_eq {α : Type} {f : RwPc B → α} {pc₀ : RwPc B} (hrw : s.rw p = pc₀) (hf : f pc = f pc₀) (q : P) :
    f (Function.update s.rw p pc q) = f (s.rw q) := by
  by_cases hq : q = p
  · rw [hq, update_self, hrw, hf]
  · rw [update_of_ne hq]

theorem Locked.frame (hl : s.Locked) (hrw : ∀ q, (s'.rw q).locked = (s.rw q).locked)
    (hintr : ∀ c, (s'.intr c).locked = (s.intr c).locked) (hlock : s'.vdiskLock = s.vdiskLock) :
    s'.Locked := by
  refine ⟨fun q => ?_, fun c => ?_⟩
  · rw [hrw, hlock]
    exact hl.rw q
  · rw [hintr, hlock]
    exact hl.intr c

/-- `p` takes the lock when nobody has it, or gives it up. -/
theorem Locked.set (hl : s.Locked) (hold : s.vdiskLock = none ∨ s.vdiskLock = some (.rw p))
    (hrw : s'.rw = Function.update s.rw p pc) (hintr : s'.intr = s.intr)
    (hlock : s'.vdiskLock = if pc.locked then some (.rw p) else none) : s'.Locked := by
  refine ⟨fun q => ?_, fun c => ?_⟩
  · rw [hrw, hlock]
    by_cases hq : q = p
    · cases hpc : pc.locked <;> simp [hq, hpc]
    · have := hl.rw q
      obtain hv | hv := hold <;> rw [hv] at this <;> cases pc.locked <;>
        simpa [update_of_ne hq, Ne.symm hq] using this
  · have := hl.intr c
    rw [hintr, hlock]
    obtain hv | hv := hold <;> rw [hv] at this <;> cases pc.locked <;> simpa using this

theorem Chains.frame (hc : s.Chains) (hrw : ∀ q, (s'.rw q).chain = (s.rw q).chain)
    (hfree : s'.disk.free = s.disk.free) : s'.Chains := by
  refine ⟨fun p x hx => ?_, fun p q x y i hx hy => ?_, fun i hi hi' => ?_⟩
  · rw [hrw] at hx
    rw [hfree]
    exact hc.mem p x hx
  · rw [hrw] at hx hy
    exact hc.sole p q x y i hx hy
  · rw [hfree] at hi'
    simpa only [hrw] using hc.covered i hi hi'

theorem Formatted.frame (hf : s.Formatted) (hc : s.Chains)
    (hrw : ∀ q, (s'.rw q).formatted = (s.rw q).formatted)
    (hdesc : ∀ i, s.disk.free i = false → s'.disk.desc i = s.disk.desc i)
    (hinfo : s'.disk.infoB = s.disk.infoB) : s'.Formatted := by
  intro q b x hx
  rw [hrw] at hx
  obtain ⟨hlinked, hb⟩ := hf q b x hx
  have hmem := (hc.mem q x (RwPc.buf_of_formatted hx).2).2
  exact ⟨hlinked.congr fun i hi => hdesc i (hmem i hi).2, by rw [hinfo, hb]⟩

theorem Owned.frame (ho : s.Owned) (hrw : ∀ q, (s'.rw q).buf = (s.rw q).buf)
    (hholder : s'.holder = s.holder) : s'.Owned :=
  fun q b hb => by
    rw [hrw] at hb
    rw [hholder]
    exact ho q b hb

theorem Sleepers.frame (hs : s.Sleepers) (hasleep : ∀ q k, s'.asleep q = some k → s.asleep q = some k)
    (hrw : ∀ q, s.asleep q ≠ none → s'.rw q = s.rw q) (hon : ∀ b, s.onDisk b = true → s'.onDisk b = true) :
    s'.Sleepers := by
  refine ⟨fun q hq => ?_, fun q b hq => ?_⟩
  · have hq := hasleep q _ hq
    rw [hrw q (by rw [hq]; simp)]
    exact hs.free q hq
  · have hq := hasleep q _ hq
    rw [hrw q (by rw [hq]; simp)]
    exact ⟨(hs.buf q b hq).1, hon b (hs.buf q b hq).2⟩

/-- The rings, and which requests are done, stay as they are. -/
def SameRings (s s' : VirtioSys P C B) : Prop :=
  (s'.disk.availRing = s.disk.availRing ∧ s'.disk.availIdx = s.disk.availIdx ∧ s'.devIdx = s.devIdx ∧
    s'.devTaken = s.devTaken) ∧
  (s'.disk.usedRing = s.disk.usedRing ∧ s'.disk.usedIdx = s.disk.usedIdx ∧
    s'.disk.usedRingIdx = s.disk.usedRingIdx ∧ s'.disk.infoStatus = s.disk.infoStatus) ∧ s'.onDisk = s.onDisk

theorem SameRings.refl (s : VirtioSys P C B) : s.SameRings s :=
  ⟨⟨rfl, rfl, rfl, rfl⟩, ⟨rfl, rfl, rfl, rfl⟩, rfl⟩

theorem Pending.frame (hp : s.Pending h) (hrings : s.SameRings s') (hrw : ∀ q, (s'.rw q).posted = (s.rw q).posted)
    (hpost : ∀ q b x, s'.rw q = .post b x → s.rw q = .post b x)
    (hreclaim : ∀ q b x, s'.rw q = .reclaim b x → s.onDisk b = false)
    (hentry : ∀ c, s'.intr c = .entry → s.disk.usedIdx ≠ s.disk.usedRingIdx) : s'.Pending h := by
  obtain ⟨⟨ha1, ha2, ha3, ha4⟩, ⟨hu1, hu2, hu3, hu4⟩, hon⟩ := hrings
  constructor
  · rw [ha1, ha2, ha3]
    exact hp.avail
  · rw [hu1, hu2, hu3]
    exact hp.used
  · exact hp.taken
  · exact hp.processed
  · rw [ha4]
    exact hp.nodup
  · simpa only [ha4, hrw, hon] using hp.mem
  · rw [hu4]
    exact hp.status
  · simpa only [hrw] using hp.owner
  · simpa only [hrw, hon] using hp.done
  · intro q b x hq
    rw [hon, ha1, ha2]
    exact hp.post q b x (hpost q b x hq)
  · intro q b x hq
    rw [hon]
    exact hreclaim q b x hq
  · rw [hu2, hu3]
    exact hentry

/-! ## The steps of virtio_disk_rw -/

/-- Places of the same request, as far as the descriptors and the rings go. -/
structure SamePlace (pc pc' : RwPc B) : Prop where
  buf : pc'.buf = pc.buf
  chain : pc'.chain = pc.chain
  formatted : pc'.formatted = pc.formatted
  posted : pc'.posted = pc.posted
  post : ∀ b x, pc' ≠ .post b x
  reclaim : ∀ b x, pc' ≠ .reclaim b x

theorem goto_eq {pc' : RwPc B} (hq : Function.update s.rw p pc q = pc') (hne : pc ≠ pc') : s.rw q = pc' := by
  by_cases hqp : q = p
  · rw [hqp, update_self] at hq
    exact absurd hq hne
  · rwa [update_of_ne hqp] at hq

theorem Pending.goto (hp : s.Pending h) (hsame : SamePlace (s.rw p) pc)
    (hrw : s'.rw = Function.update s.rw p pc) (hrings : s.SameRings s') (hintr : s'.intr = s.intr) :
    s'.Pending h := by
  refine hp.frame hrings (fun q => ?_) (fun q b x hq => ?_) (fun q b x hq => ?_) fun c hc => ?_
  · rw [hrw]
    exact update_rw_eq rfl hsame.posted q
  · rw [hrw] at hq
    exact goto_eq hq (hsame.post b x)
  · rw [hrw] at hq
    exact hp.reclaim q b x (goto_eq hq (hsame.reclaim b x))
  · rw [hintr] at hc
    exact hp.entry c hc

/-- `acquire(&disk.vdisk_lock)`. -/
theorem Inv.acquire (hi : s.Inv h) (hs : s.acquire p pc = some s') (hpc : pc.locked = true)
    (hsame : SamePlace (s.rw p) pc) : s'.Inv h := by
  unfold VirtioSys.acquire at hs
  split at hs
  · next hfree hawake =>
    cases hs
    refine ⟨hi.locked.set (Or.inl hfree) rfl rfl (if_pos hpc).symm, hi.chains.frame (update_rw_eq rfl hsame.chain) rfl,
      hi.formatted.frame hi.chains (update_rw_eq rfl hsame.formatted) (fun _ _ => rfl) rfl,
      hi.owned.frame (update_rw_eq rfl hsame.buf) rfl,
      hi.sleepers.frame (fun _ _ hk => hk) (fun q hq => ?_) fun _ hb => hb,
      hi.pending.goto hsame rfl (.refl s) rfl, hi.panic⟩
    exact update_of_ne (by rintro rfl; exact hq hawake) ..
  · cases hs

/-- A process that does not sleep is not asleep. -/
theorem Sleepers.awake (hs : s.Sleepers) (halloc : ∀ b write, s.rw p ≠ .allocSleep b write)
    (hwait : ∀ b x, s.rw p ≠ .waitSleep b x) : s.asleep p = none := by
  cases hp : s.asleep p with
  | none => rfl
  | some k =>
    cases k with
    | free =>
      obtain ⟨b, write, h⟩ := hs.free p hp
      exact absurd h (halloc b write)
    | buf b =>
      obtain ⟨⟨x, h⟩, -⟩ := hs.buf p b hp
      exact absurd h (hwait b x)

theorem Sleepers.goto (hs : s.Sleepers) (hawake : s.asleep p = none)
    (hasleep : ∀ q k, s'.asleep q = some k → s.asleep q = some k) (hrw : s'.rw = Function.update s.rw p pc)
    (hon : ∀ b, s.onDisk b = true → s'.onDisk b = true) : s'.Sleepers :=
  hs.frame hasleep (fun q hq => by
    rw [hrw]
    exact update_of_ne (by rintro rfl; exact hq hawake) ..) hon

/-- `alloc3_desc` has given the descriptors of `x` to `p`. -/
theorem Chains.alloc (hc : s.Chains) (hold : (s.rw p).chain = none) (hnd : x.toList.Nodup)
    (hx : ∀ i ∈ x.toList, i < NUM ∧ s.disk.free i = true) (hrw : s'.rw = Function.update s.rw p pc)
    (hpc : pc.chain = some x) (hfree : s'.disk.free = fun i => s.disk.free i && decide (i ∉ x.toList)) :
    s'.Chains := by
  have hself : (s'.rw p).chain = some x := by rw [hrw, update_self, hpc]
  have hother : ∀ q, q ≠ p → s'.rw q = s.rw q := fun q hq => by rw [hrw, update_of_ne hq]
  have hnew : ∀ q y i, q ≠ p → (s.rw q).chain = some y → i ∈ y.toList → i ∉ x.toList := by
    intro q y i hq hy hi hix
    have hbusy := ((hc.mem q y hy).2 i hi).2
    rw [(hx i hix).2] at hbusy
    cases hbusy
  refine ⟨fun q y hy => ?_, fun q r y z i hy hz hiy hiz => ?_, fun i hi hbusy => ?_⟩
  · by_cases hq : q = p
    · subst hq
      obtain rfl := Option.some.inj (hself.symm.trans hy)
      exact ⟨hnd, fun i hi => ⟨(hx i hi).1, by simp [hfree, hi]⟩⟩
    · rw [hother q hq] at hy
      obtain ⟨hnd, hmem⟩ := hc.mem q y hy
      exact ⟨hnd, fun i hi => ⟨(hmem i hi).1, by simp [hfree, (hmem i hi).2]⟩⟩
  · by_cases hq : q = p
    · by_cases hr : r = p
      · rw [hq, hr]
      · subst hq
        obtain rfl := Option.some.inj (hself.symm.trans hy)
        rw [hother r hr] at hz
        exact absurd hiy (hnew r z i hr hz hiz)
    · rw [hother q hq] at hy
      by_cases hr : r = p
      · subst hr
        obtain rfl := Option.some.inj (hself.symm.trans hz)
        exact absurd hiz (hnew q y i hq hy hiy)
      · rw [hother r hr] at hz
        exact hc.sole q r y z i hy hz hiy hiz
  · by_cases hix : i ∈ x.toList
    · exact ⟨p, x, hself, hix⟩
    · have hbusy : s.disk.free i = false := by simpa [hfree, hix] using hbusy
      obtain ⟨q, y, hy, hiy⟩ := hc.covered i hi hbusy
      refine ⟨q, y, ?_, hiy⟩
      rw [hother q (by rintro rfl; rw [hold] at hy; cases hy)]
      exact hy

/-- `free_chain` has freed the descriptors of `p`. -/
theorem Chains.reclaim (hc : s.Chains) (hold : (s.rw p).chain = some x)
    (hrw : s'.rw = Function.update s.rw p pc) (hpc : pc.chain = none)
    (hfree : s'.disk.free = fun i => s.disk.free i || decide (i ∈ x.toList)) : s'.Chains := by
  have hother : ∀ q y, (s'.rw q).chain = some y → q ≠ p ∧ (s.rw q).chain = some y := by
    intro q y hy
    have hq : q ≠ p := by
      rintro rfl
      rw [hrw, update_self, hpc] at hy
      cases hy
    rw [hrw, update_of_ne hq] at hy
    exact ⟨hq, hy⟩
  refine ⟨fun q y hy => ?_, fun q r y z i hy hz => ?_, fun i hi hbusy => ?_⟩
  · obtain ⟨hq, hy⟩ := hother q y hy
    obtain ⟨hnd, hmem⟩ := hc.mem q y hy
    refine ⟨hnd, fun i hi => ⟨(hmem i hi).1, ?_⟩⟩
    have hix : i ∉ x.toList := fun hix => hq (hc.sole q p y x i hy hold hi hix)
    simp [hfree, hix, (hmem i hi).2]
  · exact hc.sole q r y z i (hother q y hy).2 (hother r z hz).2
  · rw [hfree, Bool.or_eq_false_iff, decide_eq_false_iff_not] at hbusy
    obtain ⟨q, y, hy, hiy⟩ := hc.covered i hi hbusy.1
    have hq : q ≠ p := by
      rintro rfl
      obtain rfl := Option.some.inj (hold.symm.trans hy)
      exact hbusy.2 hiy
    exact ⟨q, y, by rw [hrw, update_of_ne hq, hy], hiy⟩

/-- Two requests have different buffers. -/
theorem Owned.ne (ho : s.Owned) {b' : B} (hp : (s.rw p).buf = some b) (hq : (s.rw q).buf = some b')
    (hne : q ≠ p) : b' ≠ b := by
  rintro rfl
  have heq := (ho q b' hq).symm.trans (ho p b' hp)
  exact hne (Option.some.inj heq)

theorem Locked.sole (hl : s.Locked) (hp : (s.rw p).locked = true) (hq : (s.rw q).locked = true) : q = p := by
  have heq := ((hl.rw q).mp hq).symm.trans ((hl.rw p).mp hp)
  simpa using heq

/-- A head that is pending is that of a request. -/
theorem Inv.of_pending (hi : s.Inv h) {i : ℕ} (hmem : i ∈ h.pending s.devTaken) :
    ∃ p b x, (s.rw p).posted = some (b, x) ∧ (s.rw p).buf = some b ∧ (s.rw p).chain = some x ∧
      s.onDisk b = true ∧ x.i0 = i ∧ i ∈ x.toList := by
  obtain ⟨p, b, x, hx, hon, rfl⟩ := (hi.pending.mem i).mp hmem
  obtain ⟨hb, hc⟩ := RwPc.buf_of_formatted (RwPc.formatted_of_posted hx)
  exact ⟨p, b, x, hx, hb, hc, hon, rfl, by simp [Idx.toList]⟩

/-- The head of a request that has not been posted is not pending. -/
theorem Inv.not_mem_pending (hi : s.Inv h) (hx : (s.rw p).chain = some x) (hp : (s.rw p).posted = none) :
    x.i0 ∉ h.pending s.devTaken := by
  intro hmem
  obtain ⟨q, b, y, hy, -, hc, -, hhead, hiy⟩ := hi.of_pending hmem
  obtain rfl := hi.chains.sole p q x y x.i0 hx hc (by simp [Idx.toList]) hiy
  rw [hp] at hy
  cases hy

/-- With a head more, there are no more than there are descriptors. -/
theorem Inv.length_pending (hi : s.Inv h) (hx : (s.rw p).chain = some x) (hp : (s.rw p).posted = none) :
    (h.pending s.devTaken).length < NUM := by
  have hnd : (x.i0 :: h.pending s.devTaken).Nodup :=
    List.nodup_cons.mpr ⟨hi.not_mem_pending hx hp, hi.pending.nodup⟩
  have hsub : x.i0 :: h.pending s.devTaken ⊆ List.range NUM := by
    intro i hmem
    rw [List.mem_range]
    obtain rfl | hmem := List.mem_cons.mp hmem
    · exact ((hi.chains.mem p x hx).2 _ (by simp [Idx.toList])).1
    · obtain ⟨q, b, y, -, -, hc, -, -, hiy⟩ := hi.of_pending hmem
      exact ((hi.chains.mem q y hc).2 i hiy).1
  have hle := (hnd.subperm hsub).length_le
  rw [List.length_cons, List.length_range] at hle
  exact hle

theorem length_avail (h : VirtioHist P) (devTaken : List ℕ) :
    h.posted.length - h.taken.length ≤ (h.pending devTaken).length := by
  simp [VirtioHist.pending]

theorem num_dvd : NUM ∣ 2 ^ 16 := by decide

section Format

variable {write : Bool} (hi : s.Inv h) (hrw : s.rw p = .format b write x)
  (hrw' : s'.rw = Function.update s.rw p (.post b x))
include hi hrw hrw'

theorem Formatted.format {sector : ℕ} (hdisk : s'.disk = s.disk.format b sector write x) : s'.Formatted := by
  have hchain : (s.rw p).chain = some x := by rw [hrw]; rfl
  intro q b' y hy
  rw [hrw'] at hy
  rw [hdisk]
  by_cases hq : q = p
  · subst hq
    simp only [update_self, RwPc.formatted, Option.some.injEq, Prod.mk.injEq] at hy
    obtain ⟨rfl, rfl⟩ := hy
    exact ⟨s.disk.format_linked b sector write (hi.chains.mem q x hchain).1, by simp [VirtioDisk.format]⟩
  · rw [update_of_ne hq] at hy
    obtain ⟨hlinked, hinfo⟩ := hi.formatted q b' y hy
    have hdiff : ∀ i ∈ y.toList, i ∉ x.toList := fun i hiy hix =>
      hq (hi.chains.sole q p y x i (RwPc.buf_of_formatted hy).2 hchain hiy hix)
    refine ⟨hlinked.congr fun i hiy => ?_, ?_⟩
    · have hne := hdiff i hiy
      simp only [Idx.toList, List.mem_cons, List.not_mem_nil, or_false, not_or] at hne
      simp [VirtioDisk.format, hne.1, hne.2.1, hne.2.2]
    · have hne : y.i0 ≠ x.i0 := fun heq =>
        hdiff y.i0 (by simp [Idx.toList]) (by simp [Idx.toList, heq])
      simpa [VirtioDisk.format, hne] using hinfo

theorem Pending.format {sector : ℕ} (hdisk : s'.disk = s.disk.format b sector write x)
    (hon : s'.onDisk = Function.update s.onDisk b true) (hintr : s'.intr = s.intr)
    (hdev : s'.devIdx = s.devIdx ∧ s'.devTaken = s.devTaken) : s'.Pending h := by
  have hp := hi.pending
  have hbuf : (s.rw p).buf = some b := by rw [hrw]; rfl
  have hchain : (s.rw p).chain = some x := by rw [hrw]; rfl
  have hnot : (s.rw p).posted = none := by rw [hrw]; rfl
  have hposted : ∀ q, (s'.rw q).posted = (s.rw q).posted := by
    rw [hrw']
    exact update_rw_eq hrw rfl
  have hother : ∀ q b', (s.rw q).buf = some b' → q ≠ p → s'.onDisk b' = s.onDisk b' := fun q b' hq hne => by
    rw [hon]
    exact update_of_ne (hi.owned.ne hbuf hq hne) ..
  have hsame : ∀ q b' y, (s.rw q).posted = some (b', y) → s'.onDisk b' = s.onDisk b' := by
    intro q b' y hq
    refine hother q b' (RwPc.buf_of_formatted (RwPc.formatted_of_posted hq)).1 ?_
    rintro rfl
    rw [hnot] at hq
    cases hq
  have hhead := hi.not_mem_pending hchain hnot
  have hfull : h.posted.length < h.taken.length + NUM := by
    have hle := length_avail h s.devTaken
    have hlt := hi.length_pending hchain hnot
    omega
  constructor
  · rw [hdisk, hdev.1]
    exact hp.avail.store num_dvd hfull x.i0
  · rw [hdisk]
    exact hp.used
  · exact hp.taken
  · exact hp.processed
  · rw [hdev.2]
    exact hp.nodup
  · intro i
    rw [hdev.2, hp.mem i]
    refine exists_congr fun q => exists_congr fun b' => exists_congr fun y => ?_
    rw [hposted]
    exact and_congr_right fun hq => by rw [hsame q b' y hq]
  · intro i hmem
    have hne : i ≠ x.i0 := by
      rintro rfl
      exact hhead (by simp [VirtioHist.pending, hmem])
    rw [hdisk]
    simpa [VirtioDisk.format, hne] using hp.status i hmem
  · simpa only [hposted] using hp.owner
  · intro q b' y hq
    rw [hposted] at hq
    rw [hsame q b' y hq]
    exact hp.done q b' y hq
  · intro q b' y hq
    rw [hrw'] at hq
    have hqp : q = p := by
      by_contra hne
      rw [update_of_ne hne] at hq
      exact hne (hi.locked.sole (by rw [hrw]; rfl) (by rw [hq]; rfl))
    subst hqp
    rw [update_self] at hq
    cases hq
    rw [hon, hdisk]
    simp [VirtioDisk.format]
  · intro q b' y hq
    have hne : q ≠ p := by
      rintro rfl
      rw [hrw', update_self] at hq
      cases hq
    rw [hrw', update_of_ne hne] at hq
    rw [hother q b' (by rw [hq]; rfl) hne]
    exact hp.reclaim q b' y hq
  · intro c hc
    rw [hintr] at hc
    rw [hdisk]
    exact hp.entry c hc

end Format

/-- The request is formatted. -/
theorem Inv.format {write : Bool} (hi : s.Inv h) (hrw : s.rw p = .format b write x) (sector : ℕ) :
    ({ s with
      disk := s.disk.format b sector write x
      onDisk := Function.update s.onDisk b true }.goto p (.post b x)).Inv h := by
  refine ⟨hi.locked.frame (update_rw_eq hrw rfl) (fun _ => rfl) rfl,
    hi.chains.frame (update_rw_eq hrw rfl) rfl, .format hi hrw rfl rfl,
    hi.owned.frame (update_rw_eq hrw rfl) rfl,
    hi.sleepers.goto (hi.sleepers.awake (by simp [hrw]) (by simp [hrw])) (fun _ _ hk => hk) rfl fun b' hb => ?_,
    .format hi hrw rfl rfl rfl rfl ⟨rfl, rfl⟩, hi.panic⟩
  by_cases hbb : b' = b
  · simp [goto, hbb]
  · simpa [goto, hbb] using hb

/-- The history when `p` has put its head into the `avail` ring. -/
def posts (h : VirtioHist P) (p : P) (x : Idx) : VirtioHist P :=
  { h with
    posted := h.posted ++ [x.i0]
    owner := Function.update h.owner x.i0 (some p)
    done := Function.update h.done p false }

theorem pending_posts (hle : h.taken.length ≤ h.posted.length) (devTaken : List ℕ) :
    ((posts h p x).pending devTaken).Perm (x.i0 :: h.pending devTaken) := by
  simp only [posts, VirtioHist.pending, List.drop_append_of_le_length hle, List.append_assoc,
    List.singleton_append]
  exact List.perm_middle

theorem Pending.posts (hi : s.Inv h) (hrw : s.rw p = .post b x)
    (hrw' : s'.rw = Function.update s.rw p (.wait b x)) (hon : s'.onDisk = s.onDisk) (hintr : s'.intr = s.intr)
    (hdev : s'.devIdx = s.devIdx ∧ s'.devTaken = s.devTaken)
    (hdisk : s'.disk = { s.disk with availIdx := s.disk.availIdx + 1 }) : s'.Pending (VirtioSys.posts h p x) := by
  have hp := hi.pending
  have hchain : (s.rw p).chain = some x := by rw [hrw]; rfl
  have hnot : (s.rw p).posted = none := by rw [hrw]; rfl
  obtain ⟨honb, hslot⟩ := hp.post p b x hrw
  have hhead := hi.not_mem_pending hchain hnot
  have hperm := pending_posts (p := p) (x := x) hp.avail.le s.devTaken
  have hself : (s'.rw p).posted = some (b, x) := by
    rw [hrw', update_self]
    rfl
  have hother : ∀ q, q ≠ p → s'.rw q = s.rw q := fun q hq => by rw [hrw', update_of_ne hq]
  have hdiff : ∀ q b' y, q ≠ p → (s.rw q).posted = some (b', y) → y.i0 ≠ x.i0 := by
    intro q b' y hq hy heq
    have hc := (RwPc.buf_of_formatted (RwPc.formatted_of_posted hy)).2
    exact hq (hi.chains.sole q p y x y.i0 hc hchain (by simp [Idx.toList]) (by simp [Idx.toList, heq]))
  have hfull : h.posted.length < h.taken.length + NUM := by
    have hle := length_avail h s.devTaken
    have hlt := hi.length_pending hchain hnot
    omega
  constructor
  · rw [hdisk, hdev.1]
    have hpush := hp.avail.push num_dvd hfull
    rw [hslot] at hpush
    exact hpush
  · rw [hdisk]
    exact hp.used
  · exact hp.taken.trans (List.prefix_append ..)
  · exact hp.processed
  · rw [hdev.2, hperm.nodup_iff, List.nodup_cons]
    exact ⟨hhead, hp.nodup⟩
  · intro i
    rw [hdev.2, hperm.mem_iff, List.mem_cons, hp.mem i, hon]
    constructor
    · rintro (rfl | ⟨q, b', y, hy, hb', hi'⟩)
      · exact ⟨p, b, x, hself, honb, rfl⟩
      · have hq : q ≠ p := by
          rintro rfl
          rw [hnot] at hy
          cases hy
        exact ⟨q, b', y, by rw [hother q hq, hy], hb', hi'⟩
    · rintro ⟨q, b', y, hy, hb', rfl⟩
      by_cases hq : q = p
      · subst hq
        cases hself.symm.trans hy
        exact Or.inl rfl
      · rw [hother q hq] at hy
        exact Or.inr ⟨q, b', y, hy, hb', rfl⟩
  · rw [hdisk]
    exact hp.status
  · intro q b' y hy
    by_cases hq : q = p
    · subst hq
      cases hself.symm.trans hy
      exact update_self ..
    · rw [hother q hq] at hy
      exact (update_of_ne (hdiff q b' y hq hy) ..).trans (hp.owner q b' y hy)
  · intro q b' y hy hdone
    rw [hon] at hdone
    by_cases hq : q = p
    · subst hq
      cases hself.symm.trans hy
      obtain hmem | hoff := hdone
      · exact absurd (List.mem_append_right _ (List.mem_append_right _ hmem)) hhead
      · rw [honb] at hoff
        cases hoff
    · rw [hother q hq] at hy
      exact (update_of_ne hq ..).trans (hp.done q b' y hy hdone)
  · intro q b' y hq
    have hqp : q ≠ p := by
      rintro rfl
      rw [hrw', update_self] at hq
      cases hq
    rw [hother q hqp] at hq
    exact absurd (hi.locked.sole (by rw [hrw]; rfl) (by rw [hq]; rfl)) hqp
  · intro q b' y hq
    have hqp : q ≠ p := by
      rintro rfl
      rw [hrw', update_self] at hq
      cases hq
    rw [hother q hqp] at hq
    rw [hon]
    exact hp.reclaim q b' y hq
  · rw [hintr, hdisk]
    exact hp.entry

/-- The head is put into the `avail` ring. -/
theorem Inv.post (hi : s.Inv h) (hrw : s.rw p = .post b x) :
    ({ s with disk := { s.disk with availIdx := s.disk.availIdx + 1 } }.goto p (.wait b x)).Inv
      (posts h p x) := by
  exact ⟨hi.locked.frame (update_rw_eq hrw rfl) (fun _ => rfl) rfl,
    hi.chains.frame (update_rw_eq hrw rfl) rfl,
    hi.formatted.frame hi.chains (update_rw_eq hrw rfl) (fun _ _ => rfl) rfl,
    hi.owned.frame (update_rw_eq hrw rfl) rfl,
    hi.sleepers.goto (hi.sleepers.awake (by simp [hrw]) (by simp [hrw])) (fun _ _ hk => hk) rfl fun _ hb => hb,
    .posts hi hrw rfl rfl rfl ⟨rfl, rfl⟩ rfl, hi.panic⟩

/-- `alloc3_desc` succeeds. -/
theorem Inv.alloc {write w : Bool} {d : VirtioDisk B} (hi : s.Inv h) (hrw : s.rw p = .alloc b write)
    (hd : s.disk.alloc3Desc = .ok (some x, d, w)) :
    ({ s with disk := d }.goto p (.format b write x)).Inv h := by
  obtain ⟨hnd, hx, rfl⟩ := VirtioDisk.alloc3Desc_some hd
  exact ⟨hi.locked.frame (update_rw_eq hrw rfl) (fun _ => rfl) rfl,
    hi.chains.alloc (by rw [hrw]; rfl) hnd hx rfl rfl rfl,
    hi.formatted.frame hi.chains (update_rw_eq hrw rfl) (fun _ _ => rfl) rfl,
    hi.owned.frame (update_rw_eq hrw rfl) rfl,
    hi.sleepers.goto (hi.sleepers.awake (by simp [hrw]) (by simp [hrw])) (fun _ _ hk => hk) rfl fun _ hb => hb,
    hi.pending.frame (.refl s) (update_rw_eq hrw rfl)
      (fun q b' y hq => goto_eq hq (by simp))
      (fun q b' y hq => hi.pending.reclaim q b' y (goto_eq hq (by simp))) hi.pending.entry, hi.panic⟩

/-- `p` goes to sleep on a channel that it may sleep on. -/
theorem Sleepers.sleep {k : DiskChan B} (hs : s.Sleepers) (hawake : s.asleep p = none)
    (hasleep : ∀ q k', s'.asleep q = some k' → (q = p ∧ k' = k) ∨ s.asleep q = some k')
    (hrw : s'.rw = Function.update s.rw p pc) (hon : s'.onDisk = s.onDisk)
    (hfree : k = .free → ∃ b write, pc = .allocSleep b write)
    (hbuf : ∀ b, k = .buf b → (∃ x, pc = .waitSleep b x) ∧ s.onDisk b = true) : s'.Sleepers := by
  have hother : ∀ q k', s.asleep q = some k' → s'.rw q = s.rw q := by
    intro q k' hq
    rw [hrw]
    refine update_of_ne ?_ ..
    rintro rfl
    rw [hawake] at hq
    cases hq
  refine ⟨fun q hq => ?_, fun q b hq => ?_⟩
  · obtain ⟨rfl, hk⟩ | hq := hasleep q _ hq
    · rw [hrw, update_self]
      exact hfree hk.symm
    · rw [hother q _ hq]
      exact hs.free q hq
  · obtain ⟨rfl, hk⟩ | hq := hasleep q _ hq
    · rw [hrw, update_self, hon]
      exact hbuf b hk.symm
    · rw [hother q _ hq, hon]
      exact hs.buf q b hq

theorem asleep_of_update {f : P → Option (DiskChan B)} {k k' : DiskChan B}
    (hq : Function.update f p (some k) q = some k') : (q = p ∧ k' = k) ∨ f q = some k' := by
  by_cases hqp : q = p
  · rw [hqp, update_self] at hq
    exact Or.inl ⟨hqp, (Option.some.inj hq).symm⟩
  · rw [update_of_ne hqp] at hq
    exact Or.inr hq

theorem asleep_of_wakeup {k k' : DiskChan B} (hq : (s.wakeup k).asleep q = some k') :
    s.asleep q = some k' ∧ k' ≠ k := by
  simp only [wakeup] at hq
  split_ifs at hq with hk
  refine ⟨hq, ?_⟩
  rintro rfl
  exact hk hq

/-- `p` gives up `vdisk_lock` and goes to sleep. -/
theorem Inv.sleep (hi : s.Inv h) (hlocked : (s.rw p).locked = true) (hpc : pc.locked = false)
    (hsame : SamePlace (s.rw p) pc) (hrw : s'.rw = Function.update s.rw p pc) (hintr : s'.intr = s.intr)
    (hlock : s'.vdiskLock = none)
    (hdesc : s'.disk.free = s.disk.free ∧ ∀ i, s.disk.free i = false → s'.disk.desc i = s.disk.desc i)
    (hinfo : s'.disk.infoB = s.disk.infoB) (hrings : s.SameRings s') (hholder : s'.holder = s.holder)
    (hpanic : s'.panic = s.panic) (hsleepers : s'.Sleepers) : s'.Inv h := by
  have hplace : ∀ {α : Type} {f : RwPc B → α}, f pc = f (s.rw p) → ∀ q, f (s'.rw q) = f (s.rw q) := by
    rw [hrw]
    exact update_rw_eq rfl
  exact ⟨hi.locked.set (Or.inr ((hi.locked.rw p).mp hlocked)) hrw hintr (by rw [hlock, hpc]; rfl),
    hi.chains.frame (hplace hsame.chain) hdesc.1,
    hi.formatted.frame hi.chains (hplace hsame.formatted) hdesc.2 hinfo,
    hi.owned.frame (hplace hsame.buf) hholder, hsleepers, hi.pending.goto hsame hrw hrings hintr,
    hpanic.trans hi.panic⟩

/-- `alloc3_desc` fails. -/
theorem Inv.allocSleep {write w : Bool} {d : VirtioDisk B} (hi : s.Inv h) (hrw : s.rw p = .alloc b write)
    (hd : s.disk.alloc3Desc = .ok (none, d, w)) :
    ((if w then { s with disk := d }.wakeup .free else { s with disk := d }).sleep p .free
      (.allocSleep b write)).Inv h := by
  obtain ⟨hfree, heq, hdesc⟩ := VirtioDisk.alloc3Desc_none hd
  have hlocked : (s.rw p).locked = true := by rw [hrw]; rfl
  have hawake : s.asleep p = none := hi.sleepers.awake (by simp [hrw]) (by simp [hrw])
  have hsame : SamePlace (s.rw p) (.allocSleep b write) := by
    rw [hrw]
    exact ⟨rfl, rfl, rfl, rfl, by simp, by simp⟩
  rw [heq]
  cases w with
  | true =>
    exact hi.sleep hlocked rfl hsame rfl rfl rfl ⟨rfl, hdesc⟩ rfl (.refl s) rfl rfl
      (hi.sleepers.sleep hawake
        (fun q k hq => (asleep_of_update hq).imp_right fun hq => (asleep_of_wakeup hq).1) rfl rfl
        (fun _ => ⟨b, write, rfl⟩) fun _ hk => by cases hk)
  | false =>
    exact hi.sleep hlocked rfl hsame rfl rfl rfl ⟨rfl, hdesc⟩ rfl (.refl s) rfl rfl
      (hi.sleepers.sleep hawake (fun q k hq => asleep_of_update hq) rfl rfl
        (fun _ => ⟨b, write, rfl⟩) fun _ hk => by cases hk)

/-- The request is not done. -/
theorem Inv.waitSleep (hi : s.Inv h) (hrw : s.rw p = .wait b x) (hon : s.onDisk b = true) :
    (s.sleep p (.buf b) (.waitSleep b x)).Inv h := by
  have hawake : s.asleep p = none := hi.sleepers.awake (by simp [hrw]) (by simp [hrw])
  have hsame : SamePlace (s.rw p) (.waitSleep b x) := by
    rw [hrw]
    exact ⟨rfl, rfl, rfl, rfl, by simp, by simp⟩
  refine hi.sleep (by rw [hrw]; rfl) rfl hsame rfl rfl rfl ⟨rfl, fun _ _ => rfl⟩ rfl (.refl s) rfl rfl
    (hi.sleepers.sleep hawake (fun q k hq => asleep_of_update hq) rfl rfl
      (fun hk => by cases hk) fun b' hk => ?_)
  cases hk
  exact ⟨⟨x, rfl⟩, hon⟩

/-- The request is done. -/
theorem Inv.waitDone (hi : s.Inv h) (hrw : s.rw p = .wait b x) (hon : s.onDisk b = false) :
    (s.goto p (.reclaim b x)).Inv h := by
  refine ⟨hi.locked.frame (update_rw_eq hrw rfl) (fun _ => rfl) rfl,
    hi.chains.frame (update_rw_eq hrw rfl) rfl,
    hi.formatted.frame hi.chains (update_rw_eq hrw rfl) (fun _ _ => rfl) rfl,
    hi.owned.frame (update_rw_eq hrw rfl) rfl,
    hi.sleepers.goto (hi.sleepers.awake (by simp [hrw]) (by simp [hrw])) (fun _ _ hk => hk) rfl fun _ hb => hb,
    hi.pending.frame (.refl s) (update_rw_eq hrw rfl)
      (fun q b' y hq => goto_eq hq (by simp)) (fun q b' y hq => ?_) hi.pending.entry, hi.panic⟩
  by_cases hqp : q = p
  · rw [goto_rw, hqp, update_self] at hq
    cases hq
    exact hon
  · rw [goto_rw, update_of_ne hqp] at hq
    exact hi.pending.reclaim q b' y hq

/-- A request that is done leaves. -/
theorem Pending.leave (hp : s.Pending h) (hrw : s.rw p = .reclaim b x)
    (hrw' : s'.rw = Function.update s.rw p .out) (hrings : s.SameRings s') (hintr : s'.intr = s.intr) :
    s'.Pending h := by
  obtain ⟨⟨ha1, ha2, ha3, ha4⟩, ⟨hu1, hu2, hu3, hu4⟩, hon⟩ := hrings
  have hoff := hp.reclaim p b x hrw
  have hother : ∀ {q pc}, s'.rw q = pc → pc ≠ .out → s.rw q = pc := fun hq hpc =>
    goto_eq (hrw' ▸ hq) hpc.symm
  have hposted : ∀ q y, (s'.rw q).posted = some y → (s.rw q).posted = some y := by
    intro q y hy
    rwa [← hother rfl (by rintro hout; rw [hout] at hy; cases hy)] at hy
  constructor
  · rw [ha1, ha2, ha3]
    exact hp.avail
  · rw [hu1, hu2, hu3]
    exact hp.used
  · exact hp.taken
  · exact hp.processed
  · rw [ha4]
    exact hp.nodup
  · intro i
    rw [ha4, hp.mem i, hon]
    constructor
    · rintro ⟨q, b', y, hy, hb', hi'⟩
      have hq : q ≠ p := by
        rintro rfl
        rw [hrw] at hy
        cases hy
        rw [hoff] at hb'
        cases hb'
      exact ⟨q, b', y, by rw [hrw', update_of_ne hq, hy], hb', hi'⟩
    · rintro ⟨q, b', y, hy, hb', hi'⟩
      exact ⟨q, b', y, hposted q _ hy, hb', hi'⟩
  · rw [hu4]
    exact hp.status
  · exact fun q b' y hy => hp.owner q b' y (hposted q _ hy)
  · rw [hon]
    exact fun q b' y hy => hp.done q b' y (hposted q _ hy)
  · intro q b' y hq
    rw [hon, ha1, ha2]
    exact hp.post q b' y (hother hq (by simp))
  · intro q b' y hq
    rw [hon]
    exact hp.reclaim q b' y (hother hq (by simp))
  · rw [hintr, hu2, hu3]
    exact hp.entry

/-- The chain is freed. -/
theorem Inv.reclaim (hi : s.Inv h) (hrw : s.rw p = .reclaim b x) : ∃ d,
    { s.disk with infoB := Function.update s.disk.infoB x.i0 none }.freeChain NUM x.i0 = .ok d ∧
      ({ s.wakeup .free with disk := d, vdiskLock := none }.goto p .out).Inv h := by
  have hchain : (s.rw p).chain = some x := by rw [hrw]; rfl
  obtain ⟨hlinked, -⟩ := hi.formatted p b x (by rw [hrw]; rfl)
  obtain ⟨hnd, hbusy⟩ := hi.chains.mem p x hchain
  have hlinked' : { s.disk with infoB := Function.update s.disk.infoB x.i0 none }.Linked x :=
    hlinked.congr fun _ _ => rfl
  obtain ⟨desc, heq, hdesc⟩ := hlinked'.freeChain hnd hbusy
  refine ⟨_, heq, hi.locked.set (Or.inr ((hi.locked.rw p).mp (by rw [hrw]; rfl))) rfl rfl rfl,
    hi.chains.reclaim hchain rfl rfl rfl, ?_, fun q b' hb => ?_,
    hi.sleepers.goto (hi.sleepers.awake (by simp [hrw]) (by simp [hrw])) (fun q k hk => (asleep_of_wakeup hk).1)
      rfl fun _ hb => hb, hi.pending.leave hrw rfl (.refl s) rfl, hi.panic⟩
  · intro q b' y hy
    have hq : q ≠ p := by
      rintro rfl
      rw [goto_rw, update_self] at hy
      cases hy
    rw [goto_rw, update_of_ne hq] at hy
    obtain ⟨hlinked, hinfo⟩ := hi.formatted q b' y hy
    have hdiff : ∀ i ∈ y.toList, i ∉ x.toList := fun i hiy hix =>
      hq (hi.chains.sole q p y x i (RwPc.buf_of_formatted hy).2 hchain hiy hix)
    refine ⟨hlinked.congr fun i hiy => hdesc i (hdiff i hiy), ?_⟩
    have hne : y.i0 ≠ x.i0 := fun heq => hdiff y.i0 (by simp [Idx.toList]) (by simp [Idx.toList, heq])
    exact (update_of_ne hne ..).trans hinfo
  · have hq : q ≠ p := by
      rintro rfl
      rw [goto_rw, update_self] at hb
      cases hb
    rw [goto_rw, update_of_ne hq] at hb
    exact hi.owned q b' hb

/-- What the history says about a step of `p`. -/
theorem next_run (h : VirtioHist P) (s : VirtioSys P C B) (p : P) :
    h.next s (.run p) = match s.rw p with
      | .post _ x => posts h p x
      | _ => h := rfl

/-- A step of virtio_disk_rw keeps the invariant. -/
theorem Inv.run (hi : s.Inv h) (hs : s.run p = some s') : s'.Inv (h.next s (.run p)) := by
  rw [next_run]
  unfold VirtioSys.run at hs
  cases hrw : s.rw p with
  | out =>
    rw [hrw] at hs
    cases hs
  | lock b write =>
    rw [hrw] at hs
    exact hi.acquire hs rfl (by rw [hrw]; exact ⟨rfl, rfl, rfl, rfl, by simp, by simp⟩)
  | alloc b write =>
    simp only [hrw] at hs
    cases hd : s.disk.alloc3Desc with
    | error e => exact absurd hd (VirtioDisk.alloc3Desc_ne_error e)
    | ok y =>
      obtain ⟨_ | x, d, w⟩ := y
      · rw [hd] at hs
        cases hs
        exact hi.allocSleep hrw hd
      · rw [hd] at hs
        cases hs
        exact hi.alloc hrw hd
  | allocSleep b write =>
    rw [hrw] at hs
    exact hi.acquire hs rfl (by rw [hrw]; exact ⟨rfl, rfl, rfl, rfl, by simp, by simp⟩)
  | format b write x =>
    rw [hrw] at hs
    cases hs
    exact hi.format hrw _
  | post b x =>
    rw [hrw] at hs
    cases hs
    exact hi.post hrw
  | wait b x =>
    rw [hrw] at hs
    cases hs
    cases hon : s.onDisk b with
    | true => exact hi.waitSleep hrw hon
    | false => exact hi.waitDone hrw hon
  | waitSleep b x =>
    rw [hrw] at hs
    exact hi.acquire hs rfl (by rw [hrw]; exact ⟨rfl, rfl, rfl, rfl, by simp, by simp⟩)
  | reclaim b x =>
    obtain ⟨d, hd, hinv⟩ := hi.reclaim hrw
    simp only [hrw] at hs
    rw [hd] at hs
    cases hs
    exact hinv

end VirtioSys

end Xv6
