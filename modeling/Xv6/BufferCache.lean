import Mathlib.Data.Fintype.Card
import Mathlib.Data.Nat.Pairing
import Xv6.Bcache
import Xv6.DList
import Xv6.Machine

/-!
# The links of the buffer cache

kernel/bio.c with the `prev` and `next` links of the buffers and with devices, and with a disk. `Cache.abs` forgets the
links for the list they make, and the pair of a device and a block for one number, and every
function does to that what the function of `Bufs` does : the links are one cycle at all times (`Links.Cycle`), and the
invariant of `Bufs` holds.

The processes keep the rules of the locks : a buffer is written, pinned and released by the process that
holds its sleep lock, and unpinned as often as it was pinned. What bread returns is compared with a history (`CacheHist`)
of the modifications, of what bwrite stored, and of when a buffer was last released for good.
-/

namespace Xv6

set_option linter.unusedSectionVars false

/-- `struct buf`, but for the links. -/
structure DevBuf (P : Type*) where
  dev : ℕ
  blockno : ℕ
  valid : Bool
  refcnt : ℕ
  lock : Option P
  data : Block

/-- The block that the buffer is for. -/
def DevBuf.key {P : Type*} (b : DevBuf P) : ℕ × ℕ :=
  (b.dev, b.blockno)

/-- `bcache`, the references and the pins that the processes have, and the disk. -/
structure Cache (P : Type*) where
  buf : BufId → DevBuf P
  links : Links BufId
  refs : List (Ref P)
  pins : BufId → ℕ
  disk : ℕ × ℕ → Block

namespace Cache

variable {P : Type*} [DecidableEq P]

/-- `binit`. -/
def binit (disk : ℕ × ℕ → Block) : Cache P where
  buf _ := ⟨0, 0, false, 0, none, Bytes.zero _⟩
  links := (List.finRange NBUF).foldl Links.pushFront .nil
  refs := []
  pins _ := 0
  disk := disk

/-- Store into a buffer. -/
def set (c : Cache P) (i : BufId) (b : DevBuf P) : Cache P :=
  { c with buf := Function.update c.buf i b }

@[simp] theorem set_self (c : Cache P) (i : BufId) (b : DevBuf P) : (c.set i b).buf i = b :=
  Function.update_self ..

theorem set_of_ne {i j : BufId} (c : Cache P) (hj : j ≠ i) (b : DevBuf P) : (c.set i b).buf j = c.buf j :=
  Function.update_of_ne hj ..

/-- The first loop of bget. -/
def find (c : Cache P) (dev blockno : ℕ) : Option BufId :=
  Links.search c.links.next (fun i => (c.buf i).dev == dev && (c.buf i).blockno == blockno) NBUF (c.links.next none)

/-- The second loop of bget. -/
def recycle (c : Cache P) : Option BufId :=
  Links.search c.links.prev (fun i => (c.buf i).refcnt == 0) NBUF (c.links.prev none)

/-- bget by `p` up to where it releases `bcache.lock`; `none` is the panic. -/
def bget (c : Cache P) (p : P) (dev blockno : ℕ) : Option (BufId × Cache P) :=
  match c.find dev blockno with
  | some i =>
    let c := c.set i { c.buf i with refcnt := (c.buf i).refcnt + 1 }
    some (i, { c with refs := ⟨p, i, .wants⟩ :: c.refs })
  | none => c.recycle.map fun i =>
    let c := c.set i { c.buf i with dev := dev, blockno := blockno, valid := false, refcnt := 1 }
    (i, { c with refs := ⟨p, i, .wants⟩ :: c.refs })

/-- The rest of bread by `p` : acquiresleep, and the read if the buffer is not valid. -/
def acquire (c : Cache P) (p : P) (i : BufId) : Option (Cache P) :=
  if (c.buf i).lock = none ∧ ⟨p, i, .wants⟩ ∈ c.refs then
    let b := c.buf i
    let c := c.set i { b with
      lock := some p, valid := true
      data := if b.valid then b.data else c.disk b.key }
    some { c with refs := ⟨p, i, .holds⟩ :: c.refs.erase ⟨p, i, .wants⟩ }
  else none

/-- `bwrite`. -/
def bwrite (c : Cache P) (i : BufId) : Cache P :=
  { c with disk := Function.update c.disk (c.buf i).key (c.buf i).data }

/-- The releasesleep of brelse by `p`. -/
def releasesleep (c : Cache P) (p : P) (i : BufId) : Cache P :=
  let c := c.set i { c.buf i with lock := none }
  { c with refs := ⟨p, i, .released⟩ :: c.refs.erase ⟨p, i, .holds⟩ }

/-- The rest of brelse by `p`. -/
def put (c : Cache P) (p : P) (i : BufId) : Cache P :=
  let n := (c.buf i).refcnt - 1
  let c := c.set i { c.buf i with refcnt := n }
  { c with
    links := if n = 0 then (c.links.unlink i).pushFront i else c.links
    refs := c.refs.erase ⟨p, i, .released⟩ }

/-- `bpin`. -/
def bpin (c : Cache P) (i : BufId) : Cache P :=
  { c.set i { c.buf i with refcnt := (c.buf i).refcnt + 1 } with
    pins := Function.update c.pins i (c.pins i + 1) }

/-- `bunpin`. -/
def bunpin (c : Cache P) (i : BufId) : Cache P :=
  { c.set i { c.buf i with refcnt := (c.buf i).refcnt - 1 } with
    pins := Function.update c.pins i (c.pins i - 1) }

/-- Store into the data of a buffer. -/
def store (c : Cache P) (i : BufId) (d : Block) : Cache P :=
  c.set i { c.buf i with data := d }

end Cache

/-- The steps of the processes. -/
inductive CacheAct (P : Type*)
  | bget (p : P) (dev blockno : ℕ)
  | acquire (p : P) (i : BufId)
  | store (p : P) (i : BufId) (d : Block)
  | bwrite (p : P) (i : BufId)
  | releasesleep (p : P) (i : BufId)
  | put (p : P) (i : BufId)
  | bpin (p : P) (i : BufId)
  | bunpin (i : BufId)

namespace Cache

variable {P : Type*} [DecidableEq P]

/-- A step, if it keeps the rules. -/
def step (c : Cache P) : CacheAct P → Option (Cache P)
  | .bget p dev blockno => if dev ≠ 0 then (c.bget p dev blockno).map Prod.snd else none
  | .acquire p i => c.acquire p i
  | .store p i d => if ⟨p, i, .holds⟩ ∈ c.refs then some (c.store i d) else none
  | .bwrite p i => if ⟨p, i, .holds⟩ ∈ c.refs then some (c.bwrite i) else none
  | .releasesleep p i => if ⟨p, i, .holds⟩ ∈ c.refs then some (c.releasesleep p i) else none
  | .put p i => if ⟨p, i, .released⟩ ∈ c.refs then some (c.put p i) else none
  | .bpin p i => if ⟨p, i, .holds⟩ ∈ c.refs then some (c.bpin i) else none
  | .bunpin i => if 0 < c.pins i then some (c.bunpin i) else none

end Cache

/-- The buffer cache on a disk. -/
def cacheMachine (P : Type*) [DecidableEq P] (disk : ℕ × ℕ → Block) : Machine (Cache P) (CacheAct P) where
  init c := c = Cache.binit disk
  step := Cache.step

/-- What has been done with the cache. -/
structure CacheHist where
  /-- How often a buffer was released for good. -/
  clock : ℕ
  /-- When each one was, 0 for never. -/
  last : BufId → ℕ
  /-- The last modification of a block, since it is cached. -/
  modified : ℕ × ℕ → Option Block
  /-- What bwrite last stored, or the disk had at first. -/
  stored : ℕ × ℕ → Block

namespace CacheHist

variable {P : Type*} [DecidableEq P]

def start (disk : ℕ × ℕ → Block) : CacheHist :=
  ⟨0, fun _ => 0, fun _ => none, disk⟩

/-- The contents of a block : the modification, or what is stored. -/
def latest (h : CacheHist) (key : ℕ × ℕ) : Block :=
  (h.modified key).getD (h.stored key)

/-- The block is modified, or is no longer cached. -/
def modify (h : CacheHist) (key : ℕ × ℕ) (d : Option Block) : CacheHist :=
  { h with modified := Function.update h.modified key d }

/-- `i` was released for good after `j`, or neither ever was. -/
def After (h : CacheHist) (i j : BufId) : Prop :=
  h.last j < h.last i ∨ (h.last i = 0 ∧ h.last j = 0)

section Modify

variable {h : CacheHist} {key key' : ℕ × ℕ} {d : Option Block}

@[simp] theorem modify_self : (h.modify key d).modified key = d :=
  Function.update_self ..

theorem modify_of_ne (hne : key' ≠ key) : (h.modify key d).modified key' = h.modified key' :=
  Function.update_of_ne hne ..

theorem latest_of_ne (hne : key' ≠ key) : (h.modify key d).latest key' = h.latest key' := by
  rw [latest, modify_of_ne hne]
  rfl

end Modify

def upd (h : CacheHist) (c : Cache P) : CacheAct P → CacheHist
  | .bget _ dev blockno =>
    match c.find dev blockno, c.recycle with
    | none, some i => h.modify (c.buf i).key none
    | _, _ => h
  | .store _ i d => h.modify (c.buf i).key (some d)
  | .bwrite _ i => { h with stored := Function.update h.stored (c.buf i).key (h.latest (c.buf i).key) }
  | .put _ i =>
    if (c.buf i).refcnt - 1 = 0 then
      { h with clock := h.clock + 1, last := Function.update h.last i (h.clock + 1) }
    else h
  | _ => h

end CacheHist

/-! ## The list that the links make -/

namespace DevBuf

variable {P : Type*}

/-- A device and a block as one number; device 0 is no device. -/
def number (key : ℕ × ℕ) : Option ℕ :=
  if key.1 = 0 then none else some (Nat.pair key.1 key.2)

theorem number_eq_some (key : ℕ × ℕ) {key' : ℕ × ℕ} (h : key.1 ≠ 0) : number key' = some (Nat.pair key.1 key.2) ↔ key' = key := by
  unfold number
  split_ifs with h0
  · refine ⟨fun hn => (by cases hn), fun heq => absurd (heq ▸ h0) h⟩
  · rw [Option.some.injEq, Nat.pair_eq_pair, Prod.ext_iff]

theorem number_ne_none {key : ℕ × ℕ} : number key ≠ none ↔ key.1 ≠ 0 := by
  unfold number
  split_ifs with h0
  · simp [h0]
  · simp [h0]

/-- The buffer without the device. -/
def toBuf (b : DevBuf P) : Buf P :=
  ⟨number b.key, b.valid, b.refcnt, b.lock, b.data⟩

end DevBuf

namespace Cache

variable {P : Type*} [DecidableEq P] {c c' : Cache P} {l : List BufId} {p : P} {i j : BufId} {dev blockno : ℕ}

/-- The cache with the list that its links make. -/
def abs (c : Cache P) (l : List BufId) : Bufs P where
  buf i := (c.buf i).toBuf
  order := l
  refs := c.refs

/-- A change of one buffer. -/
theorem abs_update (c : Cache P) (l l' : List BufId) (i : BufId) (b : DevBuf P) (links : Links BufId)
    (refs : List (Ref P)) (pins : BufId → ℕ) (disk : ℕ × ℕ → Block) :
    (⟨Function.update c.buf i b, links, refs, pins, disk⟩ : Cache P).abs l' =
      ⟨Function.update (c.abs l).buf i b.toBuf, l', refs⟩ := by
  have hbuf : (fun j => ((Function.update c.buf i b) j).toBuf) =
      Function.update (fun j => (c.buf j).toBuf) i b.toBuf := Function.comp_update DevBuf.toBuf c.buf i b
  simp only [abs, hbuf]

theorem find_eq (hl : c.links.Cycle l) (hlen : l.length ≤ NBUF) (hdev : dev ≠ 0) (blockno : ℕ) :
    c.find dev blockno = (c.abs l).find (Nat.pair dev blockno) := by
  rw [find, hl.search_next _ hlen, Bufs.find]
  refine congrArg (fun q => l.find? q) (funext fun i => ?_)
  rw [Bool.eq_iff_iff, Bool.and_eq_true, beq_iff_eq, beq_iff_eq, beq_iff_eq]
  refine Iff.trans ?_ (DevBuf.number_eq_some (dev, blockno) hdev).symm
  rw [DevBuf.key, Prod.mk.injEq]

theorem recycle_eq (hl : c.links.Cycle l) (hlen : l.length ≤ NBUF) : c.recycle = (c.abs l).recycle := by
  rw [recycle, hl.search_prev _ hlen, Bufs.recycle]
  rfl

theorem toBuf_miss (b : DevBuf P) (hdev : dev ≠ 0) :
    ({ b with dev := dev, blockno := blockno, valid := false, refcnt := 1 } : DevBuf P).toBuf =
      { b.toBuf with blockno := some (Nat.pair dev blockno), valid := false, refcnt := 1 } := by
  have hnumber : DevBuf.number (dev, blockno) = some (Nat.pair dev blockno) := if_neg hdev
  simp only [DevBuf.toBuf, DevBuf.key, hnumber]

theorem abs_bget (hl : c.links.Cycle l) (hlen : l.length ≤ NBUF) (hdev : dev ≠ 0)
    (h : c.bget p dev blockno = some (i, c')) : (c.abs l).bget p (Nat.pair dev blockno) = some (i, c'.abs l) := by
  unfold bget at h
  unfold Bufs.bget
  rw [← find_eq hl hlen hdev blockno, ← recycle_eq hl hlen]
  cases hf : c.find dev blockno with
  | some k =>
    rw [hf] at h
    simp only [Option.some.injEq, Prod.mk.injEq] at h
    obtain ⟨rfl, rfl⟩ := h
    have habs := c.abs_update l l k { c.buf k with refcnt := (c.buf k).refcnt + 1 }
      c.links (⟨p, k, .wants⟩ :: c.refs) c.pins c.disk
    exact congrArg (fun x => some (k, x)) habs.symm
  | none =>
    rw [hf] at h
    simp only [Option.map_eq_some_iff, Prod.mk.injEq] at h
    obtain ⟨k, hk, rfl, rfl⟩ := h
    have habs := c.abs_update l l k { c.buf k with dev := dev, blockno := blockno, valid := false, refcnt := 1 }
      c.links (⟨p, k, .wants⟩ :: c.refs) c.pins c.disk
    rw [toBuf_miss _ hdev] at habs
    rw [hk]
    exact congrArg (fun x => some (k, x)) habs.symm

theorem abs_acquire (hdev : (c.buf i).dev ≠ 0) (h : c.acquire p i = some c') :
    (c.abs l).acquire (fun n => c.disk n.unpair) p i = some (c'.abs l) := by
  unfold acquire at h
  obtain ⟨hlock, rfl⟩ := of_guard h
  have hnumber : (c.buf i).toBuf.blockno = some (Nat.pair (c.buf i).dev (c.buf i).blockno) := if_neg hdev
  have hdata : ((c.buf i).toBuf.blockno.map fun n => c.disk n.unpair).getD (c.buf i).toBuf.data =
      c.disk (c.buf i).key := by
    rw [hnumber, Option.map_some, Option.getD_some, Nat.unpair_pair]
    rfl
  have habs := c.abs_update l l i { c.buf i with
    lock := some p, valid := true
    data := if (c.buf i).valid then (c.buf i).data else c.disk (c.buf i).key } c.links
    (⟨p, i, .holds⟩ :: c.refs.erase ⟨p, i, .wants⟩) c.pins c.disk
  unfold Bufs.acquire
  rw [if_pos (show ((c.abs l).buf i).lock = none ∧ ⟨p, i, .wants⟩ ∈ (c.abs l).refs from hlock)]
  dsimp only
  rw [show ((c.abs l).buf i) = (c.buf i).toBuf from rfl, hdata]
  exact congrArg some habs.symm

theorem abs_releasesleep : (c.releasesleep p i).abs l = (c.abs l).releasesleep p i :=
  c.abs_update l l i { c.buf i with lock := none } c.links (⟨p, i, .released⟩ :: c.refs.erase ⟨p, i, .holds⟩) c.pins
    c.disk

theorem abs_put : (c.put p i).abs (if (c.buf i).refcnt - 1 = 0 then i :: l.erase i else l) = (c.abs l).put p i :=
  c.abs_update l _ i { c.buf i with refcnt := (c.buf i).refcnt - 1 } _ (c.refs.erase ⟨p, i, .released⟩) c.pins c.disk

theorem abs_bpin : (c.bpin i).abs l = (c.abs l).bpin i :=
  c.abs_update l l i { c.buf i with refcnt := (c.buf i).refcnt + 1 } c.links c.refs _ c.disk

theorem abs_bunpin : (c.bunpin i).abs l = (c.abs l).bunpin i :=
  c.abs_update l l i { c.buf i with refcnt := (c.buf i).refcnt - 1 } c.links c.refs _ c.disk

theorem abs_store {d : Block} : (c.store i d).abs l = (c.abs l).setData i d :=
  c.abs_update l l i { c.buf i with data := d } c.links c.refs c.pins c.disk

/-! ## The contents -/

/-- The buffers have the latest contents of their blocks. -/
structure Content (c : Cache P) (h : CacheHist) : Prop where
  disk : c.disk = h.stored
  valid : ∀ i, (c.buf i).dev ≠ 0 → (c.buf i).valid = true → (c.buf i).data = h.latest (c.buf i).key
  unread : ∀ i, (c.buf i).dev ≠ 0 → (c.buf i).valid = false → h.modified (c.buf i).key = none
  uncached : ∀ key : ℕ × ℕ, key.1 ≠ 0 → (∀ i, (c.buf i).key ≠ key) → h.modified key = none

variable {h h' : CacheHist}

theorem Content.congr (hc : c.Content h) (hkey : ∀ j, (c'.buf j).key = (c.buf j).key)
    (hvalid : ∀ j, (c'.buf j).valid = (c.buf j).valid) (hdata : ∀ j, (c'.buf j).data = (c.buf j).data)
    (hdisk : c'.disk = c.disk) (hm : h'.modified = h.modified) (hs : h'.stored = h.stored) : c'.Content h' := by
  have hdev : ∀ j, (c'.buf j).dev = (c.buf j).dev := fun j => congrArg Prod.fst (hkey j)
  have hlatest : h'.latest = h.latest := by
    funext key
    rw [CacheHist.latest, hm, hs, CacheHist.latest]
  refine ⟨by rw [hdisk, hs, hc.disk], fun i => ?_, fun i => ?_, fun key hne => ?_⟩
  · rw [hdev, hvalid, hdata, hkey, hlatest]
    exact hc.valid i
  · rw [hdev, hvalid, hkey, hm]
    exact hc.unread i
  · rw [hm]
    intro hall
    exact hc.uncached key hne fun i => by rw [← hkey]; exact hall i

/-- A field of the buffers that a change of one of them keeps. -/
theorem set_field {α : Type*} (f : DevBuf P → α) {b : DevBuf P} (hb : f b = f (c.buf i)) (j : BufId) :
    f ((c.set i b).buf j) = f (c.buf j) := by
  by_cases hj : j = i
  · rw [hj, set_self, hb]
  · rw [c.set_of_ne hj]

/-- A miss : the buffer is for another block now. -/
theorem Content.miss (hc : c.Content h) (hinj : ∀ j, j ≠ i → (c.buf j).dev ≠ 0 → (c.buf j).key ≠ (c.buf i).key)
    (hnew : ∀ j, (c.buf j).key ≠ (dev, blockno)) (hdev : dev ≠ 0) (refs : List (Ref P)) :
    Content { c.set i { c.buf i with dev := dev, blockno := blockno, valid := false, refcnt := 1 } with refs := refs }
      (h.modify (c.buf i).key none) := by
  set b : DevBuf P := { c.buf i with dev := dev, blockno := blockno, valid := false, refcnt := 1 } with hb
  have hself := c.set_self i b
  have hother : ∀ j, j ≠ i → (c.set i b).buf j = c.buf j := fun j hj => c.set_of_ne hj b
  refine ⟨hc.disk, fun j => ?_, fun j => ?_, fun key hne hall => ?_⟩
  · show ((c.set i b).buf j).dev ≠ 0 → ((c.set i b).buf j).valid = true → ((c.set i b).buf j).data = _
    by_cases hj : j = i
    · rw [hj, hself]
      exact fun _ hv => by cases hv
    · rw [hother j hj]
      intro hd hv
      rw [hc.valid j hd hv, CacheHist.latest_of_ne (hinj j hj hd)]
  · show ((c.set i b).buf j).dev ≠ 0 → ((c.set i b).buf j).valid = false →
      (h.modify (c.buf i).key none).modified ((c.set i b).buf j).key = none
    by_cases hj : j = i
    · rw [hj, hself]
      intro _ _
      rw [CacheHist.modify_of_ne (show b.key ≠ (c.buf i).key from Ne.symm (hnew i))]
      exact hc.uncached (dev, blockno) hdev hnew
    · rw [hother j hj]
      intro hd hv
      rw [CacheHist.modify_of_ne (hinj j hj hd)]
      exact hc.unread j hd hv
  · by_cases hk : key = (c.buf i).key
    · rw [hk, CacheHist.modify_self]
    · rw [CacheHist.modify_of_ne hk]
      refine hc.uncached key hne fun j => ?_
      by_cases hj : j = i
      · rw [hj]
        exact Ne.symm hk
      · have hall : ((c.set i b).buf j).key ≠ key := hall j
        rwa [hother j hj] at hall

/-- bread reads a block that is not valid. -/
theorem Content.acquire (hc : c.Content h) (hdev : (c.buf i).dev ≠ 0) (hacq : c.acquire p i = some c') :
    c'.Content h ∧ (c'.buf i).key = (c.buf i).key ∧ (c'.buf i).data = h.latest (c.buf i).key := by
  unfold Cache.acquire at hacq
  obtain ⟨-, rfl⟩ := of_guard hacq
  set b : DevBuf P := { c.buf i with
    lock := some p, valid := true
    data := if (c.buf i).valid then (c.buf i).data else c.disk (c.buf i).key } with hb
  have hself := c.set_self i b
  have hother : ∀ j, j ≠ i → (c.set i b).buf j = c.buf j := fun j hj => c.set_of_ne hj b
  have hkey : ∀ j, ((c.set i b).buf j).key = (c.buf j).key := set_field DevBuf.key rfl
  have hdata : b.data = h.latest (c.buf i).key := by
    cases hv : (c.buf i).valid with
    | true =>
      have hd := hc.valid i hdev hv
      simp [hb, hv, hd]
    | false =>
      have hm := hc.unread i hdev hv
      simp [hb, hv, hc.disk, CacheHist.latest, hm]
  refine ⟨⟨hc.disk, fun j => ?_, fun j => ?_, fun key hne hall => ?_⟩, hkey i, ?_⟩
  · show ((c.set i b).buf j).dev ≠ 0 → ((c.set i b).buf j).valid = true → ((c.set i b).buf j).data = h.latest
      ((c.set i b).buf j).key
    rw [hkey]
    by_cases hj : j = i
    · rw [hj, hself]
      exact fun _ _ => hdata
    · rw [hother j hj]
      exact hc.valid j
  · show ((c.set i b).buf j).dev ≠ 0 → ((c.set i b).buf j).valid = false → h.modified ((c.set i b).buf j).key = none
    rw [hkey]
    by_cases hj : j = i
    · rw [hj, hself]
      exact fun _ hv => by cases hv
    · rw [hother j hj]
      exact hc.unread j
  · refine hc.uncached key hne fun j => ?_
    rw [← hkey]
    exact hall j
  · show ((c.set i b).buf i).data = _
    rw [hself]
    exact hdata

/-- A store by the process that holds the buffer. -/
theorem Content.store (hc : c.Content h) (hvalid : (c.buf i).valid = true)
    (hinj : ∀ j, j ≠ i → (c.buf j).dev ≠ 0 → (c.buf j).key ≠ (c.buf i).key) (d : Block) :
    (c.store i d).Content (h.modify (c.buf i).key (some d)) := by
  have hself : (c.store i d).buf i = { c.buf i with data := d } := c.set_self i _
  have hother : ∀ j, j ≠ i → (c.store i d).buf j = c.buf j := fun j hj => c.set_of_ne hj _
  have hkey : ∀ j, ((c.store i d).buf j).key = (c.buf j).key := set_field DevBuf.key rfl
  refine ⟨hc.disk, fun j => ?_, fun j => ?_, fun key hne hall => ?_⟩
  · rw [hkey]
    by_cases hj : j = i
    · rw [hj, hself]
      intro _ _
      simp [CacheHist.latest]
    · rw [hother j hj]
      intro hd hv
      rw [hc.valid j hd hv, CacheHist.latest_of_ne (hinj j hj hd)]
  · rw [hkey]
    by_cases hj : j = i
    · rw [hj, hself]
      intro _ hv
      exact absurd (hvalid.symm.trans hv) (by simp)
    · rw [hother j hj]
      intro hd hv
      rw [CacheHist.modify_of_ne (hinj j hj hd)]
      exact hc.unread j hd hv
  · have hk : key ≠ (c.buf i).key := fun heq => hall i ((hkey i).trans heq.symm)
    rw [CacheHist.modify_of_ne hk]
    exact hc.uncached key hne fun j => by rw [← hkey]; exact hall j

/-- bwrite by the process that holds the buffer. -/
theorem Content.bwrite (hc : c.Content h) (hdev : (c.buf i).dev ≠ 0) (hvalid : (c.buf i).valid = true) :
    (c.bwrite i).Content
      { h with stored := Function.update h.stored (c.buf i).key (h.latest (c.buf i).key) } := by
  set h' : CacheHist := { h with stored := Function.update h.stored (c.buf i).key (h.latest (c.buf i).key) } with hh
  have hlatest : h'.latest = h.latest := by
    funext key
    by_cases hk : key = (c.buf i).key
    · rw [hk]
      cases hm : h.modified (c.buf i).key with
      | none => simp [CacheHist.latest, hh, hm]
      | some d => simp [CacheHist.latest, hh, hm]
    · simp [CacheHist.latest, hh, hk]
  refine ⟨?_, fun j => ?_, hc.unread, hc.uncached⟩
  · rw [Cache.bwrite, hc.disk, hc.valid i hdev hvalid]
  · rw [hlatest]
    exact hc.valid j

/-! ## The invariant -/

/-- The links make the list `l`, which is in the order of the last releases. -/
structure Sound (c : Cache P) (h : CacheHist) (l : List BufId) : Prop where
  cycle : c.links.Cycle l
  inv : (c.abs l).Inv c.pins
  content : c.Content h
  sorted : l.Pairwise h.After
  clock : ∀ i, h.last i ≤ h.clock

theorem sound_binit (disk : ℕ × ℕ → Block) :
    (binit disk : Cache P).Sound (.start disk) (List.finRange NBUF).reverse where
  cycle := by
    have hcycle := Links.nil_cycle (α := BufId).foldl_pushFront (List.finRange NBUF) (by
      rw [List.append_nil]
      exact List.nodup_reverse.mpr (List.nodup_finRange NBUF))
    rwa [List.append_nil] at hcycle
  inv := Bufs.binit_inv
  content := ⟨rfl, fun _ hdev => absurd rfl hdev, fun _ hdev => absurd rfl hdev, fun _ _ _ => rfl⟩
  sorted := List.pairwise_of_forall fun _ _ => Or.inr ⟨rfl, rfl⟩
  clock _ := le_rfl

namespace Sound

theorem length (hs : c.Sound h l) : l.length ≤ NBUF := by
  have hlen := hs.cycle.nodup.length_le_card
  rwa [Fintype.card_fin] at hlen

/-- A block is in one buffer only. -/
theorem key_inj (hs : c.Sound h l) (hdev : (c.buf i).dev ≠ 0) (hkey : (c.buf j).key = (c.buf i).key) : j = i := by
  have hi : ((c.abs l).buf i).blockno = some (Nat.pair (c.buf i).dev (c.buf i).blockno) := if_neg hdev
  refine hs.inv.inj j i _ ?_ hi
  exact (DevBuf.number_eq_some (c.buf i).key hdev).mpr hkey

theorem others (hs : c.Sound h l) (j : BufId) (hj : j ≠ i) (hdev : (c.buf j).dev ≠ 0) :
    (c.buf j).key ≠ (c.buf i).key := fun heq => hj (hs.key_inj hdev heq.symm).symm

/-- A buffer that someone refers to is of some device. -/
theorem dev_ne_zero (hs : c.Sound h l) (hi : 0 < (c.buf i).refcnt) : (c.buf i).dev ≠ 0 :=
  DevBuf.number_ne_none.mp (hs.inv.named i hi)

theorem refcnt_pos (hs : c.Sound h l) {stage : Stage} (hmem : ⟨p, i, stage⟩ ∈ c.refs) : 0 < (c.buf i).refcnt := by
  have hcount : (c.buf i).refcnt = Bufs.refsTo c.refs i + c.pins i := hs.inv.count i
  have hpos : 0 < Bufs.refsTo c.refs i := List.countP_pos_iff.mpr ⟨_, hmem, by simp⟩
  omega

theorem valid_of_holds (hs : c.Sound h l) (hmem : ⟨p, i, .holds⟩ ∈ c.refs) : (c.buf i).valid = true := by
  refine hs.inv.valid i ?_
  have hlock : ((c.abs l).buf i).lock = some p := (hs.inv.lock i p).mpr hmem
  rw [hlock]
  exact Option.some_ne_none p

/-- The buffer that a miss takes is the one of those in no use that was released first. -/
theorem recycle_oldest (hs : c.Sound h l) (hi : c.recycle = some i) (hji : j ≠ i) (hj : (c.buf j).refcnt = 0) :
    h.After j i := by
  rw [recycle, hs.cycle.search_prev _ hs.length] at hi
  obtain ⟨-, xs, ys, hrev, hxs⟩ := List.find?_eq_some_iff_append.mp hi
  have hsorted : l.reverse.Pairwise fun x y => h.After y x := List.pairwise_reverse.mpr hs.sorted
  have hmem : j ∈ l.reverse := List.mem_reverse.mpr (hs.inv.order j)
  rw [hrev] at hsorted hmem
  obtain hx | hy := List.mem_append.mp hmem
  · have hne := hxs j hx
    rw [hj] at hne
    cases hne
  · obtain hy | hy := List.mem_cons.mp hy
    · exact absurd hy hji
    · exact (List.pairwise_cons.mp (List.pairwise_append.mp hsorted).2.1).1 j hy

/-- bget finds the buffer of the block, or takes the oldest of those in no use. -/
inductive Got (c : Cache P) (h : CacheHist) (p : P) (dev blockno : ℕ) (i : BufId) (c' : Cache P) : Prop
  | hit (hfind : c.find dev blockno = some i) (hkey : (c.buf i).key = (dev, blockno))
    (hc' : c' = { c.set i { c.buf i with refcnt := (c.buf i).refcnt + 1 } with refs := ⟨p, i, .wants⟩ :: c.refs })
  | miss (hfind : c.find dev blockno = none) (hrecycle : c.recycle = some i)
    (hkey : ∀ j, (c.buf j).key ≠ (dev, blockno)) (hi : (c.buf i).refcnt = 0)
    (holdest : ∀ j, j ≠ i → (c.buf j).refcnt = 0 → h.After j i)
    (hc' : c' = { c.set i { c.buf i with dev := dev, blockno := blockno, valid := false, refcnt := 1 } with
      refs := ⟨p, i, .wants⟩ :: c.refs })

theorem got (hs : c.Sound h l) (hdev : dev ≠ 0) (hget : c.bget p dev blockno = some (i, c')) :
    Got c h p dev blockno i c' := by
  have hnumber : ∀ j, ((c.abs l).buf j).blockno = some (Nat.pair dev blockno) ↔ (c.buf j).key = (dev, blockno) :=
    fun j => DevBuf.number_eq_some (dev, blockno) hdev
  have hfind := find_eq hs.cycle hs.length hdev blockno
  unfold bget at hget
  cases hf : c.find dev blockno with
  | some k =>
    rw [hf] at hget
    simp only [Option.some.injEq, Prod.mk.injEq] at hget
    obtain ⟨rfl, rfl⟩ := hget
    exact .hit hf ((hnumber k).mp (Bufs.find_eq_some (hfind.symm.trans hf))) rfl
  | none =>
    rw [hf] at hget
    simp only [Option.map_eq_some_iff, Prod.mk.injEq] at hget
    obtain ⟨k, hk, rfl, rfl⟩ := hget
    refine .miss hf hk (fun j hj => ?_) ?_ (fun j hjk hj => hs.recycle_oldest hk hjk hj) rfl
    · exact hs.inv.find_eq_none (hfind.symm.trans hf) j ((hnumber j).mpr hj)
    · exact Bufs.recycle_eq_some ((recycle_eq hs.cycle hs.length).symm.trans hk)

theorem bget (hs : c.Sound h l) (hdev : dev ≠ 0) (hget : c.bget p dev blockno = some (i, c')) :
    c'.Sound (h.upd c (.bget p dev blockno)) l := by
  have hinv := (hs.inv.got (abs_bget hs.cycle hs.length hdev hget)).inv hs.inv
  cases hs.got hdev hget with
  | hit hfind hkey hc' =>
    subst hc'
    have hupd : h.upd c (.bget p dev blockno) = h := by simp only [CacheHist.upd, hfind]
    rw [hupd]
    exact ⟨hs.cycle, hinv, hs.content.congr (set_field DevBuf.key rfl) (set_field DevBuf.valid rfl)
      (set_field DevBuf.data rfl) rfl rfl rfl, hs.sorted, hs.clock⟩
  | miss hfind hrecycle hkey hi holdest hc' =>
    subst hc'
    have hupd : h.upd c (.bget p dev blockno) = h.modify (c.buf i).key none := by
      simp only [CacheHist.upd, hfind, hrecycle]
    rw [hupd]
    exact ⟨hs.cycle, hinv, hs.content.miss hs.others hkey hdev _, hs.sorted, hs.clock⟩

theorem acquire (hs : c.Sound h l) (hacq : c.acquire p i = some c') : c'.Sound h l ∧
    (c'.buf i).key = (c.buf i).key ∧ (c'.buf i).data = h.latest (c.buf i).key := by
  have hmem : ⟨p, i, .wants⟩ ∈ c.refs := by
    unfold Cache.acquire at hacq
    simp only [Option.ite_none_right_eq_some] at hacq
    exact hacq.1.2
  have hdev := hs.dev_ne_zero (hs.refcnt_pos hmem)
  have hinv := hs.inv.acquire (abs_acquire (l := l) hdev hacq)
  obtain ⟨hcontent, hkey, hdata⟩ := hs.content.acquire hdev hacq
  unfold Cache.acquire at hacq
  obtain ⟨-, rfl⟩ := of_guard hacq
  exact ⟨⟨hs.cycle, hinv, hcontent, hs.sorted, hs.clock⟩, hkey, hdata⟩

theorem put (hs : c.Sound h l) (hmem : ⟨p, i, .released⟩ ∈ c.refs) : (c.put p i).Sound (h.upd c (.put p i))
    (if (c.buf i).refcnt - 1 = 0 then i :: l.erase i else l) := by
  have hinv := hs.inv.put (p := p) (i := i) hmem
  rw [← abs_put] at hinv
  have hcontent : (c.put p i).Content (h.upd c (.put p i)) :=
    hs.content.congr (set_field DevBuf.key rfl) (set_field DevBuf.valid rfl) (set_field DevBuf.data rfl) rfl
      (by simp only [CacheHist.upd]; split_ifs <;> rfl) (by simp only [CacheHist.upd]; split_ifs <;> rfl)
  by_cases hzero : (c.buf i).refcnt - 1 = 0
  · have hupd : h.upd c (.put p i) = { h with clock := h.clock + 1, last := Function.update h.last i (h.clock + 1) } :=
      if_pos hzero
    have hlinks : (c.put p i).links = (c.links.unlink i).pushFront i := if_pos hzero
    have hi : i ∈ l := hs.inv.order i
    have hnot : i ∉ l.erase i := hs.cycle.nodup.not_mem_erase
    rw [hupd] at hcontent ⊢
    rw [if_pos hzero] at hinv ⊢
    refine ⟨by rw [hlinks]; exact (hs.cycle.unlink hi).pushFront hnot, hinv, hcontent, ?_, fun j => ?_⟩
    · refine List.pairwise_cons.mpr ⟨fun j hj => Or.inl ?_, ?_⟩
      · have hji : j ≠ i := fun heq => hnot (heq ▸ hj)
        simp only [Function.update_self, Function.update_of_ne hji]
        exact Nat.lt_succ_of_le (hs.clock j)
      · refine (hs.sorted.sublist List.erase_sublist).imp_of_mem fun {x y} hx hy hxy => ?_
        have hxi : x ≠ i := fun heq => hnot (heq ▸ hx)
        have hyi : y ≠ i := fun heq => hnot (heq ▸ hy)
        simpa [CacheHist.After, hxi, hyi] using hxy
    · by_cases hj : j = i
      · simp [hj]
      · simp only [Function.update_of_ne hj]
        exact (hs.clock j).trans (Nat.le_succ _)
  · have hupd : h.upd c (.put p i) = h := if_neg hzero
    have hlinks : (c.put p i).links = c.links := if_neg hzero
    rw [hupd] at hcontent ⊢
    rw [if_neg hzero] at hinv ⊢
    exact ⟨by rw [hlinks]; exact hs.cycle, hinv, hcontent, hs.sorted, hs.clock⟩

/-- Every step of the processes. -/
theorem step {a : CacheAct P} (hs : c.Sound h l) (hstep : c.step a = some c') : ∃ l', c'.Sound (h.upd c a) l' := by
  cases a with
  | bget p dev blockno =>
    simp only [Cache.step, Option.ite_none_right_eq_some, Option.map_eq_some_iff, Prod.exists,
      exists_eq_right] at hstep
    obtain ⟨hdev, i, hget⟩ := hstep
    exact ⟨l, hs.bget hdev hget⟩
  | acquire p i => exact ⟨l, (hs.acquire hstep).1⟩
  | store p i d =>
    obtain ⟨hmem, rfl⟩ := of_guard hstep
    have hinv := hs.inv.setData i d
    rw [← abs_store] at hinv
    exact ⟨l, hs.cycle, hinv, hs.content.store (hs.valid_of_holds hmem) hs.others d, hs.sorted, hs.clock⟩
  | bwrite p i =>
    obtain ⟨hmem, rfl⟩ := of_guard hstep
    exact ⟨l, hs.cycle, hs.inv, hs.content.bwrite (hs.dev_ne_zero (hs.refcnt_pos hmem)) (hs.valid_of_holds hmem),
      hs.sorted, hs.clock⟩
  | releasesleep p i =>
    obtain ⟨hmem, rfl⟩ := of_guard hstep
    have hinv := hs.inv.releasesleep (p := p) (i := i) hmem
    rw [← abs_releasesleep] at hinv
    exact ⟨l, hs.cycle, hinv, hs.content.congr (set_field DevBuf.key rfl) (set_field DevBuf.valid rfl)
      (set_field DevBuf.data rfl) rfl rfl rfl, hs.sorted, hs.clock⟩
  | put p i =>
    obtain ⟨hmem, rfl⟩ := of_guard hstep
    exact ⟨_, hs.put hmem⟩
  | bpin p i =>
    obtain ⟨hmem, rfl⟩ := of_guard hstep
    have hinv := hs.inv.bpin (hs.inv.named i (hs.refcnt_pos hmem))
    rw [← abs_bpin] at hinv
    exact ⟨l, hs.cycle, hinv, hs.content.congr (set_field DevBuf.key rfl) (set_field DevBuf.valid rfl)
      (set_field DevBuf.data rfl) rfl rfl rfl, hs.sorted, hs.clock⟩
  | bunpin i =>
    obtain ⟨hpos, rfl⟩ := of_guard hstep
    have hinv := hs.inv.bunpin hpos
    rw [← abs_bunpin] at hinv
    exact ⟨l, hs.cycle, hinv, hs.content.congr (set_field DevBuf.key rfl) (set_field DevBuf.valid rfl)
      (set_field DevBuf.data rfl) rfl rfl rfl, hs.sorted, hs.clock⟩

end Sound

/-- A step keeps the block of a buffer that someone refers to. -/
theorem Sound.step_key {a : CacheAct P} (hs : c.Sound h l) (hstep : c.step a = some c') (hi : 0 < (c.buf i).refcnt) :
    (c'.buf i).key = (c.buf i).key := by
  cases a with
  | bget p dev blockno =>
    simp only [Cache.step, Option.ite_none_right_eq_some, Option.map_eq_some_iff, Prod.exists,
      exists_eq_right] at hstep
    obtain ⟨hdev, k, hget⟩ := hstep
    cases hs.got hdev hget with
    | hit _ _ hc' =>
      rw [hc']
      exact set_field (c := c) (i := k) DevBuf.key (by rfl) i
    | miss _ _ _ hk _ hc' =>
      have hne : i ≠ k := fun heq => by rw [heq, hk] at hi; exact absurd hi (lt_irrefl 0)
      rw [hc']
      exact congrArg DevBuf.key (c.set_of_ne hne _)
  | acquire p k =>
    obtain ⟨-, rfl⟩ := of_guard hstep
    exact set_field (c := c) (i := k) DevBuf.key (by rfl) i
  | store p k d =>
    obtain ⟨-, rfl⟩ := of_guard hstep
    exact set_field (c := c) (i := k) DevBuf.key (by rfl) i
  | bwrite p k =>
    obtain ⟨-, rfl⟩ := of_guard hstep
    rfl
  | releasesleep p k =>
    obtain ⟨-, rfl⟩ := of_guard hstep
    exact set_field (c := c) (i := k) DevBuf.key (by rfl) i
  | put p k =>
    obtain ⟨-, rfl⟩ := of_guard hstep
    exact set_field (c := c) (i := k) DevBuf.key (by rfl) i
  | bpin p k =>
    obtain ⟨-, rfl⟩ := of_guard hstep
    exact set_field (c := c) (i := k) DevBuf.key (by rfl) i
  | bunpin k =>
    obtain ⟨-, rfl⟩ := of_guard hstep
    exact set_field (c := c) (i := k) DevBuf.key (by rfl) i

end Cache

/-- The cache with its history. -/
abbrev cacheHistMachine (P : Type*) [DecidableEq P] (disk : ℕ × ℕ → Block) :
    Machine (Cache P × CacheHist) (CacheAct P) :=
  (cacheMachine P disk).observe (.start disk) CacheHist.upd

theorem sound_of_reachable {P : Type*} [DecidableEq P] {disk : ℕ × ℕ → Block} {x : Cache P × CacheHist}
    (hreach : (cacheHistMachine P disk).Reachable x) : ∃ l, x.1.Sound x.2 l :=
  hreach.invariant (I := fun x => ∃ l, x.1.Sound x.2 l)
    (fun x h0 => ⟨_, by rw [show x.1 = _ from h0.1, h0.2]; exact Cache.sound_binit disk⟩)
    fun x a y _ hI _ hstep => by
      obtain ⟨l, hs⟩ := hI
      obtain ⟨hstep, hy⟩ := Machine.observe_step.mp hstep
      rw [hy]
      exact hs.step hstep

/-- In every state of the cache : the links are one cycle through the head and all buffers, a block is in one
buffer, a step leaves a buffer in use to its block, a miss takes the buffer in no use that was released first, and
bread returns the latest contents. -/
theorem buffer_cache {P : Type*} [DecidableEq P] {disk : ℕ × ℕ → Block} {c : Cache P} {h : CacheHist}
    (hreach : (cacheHistMachine P disk).Reachable (c, h)) :
    (∃ l, c.links.Cycle l ∧ ∀ i, i ∈ l) ∧
    (∀ i j, (c.buf i).dev ≠ 0 → (c.buf j).key = (c.buf i).key → j = i) ∧
    (∀ a c', c.step a = some c' → ∀ i, 0 < (c.buf i).refcnt → (c'.buf i).key = (c.buf i).key) ∧
    (∀ p dev blockno i c', dev ≠ 0 → c.bget p dev blockno = some (i, c') → (c.buf i).key ≠ (dev, blockno) →
      (c.buf i).refcnt = 0 ∧ ∀ j, j ≠ i → (c.buf j).refcnt = 0 → h.After j i) ∧
    ∀ p i c', c.acquire p i = some c' →
      (c'.buf i).key = (c.buf i).key ∧ (c'.buf i).data = h.latest (c.buf i).key := by
  obtain ⟨l, hs⟩ := sound_of_reachable hreach
  have hs : c.Sound h l := hs
  refine ⟨⟨l, hs.cycle, hs.inv.order⟩, fun i j hdev hkey => hs.key_inj hdev hkey,
    fun a c' hstep i hi => hs.step_key hstep hi, fun p dev blockno i c' hdev hget hne => ?_,
    fun p i c' hacq => (hs.acquire hacq).2⟩
  cases hs.got hdev hget with
  | hit _ hkey => exact absurd hkey hne
  | miss _ _ _ hi holdest => exact ⟨hi, holdest⟩

/-- One process reads block 5 of device 1 into the first buffer, and releases it. -/
theorem buffer_cache_read : ∃ x, (cacheHistMachine Unit fun _ => Bytes.zero _).Reachable x ∧
    (x.1.buf 0).key = (1, 5) ∧ x.2.last 0 = 1 ∧ ∃ l, x.1.links.Cycle l ∧ ∀ i, i ∈ l := by
  obtain ⟨x, hx, hkey, hlast⟩ := Machine.reachable_of_exec (M := cacheHistMachine Unit fun _ => Bytes.zero _)
    (s := (Cache.binit fun _ => Bytes.zero _, .start fun _ => Bytes.zero _)) ⟨rfl, rfl⟩
    [.bget () 1 5, .acquire () 0, .releasesleep () 0, .put () 0]
    (fun x => (x.1.buf 0).key = (1, 5) ∧ x.2.last 0 = 1) (by decide +kernel)
  exact ⟨x, hx, hkey, hlast, (buffer_cache hx).1⟩

end Xv6
