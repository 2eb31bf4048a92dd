import Pintos.Vm.Eviction

/-!
# Where a frame comes from

`allocate_frame` takes a free frame of the user pool, or evicts the page that the clock
stops at and takes its frame. Whether it gets one, and whose page it takes away, can be
told from the state before: the pool, the swap table, and the accessed bits of the pages
on the list. A page that was unmapped by `SYS_MUNMAP` leaves a frame behind whose
supplementary entry is gone; the clock must not come across it.
-/

namespace Pintos.Paging.Vm

open Library

variable {s s' t u : Vm} {p q : Pid} {pg pg' : Page} {mem : Memory} {fte v : Fte} {e : Spte} {f n : ℕ} {l done : List Fte}

/-- The frame the clock stops at: the first that was not accessed, or the first one. -/
def victim (s : Vm) : Option Fte :=
  (s.globalFrameList.dropWhile s.isAccessed ++ s.globalFrameList.takeWhile s.isAccessed).head?

/-- The supplementary entries are there of the frames the clock passes and of the one it stops at. -/
def seen (s : Vm) (v : Fte) : Bool :=
  (s.globalFrameList.takeWhile s.isAccessed).all (fun f => (s.spteOf f).isSome) && (s.spteOf v).isSome

/-- A frame of the user pool is free. -/
def FreeFrame (s : Vm) : Prop := ∃ i < s.usedMap.bitCnt, s.usedMap.bit i = false

/-- A slot of the swap device is free. -/
def FreeSlot (s : Vm) : Prop := ∃ i < s.swapTable.bitCnt, s.swapTable.bit i = false

/-- The page in the frame `v` can be evicted next. -/
structure Evictable (s : Vm) (v : Fte) : Prop where
  victim : s.victim = some v
  seen : s.seen v = true
  slot : s.FreeSlot

/-- There is a frame for a page. -/
def Room (s : Vm) : Prop := s.FreeFrame ∨ ∃ v, s.Evictable v

/-- The frame table is in order: its entries are for different pages, which are mapped, and for frames in use. -/
structure Clocked (s : Vm) : Prop where
  keys : (s.globalFrameList.map pageOf).Nodup
  present : ∀ fte ∈ s.globalFrameList, (s.pagedir fte.owner fte.uaddr).present = true
  used : ∀ fte ∈ s.globalFrameList, fte.frame < s.usedMap.bitCnt ∧ s.usedMap.bit fte.frame = true

/-! ### The clock -/

/-- The page gives up its own frame, as there is no other. -/
def GivesUp (s : Vm) (p : Pid) (pg : Page) : Prop := ¬ s.FreeFrame ∧ ∃ v, s.Evictable v ∧ (p, pg) = pageOf v

/-- **What is left of the page for which a frame was got.** -/
structure Supplied (s : Vm) (p : Pid) (pg : Page) (f : ℕ) (t : Vm) : Prop where
  used : t.usedMap.bit f = true
  kept : Kept s t
  present : (t.pagedir p pg).present = true ↔ (s.pagedir p pg).present = true ∧ ¬ s.GivesUp p pg
  writable : (t.pagedir p pg).writable = (s.pagedir p pg).writable
  hash : ¬ s.GivesUp p pg → t.hash p pg = s.hash p pg
  slots : t.swapTable.bitCnt = s.swapTable.bitCnt

end Pintos.Paging.Vm
