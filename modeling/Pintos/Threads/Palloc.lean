import Mathlib.Logic.Function.Basic
import Pintos.Library.Prog
import Pintos.Vm.Paging

/-!
# The page allocator

`threads/palloc.c`. Free memory is divided in two pools, and each pool keeps, at its
start, the bitmap of its pages that are in use. A group of pages is found again, when
it is freed, from the numbers of its pages alone.

The loader caps memory at 64 MB (`threads/loader.S`), so that no address or size
here comes near `2 ^ 32`. Calls do not overlap in time, so that the pools' locks are
left out.
-/

namespace Pintos.Palloc

open Library Library.Prog
open Paging (pgsize physBase)

/-! ### The pools -/

/-- `DIV_ROUND_UP`. -/
def divRoundUp (x step : ℕ) : ℕ := (x + step - 1) / step

/-- `pg_round_up`. -/
def pgRoundUp (va : ℕ) : ℕ := divRoundUp va pgsize * pgsize

/-- The machine: where the kernel ends (`_end`), how much memory there is (`ram_pages`) and how much of it may go to the
user pool (`user_page_limit`). -/
structure Machine where
  kernelEnd : ℕ
  ramPages : ℕ
  userPageLimit : ℕ
  /-- The kernel is mapped above `PHYS_BASE`. -/
  above : physBase ≤ kernelEnd
  /-- It is in memory. -/
  below : pgRoundUp kernelEnd ≤ physBase + ramPages * pgsize
  /-- The loader caps memory at 64 MB. -/
  capped : ramPages ≤ 0x4000

/-- `free_start` in `palloc_init`. -/
def Machine.freeStart (r : Machine) : ℕ := pgRoundUp r.kernelEnd

/-- `free_end`. -/
def Machine.freeEnd (r : Machine) : ℕ := physBase + r.ramPages * pgsize

/-- A failed assertion or a panic. -/
inductive Fault where
  /-- `Not enough memory in %s for bitmap.` -/
  | noMemory
  /-- `ASSERT (block_size >= bitmap_buf_size (bit_cnt))`. -/
  | blockSize
  /-- `palloc_get: out of pages`. -/
  | outOfPages
  /-- `ASSERT (pg_ofs (pages) == 0)`. -/
  | offset
  /-- `NOT_REACHED ()`. -/
  | notReached
  /-- `ASSERT (start + cnt <= b->bit_cnt)`. -/
  | bounds
  /-- `ASSERT (bitmap_all (...))`. -/
  | notUsed
  deriving DecidableEq

/-- `struct pool`. -/
structure Pool where
  usedMap : Bitmap
  /-- The address of `used_map`. -/
  usedMapAt : ℕ
  base : ℕ

/-- The two pools, and memory. -/
structure Pools where
  kernelPool : Pool
  userPool : Pool
  mem : ℕ → UInt8

/-- `bitmap_create_in_buf`. -/
def bitmapCreateInBuf (bitCnt blockSize : ℕ) : Except Fault Bitmap :=
  if blockSize < Bitmap.bufSize bitCnt then .error .blockSize else .ok (.create bitCnt)

/-- `init_pool`. -/
def initPool (base pageCnt : ℕ) : Except Fault Pool :=
  let bmPages := divRoundUp (Bitmap.bufSize pageCnt) pgsize
  if pageCnt < bmPages then .error .noMemory
  else do
    let usedMap ← bitmapCreateInBuf (pageCnt - bmPages) (bmPages * pgsize)
    .ok { usedMap := usedMap, usedMapAt := base, base := base + bmPages * pgsize }

/-- `user_pages` in `palloc_init`. -/
def Machine.userPages (r : Machine) : ℕ := min ((r.freeEnd - r.freeStart) / pgsize / 2) r.userPageLimit

/-- `kernel_pages`. -/
def Machine.kernelPages (r : Machine) : ℕ := (r.freeEnd - r.freeStart) / pgsize - r.userPages

/-- `palloc_init`. -/
def pallocInit (r : Machine) (mem : ℕ → UInt8) : Except Fault Pools := do
  let kernelPool ← initPool r.freeStart r.kernelPages
  let userPool ← initPool (r.freeStart + r.kernelPages * pgsize) r.userPages
  .ok { kernelPool := kernelPool, userPool := userPool, mem := mem }

namespace Pools

/-- The user pool or the kernel pool. -/
def pool (s : Pools) (user : Bool) : Pool := if user then s.userPool else s.kernelPool

/-- Write the bitmap of a pool. -/
def setMap (user : Bool) (b : Bitmap) (s : Pools) : Pools :=
  if user then { s with userPool := { s.userPool with usedMap := b } }
  else { s with kernelPool := { s.kernelPool with usedMap := b } }

/-- `memset`. -/
def memset (dst : ℕ) (value : UInt8) (size : ℕ) (s : Pools) : Pools :=
  { s with mem := fun a => if dst ≤ a ∧ a < dst + size then value else s.mem a }

end Pools

/-- `page_from_pool`. -/
def pageFromPool (p : Pool) (page : ℕ) : Bool :=
  decide (p.base / pgsize ≤ page / pgsize ∧ page / pgsize < p.base / pgsize + p.usedMap.bitCnt)

/-- The pool that `palloc_free_multiple` takes. -/
def findPool (s : Pools) (pages : ℕ) : Option Bool :=
  if pageFromPool s.kernelPool pages then some false else if pageFromPool s.userPool pages then some true else none

/-! ### Getting and freeing pages -/

/-- `enum palloc_flags`. -/
structure Flags where
  /-- `PAL_ASSERT`. -/
  assert : Bool
  /-- `PAL_ZERO`. -/
  zero : Bool
  /-- `PAL_USER`. -/
  user : Bool

/-- Programs over the pools. -/
abbrev PoolsM := Prog Pools Fault

/-- `palloc_get_multiple`. -/
def pallocGetMultiple (flags : Flags) (pageCnt : ℕ) : PoolsM ℕ :=
  if pageCnt = 0 then pure 0
  else do
    let s ← gets id
    match (s.pool flags.user).usedMap.scan 0 pageCnt false with
    | none => if flags.assert then stop .outOfPages else pure 0
    | some pageIdx => do
      modify (Pools.setMap flags.user ((s.pool flags.user).usedMap.setMultiple pageIdx pageCnt true))
      let pages := (s.pool flags.user).base + pgsize * pageIdx
      onlyIf flags.zero (modify (Pools.memset pages 0 (pgsize * pageCnt)))
      pure pages

/-- `palloc_free_multiple`, from where the pool is known. -/
def freeIn (user : Bool) (pages pageCnt : ℕ) : PoolsM Unit := do
  let s ← gets id
  let pageIdx := pages / pgsize - (s.pool user).base / pgsize
  modify (Pools.memset pages 0xcc (pgsize * pageCnt))
  if (s.pool user).usedMap.bitCnt < pageIdx + pageCnt then stop .bounds
  else if (s.pool user).usedMap.all pageIdx pageCnt then
    modify (Pools.setMap user ((s.pool user).usedMap.setMultiple pageIdx pageCnt false))
  else stop .notUsed

/-- `palloc_free_multiple`. -/
def pallocFreeMultiple (pages pageCnt : ℕ) : PoolsM Unit :=
  if pages % pgsize ≠ 0 then stop .offset
  else if pages = 0 ∨ pageCnt = 0 then pure ()
  else do
    let s ← gets id
    match findPool s pages with
    | none => stop .notReached
    | some user => freeIn user pages pageCnt

/-! ### The layout -/

/-- **How `palloc_init` lays out memory**: the kernel pool's bitmap and its pages, then those of the user pool. -/
structure Laid (r : Machine) (s : Pools) : Prop where
  kernelMap : r.freeStart ≤ s.kernelPool.usedMapAt
  kernelBase : s.kernelPool.usedMapAt + Bitmap.bufSize s.kernelPool.usedMap.bitCnt ≤ s.kernelPool.base
  userMap : s.kernelPool.base + pgsize * s.kernelPool.usedMap.bitCnt ≤ s.userPool.usedMapAt
  userBase : s.userPool.usedMapAt + Bitmap.bufSize s.userPool.usedMap.bitCnt ≤ s.userPool.base
  userEnd : s.userPool.base + pgsize * s.userPool.usedMap.bitCnt ≤ r.freeEnd
  aligned : ∀ user, (s.pool user).base % pgsize = 0

theorem pgRoundUp_mod (va : ℕ) : pgRoundUp va % pgsize = 0 := Nat.mul_mod_left ..

theorem le_divRoundUp_mul (x : ℕ) : x ≤ divRoundUp x pgsize * pgsize := by
  simp only [divRoundUp, pgsize]
  omega

theorem bufSize_mono {m n : ℕ} (h : m ≤ n) : Bitmap.bufSize m ≤ Bitmap.bufSize n := by
  simp only [Bitmap.bufSize, Bitmap.byteCnt]
  omega

/-- A pool that starts at `base` with `pageCnt` pages in all: its bitmap, which has room there, and the rest. -/
theorem initPool_ok {base pageCnt : ℕ} {p : Pool} (h : initPool base pageCnt = .ok p) (ha : base % pgsize = 0) :
    p.usedMapAt = base ∧ base + Bitmap.bufSize p.usedMap.bitCnt ≤ p.base ∧
      p.base + pgsize * p.usedMap.bitCnt = base + pageCnt * pgsize ∧ p.base % pgsize = 0 ∧ ∀ i, p.usedMap.bit i = false := by
  have hle := le_divRoundUp_mul (Bitmap.bufSize pageCnt)
  simp only [initPool] at h
  split_ifs at h with hc
  have hbuf : ¬ divRoundUp (Bitmap.bufSize pageCnt) pgsize * pgsize <
      Bitmap.bufSize (pageCnt - divRoundUp (Bitmap.bufSize pageCnt) pgsize) :=
    Nat.not_lt.2 ((bufSize_mono (Nat.sub_le ..)).trans hle)
  rw [bitmapCreateInBuf, if_neg hbuf] at h
  obtain rfl := Except.ok.inj h
  generalize hbm : divRoundUp (Bitmap.bufSize pageCnt) pgsize = bm at hc hbuf hle
  simp only [Bitmap.create]
  simp only [pgsize] at *
  refine ⟨trivial, ?_, ?_, ?_, fun i => trivial⟩
  · omega
  · omega
  · omega

/-- **`palloc_init` lays out the two pools and their bitmaps one after the other, in free memory**, whenever it does
not panic. -/
theorem pallocInit_laid {r : Machine} {mem : ℕ → UInt8} {s : Pools} (h : pallocInit r mem = .ok s) :
    Laid r s ∧ ∀ user i, (s.pool user).usedMap.bit i = false := by
  have hstart : r.freeStart % pgsize = 0 := pgRoundUp_mod _
  have hfree : r.freeStart ≤ r.freeEnd := r.below
  have hpages : r.freeStart + (r.kernelPages + r.userPages) * pgsize ≤ r.freeEnd := by
    have hmin : r.userPages ≤ (r.freeEnd - r.freeStart) / pgsize / 2 := Nat.min_le_left ..
    simp only [Machine.kernelPages, pgsize] at *
    omega
  unfold pallocInit at h
  cases hk : initPool r.freeStart r.kernelPages with
  | error e =>
    rw [hk] at h
    cases h
  | ok k =>
    cases hu : initPool (r.freeStart + r.kernelPages * pgsize) r.userPages with
    | error e =>
      rw [hk] at h
      change (initPool (r.freeStart + r.kernelPages * pgsize) r.userPages >>= _) = _ at h
      rw [hu] at h
      cases h
    | ok u =>
      rw [hk] at h
      change (initPool (r.freeStart + r.kernelPages * pgsize) r.userPages >>= _) = _ at h
      rw [hu] at h
      obtain rfl := Except.ok.inj h
      have hmid : (r.freeStart + r.kernelPages * pgsize) % pgsize = 0 := by
        simp only [pgsize] at *
        omega
      obtain ⟨hk1, hk2, hk3, hk4, hk5⟩ := initPool_ok hk hstart
      obtain ⟨hu1, hu2, hu3, hu4, hu5⟩ := initPool_ok hu hmid
      refine ⟨⟨hk1.ge, hk1 ▸ hk2, ?_, hu1 ▸ hu2, ?_, fun user => ?_⟩, fun user i => ?_⟩
      · exact (hk3.trans hu1.symm).le
      · rw [hu3, Nat.add_assoc, ← Nat.add_mul]
        exact hpages
      · cases user
        · exact hk4
        · exact hu4
      · cases user
        · exact hk5 i
        · exact hu5 i

/-! ### Groups -/

/-- A group of pages that has been allocated, and not freed. -/
structure Group where
  user : Bool
  addr : ℕ
  cnt : ℕ
  deriving DecidableEq

/-- The group has the byte at `a`. -/
def Group.Has (g : Group) (a : ℕ) : Prop := g.addr ≤ a ∧ a < g.addr + pgsize * g.cnt

/-- The group is made of pages of its pool. -/
def Group.Within (g : Group) (s : Pools) : Prop :=
  0 < g.cnt ∧ ∃ idx, g.addr = (s.pool g.user).base + pgsize * idx ∧ idx + g.cnt ≤ (s.pool g.user).usedMap.bitCnt

/-- Two groups have no byte in common. -/
def Group.Apart (g g' : Group) : Prop := ∀ a, ¬ (g.Has a ∧ g'.Has a)

/-- **The pools and the groups that are allocated.** -/
structure Groups (s : Pools) (live : List Group) : Prop where
  within : ∀ g ∈ live, g.Within s
  apart : live.Pairwise Group.Apart
  used : ∀ user, ∀ i < (s.pool user).usedMap.bitCnt, (s.pool user).usedMap.bit i = true ↔
    ∃ g ∈ live, g.user = user ∧ g.Has ((s.pool user).base + pgsize * i)

section

variable {r : Machine} {s s' : Pools} {live : List Group} {g g' : Group} {a : ℕ}

theorem setMap_pool (user u : Bool) (b : Bitmap) :
    (s.setMap user b).pool u = if u = user then { s.pool u with usedMap := b } else s.pool u := by
  cases user <;> cases u <;> rfl

theorem memset_pool (dst : ℕ) (value : UInt8) (size : ℕ) (u : Bool) : (s.memset dst value size).pool u = s.pool u := by
  cases u <;> rfl

/-- The layout depends on where the pools are, not on which pages are in use. -/
theorem Laid.congr (h : Laid r s) (hs : ∀ u, (s'.pool u).base = (s.pool u).base ∧ (s'.pool u).usedMapAt = (s.pool u).usedMapAt ∧
    (s'.pool u).usedMap.bitCnt = (s.pool u).usedMap.bitCnt) : Laid r s' := by
  obtain ⟨hkb, hkm, hkc⟩ := hs false
  obtain ⟨hub, hum, huc⟩ := hs true
  simp only [Pools.pool, if_true, if_false, Bool.false_eq_true] at hkb hkm hkc hub hum huc
  refine ⟨hkm ▸ h.kernelMap, ?_, ?_, ?_, ?_, fun u => (hs u).1 ▸ h.aligned u⟩
  · rw [hkm, hkc, hkb]
    exact h.kernelBase
  · rw [hkb, hkc, hum]
    exact h.userMap
  · rw [hum, huc, hub]
    exact h.userBase
  · rw [hub, huc]
    exact h.userEnd

/-- The bytes of a group are in its pool. -/
theorem Group.Within.mem (h : g.Within s) (ha : g.Has a) :
    (s.pool g.user).base ≤ a ∧ a < (s.pool g.user).base + pgsize * (s.pool g.user).usedMap.bitCnt := by
  obtain ⟨-, idx, haddr, hle⟩ := h
  obtain ⟨h1, h2⟩ := ha
  simp only [pgsize] at *
  omega

/-- The pools have no byte in common. -/
theorem Laid.pool_eq (h : Laid r s) {u v : Bool} (hu : (s.pool u).base ≤ a ∧ a < (s.pool u).base + pgsize * (s.pool u).usedMap.bitCnt)
    (hv : (s.pool v).base ≤ a ∧ a < (s.pool v).base + pgsize * (s.pool v).usedMap.bitCnt) : u = v := by
  have h1 := h.userMap
  have h2 := h.userBase
  cases u <;> cases v
  · rfl
  · simp only [Pools.pool, if_true, if_false, Bool.false_eq_true] at hu hv
    omega
  · simp only [Pools.pool, if_true, if_false, Bool.false_eq_true] at hu hv
    omega
  · rfl

instance : Std.Symm Group.Apart := ⟨fun _ _ h a ha => h a ⟨ha.2, ha.1⟩⟩

/-- Two groups that are allocated and share a byte are one. -/
theorem Groups.eq_of_has (h : Groups s live) (hg : g ∈ live) (hg' : g' ∈ live) (ha : g.Has a) (ha' : g'.Has a) : g = g' := by
  by_contra hne
  exact h.apart.forall hg hg' hne a ⟨ha, ha'⟩

theorem Groups.nodup (h : Groups s live) : live.Nodup := by
  refine h.apart.imp_of_mem fun {g g'} hg _ hap heq => ?_
  subst heq
  have hpos := (h.within g hg).1
  refine hap g.addr ⟨⟨le_rfl, ?_⟩, ⟨le_rfl, ?_⟩⟩
  all_goals
    simp only [pgsize]
    omega

/-- Pages that are free are in no group. -/
theorem Groups.clear_of_free (h : Groups s live) {user : Bool} {idx cnt : ℕ} (hle : idx + cnt ≤ (s.pool user).usedMap.bitCnt)
    (hclear : ∀ j, idx ≤ j → j < idx + cnt → (s.pool user).usedMap.bit j = false) (hg : g ∈ live) (hu : g.user = user) :
    g.Apart ⟨user, (s.pool user).base + pgsize * idx, cnt⟩ := by
  rintro a ⟨⟨h1, h2⟩, h3, h4⟩
  obtain ⟨-, idx', haddr, hle'⟩ := h.within g hg
  rw [hu] at haddr hle'
  -- the page of `a`
  obtain ⟨i, hi⟩ : ∃ i, i = (a - (s.pool user).base) / pgsize := ⟨_, rfl⟩
  have hbound : idx ≤ i ∧ i < idx + cnt ∧ g.Has ((s.pool user).base + pgsize * i) := by
    simp only [Group.Has, pgsize] at *
    omega
  have hset := (h.used user i (by omega)).2 ⟨g, hg, hu, hbound.2.2⟩
  rw [hclear i hbound.1 hbound.2.1] at hset
  cases hset

/-- Memory may change, the pools do not. -/
theorem Groups.congr (h : Groups s live) (hs : ∀ u, s'.pool u = s.pool u) : Groups s' live := by
  refine ⟨fun g hg => ?_, h.apart, fun u i hi => ?_⟩
  · rw [Group.Within, hs]
    exact h.within g hg
  · rw [hs] at hi ⊢
    exact h.used u i hi

/-- A byte of a group is in its pool, whichever bits are set there. -/
theorem Group.Within.setMap {user : Bool} {b : Bitmap} (h : g.Within s) (hb : b.bitCnt = (s.pool user).usedMap.bitCnt) :
    g.Within (s.setMap user b) := by
  obtain ⟨hpos, idx, haddr, hle⟩ := h
  refine ⟨hpos, idx, ?_, ?_⟩
  · rw [setMap_pool]
    split_ifs <;> exact haddr
  · rw [setMap_pool]
    split_ifs with hu
    · rw [hb, ← hu]
      exact hle
    · exact hle

/-- **A run of free pages becomes a group.** -/
theorem Groups.get (h : Groups s live) (hl : Laid r s) {user : Bool} {idx cnt : ℕ} (hpos : 0 < cnt)
    (hle : idx + cnt ≤ (s.pool user).usedMap.bitCnt)
    (hclear : ∀ j, idx ≤ j → j < idx + cnt → (s.pool user).usedMap.bit j = false) :
    Groups (s.setMap user ((s.pool user).usedMap.setMultiple idx cnt true))
      (⟨user, (s.pool user).base + pgsize * idx, cnt⟩ :: live) := by
  have hnew : Group.Within ⟨user, (s.pool user).base + pgsize * idx, cnt⟩ s := ⟨hpos, idx, rfl, hle⟩
  refine ⟨fun g hg => ?_, List.pairwise_cons.2 ⟨fun g hg => ?_, h.apart⟩, fun u i hi => ?_⟩
  · rcases List.mem_cons.1 hg with rfl | hg
    · exact hnew.setMap rfl
    · exact (h.within g hg).setMap rfl
  · by_cases hu : g.user = user
    · exact symm (h.clear_of_free hle hclear hg hu)
    · rintro a ⟨ha, ha'⟩
      exact hu (hl.pool_eq ((h.within g hg).mem ha') (hnew.mem ha))
  · have hbase : ((s.setMap user ((s.pool user).usedMap.setMultiple idx cnt true)).pool u).base = (s.pool u).base := by
      rw [setMap_pool]
      split_ifs <;> rfl
    rw [hbase]
    simp only [List.mem_cons, exists_eq_or_imp]
    rw [setMap_pool] at hi ⊢
    by_cases hu : u = user
    · subst hu
      rw [if_pos rfl] at hi ⊢
      have hused := h.used u i hi
      have hrun : Group.Has ⟨u, (s.pool u).base + pgsize * idx, cnt⟩ ((s.pool u).base + pgsize * i) ↔
          idx ≤ i ∧ i < idx + cnt := by
        simp only [Group.Has, pgsize]
        omega
      simp only [Bitmap.setMultiple, hrun, true_and]
      split_ifs with hin
      · exact iff_of_true rfl (.inl hin)
      · rw [hused]
        exact ⟨.inr, fun h => h.resolve_left hin⟩
    · rw [if_neg hu] at hi ⊢
      rw [h.used u i hi]
      refine ⟨.inr, fun h => h.resolve_left fun hc => hu hc.1.symm⟩

/-- **A group is freed.** -/
theorem Groups.free (h : Groups s live) (hg : g ∈ live) {idx : ℕ} (haddr : g.addr = (s.pool g.user).base + pgsize * idx) :
    Groups (s.setMap g.user ((s.pool g.user).usedMap.setMultiple idx g.cnt false)) (live.erase g) := by
  refine ⟨fun g' hg' => (h.within g' (List.mem_of_mem_erase hg')).setMap rfl, h.apart.sublist (List.erase_sublist ..),
    fun u i hi => ?_⟩
  have hbase : ((s.setMap g.user ((s.pool g.user).usedMap.setMultiple idx g.cnt false)).pool u).base = (s.pool u).base := by
    rw [setMap_pool]
    split_ifs <;> rfl
  rw [hbase]
  simp only [h.nodup.mem_erase_iff]
  rw [setMap_pool] at hi ⊢
  by_cases hu : u = g.user
  · subst hu
    rw [if_pos rfl] at hi ⊢
    have hused := h.used g.user i hi
    have hrun : g.Has ((s.pool g.user).base + pgsize * i) ↔ idx ≤ i ∧ i < idx + g.cnt := by
      simp only [Group.Has, pgsize] at *
      omega
    simp only [Bitmap.setMultiple]
    split_ifs with hin
    · refine iff_of_false id ?_
      rintro ⟨g', ⟨hne, hg'⟩, -, hhas⟩
      exact hne (h.eq_of_has hg' hg hhas (hrun.2 hin))
    · rw [hused]
      constructor
      · rintro ⟨g', hg', hu', hhas⟩
        exact ⟨g', ⟨fun hc => hin (hrun.1 (hc ▸ hhas)), hg'⟩, hu', hhas⟩
      · rintro ⟨g', ⟨-, hg'⟩, hu', hhas⟩
        exact ⟨g', hg', hu', hhas⟩
  · rw [if_neg hu] at hi ⊢
    rw [h.used u i hi]
    constructor
    · rintro ⟨g', hg', hu', hhas⟩
      exact ⟨g', ⟨fun hc => hu (hc ▸ hu'.symm), hg'⟩, hu', hhas⟩
    · rintro ⟨g', ⟨-, hg'⟩, hu', hhas⟩
      exact ⟨g', hg', hu', hhas⟩

/-- **The pool of a group is found from its address.** -/
theorem Group.Within.findPool (h : g.Within s) (hl : Laid r s) : findPool s g.addr = some g.user := by
  obtain ⟨hpos, idx, haddr, hle⟩ := h
  have halign := hl.aligned g.user
  have hmap := hl.userMap
  have hbase := hl.userBase
  have hk := hl.aligned false
  rw [Palloc.findPool]
  cases hu : g.user with
  | false =>
    rw [hu] at haddr halign hle
    simp only [Pools.pool, if_false, Bool.false_eq_true] at *
    rw [if_pos]
    simp only [pageFromPool, decide_eq_true_eq, pgsize] at *
    omega
  | true =>
    rw [hu] at haddr halign hle
    simp only [Pools.pool, if_true, if_false, Bool.false_eq_true] at *
    rw [if_neg, if_pos]
    · simp only [pageFromPool, decide_eq_true_eq, pgsize] at *
      omega
    · simp only [pageFromPool, decide_eq_true_eq, pgsize] at *
      omega

/-! ### Calls -/

/-- There is a run of `cnt` free pages in a pool. -/
def FreeRun (s : Pools) (user : Bool) (cnt : ℕ) : Prop :=
  ∃ i, i + cnt ≤ (s.pool user).usedMap.bitCnt ∧ ∀ j, i ≤ j → j < i + cnt → (s.pool user).usedMap.bit j = false

/-- The bytes that hold the bitmaps are as they were. -/
def MapsKept (s s' : Pools) : Prop :=
  ∀ user a, (s.pool user).usedMapAt ≤ a → a < (s.pool user).base → s'.mem a = s.mem a

/-- The bitmap of a pool is in no group. -/
theorem Group.Within.mapsKept (h : g.Within s) (hl : Laid r s) (hs' : ∀ a, ¬ g.Has a → s'.mem a = s.mem a) : MapsKept s s' := by
  intro user a h1 h2
  refine hs' a fun ha => ?_
  have hmem := h.mem ha
  have hk := hl.kernelBase
  have hm := hl.userMap
  have hb := hl.userBase
  cases user <;> cases hu : g.user <;> rw [hu] at hmem <;>
    simp only [Pools.pool, if_true, if_false, Bool.false_eq_true] at * <;> omega

theorem Laid.base_pos (h : Laid r s) (user : Bool) : 0 < (s.pool user).base := by
  have hk := h.kernelBase
  have hu := h.userBase
  cases user <;> simp only [Pools.pool, if_true, if_false, Bool.false_eq_true, Bitmap.bufSize] at * <;> omega

theorem setMap_mem (user : Bool) (b : Bitmap) : (s.setMap user b).mem = s.mem := by cases user <;> rfl

/-- **`palloc_get_multiple`**: a group of free pages, or a null pointer if there is none, or no page is asked for. -/
theorem pallocGetMultiple_spec (hg : Groups s live) (hl : Laid r s) (flags : Flags) (cnt : ℕ) :
    wp (pallocGetMultiple flags cnt)
      (fun p s' => Laid r s' ∧ (p = 0 ∧ s' = s ∧ (cnt = 0 ∨ ¬ FreeRun s flags.user cnt) ∨
        p ≠ 0 ∧ cnt ≠ 0 ∧ Groups s' (⟨flags.user, p, cnt⟩ :: live) ∧
          ∀ a, ¬ Group.Has ⟨flags.user, p, cnt⟩ a → s'.mem a = s.mem a))
      (fun e => e = .outOfPages ∧ flags.assert = true ∧ ¬ FreeRun s flags.user cnt) s := by
  rw [pallocGetMultiple, wp_ite]
  refine ⟨fun h0 => ⟨hl, .inl ⟨rfl, rfl, .inl h0⟩⟩, fun h0 => ?_⟩
  rw [wp_bind, wp_gets]
  dsimp only [id]
  cases hscan : (s.pool flags.user).usedMap.scan 0 cnt false with
  | none =>
    have hno : ¬ FreeRun s flags.user cnt := by
      rintro ⟨i, hi, hclear⟩
      obtain ⟨j, h1, h2, hj⟩ := Bitmap.scan_eq_none hscan hi
      rw [hclear j h1 h2] at hj
      cases hj
    dsimp only
    rw [wp_ite]
    exact ⟨fun ha => ⟨rfl, ha, hno⟩, fun _ => ⟨hl, .inl ⟨rfl, rfl, .inr hno⟩⟩⟩
  | some idx =>
    obtain ⟨hle, hclear⟩ := Bitmap.scan_eq_some hscan
    have hget := hg.get hl (Nat.pos_of_ne_zero h0) hle hclear
    have hl' : ∀ s' : Pools, (∀ u, s'.pool u = (s.setMap flags.user
        ((s.pool flags.user).usedMap.setMultiple idx cnt true)).pool u) → Laid r s' := by
      intro s' hs'
      refine hl.congr fun u => ?_
      rw [hs', setMap_pool]
      split_ifs with hu
      · exact ⟨rfl, rfl, by rw [hu]; rfl⟩
      · exact ⟨rfl, rfl, rfl⟩
    have hne : (s.pool flags.user).base + pgsize * idx ≠ 0 := Nat.ne_of_gt (Nat.add_pos_left (hl.base_pos _) _)
    dsimp only
    rw [wp_bind, wp_modify, wp_bind, wp_onlyIf, wp_modify, wp_pure, wp_pure]
    refine ⟨fun _ => ⟨hl' _ fun u => memset_pool .., .inr ⟨hne, h0, hget.congr fun u => memset_pool .., fun a ha => ?_⟩⟩,
      fun _ => ⟨hl' _ fun _ => rfl, .inr ⟨hne, h0, hget, fun a _ => ?_⟩⟩⟩
    · refine (if_neg ha).trans ?_
      rw [setMap_mem]
    · rw [setMap_mem]

/-- It returns pages exactly if there are some and at least one is asked for. -/
theorem pallocGetMultiple_iff (hl : Laid r s) (flags : Flags) (cnt : ℕ) :
    wp (pallocGetMultiple flags cnt) (fun p _ => p ≠ 0 ↔ cnt ≠ 0 ∧ FreeRun s flags.user cnt) (fun _ => True) s := by
  rw [pallocGetMultiple, wp_ite]
  refine ⟨fun h0 => iff_of_false (fun hne => hne rfl) fun hc => hc.1 h0, fun h0 => ?_⟩
  rw [wp_bind, wp_gets]
  dsimp only [id]
  cases hscan : (s.pool flags.user).usedMap.scan 0 cnt false with
  | none =>
    dsimp only
    rw [wp_ite]
    refine ⟨fun _ => trivial, fun _ => iff_of_false (fun hne => hne rfl) ?_⟩
    rintro ⟨-, i, hi, hclear⟩
    obtain ⟨j, h1, h2, hj⟩ := Bitmap.scan_eq_none hscan hi
    rw [hclear j h1 h2] at hj
    cases hj
  | some idx =>
    have hne : (s.pool flags.user).base + pgsize * idx ≠ 0 := Nat.ne_of_gt (Nat.add_pos_left (hl.base_pos _) _)
    have hrun : FreeRun s flags.user cnt := ⟨idx, Bitmap.scan_eq_some hscan⟩
    dsimp only
    rw [wp_bind, wp_modify, wp_bind, wp_onlyIf, wp_modify, wp_pure, wp_pure]
    exact ⟨fun _ => iff_of_true hne ⟨h0, hrun⟩, fun _ => iff_of_true hne ⟨h0, hrun⟩⟩

/-- **`palloc_free_multiple` of a group**: the pool it came from is found, and its assertions hold. -/
theorem pallocFreeMultiple_spec (hg : Groups s live) (hl : Laid r s) (hmem : g ∈ live) :
    wp (pallocFreeMultiple g.addr g.cnt) (fun _ s' => Laid r s' ∧ Groups s' (live.erase g) ∧
      ∀ a, ¬ g.Has a → s'.mem a = s.mem a) (fun _ => False) s := by
  have hwithin := hg.within g hmem
  have hfind := hwithin.findPool hl
  obtain ⟨hpos, idx, haddr, hle⟩ := id hwithin
  have hbase := hl.base_pos g.user
  have halign := hl.aligned g.user
  have hidx : g.addr / pgsize - (s.pool g.user).base / pgsize = idx := by
    simp only [pgsize] at *
    omega
  have hofs : g.addr % pgsize = 0 := by
    simp only [pgsize] at *
    omega
  have hset : (s.pool g.user).usedMap.all idx g.cnt = true := by
    rw [Bitmap.all_eq_true]
    intro j h1 h2
    refine (hg.used g.user j (by omega)).2 ⟨g, hmem, rfl, ?_⟩
    simp only [Group.Has, pgsize] at *
    omega
  rw [pallocFreeMultiple, if_neg (not_not.2 hofs), if_neg (by omega), wp_bind, wp_gets]
  dsimp only [id]
  rw [hfind]
  dsimp only
  rw [freeIn, wp_bind, wp_gets]
  dsimp only [id]
  rw [hidx, wp_bind, wp_modify, if_neg (Nat.not_lt.2 hle), if_pos hset, wp_modify]
  have hpool : ∀ u, ((s.memset g.addr 0xcc (pgsize * g.cnt)).setMap g.user
      ((s.pool g.user).usedMap.setMultiple idx g.cnt false)).pool u =
      (s.setMap g.user ((s.pool g.user).usedMap.setMultiple idx g.cnt false)).pool u := by
    intro u
    rw [setMap_pool, setMap_pool, memset_pool]
  refine ⟨hl.congr fun u => ?_, (hg.free hmem haddr).congr hpool, fun a ha => ?_⟩
  · rw [hpool, setMap_pool]
    split_ifs with hu
    · exact ⟨rfl, rfl, by rw [hu]; rfl⟩
    · exact ⟨rfl, rfl, rfl⟩
  · rw [setMap_mem]
    exact if_neg ha

end

/-! ### Every sequence of calls -/

/-- The pools, and the groups that are allocated. -/
structure Allocator where
  pools : Pools
  live : List Group

/-- A call. -/
inductive Action where
  /-- `palloc_get_multiple`. -/
  | get (flags : Flags) (pageCnt : ℕ)
  /-- `palloc_free_multiple` of a group. -/
  | free (g : Group)

/-- One call. -/
def step : Action → Prog Allocator Fault Unit
  | .get flags pageCnt => do
    let pages ← Prog.within Allocator.pools (fun s a => { a with pools := s }) (pallocGetMultiple flags pageCnt)
    onlyIf (pages ≠ 0) (modify fun a => { a with live := ⟨flags.user, pages, pageCnt⟩ :: a.live })
  | .free g => do
    Prog.within Allocator.pools (fun s a => { a with pools := s }) (pallocFreeMultiple g.addr g.cnt)
    modify fun a => { a with live := a.live.erase g }

/-- Every group is freed once. -/
def Guard (act : Action) (a : Allocator) : Prop :=
  match act with
  | .get _ _ => True
  | .free g => g ∈ a.live

/-- **The states that the allocator reaches** from `palloc_init`. -/
def Reaches (r : Machine) (a : Allocator) : Prop :=
  ∃ mem s, pallocInit r mem = .ok s ∧ Run step Guard ⟨s, []⟩ a

variable {r : Machine} {a : Allocator}

theorem step_spec {act : Action} (h : Laid r a.pools ∧ Groups a.pools a.live) (hg : Guard act a) :
    wp (step act) (fun _ a' => Laid r a'.pools ∧ Groups a'.pools a'.live) (fun _ => True) a := by
  obtain ⟨hl, hgr⟩ := h
  cases act with
  | get flags cnt =>
    rw [step, wp_bind, wp_within]
    refine wp_mono (pallocGetMultiple_spec hgr hl flags cnt) (fun p s' hp => ?_) fun _ _ => trivial
    obtain ⟨hl', ⟨rfl, rfl, -⟩ | ⟨hp, -, hg', -⟩⟩ := hp
    · rw [wp_onlyIf]
      exact ⟨fun h => absurd rfl h, fun _ => ⟨hl', hgr⟩⟩
    · rw [wp_onlyIf]
      exact ⟨fun _ => ⟨hl', hg'⟩, fun h => absurd hp h⟩
  | free g =>
    rw [step, wp_bind, wp_within]
    refine wp_mono (pallocFreeMultiple_spec hgr hl hg) (fun _ s' hs => ?_) fun _ => False.elim
    exact ⟨hs.1, hs.2.1⟩

theorem Reaches.sound (h : Reaches r a) : Laid r a.pools ∧ Groups a.pools a.live := by
  obtain ⟨mem, s, hinit, hrun⟩ := h
  obtain ⟨hl, hclear⟩ := pallocInit_laid hinit
  apply Run.invariant hrun
  · refine ⟨hl, nofun, List.Pairwise.nil, fun u i _ => iff_of_false ?_ ?_⟩
    · rw [hclear]
      exact Bool.false_ne_true
    · rintro ⟨_, hno, -⟩
      cases hno
  · intro act t ht hg
    exact step_spec ht hg

/-- **The page allocator.** After any sequence of calls the pools and their bitmaps lie in free memory one after the other;
the groups that are allocated are disjoint ranges of pages of their pools, and the bits that are set are those of their
pages; a null pointer is returned only if no page is asked for or there is no run of free pages; and a group is freed in
the pool that it came from, without a failed assertion. -/
theorem palloc_sound (h : Reaches r a) :
    Laid r a.pools ∧ Groups a.pools a.live ∧
      (∀ flags cnt, wp (pallocGetMultiple flags cnt) (fun p _ => p = 0 → cnt = 0 ∨ ¬ FreeRun a.pools flags.user cnt)
        (fun e => e = .outOfPages ∧ flags.assert = true ∧ ¬ FreeRun a.pools flags.user cnt) a.pools) ∧
      ∀ g ∈ a.live, findPool a.pools g.addr = some g.user ∧
        wp (pallocFreeMultiple g.addr g.cnt) (fun _ s' => MapsKept a.pools s') (fun _ => False) a.pools := by
  obtain ⟨hl, hg⟩ := h.sound
  refine ⟨hl, hg, fun flags cnt => ?_, fun g hmem => ⟨(hg.within g hmem).findPool hl, ?_⟩⟩
  · refine wp_post (pallocGetMultiple_spec hg hl flags cnt) fun p s' hp h0 => ?_
    obtain ⟨-, ⟨-, -, hno⟩ | ⟨hp, -, -⟩⟩ := hp
    · exact hno
    · exact absurd h0 hp
  · exact wp_post (pallocFreeMultiple_spec hg hl hmem) fun _ s' hs => (hg.within g hmem).mapsKept hl hs.2.2

/-- A machine with 4 MB, and the kernel in the first 256 pages. -/
def smallMachine : Machine where
  kernelEnd := 0xc0100000
  ramPages := 1024
  userPageLimit := 64
  above := by decide
  below := by decide
  capped := by decide

/-- Its pools, with 703 and 63 pages. -/
def smallPools : Pools where
  kernelPool := { usedMap := .create 703, usedMapAt := 0xc0100000, base := 0xc0101000 }
  userPool := { usedMap := .create 63, usedMapAt := 0xc03c0000, base := 0xc03c1000 }
  mem _ := 0

theorem pallocInit_smallMachine : pallocInit smallMachine (fun _ => 0) = .ok smallPools := by
  have hs : smallMachine.freeStart = 0xc0100000 := by decide
  have hu : smallMachine.userPages = 64 := by decide
  have hk : smallMachine.kernelPages = 704 := by decide
  have h1 : divRoundUp (Bitmap.bufSize 704) pgsize = 1 := by decide
  have h2 : divRoundUp (Bitmap.bufSize 64) pgsize = 1 := by decide
  simp only [pallocInit, hs, hu, hk, initPool, h1, h2, bitmapCreateInBuf]
  rfl

theorem reaches_smallPools : Reaches smallMachine ⟨smallPools, []⟩ := ⟨_, _, pallocInit_smallMachine, .refl _⟩

/-- The first page of the user pool. -/
theorem palloc_sound_user : ∃ a : Allocator, a.live = [⟨true, 0xc03c1000, 1⟩] ∧
    Laid smallMachine a.pools ∧ Groups a.pools a.live ∧
      (∀ flags cnt, wp (pallocGetMultiple flags cnt) (fun p _ => p = 0 → cnt = 0 ∨ ¬ FreeRun a.pools flags.user cnt)
        (fun e => e = .outOfPages ∧ flags.assert = true ∧ ¬ FreeRun a.pools flags.user cnt) a.pools) ∧
      ∀ g ∈ a.live, findPool a.pools g.addr = some g.user ∧
        wp (pallocFreeMultiple g.addr g.cnt) (fun _ s' => MapsKept a.pools s') (fun _ => False) a.pools := by
  have hscan : (smallPools.pool true).usedMap.scan 0 1 false = some 0 := by decide
  have hwp : wp (step (.get ⟨false, false, true⟩ 1)) (fun _ a => a.live = [⟨true, 0xc03c1000, 1⟩]) (fun _ => False)
      ⟨smallPools, []⟩ := by
    rw [step, wp_bind, wp_within, pallocGetMultiple, if_neg (by decide), wp_bind, wp_gets]
    dsimp only [id]
    rw [hscan]
    dsimp only
    rw [wp_bind, wp_modify, wp_bind, wp_onlyIf]
    refine ⟨nofun, fun _ => ?_⟩
    rw [wp_pure, wp_onlyIf]
    exact ⟨fun _ => rfl, fun h => absurd (by decide) h⟩
  obtain ⟨⟨⟩, a, hstep, hlive⟩ := exists_ok hwp
  obtain ⟨mem, s, hinit, hrun⟩ := reaches_smallPools
  exact ⟨a, hlive, palloc_sound ⟨mem, s, hinit, hrun.tail (i := .get ⟨false, false, true⟩ 1) trivial hstep⟩⟩

/-- **No pages are no group**: a null pointer is returned although a run of no pages is always free. -/
theorem get_no_pages : ¬ ∀ r a, Reaches r a → ∀ flags cnt,
    wp (pallocGetMultiple flags cnt) (fun p _ => p = 0 → ¬ FreeRun a.pools flags.user cnt) (fun _ => True) a.pools := by
  intro h
  refine h smallMachine _ reaches_smallPools ⟨false, false, false⟩ 0 rfl ⟨0, Nat.zero_le _, ?_⟩
  omega

end Pintos.Palloc
