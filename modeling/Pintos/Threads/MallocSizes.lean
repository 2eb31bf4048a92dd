import Pintos.Threads.MallocRuns

/-!
# Sizes that wrap around

`malloc` adds the header to a size, and `calloc` multiplies its arguments, in 32-bit
arithmetic. A block is as big as it should be unless one of the last eleven sizes is
asked for, where the pages for it wrap around to one, or a product passes the test of
`calloc` although it has wrapped around (`sizes_iff`).
-/

namespace Pintos.Malloc

open Library Library.Prog
open Paging (pgsize)
open Palloc (Flags Group FreeRun)

/-- The bytes of a block that `malloc` returns for a size. -/
def capacity (size : ℕ) : ℕ :=
  match descs.find? fun d => size ≤ d.blockSize with
  | none => pgsize * bigPages size - arenaSize
  | some d => d.blockSize

/-- There is memory for a size: pages of its own, or a free block, or a page for a new arena. -/
def Served (s : Heap) (size : ℕ) : Prop :=
  size ≠ 0 ∧
    match descs.find? fun d => size ≤ d.blockSize with
    | none => bigPages size ≠ 0 ∧ FreeRun s.palloc.pools false (bigPages size)
    | some d => s.freeList d ≠ [] ∨ FreeRun s.palloc.pools false 1

section

variable {s s' : Heap} {live : List ℕ} {d : Desc} {p size : ℕ}

/-- **Pages are obtained exactly if there is a run of them.** -/
theorem pallocGet_iff (h : Inv s live) (cnt : ℕ) :
    wp (pallocGet noFlags cnt) (fun p _ => p ≠ 0 ↔ cnt ≠ 0 ∧ FreeRun s.palloc.pools false cnt) (fun _ => True) s := by
  obtain ⟨⟨r, hl⟩, -, -⟩ := h.backed
  rw [pallocGet, wp_bind, wp_callPalloc]
  have hget := Palloc.pallocGetMultiple_iff hl noFlags cnt
  refine wp_mono hget (fun p pools hp => ?_) fun _ _ => trivial
  rw [wp_bind, wp_onlyIf, wp_modify, wp_pure, wp_pure]
  exact ⟨fun _ => hp, fun _ => hp⟩

theorem popBlock_capacity {b : ℕ} {rest : List ℕ} (h : Inv s live) (hl : s.freeList d = b :: rest)
    (hbusy : ∀ q e m, s.arena q = some ⟨some e, m⟩ → q = b / pgsize * pgsize ∨ m < e.blocksPerArena) :
    wp (popBlock d) (fun r s' => r ≠ 0 ∧ s'.extent r = d.blockSize) (fun _ => False) s := by
  refine wp_post (popBlock_spec h hl hbusy) ?_
  rintro r s' ⟨rfl, hinv, -, -, hext⟩
  exact ⟨fun h0 => hinv.zero_not_mem (h0 ▸ List.mem_cons_self), hext⟩

/-- **What `malloc` returns for any size**: a block exactly if there is memory, and how big it is. -/
theorem malloc_capacity (h : Inv s live) (hbusy : Busy s) (size : ℕ) :
    wp (malloc size) (fun r s' => (r ≠ 0 ↔ Served s size) ∧ (r ≠ 0 → s'.extent r = capacity size)) (fun _ => False) s := by
  rw [malloc.eq_def, wp_ite]
  refine ⟨fun h0 => ⟨iff_of_false (fun hne => hne rfl) fun hs => hs.1 h0, fun hne => absurd rfl hne⟩, fun hsize => ?_⟩
  unfold Served capacity
  cases hfind : descs.find? fun d => size ≤ d.blockSize with
  | none =>
    refine wp_seq (wp_and (pallocGet_spec h noFlags (bigPages size)) (pallocGet_iff h (bigPages size)))
      (fun _ he => Bool.false_ne_true he.1) ?_
    rintro p s₁ ⟨⟨-, -, -, -, hf⟩, hiff⟩
    rw [wp_ite]
    refine ⟨fun hp => ?_, fun hp => ?_⟩
    · exact ⟨iff_of_false (fun hne => hne rfl) fun hs => hiff.2 hs.2 hp, fun hne => absurd rfl hne⟩
    · refine ⟨iff_of_true ?_ ⟨hsize, hiff.1 hp⟩, fun _ => ?_⟩
      · unfold arenaSize
        omega
      · rw [Heap.extent, (big_page (hf hp).page).1]
        simp
  | some d =>
    have hd := List.mem_of_find?_eq_some hfind
    dsimp only
    rw [wp_bind, wp_gets, wp_ite]
    refine ⟨fun hl => ?_, fun hl => ?_⟩
    · refine wp_seq (wp_and (pallocGet_spec h noFlags 1) (pallocGet_iff h 1)) (fun _ he => Bool.false_ne_true he.1) ?_
      rintro p s₁ ⟨⟨h₁, -, hs₁, -, hf⟩, hiff⟩
      rw [wp_ite]
      refine ⟨fun hp => ?_, fun hp => ?_⟩
      · refine ⟨iff_of_false (fun hne => hne rfl) ?_, fun hne => absurd rfl hne⟩
        rintro ⟨-, hfree | hrun⟩
        · exact hfree hl
        · exact hiff.2 ⟨one_ne_zero, hrun⟩ hp
      · have hl₁ : s₁.freeList d = [] := by
          rw [hs₁.freeList]
          exact hl
        refine wp_seq (newArena_spec h₁ hd hl₁ (hf hp)) (fun _ => id) ?_
        rintro _ s₂ ⟨h₂, -, hl₂, hother⟩
        obtain ⟨m, hm⟩ : ∃ m, d.blocksPerArena = m + 1 := Nat.exists_eq_succ_of_ne_zero (desc_ok hd).2.1.ne'
        rw [hm, List.range_succ_eq_map, List.map_cons] at hl₂
        have hround := (block_page (i := 0) hd (hf hp).page (desc_ok hd).2.1).1
        refine wp_post (popBlock_capacity h₂ hl₂ fun q e k hq => ?_) fun r s' hr =>
          ⟨iff_of_true hr.1 ⟨hsize, .inr (hiff.1 hp).2⟩, fun _ => hr.2⟩
        by_cases hqp : q = p
        · exact .inl (hqp.trans hround.symm)
        · exact .inr (hs₁.busy hbusy q e k (hother q hqp ▸ hq))
    · obtain ⟨c, rest, hc⟩ := List.exists_cons_of_ne_nil hl
      exact wp_post (popBlock_capacity h hc fun q e k hq => .inr (hbusy q e k hq)) fun r s' hr =>
        ⟨iff_of_true hr.1 ⟨hsize, .inl hl⟩, fun _ => hr.2⟩

/-! ### Capacities -/

theorem blockSize_le {d : Desc} (h : d ∈ descs) : d.blockSize ≤ 1024 :=
  (by decide : ∀ d ∈ descs, d.blockSize ≤ 1024) d h

/-- No descriptor has blocks of more than 1 kB. -/
theorem find_eq_none (h : 1024 < size) : (descs.find? fun d => size ≤ d.blockSize) = none := by
  rw [List.find?_eq_none]
  intro d hd hle
  have h1 := blockSize_le hd
  have h2 : size ≤ d.blockSize := of_decide_eq_true hle
  omega

/-- No block is as big as the address space. -/
theorem capacity_lt (size : ℕ) : capacity size < 2 ^ 32 := by
  unfold capacity
  cases hfind : descs.find? fun d => size ≤ d.blockSize with
  | none =>
    simp only [bigPages, arenaSize, pgsize]
    omega
  | some d =>
    have := blockSize_le (List.mem_of_find?_eq_some hfind)
    change d.blockSize < 2 ^ 32
    omega

/-- A block that is served is big enough, up to the last eleven sizes. -/
theorem le_capacity (h : Served s size) (hsize : size ≤ 2 ^ 32 - 12) : size ≤ capacity size := by
  obtain ⟨-, h⟩ := h
  unfold capacity
  cases hfind : descs.find? fun d => size ≤ d.blockSize with
  | none =>
    rw [hfind] at h
    have hpages := h.1
    -- sizes for which the pages wrap around to none are not served
    simp only [bigPages, arenaSize, pgsize] at *
    omega
  | some d => simpa using List.find?_some hfind

/-- For the last eleven sizes one page is obtained. -/
theorem capacity_last (hsize : 2 ^ 32 - 12 < size) (hlt : size < 2 ^ 32) : capacity size = 4084 := by
  unfold capacity
  rw [find_eq_none (by omega)]
  simp only [bigPages, arenaSize, pgsize]
  omega

/-! ### Where the sizes are right -/

/-- A block that `malloc` returns has the bytes that are asked for. -/
def MallocFits (s : Heap) (size : ℕ) : Prop :=
  wp (malloc size) (fun r s' => r ≠ 0 → size ≤ s'.extent r) (fun _ => False) s

/-- A block that `calloc` returns has the bytes that are asked for. -/
def CallocFits (s : Heap) (a b : ℕ) : Prop :=
  wp (calloc a b) (fun r s' => r ≠ 0 → a * b ≤ s'.extent r) (fun _ => False) s

/-- A call that returns a block of `capacity size` bytes exactly if there is memory. -/
theorem fits_iff {m : HeapM ℕ} {want : ℕ}
    (hm : wp m (fun r s' => (r ≠ 0 ↔ Served s size) ∧ (r ≠ 0 → s'.extent r = capacity size)) (fun _ => False) s) :
    wp m (fun r s' => r ≠ 0 → want ≤ s'.extent r) (fun _ => False) s ↔ (Served s size → want ≤ capacity size) := by
  constructor
  · intro h hs
    obtain ⟨r, s', hok, hr, hext⟩ := exists_ok hm
    rw [← hext (hr.2 hs)]
    exact wp_of_ok h hok (hr.2 hs)
  · intro h
    refine wp_post hm fun r s' hr hr0 => ?_
    rw [hr.2 hr0]
    exact h (hr.1.1 hr0)

theorem malloc_fits_iff (h : Inv s live) (hbusy : Busy s) (hsize : size < 2 ^ 32) :
    MallocFits s size ↔ ¬ (2 ^ 32 - 12 < size ∧ Served s size) := by
  rw [MallocFits, fits_iff (malloc_capacity h hbusy size), not_and']
  refine imp_congr_right fun hs => ?_
  constructor
  · intro hle hlast
    rw [capacity_last hlast hsize] at hle
    omega
  · exact fun hle => le_capacity hs (not_lt.1 hle)

/-- The product that `calloc` computes passes its test. -/
def Passes (a b : ℕ) : Prop := a ≤ a * b % 2 ^ 32 ∧ b ≤ a * b % 2 ^ 32

theorem calloc_fits_iff {a b : ℕ} (h : Inv s live) (hbusy : Busy s) :
    CallocFits s a b ↔ ¬ (2 ^ 32 - 12 < a * b ∧ Passes a b ∧ Served s (a * b % 2 ^ 32)) := by
  rw [CallocFits, calloc]
  by_cases hpass : Passes a b
  · rw [if_neg (not_or.2 ⟨not_lt.2 hpass.1, not_lt.2 hpass.2⟩)]
    have hm : wp (do
        let p ← malloc (a * b % 2 ^ 32)
        onlyIf (p ≠ 0) (modify (Heap.memset p 0 (a * b % 2 ^ 32)))
        pure p) (fun r s' => (r ≠ 0 ↔ Served s (a * b % 2 ^ 32)) ∧ (r ≠ 0 → s'.extent r = capacity (a * b % 2 ^ 32)))
        (fun _ => False) s := by
      refine wp_seq (malloc_capacity h hbusy _) (fun _ => id) fun r s₁ hr => ?_
      rw [wp_bind, wp_onlyIf, wp_modify, wp_pure, wp_pure]
      exact ⟨fun _ => hr, fun _ => hr⟩
    rw [fits_iff hm, not_and', and_iff_right hpass]
    refine imp_congr_right fun hs => ?_
    constructor
    · intro hle hlast
      by_cases hwrap : a * b < 2 ^ 32
      · rw [Nat.mod_eq_of_lt hwrap, capacity_last hlast hwrap] at hle
        omega
      · have := capacity_lt (a * b % 2 ^ 32)
        omega
    · intro hle
      rw [Nat.mod_eq_of_lt (by omega)] at hs ⊢
      exact le_capacity hs (not_lt.1 hle)
  · rw [if_pos]
    · exact iff_of_true (fun hne => absurd rfl hne) fun hc => hpass hc.2.1
    · by_contra hno
      rw [not_or, not_lt, not_lt] at hno
      exact hpass hno

/-- **Sizes that wrap around**: `malloc` returns too small a block exactly for the last eleven sizes, and `calloc` exactly
if the product is one of these or has wrapped around and passes the test all the same, where there is memory for what is
left of it. No assertion fails. -/
theorem sizes_iff (h : Inv s live) (hbusy : Busy s) :
    (∀ size < 2 ^ 32, MallocFits s size ↔ ¬ (2 ^ 32 - 12 < size ∧ Served s size)) ∧
      ∀ a < 2 ^ 32, ∀ b < 2 ^ 32,
        CallocFits s a b ↔ ¬ (2 ^ 32 - 12 < a * b ∧ Passes a b ∧ Served s (a * b % 2 ^ 32)) :=
  ⟨fun _ hsize => malloc_fits_iff h hbusy hsize, fun _ _ _ _ => calloc_fits_iff h hbusy⟩

end

/-- The heap of a machine with 4 MB, at the start. -/
def smallHeap : Heap := mallocInit Palloc.smallPools (fun _ _ => 0) fun _ _ => 0

theorem smallHeap_inv : Inv smallHeap [] ∧ Busy smallHeap := by
  have hr : Reaches ⟨smallHeap, []⟩ := ⟨_, _, _, _, _, Palloc.pallocInit_smallMachine, .refl _⟩
  exact hr.inv

/-- Its pages are free. -/
theorem smallHeap_free {cnt : ℕ} (h : cnt ≤ 703) : FreeRun smallHeap.palloc.pools false cnt := ⟨0, by
  rw [Nat.zero_add]
  exact h, fun _ _ _ => rfl⟩

theorem sizes_iff_small : MallocFits smallHeap 2000 ∧ CallocFits smallHeap 30 50 := by
  obtain ⟨hm, hc⟩ := sizes_iff smallHeap_inv.1 smallHeap_inv.2
  constructor
  · rw [hm 2000 (by decide)]
    exact fun h => absurd h.1 (by decide)
  · rw [hc 30 (by decide) 50 (by decide)]
    exact fun h => absurd h.1 (by decide)

/-- **Too small a block** of 4,084 bytes for the last size, and one of 131,073 bytes for `65537 * 65537`. -/
theorem sizes_wrap : ¬ MallocFits smallHeap 4294967295 ∧ ¬ CallocFits smallHeap 65537 65537 := by
  constructor
  · rw [malloc_fits_iff smallHeap_inv.1 smallHeap_inv.2 (by decide), not_not]
    refine ⟨by decide, by decide, ?_⟩
    rw [find_eq_none (by decide)]
    exact ⟨by decide, smallHeap_free (by decide)⟩
  · rw [calloc_fits_iff smallHeap_inv.1 smallHeap_inv.2, not_not]
    refine ⟨by decide, ⟨by decide, by decide⟩, by decide, ?_⟩
    rw [find_eq_none (by decide)]
    exact ⟨by decide, smallHeap_free (by decide)⟩

end Pintos.Malloc
