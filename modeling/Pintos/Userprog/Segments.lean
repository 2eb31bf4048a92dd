import Pintos.Userprog.Pagedir

/-!
# Segments

How `load` (`userprog/process.c`) loads a segment of an executable: `validate_segment`,
the numbers that it computes from a program header, and `load_segment`. All of them are
32-bit words, and the header is as the file has it.

`load_segment` registers the pages of the segment, one after the other, with calls of
`allocate_page`; the pages are read later, when they are used. What it drops, and does
not see, is the answer of `allocate_page`. Its result here is the list of the calls.
-/

namespace Pintos.Segments

open Library
open Pagedir (Word pgmask physBase isUserVaddr pgOfs)

/-- `PGSIZE`. -/
def pgsize : Word := 4096

/-- `ROUND_UP`. -/
def roundUp (x step : Word) : Word := (x + step - 1) / step * step

/-- `struct Elf32_Phdr`, of which a segment is loaded. -/
structure Phdr where
  pOffset : Word
  pVaddr : Word
  pFilesz : Word
  pMemsz : Word
  pFlags : Word

/-- `PF_W`. -/
def pfW : Word := 2

/-- The ways in which `load_segment` goes wrong. -/
inductive Stop where
  /-- A failed assertion. -/
  | assertion
  /-- More is subtracted from a number of bytes than it is. -/
  | underflow
  /-- The loop has not ended. -/
  | fuel
  deriving DecidableEq

/-- A call of `allocate_page`; `ofs` is a signed number. -/
structure Call where
  ofs : Word
  upage : Word
  readBytes : Word
  zeroBytes : Word
  writable : Bool
  deriving DecidableEq

/-- `validate_segment`. -/
def validateSegment (phdr : Phdr) (fileLength : Word) : Bool :=
  if phdr.pOffset &&& pgmask ≠ phdr.pVaddr &&& pgmask then false
  else if fileLength < phdr.pOffset then false
  else if phdr.pMemsz < phdr.pFilesz then false
  else if phdr.pMemsz = 0 then false
  else if ¬ isUserVaddr phdr.pVaddr then false
  else if ¬ isUserVaddr (phdr.pVaddr + phdr.pMemsz) then false
  else if phdr.pVaddr + phdr.pMemsz < phdr.pVaddr then false
  else true

/-- The loop of `load_segment`. -/
def loadLoop (writable : Bool) : ℕ → Word → Word → Word → Word → Except Stop (List Call)
  | 0, _, _, _, _ => .error .fuel
  | n + 1, ofs, upage, readBytes, zeroBytes =>
    if 0 < readBytes ∨ 0 < zeroBytes then
      let pageReadBytes := if readBytes < pgsize then readBytes else pgsize
      let pageZeroBytes := pgsize - pageReadBytes
      if zeroBytes < pageZeroBytes then .error .underflow
      else do
        let calls ← loadLoop writable n (ofs + (pageReadBytes + pageZeroBytes)) (upage + pgsize) (readBytes - pageReadBytes)
          (zeroBytes - pageZeroBytes)
        pure (⟨ofs, upage, pageReadBytes, pageZeroBytes, writable⟩ :: calls)
    else .ok []

/-- `load_segment`. -/
def loadSegment (fuel : ℕ) (ofs upage readBytes zeroBytes : Word) (writable : Bool) : Except Stop (List Call) :=
  if (readBytes + zeroBytes) % pgsize ≠ 0 then .error .assertion
  else if pgOfs upage ≠ 0 then .error .assertion
  else if ofs.toInt.tmod 4096 ≠ 0 then .error .assertion
  else loadLoop writable fuel ofs upage readBytes zeroBytes

/-- The case `PT_LOAD` in `load`, for a header that is accepted. -/
def loadPhdr (fuel : ℕ) (phdr : Phdr) : Except Stop (List Call) :=
  let writable := decide (phdr.pFlags &&& pfW ≠ 0)
  let filePage := phdr.pOffset &&& ~~~pgmask
  let memPage := phdr.pVaddr &&& ~~~pgmask
  let pageOffset := phdr.pVaddr &&& pgmask
  if 0 < phdr.pFilesz then
    let readBytes := pageOffset + phdr.pFilesz
    let zeroBytes := roundUp (pageOffset + phdr.pMemsz) pgsize - readBytes
    loadSegment fuel filePage memPage readBytes zeroBytes writable
  else loadSegment fuel filePage memPage 0 (roundUp (pageOffset + phdr.pMemsz) pgsize) writable

/-! ### Words -/

theorem toNat_pgmask (w : Word) : (w &&& pgmask).toNat = w.toNat % 4096 := toNat_and_low (by decide) w

theorem toNat_not_pgmask (w : Word) : (w &&& ~~~pgmask).toNat = w.toNat - w.toNat % 4096 := toNat_and_not_low (by decide) w

theorem toNat_pgsize : pgsize.toNat = 4096 := rfl

theorem toNat_roundUp {x : Word} (h : x.toNat + 4095 < 2 ^ 32) : (roundUp x pgsize).toNat = (x.toNat + 4095) / 4096 * 4096 := by
  have h1 : (1 : Word).toNat = 1 := rfl
  unfold roundUp
  simp only [BitVec.toNat_mul, BitVec.toNat_udiv, BitVec.toNat_sub, BitVec.toNat_add, toNat_pgsize, h1]
  omega

/-- **What `validate_segment` accepts**, as a condition on numbers. -/
theorem validateSegment_iff {phdr : Phdr} {fileLength : Word} : validateSegment phdr fileLength = true ↔
    phdr.pOffset.toNat % 4096 = phdr.pVaddr.toNat % 4096 ∧ phdr.pOffset.toNat ≤ fileLength.toNat ∧
      phdr.pFilesz.toNat ≤ phdr.pMemsz.toNat ∧ 0 < phdr.pMemsz.toNat ∧ phdr.pVaddr.toNat + phdr.pMemsz.toNat < 0xc0000000 := by
  have hphys : physBase.toNat = 0xc0000000 := rfl
  have h0 : (0 : Word).toNat = 0 := rfl
  have hv := phdr.pVaddr.isLt
  have hm := phdr.pMemsz.isLt
  unfold validateSegment isUserVaddr
  simp only [ne_eq, ← BitVec.toNat_inj, BitVec.lt_def, toNat_pgmask, BitVec.toNat_add, hphys, h0]
  split_ifs <;> simp only [true_iff, false_iff, Bool.false_eq_true] <;> omega

/-! ### The calls -/

/-- Call `i`, for a segment that is read from `ofs` on, up to `readBytes` bytes. -/
def callAt (writable : Bool) (ofs upage readBytes : Word) (i : ℕ) : Call where
  ofs := ofs + BitVec.ofNat 32 (4096 * i)
  upage := upage + BitVec.ofNat 32 (4096 * i)
  readBytes := BitVec.ofNat 32 (min (readBytes.toNat - 4096 * i) 4096)
  zeroBytes := BitVec.ofNat 32 (4096 - min (readBytes.toNat - 4096 * i) 4096)
  writable := writable

section

variable {writable : Bool} {ofs upage readBytes zeroBytes : Word} {n fuel : ℕ}

/-- `page_read_bytes`. -/
theorem toNat_pageReadBytes : (if readBytes < pgsize then readBytes else pgsize).toNat = min readBytes.toNat 4096 := by
  split_ifs with h
  · rw [BitVec.lt_def, toNat_pgsize] at h
    omega
  · rw [BitVec.lt_def, toNat_pgsize] at h
    rw [toNat_pgsize]
    omega

/-- The calls after the first are those for the rest. -/
theorem callAt_succ {r : Word} (hr : r.toNat = min readBytes.toNat 4096) (i : ℕ) :
    callAt writable ofs upage readBytes (i + 1) =
      callAt writable (ofs + (r + (pgsize - r))) (upage + pgsize) (readBytes - r) i := by
  have hpage : r + (pgsize - r) = pgsize := by
    rw [BitVec.add_comm, BitVec.sub_add_cancel]
  have hword : BitVec.ofNat 32 (4096 * (i + 1)) = pgsize + BitVec.ofNat 32 (4096 * i) := by
    rw [Nat.mul_succ, Nat.add_comm, BitVec.ofNat_add]
    rfl
  have hread : readBytes.toNat - 4096 * (i + 1) = (readBytes - r).toNat - 4096 * i := by
    rw [BitVec.toNat_sub_of_le (by rw [BitVec.le_def]; omega)]
    omega
  unfold callAt
  rw [hpage, hword, hread, BitVec.add_assoc, BitVec.add_assoc]

/-- **The loop of `load_segment`**, on whole pages: it ends, and nothing underflows. -/
theorem loadLoop_eq (hsum : readBytes.toNat + zeroBytes.toNat = 4096 * n) (hfuel : n < fuel) :
    loadLoop writable fuel ofs upage readBytes zeroBytes = .ok ((List.range n).map (callAt writable ofs upage readBytes)) := by
  induction fuel generalizing n ofs upage readBytes zeroBytes with
  | zero => exact absurd hfuel (Nat.not_lt_zero _)
  | succ fuel ih =>
    have h0 : (0 : Word).toNat = 0 := rfl
    rw [loadLoop]
    cases n with
    | zero =>
      rw [if_neg]
      · rfl
      · rw [BitVec.lt_def, BitVec.lt_def, h0]
        omega
    | succ n =>
      have hr := @toNat_pageReadBytes readBytes
      rw [if_pos]
      · dsimp only
        generalize (if readBytes < pgsize then readBytes else pgsize) = r at hr ⊢
        have hz : (pgsize - r).toNat = 4096 - r.toNat := by
          rw [BitVec.toNat_sub_of_le (by rw [BitVec.le_def, toNat_pgsize]; omega), toNat_pgsize]
        have hle : ¬ zeroBytes < pgsize - r := by
          rw [BitVec.lt_def, hz]
          omega
        have hsum' : (readBytes - r).toNat + (zeroBytes - (pgsize - r)).toNat = 4096 * n := by
          rw [BitVec.toNat_sub_of_le (by rw [BitVec.le_def]; omega), BitVec.toNat_sub_of_le (BitVec.not_lt.1 hle), hz]
          omega
        rw [if_neg hle, ih hsum' (Nat.lt_of_succ_lt_succ hfuel), List.range_succ_eq_map, List.map_cons, List.map_map]
        have hfirst : callAt writable ofs upage readBytes 0 = ⟨ofs, upage, r, pgsize - r, writable⟩ := by
          have hmin : BitVec.ofNat 32 (min (readBytes.toNat - 4096 * 0) 4096) = r := by
            rw [Nat.mul_zero, Nat.sub_zero, ← hr, BitVec.ofNat_toNat, BitVec.setWidth_eq]
          have hrest : BitVec.ofNat 32 (4096 - min (readBytes.toNat - 4096 * 0) 4096) = pgsize - r := by
            rw [Nat.mul_zero, Nat.sub_zero, ← hr, ← hz, BitVec.ofNat_toNat, BitVec.setWidth_eq]
          unfold callAt
          rw [hmin, hrest, Nat.mul_zero]
          simp
        rw [hfirst]
        have hrest : callAt writable ofs upage readBytes ∘ Nat.succ =
            callAt writable (ofs + (r + (pgsize - r))) (upage + pgsize) (readBytes - r) := funext fun i => callAt_succ hr i
        rw [hrest]
        rfl
      · rw [BitVec.lt_def, BitVec.lt_def, h0]
        omega

end

/-! ### Segments -/

namespace Phdr

variable (phdr : Phdr)

/-- The first page, the address of the segment rounded down. -/
def start : ℕ := phdr.pVaddr.toNat - phdr.pVaddr.toNat % 4096

/-- The number of pages up to the end of the segment, rounded up. -/
def pages : ℕ := ((phdr.pVaddr.toNat + phdr.pMemsz.toNat + 4095) / 4096 * 4096 - phdr.start) / 4096

/-- The offset of the first page. -/
def firstOfs : Word := phdr.pOffset &&& ~~~pgmask

/-- `read_bytes` at first. -/
def readBytes : Word := if 0 < phdr.pFilesz then (phdr.pVaddr &&& pgmask) + phdr.pFilesz else 0

/-- The calls of `allocate_page` for a segment. -/
def calls : List Call :=
  (List.range phdr.pages).map (callAt (decide (phdr.pFlags &&& pfW ≠ 0)) phdr.firstOfs (phdr.pVaddr &&& ~~~pgmask) phdr.readBytes)

/-- What `validate_segment` accepts. -/
structure Valid : Prop where
  sameOffset : phdr.pOffset.toNat % 4096 = phdr.pVaddr.toNat % 4096
  offset : phdr.pOffset.toNat < 2 ^ 31
  filesz : phdr.pFilesz.toNat ≤ phdr.pMemsz.toNat
  memsz : 0 < phdr.pMemsz.toNat
  user : phdr.pVaddr.toNat + phdr.pMemsz.toNat < 0xc0000000

variable {phdr}

theorem valid_of_validate {fileLength : Word} (h : validateSegment phdr fileLength = true) (hlen : fileLength.toNat < 2 ^ 31) :
    phdr.Valid := by
  obtain ⟨h1, h2, h3, h4, h5⟩ := validateSegment_iff.1 h
  exact ⟨h1, by omega, h3, h4, h5⟩

theorem Valid.toNat_readBytes (h : phdr.Valid) : phdr.readBytes.toNat =
    if phdr.pFilesz.toNat = 0 then 0 else phdr.pVaddr.toNat % 4096 + phdr.pFilesz.toNat := by
  obtain ⟨-, -, h3, -, h5⟩ := h
  have h0 : (0 : Word).toNat = 0 := rfl
  unfold readBytes
  by_cases hpos : 0 < phdr.pFilesz
  · rw [if_pos hpos, BitVec.toNat_add, toNat_pgmask]
    rw [BitVec.lt_def, h0] at hpos
    rw [if_neg hpos.ne']
    omega
  · rw [if_neg hpos]
    rw [BitVec.lt_def, h0] at hpos
    rw [if_pos (by omega), h0]

theorem Valid.pages_le (h : phdr.Valid) : phdr.start + 4096 * phdr.pages ≤ 0xc0000000 ∧
    4096 * phdr.pages = (phdr.pVaddr.toNat % 4096 + phdr.pMemsz.toNat + 4095) / 4096 * 4096 := by
  have h5 := h.user
  unfold pages start
  omega

/-- **The numbers that `load` computes**: the assertions of `load_segment` hold, and its loop makes one call for each
page. -/
theorem Valid.loadPhdr_eq (h : phdr.Valid) {fuel : ℕ} (hfuel : 786432 < fuel) : loadPhdr fuel phdr = .ok phdr.calls := by
  have hpages := h.pages_le
  have hread := h.toNat_readBytes
  have hround : (roundUp ((phdr.pVaddr &&& pgmask) + phdr.pMemsz) pgsize).toNat = 4096 * phdr.pages := by
    have hsum : ((phdr.pVaddr &&& pgmask) + phdr.pMemsz).toNat = phdr.pVaddr.toNat % 4096 + phdr.pMemsz.toNat := by
      have h5 := h.user
      rw [BitVec.toNat_add, toNat_pgmask]
      omega
    have h5 := h.user
    rw [toNat_roundUp (by omega), hsum, hpages.2]
  have hofs : phdr.firstOfs.toNat = phdr.pOffset.toNat - phdr.pOffset.toNat % 4096 := toNat_not_pgmask _
  have hupage : pgOfs (phdr.pVaddr &&& ~~~pgmask) = 0 := by
    rw [pgOfs, ← BitVec.toNat_inj, toNat_pgmask, toNat_not_pgmask]
    change _ = 0
    omega
  have hmod : phdr.firstOfs.toInt.tmod 4096 = 0 := by
    have h2 := h.offset
    rw [BitVec.toInt_eq_toNat_of_lt (by omega), hofs, Int.tmod_eq_emod_of_nonneg (Int.natCast_nonneg _)]
    omega
  have hsegment : ∀ zeroBytes : Word, phdr.readBytes.toNat + zeroBytes.toNat = 4096 * phdr.pages →
      loadSegment fuel phdr.firstOfs (phdr.pVaddr &&& ~~~pgmask) phdr.readBytes zeroBytes (decide (phdr.pFlags &&& pfW ≠ 0)) =
        .ok phdr.calls := by
    intro zeroBytes hsum
    have htotal : (phdr.readBytes + zeroBytes) % pgsize = 0 := by
      rw [← BitVec.toNat_inj, BitVec.toNat_umod, BitVec.toNat_add, toNat_pgsize, hsum]
      change _ = 0
      omega
    rw [loadSegment, if_neg (not_not.2 htotal), if_neg (not_not.2 hupage), if_neg (not_not.2 hmod)]
    exact loadLoop_eq hsum (by omega)
  have h0 : (0 : Word).toNat = 0 := rfl
  have h3 := h.filesz
  unfold loadPhdr
  dsimp only
  split_ifs with hpos
  · have hr : (phdr.pVaddr &&& pgmask) + phdr.pFilesz = phdr.readBytes := by
      rw [readBytes, if_pos hpos]
    rw [BitVec.lt_def, h0] at hpos
    rw [hr]
    apply hsegment
    rw [if_neg hpos.ne'] at hread
    rw [BitVec.toNat_sub_of_le (by rw [BitVec.le_def]; omega)]
    omega
  · have hr : phdr.readBytes = 0 := by
      rw [readBytes, if_neg hpos]
    have hzero := hsegment (roundUp ((phdr.pVaddr &&& pgmask) + phdr.pMemsz) pgsize) (by rw [hr, h0, hround]; omega)
    rw [hr] at hzero
    exact hzero

end Phdr

/-! ### What is registered -/

namespace Call

/-- The page is read at `a` from the offset `off` of the file. -/
def Reads (c : Call) (a off : ℕ) : Prop := a - c.upage.toNat < c.readBytes.toNat ∧ c.ofs.toInt + ((a - c.upage.toNat : ℕ) : ℤ) = off

/-- The page is zero at `a`. -/
def Zero (c : Call) (a : ℕ) : Prop := c.readBytes.toNat ≤ a - c.upage.toNat

/-- The page has the address `a`. -/
def Has (c : Call) (a : ℕ) : Prop := c.upage.toNat ≤ a ∧ a < c.upage.toNat + 4096

end Call

/-- **What is asked of the calls**: there is one for each page of the segment, in the order of their addresses, below
`PHYS_BASE`; a page is read and then zero; and the bytes of the segment come from where the header says. -/
structure Registers (phdr : Phdr) (calls : List Call) : Prop where
  pages : calls.map (fun c => c.upage.toNat) = (List.range phdr.pages).map fun i => phdr.start + 4096 * i
  below : ∀ c ∈ calls, c.upage.toNat + 4096 ≤ physBase.toNat
  whole : ∀ c ∈ calls, c.readBytes.toNat + c.zeroBytes.toNat = 4096
  reads : ∀ c ∈ calls, ∀ k < phdr.pFilesz.toNat, c.Has (phdr.pVaddr.toNat + k) → c.Reads (phdr.pVaddr.toNat + k) (phdr.pOffset.toNat + k)
  zeroes : ∀ c ∈ calls, ∀ k, phdr.pFilesz.toNat ≤ k → k < phdr.pMemsz.toNat → c.Has (phdr.pVaddr.toNat + k) →
    c.Zero (phdr.pVaddr.toNat + k)

namespace Phdr

variable {phdr : Phdr}

/-- The page of a call. -/
theorem Valid.upage (h : phdr.Valid) {writable : Bool} {i : ℕ} (hi : i < phdr.pages) :
    (callAt writable phdr.firstOfs (phdr.pVaddr &&& ~~~pgmask) phdr.readBytes i).upage.toNat = phdr.start + 4096 * i := by
  have hpages := h.pages_le.1
  change ((phdr.pVaddr &&& ~~~pgmask) + BitVec.ofNat 32 (4096 * i)).toNat = _
  rw [BitVec.toNat_add, toNat_not_pgmask, BitVec.toNat_ofNat]
  unfold start at *
  omega

/-- What a call reads. -/
theorem Valid.callBytes (h : phdr.Valid) {writable : Bool} (i : ℕ) :
    (callAt writable phdr.firstOfs (phdr.pVaddr &&& ~~~pgmask) phdr.readBytes i).readBytes.toNat =
        min (phdr.readBytes.toNat - 4096 * i) 4096 ∧
      (callAt writable phdr.firstOfs (phdr.pVaddr &&& ~~~pgmask) phdr.readBytes i).zeroBytes.toNat =
        4096 - min (phdr.readBytes.toNat - 4096 * i) 4096 := by
  change (BitVec.ofNat 32 _).toNat = _ ∧ (BitVec.ofNat 32 _).toNat = _
  rw [BitVec.toNat_ofNat, BitVec.toNat_ofNat]
  omega

/-- The offset of a call, as an unsigned number. -/
theorem Valid.callOfs (h : phdr.Valid) {writable : Bool} {i : ℕ} (hi : i < phdr.pages) :
    (callAt writable phdr.firstOfs (phdr.pVaddr &&& ~~~pgmask) phdr.readBytes i).ofs.toNat =
      (phdr.pOffset.toNat - phdr.pOffset.toNat % 4096 + 4096 * i) % 2 ^ 32 := by
  have hpages := h.pages_le.1
  change (phdr.firstOfs + BitVec.ofNat 32 (4096 * i)).toNat = _
  rw [firstOfs, BitVec.toNat_add, toNat_not_pgmask, BitVec.toNat_ofNat]
  omega

theorem mem_calls {c : Call} (hc : c ∈ phdr.calls) : ∃ i < phdr.pages,
    c = callAt (decide (phdr.pFlags &&& pfW ≠ 0)) phdr.firstOfs (phdr.pVaddr &&& ~~~pgmask) phdr.readBytes i := by
  obtain ⟨i, hi, rfl⟩ := List.mem_map.1 hc
  exact ⟨i, List.mem_range.1 hi, rfl⟩

/-- The page with the byte `k` of the segment. -/
theorem Valid.exists_call (h : phdr.Valid) {k : ℕ} (hk : k < phdr.pMemsz.toNat) :
    ∃ i < phdr.pages, phdr.start + 4096 * i ≤ phdr.pVaddr.toNat + k ∧ phdr.pVaddr.toNat + k < phdr.start + 4096 * i + 4096 := by
  have hpages := h.pages_le.2
  refine ⟨(phdr.pVaddr.toNat % 4096 + k) / 4096, ?_, ?_⟩
  · omega
  · unfold start
    omega

/-- **When the calls are right**: all but the offsets always are, and an offset of `2 ^ 31` or more is a negative number. -/
theorem Valid.registers_iff (h : phdr.Valid) :
    Registers phdr phdr.calls ↔ phdr.pOffset.toNat + phdr.pFilesz.toNat ≤ 2 ^ 31 := by
  have hread := h.toNat_readBytes
  have hsame := h.sameOffset
  have h2 := h.offset
  have h3 := h.filesz
  constructor
  · intro hreg
    by_contra hgt
    -- the last byte that is read
    obtain ⟨i, hi, h4, h5⟩ := h.exists_call (k := phdr.pFilesz.toNat - 1) (by omega)
    have hup := @Valid.upage _ h (decide (phdr.pFlags &&& pfW ≠ 0)) i hi
    have hofs := @Valid.callOfs _ h (decide (phdr.pFlags &&& pfW ≠ 0)) i hi
    have hr := hreg.reads _ (List.mem_map_of_mem (List.mem_range.2 hi)) (phdr.pFilesz.toNat - 1) (by omega)
      ⟨by rw [hup]; exact h4, by rw [hup]; exact h5⟩
    have hlt := BitVec.toInt_lt (x := (callAt (decide (phdr.pFlags &&& pfW ≠ 0)) phdr.firstOfs (phdr.pVaddr &&& ~~~pgmask) phdr.readBytes i).ofs)
    have hcase := BitVec.toInt_eq_toNat_cond (callAt (decide (phdr.pFlags &&& pfW ≠ 0)) phdr.firstOfs (phdr.pVaddr &&& ~~~pgmask) phdr.readBytes i).ofs
    have hr2 := hr.2
    rw [hup] at hr2
    rw [hofs] at hcase
    unfold start at *
    split_ifs at hcase <;> omega
  · intro hle
    refine ⟨?_, fun c hc => ?_, fun c hc => ?_, fun c hc k hk hhas => ?_, fun c hc k hk hk' hhas => ?_⟩
    · rw [calls, List.map_map]
      refine List.map_congr_left fun i hi => ?_
      exact h.upage (List.mem_range.1 hi)
    · obtain ⟨i, hi, rfl⟩ := mem_calls hc
      have hpages := h.pages_le.1
      have hphys : physBase.toNat = 0xc0000000 := rfl
      rw [h.upage hi, hphys]
      omega
    · obtain ⟨i, hi, rfl⟩ := mem_calls hc
      rw [(h.callBytes i).1, (h.callBytes i).2]
      omega
    · obtain ⟨i, hi, rfl⟩ := mem_calls hc
      obtain ⟨h4, h5⟩ := hhas
      have hofs := @Valid.callOfs _ h (decide (phdr.pFlags &&& pfW ≠ 0)) i hi
      rw [h.upage hi] at h4 h5
      unfold start at h4 h5
      rw [Nat.mod_eq_of_lt (by omega)] at hofs
      constructor
      · rw [h.upage hi, (h.callBytes i).1, hread]
        unfold start
        rw [if_neg (by omega)]
        omega
      · rw [BitVec.toInt_eq_toNat_of_lt (by omega), hofs, h.upage hi]
        unfold start
        omega
    · obtain ⟨i, hi, rfl⟩ := mem_calls hc
      obtain ⟨h4, h5⟩ := hhas
      rw [h.upage hi] at h4 h5
      rw [Call.Zero, (h.callBytes i).1, hread, h.upage hi]
      unfold start at *
      split_ifs <;> omega

end Phdr

/-- **A segment that `validate_segment` accepts**: the assertions of `load_segment` hold, its loop ends, and nothing
underflows. It registers the pages of the segment as the header says exactly if the part in the file ends at offset `2 ^ 31`
at most; behind it the offsets wrap around. -/
theorem segment_registers_iff {phdr : Phdr} {fileLength : Word} (h : validateSegment phdr fileLength = true)
    (hlen : fileLength.toNat < 2 ^ 31) {fuel : ℕ} (hfuel : 786432 < fuel) :
    ∃ calls, loadPhdr fuel phdr = .ok calls ∧
      (Registers phdr calls ↔ phdr.pOffset.toNat + phdr.pFilesz.toNat ≤ 2 ^ 31) := by
  have hv := Phdr.valid_of_validate h hlen
  exact ⟨phdr.calls, hv.loadPhdr_eq hfuel, hv.registers_iff⟩

/-- A segment with 5,000 bytes in the file and 9,000 in memory. -/
def smallPhdr : Phdr := ⟨0x1080, 0x8048080, 5000, 9000, 5⟩

theorem segment_registers_small : ∃ calls, loadPhdr 1000000 smallPhdr = .ok calls ∧ Registers smallPhdr calls := by
  obtain ⟨calls, hcalls, hiff⟩ := @segment_registers_iff smallPhdr 20000 (by decide) (by decide)
    1000000 (by decide)
  exact ⟨calls, hcalls, hiff.2 (by decide)⟩

/-- A segment with more than 2 GB in the file. -/
def bigPhdr : Phdr := ⟨0, 0x10000000, 0x80001000, 0x80001000, 4⟩

/-- **Offsets wrap around**: a header that is accepted for a file of 52 bytes, and a page that is to be read from the offset
`-2 ^ 31`. -/
theorem segment_offset_wraps : validateSegment bigPhdr 52 = true ∧
    ∃ calls, loadPhdr 1000000 bigPhdr = .ok calls ∧ ¬ Registers bigPhdr calls ∧
      ∃ c ∈ calls, c.upage = 0x90000000 ∧ c.ofs.toInt = -2 ^ 31 := by
  have hvalid : validateSegment bigPhdr 52 = true := by decide
  have hv := Phdr.valid_of_validate hvalid (by decide)
  refine ⟨hvalid, bigPhdr.calls, hv.loadPhdr_eq (by decide), ?_, ?_⟩
  · rw [hv.registers_iff]
    decide
  · refine ⟨_, List.mem_map_of_mem (List.mem_range.2 (show 0x80000 < bigPhdr.pages by decide)), by decide, by decide⟩

end Pintos.Segments
