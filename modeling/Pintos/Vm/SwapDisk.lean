import Pintos.Devices.Disk
import Pintos.Library.Memories
import Pintos.Vm.PageContents

/-!
# The sectors of swap slots

`swap_init`, `read_from_disk` and `write_to_disk` of `vm/swap.c`, sector by sector. A frame
is its address in kernel memory. What the loops do is what `Paging` says that they do to a
slot (`writeToDisk_spec`, `readFromDisk_spec`). So a slot keeps what was last written to it,
whatever is done to the other slots (`swap_slots_isolated`).
-/

namespace Pintos.Swap

open Library Library.Prog

/-- The swap device, the swap table and kernel memory. -/
structure Machine where
  swapDevice : Disk
  swapTable : Bitmap
  memory : Mem

/-- How a transfer goes wrong. -/
inductive Stop where
  /-- A failed assertion of `disk_read`, `disk_write` or `select_sector`. -/
  | assertion
  deriving DecidableEq

/-- `swap_init`, with the disk that `disk_get (1, 1)` returns. -/
def swapInit (d : Disk) (m : Mem) : Machine where
  swapDevice := d
  swapTable := Bitmap.create (d.capacity / 8)
  memory := m

/-- `disk_read`. -/
def diskRead (secNo buffer : ℕ) : Prog Machine Stop Unit := do
  let s ← gets id
  if buffer ≠ 0 ∧ s.swapDevice.InRange secNo then
    modify fun s =>
      { s with memory := s.memory.copy buffer sectorSize fun i => s.swapDevice.sectors secNo (Fin.ofNat sectorSize i) }
  else stop .assertion

/-- `disk_write`. -/
def diskWrite (secNo buffer : ℕ) : Prog Machine Stop Unit := do
  let s ← gets id
  if buffer ≠ 0 ∧ s.swapDevice.InRange secNo then
    modify fun s => { s with swapDevice := s.swapDevice.store secNo fun i => s.memory (buffer + i) }
  else stop .assertion

/-- The loop of `read_from_disk`. -/
def readLoop : ℕ → ℕ → ℕ → Prog Machine Stop Unit
  | 0, _, _ => pure ()
  | n + 1, realindex, frame => do
    diskRead realindex frame
    readLoop n (realindex + 1) (frame + sectorSize)

/-- `read_from_disk`. -/
def readFromDisk (frame index : ℕ) : Prog Machine Stop Unit := readLoop 8 (index * 8) frame

/-- The loop of `write_to_disk`. -/
def writeLoop : ℕ → ℕ → ℕ → Prog Machine Stop Unit
  | 0, _, _ => pure ()
  | n + 1, realindex, frame => do
    diskWrite realindex frame
    writeLoop n (realindex + 1) (frame + sectorSize)

/-- `write_to_disk`. -/
def writeToDisk (frame index : ℕ) : Prog Machine Stop Unit := writeLoop 8 (index * 8) frame

/-! ### The loops -/

/-- The contents of a frame. -/
def frameContent (m : Mem) (frame : ℕ) : Paging.Content := fun o => m (frame + o)

/-- `n` sectors from `realindex` on, as they are read into memory. -/
def loaded (s : Machine) (n realindex frame : ℕ) : Machine :=
  { s with
    memory := s.memory.copy frame (n * sectorSize) fun k =>
      s.swapDevice.sectors (realindex + k / sectorSize) (Fin.ofNat sectorSize k) }

/-- The device with other contents. -/
def onDevice (s : Machine) (f : ℕ → Block) : Machine := { s with swapDevice := { s.swapDevice with sectors := f } }

/-- The sectors when `n` of them, from `realindex` on, are written from memory. -/
def stored (s : Machine) (n realindex frame : ℕ) : ℕ → Block := fun sec =>
  if realindex ≤ sec ∧ sec < realindex + n then fun i => s.memory (frame + (sec - realindex) * sectorSize + i)
  else s.swapDevice.sectors sec

/-- The contents of a slot. -/
def slotContent (s : Machine) (i : ℕ) : Paging.Content := Paging.Vm.readFromDisk s.swapDevice.sectors i

variable {s : Machine} {n realindex frame index : ℕ}

theorem wp_diskRead {Q : Unit → Machine → Prop} (hb : frame ≠ 0) (hr : realindex < s.swapDevice.capacity) :
    wp (diskRead realindex frame) Q (fun _ => False) s ↔
      Q () { s with memory := s.memory.copy frame sectorSize fun i => s.swapDevice.sectors realindex (Fin.ofNat sectorSize i) } := by
  rw [diskRead, wp_bind, wp_gets, id, if_pos ⟨hb, Disk.inRange_iff.2 hr⟩, wp_modify]

theorem wp_diskWrite {Q : Unit → Machine → Prop} (hb : frame ≠ 0) (hr : realindex < s.swapDevice.capacity) :
    wp (diskWrite realindex frame) Q (fun _ => False) s ↔
      Q () { s with swapDevice := s.swapDevice.store realindex fun i => s.memory (frame + i) } := by
  rw [diskWrite, wp_bind, wp_gets, id, if_pos ⟨hb, Disk.inRange_iff.2 hr⟩, wp_modify]

/-- **The loop that reads** fills the frame sector by sector. -/
theorem readLoop_spec (hb : frame ≠ 0) (hr : realindex + n ≤ s.swapDevice.capacity) :
    wp (readLoop n realindex frame) (fun _ s' => s' = loaded s n realindex frame) (fun _ => False) s := by
  induction n generalizing s realindex frame with
  | zero =>
    rw [loaded, Nat.zero_mul, Mem.copy_zero]
    rfl
  | succ n ih =>
    rw [readLoop, wp_bind, wp_diskRead hb (by omega)]
    refine wp_post (ih (by omega) (by change realindex + 1 + n ≤ s.swapDevice.capacity; omega)) fun _ s' hs' => ?_
    rw [hs', loaded, loaded]
    congr 1
    funext x
    unfold Mem.copy sectorSize
    dsimp only
    by_cases h : frame ≤ x ∧ x < frame + (n + 1) * 512
    · rw [if_pos h]
      by_cases h1 : frame + 512 ≤ x
      · have hsec : realindex + 1 + (x - (frame + 512)) / 512 = realindex + (x - frame) / 512 := by omega
        have hbyte : Fin.ofNat 512 (x - (frame + 512)) = Fin.ofNat 512 (x - frame) := Fin.ext (by simp only [Fin.ofNat]; omega)
        rw [if_pos (by omega), hsec, hbyte]
      · rw [if_neg (by omega), if_pos (by omega), show realindex + (x - frame) / 512 = realindex by omega]
    · rw [if_neg (by omega), if_neg (by omega), if_neg h]

/-- **The loop that writes** takes the sectors one after the other from the frame. -/
theorem writeLoop_spec (hb : frame ≠ 0) (hr : realindex + n ≤ s.swapDevice.capacity) :
    wp (writeLoop n realindex frame) (fun _ s' => s' = onDevice s (stored s n realindex frame)) (fun _ => False) s := by
  induction n generalizing s realindex frame with
  | zero =>
    have hnone : stored s 0 realindex frame = s.swapDevice.sectors := by
      funext sec
      exact if_neg fun h => by omega
    rw [hnone]
    rfl
  | succ n ih =>
    rw [writeLoop, wp_bind, wp_diskWrite hb (by omega)]
    refine wp_post (ih (by omega) (by change realindex + 1 + n ≤ s.swapDevice.capacity; omega)) fun _ s' hs' => ?_
    have heq : stored { s with swapDevice := s.swapDevice.store realindex fun i => s.memory (frame + i) } n (realindex + 1)
        (frame + sectorSize) = stored s (n + 1) realindex frame := by
      funext sec
      unfold stored Disk.store
      dsimp only
      by_cases h0 : sec = realindex
      · subst h0
        rw [if_neg (by omega), if_pos (by omega), Function.update_self, Nat.sub_self, Nat.zero_mul, Nat.add_zero]
      · rw [Function.update_of_ne h0]
        by_cases h : realindex + 1 ≤ sec ∧ sec < realindex + 1 + n
        · rw [if_pos h, if_pos (by omega), show frame + sectorSize + (sec - (realindex + 1)) * sectorSize =
            frame + (sec - realindex) * sectorSize by unfold sectorSize; omega]
        · rw [if_neg h, if_neg (by omega)]
    rw [hs', heq]
    rfl

/-- **`write_to_disk`** stays within the device, and writes the slot. -/
theorem writeToDisk_spec (hb : frame ≠ 0) (hi : index < s.swapDevice.capacity / 8) :
    wp (writeToDisk frame index) (fun _ s' =>
      s' = onDevice s (Paging.Vm.writeToDisk (frameContent s.memory frame) index s.swapDevice.sectors)) (fun _ => False) s := by
  refine wp_post (writeLoop_spec hb (by omega)) fun _ s' hs' => ?_
  rw [hs']
  congr 1
  funext sec
  unfold stored Paging.Vm.writeToDisk frameContent
  split_ifs with h
  · funext i
    dsimp only
    congr 1
    unfold sectorSize
    omega
  · rfl

/-- **`read_from_disk`** stays within the device, and fills the frame with the slot. -/
theorem readFromDisk_spec (hb : frame ≠ 0) (hi : index < s.swapDevice.capacity / 8) :
    wp (readFromDisk frame index)
      (fun _ s' => s' = { s with memory := s.memory.copy frame 4096 fun k => slotContent s index (Fin.ofNat 4096 k) })
      (fun _ => False) s := by
  refine wp_post (readLoop_spec hb (by omega)) fun _ s' hs' => ?_
  rw [hs', loaded]
  congr 1
  refine Mem.copy_congr fun k hk => ?_
  unfold slotContent Paging.Vm.readFromDisk
  have hk' : k < 4096 := hk
  congr 1
  · simp only [Fin.ofNat, sectorSize]
    omega
  · ext
    simp only [Fin.ofNat, sectorSize]
    omega

/-! ### Runs -/

/-- What is done with slots; the rest of the kernel changes memory. -/
inductive Op where
  | write (frame index : ℕ)
  | read (frame index : ℕ)
  | other (f : Mem → Mem)

namespace Op

/-- The frame is there, and the slot is below `slots`. -/
def Valid (slots : ℕ) : Op → Prop
  | write frame index => frame ≠ 0 ∧ index < slots
  | read frame index => frame ≠ 0 ∧ index < slots
  | other _ => True

/-- Slot `i` is not written. -/
def Spares (i : ℕ) : Op → Prop
  | write _ index => index ≠ i
  | read _ _ => True
  | other _ => True

/-- An operation. -/
def step : Op → Prog Machine Stop Unit
  | write frame index => writeToDisk frame index
  | read frame index => readFromDisk frame index
  | other f => modify fun s => { s with memory := f s.memory }

end Op

/-- One operation after the other. -/
def run : List Op → Prog Machine Stop Unit
  | [] => pure ()
  | op :: ops => do
    op.step
    run ops

/-- The slots that are not written have kept their contents, and the device is as large as it was. -/
structure Spared (P : ℕ → Prop) (s s' : Machine) : Prop where
  capacity : s'.swapDevice.capacity = s.swapDevice.capacity
  slots : ∀ i, P i → slotContent s' i = slotContent s i

/-- **One operation** returns, and changes the slot that it writes. -/
theorem step_spec {op : Op} (h : op.Valid (s.swapDevice.capacity / 8)) :
    wp op.step (fun _ s' => Spared op.Spares s s') (fun _ => False) s := by
  cases op with
  | write frame index =>
    refine wp_post (writeToDisk_spec h.1 h.2) fun _ s' hs' => ?_
    subst hs'
    exact ⟨rfl, fun i hi => Paging.Vm.readFromDisk_writeToDisk_of_ne _ _ (Ne.symm hi)⟩
  | read frame index =>
    refine wp_post (readFromDisk_spec h.1 h.2) fun _ s' hs' => ?_
    subst hs'
    exact ⟨rfl, fun _ _ => rfl⟩
  | other f => exact ⟨rfl, fun _ _ => rfl⟩

/-- **A run** of operations on slots of the device returns, and changes no slot but those that it writes. -/
theorem run_spec {ops : List Op} (h : ∀ op ∈ ops, op.Valid (s.swapDevice.capacity / 8)) :
    wp (run ops) (fun _ s' => Spared (fun i => ∀ op ∈ ops, op.Spares i) s s') (fun _ => False) s := by
  induction ops generalizing s with
  | nil => exact ⟨rfl, fun _ _ => rfl⟩
  | cons op ops ih =>
    rw [run, wp_bind]
    refine wp_post (step_spec (h op List.mem_cons_self)) fun _ s₁ h₁ => ?_
    refine wp_post (ih fun o ho => h₁.capacity ▸ h o (List.mem_cons_of_mem op ho)) fun _ s' h' => ⟨h'.capacity.trans h₁.capacity, ?_⟩
    intro i hi
    rw [h'.slots i fun o ho => hi o (List.mem_cons_of_mem op ho), h₁.slots i (hi op List.mem_cons_self)]

/-- **Slots are isolated.** On every device, whatever is done to its slots before a slot is written, and whatever is done to
the others until it is read: no transfer leaves the device, the bytes that are read are those that were written, and
writing the slot has changed no other one. -/
theorem swap_slots_isolated (d : Disk) (m : Mem) (before between : List Op) (frame frame' i : ℕ)
    (hbefore : ∀ op ∈ before, op.Valid (d.capacity / 8)) (hbetween : ∀ op ∈ between, op.Valid (d.capacity / 8) ∧ op.Spares i)
    (hframe : frame ≠ 0) (hframe' : frame' ≠ 0) (hi : i < d.capacity / 8) :
    ∃ s₁ s₂ s₃ s₄, run before (swapInit d m) = .ok ((), s₁) ∧ writeToDisk frame i s₁ = .ok ((), s₂) ∧
      run between s₂ = .ok ((), s₃) ∧ readFromDisk frame' i s₃ = .ok ((), s₄) ∧
      (∀ k < 4096, s₄.memory (frame' + k) = s₁.memory (frame + k)) ∧
      (∀ x, x < frame' ∨ frame' + 4096 ≤ x → s₄.memory x = s₃.memory x) ∧
      ∀ j, j ≠ i → slotContent s₂ j = slotContent s₁ j := by
  have hcap : (swapInit d m).swapDevice.capacity = d.capacity := rfl
  obtain ⟨⟨⟩, s₁, hrun₁, h₁⟩ := exists_ok (run_spec (s := swapInit d m) hbefore)
  have hcap₁ := h₁.capacity.trans hcap
  obtain ⟨⟨⟩, s₂, hrun₂, h₂⟩ := exists_ok (writeToDisk_spec (s := s₁) hframe (hcap₁ ▸ hi))
  have hcap₂ : s₂.swapDevice.capacity = d.capacity := by
    rw [h₂]
    exact hcap₁
  obtain ⟨⟨⟩, s₃, hrun₃, h₃⟩ := exists_ok (run_spec (s := s₂) fun op hop => hcap₂ ▸ (hbetween op hop).1)
  obtain ⟨⟨⟩, s₄, hrun₄, h₄⟩ := exists_ok (readFromDisk_spec (s := s₃) hframe' ((h₃.capacity.trans hcap₂) ▸ hi))
  have hslot : slotContent s₃ i = frameContent s₁.memory frame := by
    rw [h₃.slots i fun op hop => (hbetween op hop).2, h₂]
    exact Paging.Vm.readFromDisk_writeToDisk_same _ _ i
  refine ⟨s₁, s₂, s₃, s₄, hrun₁, hrun₂, hrun₃, hrun₄, fun k hk => ?_, fun x hx => ?_, fun j hj => ?_⟩
  · rw [h₄]
    change s₃.memory.copy frame' 4096 (fun k => slotContent s₃ i (Fin.ofNat 4096 k)) (frame' + k) = _
    rw [Mem.copy_of_inside hk, hslot, frameContent]
    simp only [Fin.ofNat, Nat.mod_eq_of_lt hk]
  · rw [h₄]
    change s₃.memory.copy frame' 4096 (fun k => slotContent s₃ i (Fin.ofNat 4096 k)) x = _
    exact Mem.copy_of_outside hx
  · rw [h₂]
    exact Paging.Vm.readFromDisk_writeToDisk_of_ne _ _ hj

/-- **Two slots** on a device with a sector too many for them. -/
theorem swap_slots_isolated_two : ∃ s₁ s₂ s₃ s₄,
    run [.write 8192 0] (swapInit ⟨17, fun _ => Block.zero, by decide⟩ fun x => UInt8.ofNat x) = .ok ((), s₁) ∧
      writeToDisk 8193 1 s₁ = .ok ((), s₂) ∧ run [.write 4096 0, .other fun _ _ => 0] s₂ = .ok ((), s₃) ∧
      readFromDisk 4096 1 s₃ = .ok ((), s₄) ∧ ∀ k < 4096, s₄.memory (4096 + k) = s₁.memory (8193 + k) := by
  obtain ⟨s₁, s₂, s₃, s₄, h₁, h₂, h₃, h₄, hbytes, -⟩ := swap_slots_isolated ⟨17, fun _ => Block.zero, by decide⟩
    (fun x => UInt8.ofNat x) [.write 8192 0] [.write 4096 0, .other fun _ _ => 0] 8193 4096 1
    (by simp [Op.Valid]) (by simp [Op.Valid, Op.Spares]) (by decide) (by decide) (by decide)
  exact ⟨s₁, s₂, s₃, s₄, h₁, h₂, h₃, h₄, hbytes⟩

end Pintos.Swap
