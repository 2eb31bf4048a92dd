import Pintos.Filesys.Catalog
import Pintos.Userprog.Mmap

/-!
# Unmapping

`SYS_MUNMAP` (`userprog/syscall.c`). It goes through the hash table with an iterator, and
for each entry of the mapping writes the page back if it is dirty, moves the iterator on,
closes the file, and deletes and frees the entry.

All pages of a mapping share one `struct file`, so that the second page finds it closed.
What is written is the string at the page's address, at the start of the file, where
`before_munmap` writes `read_bytes` bytes at the page's offset. And `hash_delete` may
change the number of buckets, which leaves the iterator in an array that is freed.
-/

namespace Pintos.Mmap

open Library Library.Prog Library.Bytes

/-- `strlen` of the string at `va`, of at most `n` bytes. -/
def strlenAt : ℕ → ℕ → TaskM ℕ
  | 0, _ => stop .badPointer
  | n + 1, va => do
    let byte ← gets fun t => t.mem va
    match byte with
    | none => stop .exit
    | some b =>
      if b = 0 then pure 0
      else do
        let len ← strlenAt n (va + 1)
        pure (len + 1)

/-- The bytes of memory from `va` on. -/
def Task.bytesAt (t : Task) (va j : ℕ) : UInt8 := (t.mem (va + j)).getD 0

/-- What `SYS_MUNMAP` does with a dirty page. -/
def munmapWrite (e : Spte) : TaskM Unit := do
  let size ← strlenAt (2 ^ 32 - e.userVaddr) e.userVaddr
  let file ← orStop e.file .badPointer
  inFs (fileSeek file 0)
  let temppos ← inFs (fileTell file)
  let buffer ← gets fun t => t.bytesAt e.userVaddr
  let _ ← inFs (fileWrite file buffer (wrap size))
  inFs (fileSeek file temppos)

/-- `hash_next`, from the element at `a`. -/
def hashNext (i : Hash.Iterator ℕ) (a : ℕ) : TaskM (Hash.Iterator ℕ) := do
  let next ← gets fun t => t.hash.next i a
  orStop next .badPointer

/-- The loop `while (hash_cur (&i))` of `SYS_MUNMAP`, of at most `n` turns. `room` says of an entry whether there
is memory for another array of buckets when it is deleted. -/
def munmapLoop (room : ℕ → Bool) (mapid : ℤ) : ℕ → Hash.Iterator ℕ → TaskM Unit
  | 0, _ => stop .notReached
  | n + 1, i =>
    match i.elem with
    | none => pure ()
    | some a => do
      let found ← gets fun t => t.sptes.cell a
      let e ← orStop found .badPointer
      if e.mapid = mapid then do
        let dirty ← gets fun t => t.dirty e.userVaddr
        onlyIf dirty (munmapWrite e)
        let i ← hashNext i a
        let file ← orStop e.file .badPointer
        inFs (fileClose file)
        modify fun t => { t with hash := (t.hash.hashDelete hasher (keyOf t.sptes) (room a) e.userVaddr).2 }
        modify fun t => { t with sptes := t.sptes.free a }
        munmapLoop room mapid n i
      else do
        let i ← hashNext i a
        munmapLoop room mapid n i

/-- `SYS_MUNMAP`. -/
def sysMunmap (room : ℕ → Bool) (mapid : ℤ) : TaskM Unit := do
  let i ← gets fun t => t.hash.first
  let n ← gets fun t => t.hash.elems.length
  munmapLoop room mapid (n + 1) i

/-! ### Strings in memory -/

/-- There is a string of `z` bytes at `va`. -/
def StringAt (mem : ℕ → Option UInt8) (va z : ℕ) : Prop :=
  (∀ j < z, ∃ b, mem (va + j) = some b ∧ b ≠ 0) ∧ mem (va + z) = some 0

theorem StringAt.cons {mem : ℕ → Option UInt8} {va z : ℕ} {b : UInt8} (hb : mem va = some b) (h0 : b ≠ 0) :
    StringAt mem (va + 1) z ↔ StringAt mem va (z + 1) := by
  constructor
  · rintro ⟨hlow, hend⟩
    refine ⟨fun j hj => ?_, by rw [← hend]; congr 1; omega⟩
    cases j with
    | zero => exact ⟨b, hb, h0⟩
    | succ j =>
      rw [Nat.add_comm j, ← Nat.add_assoc]
      exact hlow j (by omega)
  · rintro ⟨hlow, hend⟩
    refine ⟨fun j hj => ?_, by rw [← hend]; congr 1; omega⟩
    rw [Nat.add_assoc, Nat.add_comm 1]
    exact hlow (j + 1) (by omega)

theorem StringAt.unique {mem : ℕ → Option UInt8} {va z z' : ℕ} (h : StringAt mem va z) (h' : StringAt mem va z') : z = z' := by
  rcases Nat.lt_trichotomy z z' with hlt | heq | hgt
  · obtain ⟨b, hb, h0⟩ := h'.1 z hlt
    rw [h.2] at hb
    exact absurd (Option.some.inj hb).symm h0
  · exact heq
  · obtain ⟨b, hb, h0⟩ := h.1 z' hgt
    rw [h'.2] at hb
    exact absurd (Option.some.inj hb).symm h0

section Specs

variable {t t' : Task} {e : Spte} {a p : ℕ} {f : File} {i : Inode} {N : Nodes} {k k' : Fs} {room : ℕ → Bool} {m : ℤ}
  {buf : ℕ → UInt8}

/-- What is left of `old` when its first `w` bytes are replaced. -/
def overwrite (old : List UInt8) (buf : ℕ → UInt8) (w : ℕ) : List UInt8 :=
  (List.range (max old.length w)).map fun j => if j < w then buf j else old.getD j 0

theorem overwrite_zero (old : List UInt8) (buf : ℕ → UInt8) : overwrite old buf 0 = old := by
  refine List.ext_getElem (by simp [overwrite]) fun j hj hj' => ?_
  simp only [overwrite, List.getElem_map, List.getElem_range]
  rw [if_neg (Nat.not_lt_zero j), List.getD_eq_getElem _ _ hj']

/-- How many bytes `SYS_MUNMAP` writes for a string of `z` bytes. -/
def writeSize (i : Inode) (z : ℕ) : ℕ := if i.denyWriteCnt = 0 then (wrap z).toNat else 0

theorem Task.Wf.nodup_elems (hw : t.Wf) : t.hash.elems.Nodup := hw.hash.nodup.of_map _

/-- **`hash_next`** in a table that has kept its array. -/
theorem hashNext_spec {l₁ l₂ : List ℕ} {i : Hash.Iterator ℕ} (harr : i.array = t.hash.array) (hnd : t.hash.elems.Nodup)
    (hel : t.hash.elems = l₁ ++ a :: l₂) :
    wp (hashNext i a) (fun i' t' => t' = t ∧ i' = ⟨t.hash.array, l₂.head?⟩) (fun _ => False) t := by
  have ha : a ∉ l₁ := by
    rw [hel] at hnd
    exact fun hmem => (List.nodup_append.1 hnd).2.2 a hmem a List.mem_cons_self rfl
  rw [hashNext, wp_bind, wp_gets, Hash.next, if_pos harr, wp_orStop_some, hel, Hash.after_append ha, harr]
  exact ⟨rfl, rfl⟩

/-- The process after the page of the entry `e` at `a` was unmapped, and the file system is `k`. -/
def Task.drop (t : Task) (room : Bool) (a : ℕ) (e : Spte) (k : Fs) : Task :=
  { t with
    fs := k
    hash := (t.hash.hashDelete hasher (keyOf t.sptes) room e.userVaddr).2
    sptes := t.sptes.free a }

/-- The file system when the file at `p`, of the inode at `b`, is closed. -/
def closed (k : Fs) (b p : ℕ) : Fs := { k.openers b (-1) with files := k.files.free p }

/-- **The file of a mapping**, at `p`, in a file system that is well formed. -/
structure Backed (t : Task) (N : Nodes) (p : ℕ) (f : File) (i : Inode) (old : List UInt8) : Prop where
  wf : Wf t.fs N 0
  map : MapOpen t.fs N
  file : t.fs.files.cell p = some f
  allowed : f.denyWrite = false
  inode : t.fs.inodes.cell f.inode = some i
  /-- `file_reopen` counts two openers, of which `file_close` takes back one. -/
  openers : 1 < i.openCnt
  sector : i.sector ≠ 0
  spares : SparesLast t.fs i.data
  old : contents t.fs i.data = some old

/-- The contents of the file once the dirty pages are written back: `read_bytes` bytes of each at its offset. -/
def writtenBack (t : Task) (i : Inode) (addr length : ℕ) (old : List UInt8) : List UInt8 :=
  if i.denyWriteCnt = 0 then
    (List.range old.length).map fun j =>
      if j < length ∧ t.dirty (addr + pgsize * (j / pgsize)) = true then t.bytesAt addr j else old.getD j 0
  else old

/-- **When `SYS_MUNMAP` does its work**: the mapping has one page; if that is dirty, the string in it is not longer than
the file, and where the string and `read_bytes` differ in length, page and file agree; and deleting its entry does not
change the number of buckets, or it is the last in the table. -/
structure MunmapFits (room : ℕ → Bool) (t : Task) (mapid : ℕ) (i : Inode) (addr length : ℕ) (old : List UInt8) : Prop where
  single : length ≤ pgsize
  written : t.dirty addr = true → ∃ z < 2 ^ 32 - addr, StringAt t.mem addr z ∧ (i.denyWriteCnt = 0 →
    writeSize i z ≤ old.length ∧
      ∀ j, min (writeSize i z) length ≤ j → j < max (writeSize i z) length → t.bytesAt addr j = old.getD j 0)
  iterator : ∀ a ∈ t.hash.elems, ∀ e, t.sptes.cell a = some e → e.mapid = mapid →
    t.hash.Keeps (room a) ∨ t.hash.elems.getLast? = some a

theorem overwrite_eq_iff {old : List UInt8} {length w : ℕ} (hlen : length ≤ old.length) :
    overwrite old buf w = ((List.range old.length).map fun j => if j < length then buf j else old.getD j 0) ↔
      w ≤ old.length ∧ ∀ j, min w length ≤ j → j < max w length → buf j = old.getD j 0 := by
  constructor
  · intro heq
    have hw : w ≤ old.length := by
      have := congrArg List.length heq
      simp only [overwrite, List.length_map, List.length_range] at this
      omega
    refine ⟨hw, fun j hlow hhigh => ?_⟩
    have hj : j < old.length := by omega
    have hat := congrArg (fun l => l.getD j 0) heq
    simp only [overwrite, Nat.max_eq_left hw] at hat
    rw [List.getD_eq_getElem _ _ (by simpa using hj), List.getD_eq_getElem _ _ (by simpa using hj)] at hat
    simp only [List.getElem_map, List.getElem_range] at hat
    split_ifs at hat
    · omega
    · exact hat
    · exact hat.symm
    · omega
  · rintro ⟨hw, hbytes⟩
    rw [overwrite, Nat.max_eq_left hw]
    refine List.map_congr_left fun j _ => ?_
    split_ifs
    · rfl
    · exact hbytes j (by omega) (by omega)
    · exact (hbytes j (by omega) (by omega)).symm
    · rfl

theorem page_zero {j length : ℕ} (hone : length ≤ pgsize) (hj : j < length) (addr : ℕ) : addr + pgsize * (j / pgsize) = addr := by
  rw [Nat.div_eq_of_lt (by omega), Nat.mul_zero, Nat.add_zero]

/-- What is written for a single page is right if and only if the string fits. -/
theorem overwrite_eq_writtenBack {old : List UInt8} {addr length z : ℕ} (hlen : length ≤ old.length) (hone : length ≤ pgsize)
    (hdirty : t.dirty addr = true) :
    overwrite old (t.bytesAt addr) (writeSize i z) = writtenBack t i addr length old ↔ (i.denyWriteCnt = 0 →
      writeSize i z ≤ old.length ∧
        ∀ j, min (writeSize i z) length ≤ j → j < max (writeSize i z) length → t.bytesAt addr j = old.getD j 0) := by
  by_cases hdeny : i.denyWriteCnt = 0
  · rw [writtenBack, if_pos hdeny, ← overwrite_eq_iff hlen]
    simp only [hdeny, forall_const]
    refine Eq.congr_right (List.map_congr_left fun j _ => ?_)
    by_cases hj : j < length
    · rw [if_pos ⟨hj, by rw [page_zero hone hj]; exact hdirty⟩, if_pos hj]
    · rw [if_neg fun h => hj h.1, if_neg hj]
  · rw [writtenBack, if_neg hdeny, writeSize, if_neg hdeny, overwrite_zero]
    exact iff_of_true rfl fun h => absurd h hdeny

section Drop

variable {l₁ l₂ : List ℕ} {r : Bool} (hw : t.Wf) (hel : t.hash.elems = l₁ ++ a :: l₂) (hcell : t.sptes.cell a = some e)

include hw hel

theorem Task.Wf.not_mem_sides : a ∉ l₁ ∧ a ∉ l₂ := by
  have hnd := hw.nodup_elems
  rw [hel] at hnd
  obtain ⟨-, hnd₂, hdisj⟩ := List.nodup_append.1 hnd
  exact ⟨fun hmem => hdisj a hmem a List.mem_cons_self rfl, (List.nodup_cons.1 hnd₂).1⟩

include hcell

end Drop

/-- **A single entry of the mapping**, among the others of the table. -/
structure Single (t : Task) (m : ℤ) (p addr : ℕ) (l₁ : List ℕ) (a : ℕ) (l₂ : List ℕ) (e : Spte) : Prop where
  elems : t.hash.elems = l₁ ++ a :: l₂
  cell : t.sptes.cell a = some e
  mapid : e.mapid = m
  file : e.file = some p
  userVaddr : e.userVaddr = addr
  before : ∀ b ∈ l₁, ∃ e, t.sptes.cell b = some e ∧ e.mapid ≠ m
  behind : ∀ b ∈ l₂, ∃ e, t.sptes.cell b = some e ∧ e.mapid ≠ m

section Single

variable {mapid addr length : ℕ} {l₁ l₂ : List ℕ} {old : List UInt8} {d : InodeDisk} {r : Bool}

/-- The entry is the last one of the table. -/
theorem Single.last_iff (h : Single t m p addr l₁ a l₂ e) (hw : t.Wf) : t.hash.elems.getLast? = some a ↔ l₂ = [] := by
  rw [h.elems, List.getLast?_append_of_ne_nil _ (List.cons_ne_nil a l₂)]
  cases l₂ with
  | nil => simp
  | cons b l₂ =>
    refine iff_of_false (fun hlast => ?_) (List.cons_ne_nil b l₂)
    rw [List.getLast?_cons_cons] at hlast
    exact (hw.not_mem_sides h.elems).2 (List.mem_of_getLast? hlast)

/-- The condition, for a single page. -/
theorem Single.fits_iff (h : Single t mapid p addr l₁ a l₂ e) (hw : t.Wf) (hlen : length ≤ old.length) (hone : length ≤ pgsize) :
    MunmapFits room t mapid i addr length old ↔ (t.hash.Keeps (room a) ∨ l₂ = []) ∧
      (t.dirty addr = true → ∃ z < 2 ^ 32 - addr, StringAt t.mem addr z ∧
        overwrite old (t.bytesAt addr) (writeSize i z) = writtenBack t i addr length old) := by
  have ha : a ∈ t.hash.elems := by
    rw [h.elems]
    simp
  constructor
  · intro hfits
    refine ⟨?_, fun hdirty => ?_⟩
    · rw [← h.last_iff hw]
      exact hfits.iterator a ha e h.cell h.mapid
    · obtain ⟨z, hz, hstr, hfit⟩ := hfits.written hdirty
      exact ⟨z, hz, hstr, (overwrite_eq_writtenBack hlen hone hdirty).2 hfit⟩
  · rintro ⟨hkeeps, hdirty⟩
    refine ⟨hone, fun hd => ?_, fun b hb e' he' hm' => ?_⟩
    · obtain ⟨z, hz, hstr, heq⟩ := hdirty hd
      exact ⟨z, hz, hstr, (overwrite_eq_writtenBack hlen hone hd).1 heq⟩
    · -- no other entry belongs to the mapping
      have hba : b = a := by
        rw [h.elems, List.mem_append, List.mem_cons] at hb
        have hother : ∀ l : List ℕ, (∀ b ∈ l, ∃ e, t.sptes.cell b = some e ∧ e.mapid ≠ (mapid : ℤ)) → b ∉ l := by
          intro l hl hmem
          obtain ⟨e'', he'', hne⟩ := hl b hmem
          rw [he'] at he''
          exact hne (Option.some.inj he'' ▸ hm')
        exact (hb.resolve_left (hother l₁ h.before)).resolve_right (hother l₂ h.behind)
      subst hba
      rw [h.last_iff hw]
      exact hkeeps

end Single

end Specs

/-! ### A page and two pages -/

end Pintos.Mmap
