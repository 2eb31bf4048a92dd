import Pintos.Library.Memories

/-!
# Blocks of memory and strings

`memcpy`, `memmove`, `strlen` and `strlcpy` of `lib/string.c`, as programs over memory. A
block or a string is its address. A loop that looks for the end of a string takes at most
`fuel` turns.
-/

namespace Pintos.Strings

open Library Library.Prog

variable {σ : Type}

section Programs

variable [Access σ]

/-- `while (size-- > 0) *dst++ = *src++;`: where `dst` comes to. -/
def copyUp : ℕ → ℕ → ℕ → MemM σ ℕ
  | 0, dst, _ => pure dst
  | n + 1, dst, src => do
    let b ← loadByte src
    storeByte dst b
    copyUp n (dst + 1) (src + 1)

/-- `while (size-- > 0) *--dst = *--src;`: where `dst` comes to. -/
def copyDown : ℕ → ℕ → ℕ → MemM σ ℕ
  | 0, dst, _ => pure dst
  | n + 1, dst, src => do
    let b ← loadByte (src - 1)
    storeByte (dst - 1) b
    copyDown n (dst - 1) (src - 1)

/-- `memcpy`. -/
def memcpy (dst src size : ℕ) : MemM σ ℕ := do
  require (dst ≠ 0 ∨ size = 0)
  require (src ≠ 0 ∨ size = 0)
  let _ ← copyUp size dst src
  pure dst

/-- `memmove`; what it returns is the `dst` that the loops have moved. -/
def memmove (dst src size : ℕ) : MemM σ ℕ := do
  require (dst ≠ 0 ∨ size = 0)
  require (src ≠ 0 ∨ size = 0)
  if dst < src then copyUp size dst src else copyDown size (dst + size) (src + size)

/-- The loop of `strlen`. -/
def strlenLoop (string : ℕ) : ℕ → ℕ → MemM σ ℕ
  | 0, _ => stop .fuel
  | n + 1, p => do
    let c ← loadByte p
    if c ≠ 0 then strlenLoop string n (p + 1) else pure (p - string)

/-- `strlen`. -/
def strlen (fuel string : ℕ) : MemM σ ℕ := do
  require (string ≠ 0)
  strlenLoop string fuel string

/-- `strlcpy`. -/
def strlcpy (fuel dst src size : ℕ) : MemM σ ℕ := do
  require (dst ≠ 0)
  require (src ≠ 0)
  let srcLen ← strlen fuel src
  if 0 < size then do
    let dstLen := if srcLen < size - 1 then srcLen else size - 1
    let _ ← memcpy dst src dstLen
    storeByte (dst + dstLen) 0
    pure srcLen
  else pure srcLen

end Programs

variable [LawfulAccess σ] {s : σ} {dst src n size fuel : ℕ} {l : List UInt8}

/-! ### Blocks -/

/-- The source, as it is, at the destination. -/
def copied (m : Mem) (dst src n : ℕ) : Mem := m.copy dst n fun i => m (src + i)

/-- **Copying upwards** is right unless the destination starts inside the source. -/
theorem copyUp_spec (hs : LawfulAccess.Sound s) (hr : ReadableAt s src n) (hw : WritableAt s dst n)
    (h : dst ≤ src ∨ src + n ≤ dst) : wp (copyUp n dst src)
      (fun r s' => r = dst + n ∧ Leaves s (copied (Access.byte s) dst src n) s') (fun _ => False) s := by
  induction n generalizing dst src s with
  | zero =>
    refine ⟨rfl, ?_⟩
    rw [copied, Mem.copy_zero]
    exact .refl hs
  | succ n ih =>
    obtain ⟨hr0, hr⟩ := hr.succ
    obtain ⟨hw0, hw⟩ := hw.succ
    rw [copyUp, wp_bind, wp_loadByte hr0, wp_bind]
    refine wp_storeByte hs hw0 fun s₁ h₁ => ?_
    refine wp_post (ih h₁.sound (hr.leaves h₁) (hw.leaves h₁) (by omega)) fun r s' ⟨hend, hl⟩ => ⟨by omega, ?_⟩
    have hsame : copied (Access.byte s₁) (dst + 1) (src + 1) n = copied (Access.byte s) dst src (n + 1) := by
      rw [h₁.byte, copied, copied, ← Mem.copy_succ, Nat.add_zero]
      refine Mem.copy_congr fun i hi => ?_
      -- what is still to be copied has not been written over
      rw [Function.update_of_ne (by omega)]
      congr 1
      omega
    rw [hsame] at hl
    exact h₁.trans hl

/-- **Copying downwards** is right unless the destination ends inside the source. -/
theorem copyDown_spec (hs : LawfulAccess.Sound s) (hr : ReadableAt s src n) (hw : WritableAt s dst n)
    (h : src ≤ dst ∨ dst + n ≤ src) : wp (copyDown n (dst + n) (src + n))
      (fun r s' => r = dst ∧ Leaves s (copied (Access.byte s) dst src n) s') (fun _ => False) s := by
  induction n generalizing s with
  | zero =>
    refine ⟨rfl, ?_⟩
    rw [copied, Mem.copy_zero]
    exact .refl hs
  | succ n ih =>
    have hrn := hr n (Nat.lt_succ_self n)
    have hwn := hw n (Nat.lt_succ_self n)
    rw [copyDown, wp_bind, show src + (n + 1) - 1 = src + n by omega, show dst + (n + 1) - 1 = dst + n by omega,
      wp_loadByte hrn, wp_bind]
    refine wp_storeByte hs hwn fun s₁ h₁ => ?_
    have hr₁ : ReadableAt s₁ src n := ReadableAt.leaves (fun i hi => hr i (hi.trans (Nat.lt_succ_self n))) h₁
    have hw₁ : WritableAt s₁ dst n := WritableAt.leaves (fun i hi => hw i (hi.trans (Nat.lt_succ_self n))) h₁
    refine wp_post (ih h₁.sound hr₁ hw₁ (by omega)) fun r s' ⟨hend, hl⟩ => ⟨hend, ?_⟩
    have hsame : copied (Access.byte s₁) dst src n = copied (Access.byte s) dst src (n + 1) := by
      rw [h₁.byte, copied, copied, ← Mem.copy_last]
      refine Mem.copy_congr fun i hi => ?_
      rw [Function.update_of_ne (by omega)]
    rw [hsame] at hl
    exact h₁.trans hl

/-- **`memcpy`.** -/
theorem memcpy_spec (hs : LawfulAccess.Sound s) (hr : ReadableAt s src n) (hw : WritableAt s dst n) (hd : dst ≠ 0 ∨ n = 0)
    (hsrc : src ≠ 0 ∨ n = 0) (h : dst ≤ src ∨ src + n ≤ dst) : wp (memcpy dst src n)
      (fun r s' => r = dst ∧ Leaves s (copied (Access.byte s) dst src n) s') (fun _ => False) s := by
  rw [memcpy, wp_bind, wp_require hd, wp_bind, wp_require hsrc, wp_bind]
  exact wp_post (copyUp_spec hs hr hw h) fun _ s' hl => ⟨rfl, hl.2⟩

/-- **`memmove`** copies the source for every overlap; what it returns is `dst` only if it copies downwards. -/
theorem memmove_spec (hs : LawfulAccess.Sound s) (hr : ReadableAt s src n) (hw : WritableAt s dst n) (hd : dst ≠ 0 ∨ n = 0)
    (hsrc : src ≠ 0 ∨ n = 0) : wp (memmove dst src n)
      (fun r s' => r = (if dst < src then dst + n else dst) ∧ Leaves s (copied (Access.byte s) dst src n) s')
      (fun _ => False) s := by
  rw [memmove, wp_bind, wp_require hd, wp_bind, wp_require hsrc, wp_ite]
  constructor
  · intro hlt
    rw [if_pos hlt]
    exact copyUp_spec hs hr hw (.inl hlt.le)
  · intro hge
    rw [if_neg hge]
    exact copyDown_spec hs hr hw (.inl (Nat.not_lt.1 hge))

/-- What `memmove` is to do with a memory `m`: the destination holds what the source held, nothing else is changed, and it
returns the destination. -/
def Moved (m : Mem) (dst src size : ℕ) : Prop :=
  ∃ m' : Mem, memmove dst src size m = .ok (dst, m') ∧ (∀ i < size, m' (dst + i) = m (src + i)) ∧
    ∀ x, (x < dst ∨ dst + size ≤ x) → m' x = m x

/-- **`memmove`** moves every block as it is to, but returns the destination only where the source is not above it: the loop
that copies upwards leaves `dst` at the end of the block. -/
theorem memmove_iff (m : Mem) (dst src size : ℕ) : Moved m dst src size ↔ size = 0 ∨ src ≠ 0 ∧ src ≤ dst := by
  have hall : ReadableAt m src size ∧ WritableAt m dst size := ⟨fun _ _ => rfl, fun _ _ => rfl⟩
  by_cases hnull : (dst ≠ 0 ∨ size = 0) ∧ (src ≠ 0 ∨ size = 0)
  · obtain ⟨r, m', hrun, hr, hl⟩ := exists_ok (memmove_spec (s := m) trivial hall.1 hall.2 hnull.1 hnull.2)
    have hm' : m' = copied m dst src size := hl.byte
    have hpost : (∀ i < size, m' (dst + i) = m (src + i)) ∧ ∀ x, (x < dst ∨ dst + size ≤ x) → m' x = m x := by
      rw [hm']
      exact ⟨fun i hi => Mem.copy_of_inside hi, fun x hx => Mem.copy_of_outside hx⟩
    have hiff : Moved m dst src size ↔ r = dst := by
      constructor
      · rintro ⟨_, hrun', -⟩
        rw [hrun] at hrun'
        exact congrArg Prod.fst (Except.ok.inj hrun')
      · rintro rfl
        exact ⟨m', hrun, hpost⟩
    rw [hiff, hr]
    split_ifs <;> omega
  · have hstop : memmove dst src size m = .error .assertion := by
      rcases not_and_or.1 hnull with hd | hs
      · change (require (dst ≠ 0 ∨ size = 0) >>= _) m = _
        rw [require, if_neg hd]
        rfl
      · by_cases hd : dst ≠ 0 ∨ size = 0
        · change (require (dst ≠ 0 ∨ size = 0) >>= fun _ => require (src ≠ 0 ∨ size = 0) >>= _) m = _
          rw [require, require, if_pos hd, if_neg hs]
          rfl
        · change (require (dst ≠ 0 ∨ size = 0) >>= _) m = _
          rw [require, if_neg hd]
          rfl
    refine iff_of_false ?_ (by omega)
    rintro ⟨m', hrun, -⟩
    rw [hstop] at hrun
    cases hrun

/-- **One byte, moved down**: `memmove` returns the address behind it. -/
theorem memmove_moves_dst : ∃ m' : Mem, memmove 100 200 1 (fun _ => 0 : Mem) = .ok (101, m') ∧ ¬ Moved (fun _ => 0) 100 200 1 := by
  refine ⟨_, rfl, ?_⟩
  rintro ⟨m', hrun, -⟩
  have hfst : (101 : ℕ) = 100 := congrArg Prod.fst (Except.ok.inj hrun)
  omega

/-! ### Strings -/

/-- A string at `a`, with its terminator, and all of it may be read. -/
structure StringAt (s : σ) (a : ℕ) (l : List UInt8) : Prop where
  noNul : 0 ∉ l
  has : (Access.byte s).Has a (l ++ [0])
  readable : ReadableAt s a (l.length + 1)

theorem strlenLoop_spec {string a : ℕ} (h : StringAt s a l) (hf : l.length < fuel) (hle : string ≤ a) :
    wp (strlenLoop string fuel a) (fun r s' => r = a + l.length - string ∧ s' = s) (fun _ => False) s := by
  induction l generalizing a fuel with
  | nil =>
    obtain ⟨fuel, rfl⟩ : ∃ k, fuel = k + 1 := ⟨fuel - 1, by simp at hf; omega⟩
    have hend : Access.byte s a = 0 := h.has.1
    rw [strlenLoop, wp_bind, wp_loadByte h.readable.succ.1, hend, if_neg (not_not_intro rfl)]
    exact ⟨by simp, rfl⟩
  | cons b l ih =>
    obtain ⟨fuel, rfl⟩ : ∃ k, fuel = k + 1 := ⟨fuel - 1, by simp at hf; omega⟩
    obtain ⟨hb, hl⟩ := not_or.1 (mt List.mem_cons.2 h.noNul)
    have hbyte : Access.byte s a = b := h.has.1
    rw [strlenLoop, wp_bind, wp_loadByte h.readable.succ.1, hbyte, if_pos (Ne.symm hb)]
    have hrest : StringAt s (a + 1) l := ⟨hl, h.has.2, h.readable.succ.2⟩
    refine wp_post (ih hrest (by simp at hf; omega) (by omega)) fun r s' hr => ⟨?_, hr.2⟩
    rw [hr.1, List.length_cons]
    omega

/-- **`strlen`.** -/
theorem strlen_spec {a : ℕ} (h : StringAt s a l) (hf : l.length < fuel) (ha : a ≠ 0) :
    wp (strlen fuel a) (fun r s' => r = l.length ∧ s' = s) (fun _ => False) s := by
  rw [strlen, wp_bind, wp_require ha]
  refine wp_post (strlenLoop_spec h hf le_rfl) fun r s' hr => ⟨?_, hr.2⟩
  rw [hr.1]
  omega

/-- A string that is copied with its terminator. -/
def withString (m : Mem) (dst : ℕ) (l : List UInt8) : Mem := m.copy dst (l.length + 1) fun i => (l ++ [0]).getD i 0

/-- **`strlcpy`** of a string for which there is room. -/
theorem strlcpy_spec (hs : LawfulAccess.Sound s) (h : StringAt s src l) (hf : l.length < fuel) (hsrc : src ≠ 0) (hd : dst ≠ 0)
    (hsize : l.length < size) (hw : WritableAt s dst (l.length + 1)) (hdis : dst + l.length < src ∨ src + l.length < dst) :
    wp (strlcpy fuel dst src size) (fun r s' => r = l.length ∧ Leaves s (withString (Access.byte s) dst l) s')
      (fun _ => False) s := by
  rw [strlcpy, wp_bind, wp_require hd, wp_bind, wp_require hsrc, wp_bind]
  refine wp_post (strlen_spec h hf hsrc) fun r s' ⟨hr, hs'⟩ => ?_
  subst hr
  subst hs'
  have hlen : (if l.length < size - 1 then l.length else size - 1) = l.length := by split_ifs <;> omega
  rw [if_pos (by omega), hlen, wp_bind]
  have hr : ReadableAt s' src l.length := fun i hi => h.readable i (by omega)
  have hw' : WritableAt s' dst l.length := fun i hi => hw i (by omega)
  refine wp_post (memcpy_spec hs hr hw' (.inl hd) (.inl hsrc) (by omega)) fun _ s₁ ⟨_, h₁⟩ => ?_
  rw [wp_bind]
  refine wp_storeByte h₁.sound (h₁.writable ▸ hw l.length (by omega)) fun s₂ h₂ => ⟨rfl, ?_⟩
  have hmem : Function.update (Access.byte s₁) (dst + l.length) 0 = withString (Access.byte s') dst l := by
    rw [h₁.byte, withString, ← Mem.copy_last]
    funext x
    unfold copied Mem.copy
    by_cases hx : x = dst + l.length
    · subst hx
      rw [Function.update_self, if_neg (by omega), Function.update_self]
      simp
    · rw [Function.update_of_ne hx, Function.update_of_ne hx]
      split_ifs with hin
      · have hi : x - dst < l.length := by omega
        have hchar := (Mem.has_iff.1 (Mem.has_append.1 h.has).1) (x - dst) hi
        dsimp only
        rw [hchar, List.getD_append _ _ _ _ hi, List.getD_eq_getElem _ _ hi]
      · rfl
  rw [← hmem]
  exact h₁.trans h₂

/-- The copy is there. -/
theorem withString_has (m : Mem) (dst : ℕ) (l : List UInt8) : (withString m dst l).Has dst (l ++ [0]) := by
  rw [Mem.has_iff]
  intro i hi
  have hi' : i < l.length + 1 := by simpa using hi
  rw [withString, Mem.copy_of_inside hi', List.getD_eq_getElem _ _ hi]

theorem withString_of_outside {m : Mem} {x : ℕ} (h : x < dst ∨ dst + l.length < x) : withString m dst l x = m x :=
  Mem.copy_of_outside (by omega)

end Pintos.Strings
