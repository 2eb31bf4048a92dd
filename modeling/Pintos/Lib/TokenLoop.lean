import Pintos.Lib.Strtok
import Pintos.Library.Stores

/-!
# Loops over the tokens of a string

The `for` statement that calls `strtok_r` until it returns a null pointer. What its body
keeps holds for the words of the string one after the other (`forTokens_spec`), if the body
leaves the string alone. What the functions store to is said by `StoresIn`.
-/

namespace Pintos.Strings

open Library Library.Prog

variable {σ α : Type}

/-- `for (token = strtok_r (s, delimiters, &save_ptr); token != NULL; token = strtok_r (NULL, delimiters, &save_ptr))`, with the
variables of the body. -/
def forTokens [Access σ] (fuel : ℕ) (delimiters : CString) (body : ℕ → α → MemM σ α) : ℕ → ℕ → ℕ → α → MemM σ α
  | 0, _, _, _ => stop .fuel
  | n + 1, s, savePtr, x => do
    let (token, savePtr) ← strtokR fuel s delimiters savePtr
    if token = 0 then pure x
    else do
      let x ← body token x
      forTokens fuel delimiters body n 0 savePtr x

/-! ### What the functions store to -/

section Stores

variable [Access σ] {W : ℕ → Prop}

theorem storesIn_strlenLoop (string n p : ℕ) : StoresIn W (strlenLoop string n p : MemM σ ℕ) := by
  induction n generalizing p with
  | zero => exact .stop _
  | succ n ih => exact .bind (storesIn_loadByte p) fun c => .ite (ih _) (.pure _)

theorem storesIn_strlen (fuel string : ℕ) : StoresIn W (strlen fuel string : MemM σ ℕ) :=
  .bind (storesIn_require _) fun _ => storesIn_strlenLoop _ _ _

theorem storesIn_copyUp {n dst : ℕ} (h : ∀ i < n, W (dst + i)) (src : ℕ) : StoresIn W (copyUp n dst src : MemM σ ℕ) := by
  induction n generalizing dst src with
  | zero => exact .pure _
  | succ n ih =>
    refine .bind (storesIn_loadByte src) fun b => .bind (storesIn_storeByte (h 0 (Nat.zero_lt_succ n)) b) fun _ => ih (fun i hi => ?_) _
    rw [Nat.add_assoc, Nat.add_comm 1]
    exact h (i + 1) (Nat.succ_lt_succ hi)

/-- `strlcpy` stores to the destination. -/
theorem storesIn_strlcpy {dst size : ℕ} (h : ∀ i < size, W (dst + i)) (fuel src : ℕ) :
    StoresIn W (strlcpy fuel dst src size : MemM σ ℕ) := by
  refine .bind (storesIn_require _) fun _ => .bind (storesIn_require _) fun _ => .bind (storesIn_strlen fuel src) fun srcLen => ?_
  by_cases hsize : 0 < size
  · have hle : (if srcLen < size - 1 then srcLen else size - 1) < size := by split_ifs <;> omega
    rw [if_pos hsize]
    refine .bind (.bind (storesIn_require _) fun _ => .bind (storesIn_require _) fun _ => .bind (storesIn_copyUp (fun i hi => ?_) src)
      fun _ => .pure _) fun _ => .bind (storesIn_storeByte (h _ hle) 0) fun _ => .pure _
    exact h i (hi.trans hle)
  · rw [if_neg hsize]
    exact .pure _

theorem storesIn_skipDelimiters (delimiters : CString) (n a : ℕ) : StoresIn W (skipDelimiters delimiters n a : MemM σ (Bool × ℕ)) := by
  induction n generalizing a with
  | zero => exact .stop _
  | succ n ih => exact .bind (storesIn_loadByte a) fun c => .ite (.ite (.pure _) (ih _)) (.pure _)

theorem storesIn_skipToken (delimiters : CString) (n a : ℕ) : StoresIn W (skipToken delimiters n a : MemM σ ℕ) := by
  induction n generalizing a with
  | zero => exact .stop _
  | succ n ih => exact .bind (storesIn_loadByte a) fun c => .ite (.pure _) (ih _)

theorem storesIn_strtokR (hW : ∀ a, W a) (fuel s : ℕ) (delimiters : CString) (savePtr : ℕ) :
    StoresIn W (strtokR fuel s delimiters savePtr : MemM σ (ℕ × ℕ)) := by
  refine .bind (storesIn_require _) fun _ => .bind (storesIn_skipDelimiters _ _ _) fun x => .ite ?_ (.pure _)
  exact .bind (storesIn_skipToken _ _ _) fun a => .bind (storesIn_loadByte a) fun c =>
    .ite (.bind (storesIn_storeByte (hW a) 0) fun _ => .pure _) (.pure _)

theorem storesIn_forTokens (hW : ∀ a, W a) {body : ℕ → α → MemM σ α} (hbody : ∀ token x, StoresIn W (body token x)) (fuel : ℕ)
    (delimiters : CString) (n s savePtr : ℕ) (x : α) : StoresIn W (forTokens fuel delimiters body n s savePtr x) := by
  induction n generalizing s savePtr x with
  | zero => exact .stop _
  | succ n ih =>
    exact .bind (storesIn_strtokR hW _ _ _ _) fun r => .ite (.pure _) (.bind (hbody _ _) fun x => ih _ _ _)

end Stores

/-! ### The rule of the loop -/

variable [LawfulAccess σ] {s s' s'' : σ} {A B : ℕ → Prop} {delimiters : CString} {fuel n a arg savePtr lo hi : ℕ} {l : List UInt8} {m : Mem}

/-- The bytes at the addresses in `A` are as they were; what may be used is the same. -/
structure Untouched (A : ℕ → Prop) (s s' : σ) : Prop where
  leaves : Leaves s (Access.byte s') s'
  byte : ∀ x, A x → Access.byte s' x = Access.byte s x

theorem Untouched.refl (hs : LawfulAccess.Sound s) : Untouched A s s := ⟨.refl hs, fun _ _ => rfl⟩

theorem Untouched.trans (h : Untouched A s s') (h' : Untouched B s' s'') (hsub : ∀ x, A x → B x) : Untouched A s s'' :=
  ⟨h.leaves.trans h'.leaves, fun x hx => (h'.byte x (hsub x hx)).trans (h.byte x hx)⟩

theorem Untouched.of_leaves (h : Leaves s m s') (hm : ∀ x, A x → m x = Access.byte s x) : Untouched A s s' :=
  ⟨⟨h.sound, rfl, h.readable, h.writable⟩, fun x hx => h.byte ▸ hm x hx⟩

theorem Untouched.mono (h : Untouched B s s') (hsub : ∀ x, A x → B x) : Untouched A s s' := ⟨h.leaves, fun x hx => h.byte x (hsub x hx)⟩

/-- A string that is not touched. -/
theorem StringAt.untouched (h : StringAt s a l) (hu : Untouched A s s') (hA : ∀ x, a ≤ x → x ≤ a + l.length → A x) :
    StringAt s' a l := h.leaves hu.leaves fun x hx hx' => hu.byte x (hA x hx hx')

/-- The first token is a string. -/
theorem StringAt.token (h : StringAt s a l) (hl : Leaves s (cutToken delimiters (Access.byte s) a l) s') :
    StringAt s' (a + skipped (delimits delimiters) l)
      ((l.dropWhile (delimits delimiters)).take (tokenLength (delimits delimiters) l)) := by
  have hle := tokenEnd_le delimiters l
  have hend : tokenEnd delimiters l = skipped (delimits delimiters) l + tokenLength (delimits delimiters) l := rfl
  have hsum := skipped_add_length (p := delimits delimiters) (l := l)
  have hlen : ((l.dropWhile (delimits delimiters)).take (tokenLength (delimits delimiters) l)).length =
      tokenLength (delimits delimiters) l := List.length_take_of_le tokenLength_le
  have hat := h.drop (skipped (delimits delimiters) l) (by omega)
  rw [drop_skipped] at hat
  refine ⟨fun h0 => hat.noNul (List.mem_of_mem_take h0), Mem.has_append.2 ⟨?_, ?_, trivial⟩, fun i hi => ?_⟩
  · have hhas := (Mem.has_append.1 hat.has).1
    rw [← List.take_append_drop (tokenLength (delimits delimiters) l) (l.dropWhile (delimits delimiters))] at hhas
    refine (Mem.has_append.1 hhas).1.congr fun x hx hlt => ?_
    rw [hlen] at hlt
    rw [hl.byte, cutToken_of_ne (by omega)]
  · rw [hlen, hl.byte, Nat.add_assoc, ← hend, cutToken]
    by_cases hlt : tokenEnd delimiters l < l.length
    · rw [if_pos hlt, Function.update_self]
    · have hzero := (Mem.has_append.1 h.has).2.1
      rw [if_neg hlt, show tokenEnd delimiters l = l.length by omega]
      exact hzero
  · rw [hlen] at hi
    rw [hl.readable, Nat.add_assoc]
    exact h.readable _ (by omega)

/-- **The loop over the tokens**: from one turn to the next the body keeps `P` of the words that are still to come. -/
theorem forTokens_spec {body : ℕ → α → MemM σ α} {P : List (List UInt8) → α → σ → Prop}
    (hstable : ∀ {ws x s s'}, P ws x s → Untouched (fun y => y < lo ∨ hi < y) s s' → P ws x s')
    (hbody : ∀ {w ws token x s}, P (w :: ws) x s → LawfulAccess.Sound s → StringAt s token w → token ≠ 0 → lo ≤ token →
      token + w.length ≤ hi → w.length < fuel →
      wp (body token x) (fun x' s' => P ws x' s' ∧ Untouched (fun y => lo ≤ y ∧ y ≤ hi) s s') (fun _ => False) s)
    {x : α} (hs : LawfulAccess.Sound s) (h : StringAt s a l) (hw : WritableAt s a l.length) (ha : a ≠ 0) (hlo : lo ≤ a)
    (hhi : a + l.length ≤ hi) (hf : l.length < fuel) (hn : (words (delimits delimiters) l).length < n)
    (harg : (if arg = 0 then savePtr else arg) = a) (hP : P (words (delimits delimiters) l) x s) :
    wp (forTokens fuel delimiters body n arg savePtr x) (fun x' s' => P [] x' s' ∧ LawfulAccess.Sound s') (fun _ => False) s := by
  induction n generalizing s a l arg savePtr x with
  | zero => exact absurd hn (Nat.not_lt_zero _)
  | succ n ih =>
    rw [forTokens, wp_bind]
    refine wp_post (strtokR_spec hs h hw ha hf harg) fun r s₁ hpost => ?_
    obtain ⟨hnone, hsome⟩ := hpost
    by_cases hnil : l.dropWhile (delimits delimiters) = []
    · obtain ⟨hr, hs₁⟩ := hnone hnil
      subst hr
      subst hs₁
      rw [words_of_nil hnil] at hP
      dsimp only
      rw [if_pos rfl]
      exact ⟨hP, hs⟩
    · obtain ⟨hr, hl₁⟩ := hsome hnil
      subst hr
      have hle := tokenEnd_le delimiters l
      have hend : tokenEnd delimiters l = skipped (delimits delimiters) l + tokenLength (delimits delimiters) l := rfl
      have hlen : ((l.dropWhile (delimits delimiters)).take (tokenLength (delimits delimiters) l)).length =
          tokenLength (delimits delimiters) l := List.length_take_of_le tokenLength_le
      have hcut : Untouched (fun y => y < lo ∨ hi < y) s s₁ :=
        .of_leaves hl₁ fun y hy => cutToken_of_ne (by omega)
      rw [words_of_ne_nil hnil] at hP hn
      rw [List.length_cons] at hn
      have htoken := h.token hl₁
      dsimp only
      rw [if_neg (by omega), wp_bind]
      refine wp_post (hbody (hstable hP hcut) hl₁.sound htoken (by omega) (by omega) (by omega) (by omega)) fun x' s₂ hpost => ?_
      obtain ⟨hP₂, hu⟩ := hpost
      -- the body has left the rest of the string alone
      have hrest : restOf delimiters a l + (behindToken (delimits delimiters) l).length ≤ a + l.length ∧ a ≤ restOf delimiters a l := by
        rw [behindToken_eq, List.length_drop, restOf]
        split_ifs <;> omega
      have hstring := (h.behind hl₁).untouched hu fun y hy hy' => ⟨by omega, by omega⟩
      have hw₂ : WritableAt s₂ (restOf delimiters a l) (behindToken (delimits delimiters) l).length := by
        intro i hi
        have hwi := hw (restOf delimiters a l + i - a) (by omega)
        rw [show a + (restOf delimiters a l + i - a) = restOf delimiters a l + i by omega] at hwi
        rw [hu.leaves.writable, hl₁.writable]
        exact hwi
      exact ih hu.leaves.sound hstring hw₂ (by omega) (by omega) (by omega) ((length_behindToken hnil).trans hf) (by omega)
        (if_pos rfl) hP₂

end Pintos.Strings
