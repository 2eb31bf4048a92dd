import Pintos.Lib.CString
import Pintos.Lib.Strings
import Pintos.Library.Tokens

/-!
# Tokens of a string

`strtok_r` of `lib/string.c` (`strchr` for the delimiters, which are a string of their own).
A null pointer is 0. Between two calls, the pointer that is saved is at a string again:
what is behind the token and the delimiter that was cut out, or the empty string at the
end. So the calls return the tokens of the string one after the other.
-/

namespace Pintos.Strings

open Library Library.Prog

variable {σ : Type}

/-- The loop of `strchr`: how far into the string the character is. -/
def strchrLoop (c : UInt8) : List UInt8 → ℕ → Option ℕ
  | [], i => if 0 = c then some i else none
  | b :: l, i => if b = c then some i else strchrLoop c l (i + 1)

/-- `strchr`. -/
def strchr (string : CString) (c : UInt8) : Option ℕ := strchrLoop c string.bytes 0

section Programs

variable [Access σ]

/-- `while (strchr (delimiters, *s) != NULL)`: whether it came to another character, and where. -/
def skipDelimiters (delimiters : CString) : ℕ → ℕ → MemM σ (Bool × ℕ)
  | 0, _ => stop .fuel
  | n + 1, s => do
    let c ← loadByte s
    if (strchr delimiters c).isSome then
      if c = 0 then pure (false, s) else skipDelimiters delimiters n (s + 1)
    else pure (true, s)

/-- `while (strchr (delimiters, *s) == NULL)`. -/
def skipToken (delimiters : CString) : ℕ → ℕ → MemM σ ℕ
  | 0, _ => stop .fuel
  | n + 1, s => do
    let c ← loadByte s
    if (strchr delimiters c).isSome then pure s else skipToken delimiters n (s + 1)

/-- `strtok_r`: what it returns, and what `*save_ptr` is then. -/
def strtokR (fuel s : ℕ) (delimiters : CString) (savePtr : ℕ) : MemM σ (ℕ × ℕ) := do
  let s := if s = 0 then savePtr else s
  require (s ≠ 0)
  let (found, token) ← skipDelimiters delimiters fuel s
  if found then do
    let s ← skipToken delimiters fuel token
    let c ← loadByte s
    if c ≠ 0 then do
      storeByte s 0
      pure (token, s + 1)
    else pure (token, s)
  else pure (0, token)

/-- `k` calls of `strtok_r`, the first one with `s` and the others with a null pointer. -/
def strtokCalls (fuel : ℕ) (delimiters : CString) : ℕ → ℕ → ℕ → MemM σ (List ℕ)
  | 0, _, _ => pure []
  | k + 1, s, savePtr => do
    let (token, savePtr) ← strtokR fuel s delimiters savePtr
    let rest ← strtokCalls fuel delimiters k 0 savePtr
    pure (token :: rest)

end Programs

/-- The character is a delimiter. -/
def delimits (delimiters : CString) (c : UInt8) : Bool := delimiters.bytes.contains c

theorem strchrLoop_isSome (c : UInt8) (l : List UInt8) (i : ℕ) : (strchrLoop c l i).isSome = true ↔ c = 0 ∨ c ∈ l := by
  induction l generalizing i with
  | nil =>
    unfold strchrLoop
    split_ifs with h
    · exact iff_of_true rfl (.inl h.symm)
    · exact iff_of_false Bool.false_ne_true (by simp [Ne.symm h])
  | cons b l ih =>
    unfold strchrLoop
    split_ifs with h
    · exact iff_of_true rfl (.inr (h ▸ List.mem_cons_self))
    · rw [ih, List.mem_cons, or_iff_right (a := c = b) (Ne.symm h)]

theorem strchr_isSome (delimiters : CString) {c : UInt8} (hc : c ≠ 0) :
    (strchr delimiters c).isSome = delimits delimiters c := by
  rw [Bool.eq_iff_iff, strchr, strchrLoop_isSome, or_iff_right hc, delimits, List.contains_iff_mem]

theorem strchr_zero (delimiters : CString) : (strchr delimiters 0).isSome = true := (strchrLoop_isSome _ _ _).2 (.inl rfl)

variable [LawfulAccess σ] {s : σ} {delimiters : CString} {fuel a arg savePtr : ℕ} {l : List UInt8}

theorem StringAt.tail {b : UInt8} (h : StringAt s a (b :: l)) : b ≠ 0 ∧ Access.byte s a = b ∧ StringAt s (a + 1) l := by
  obtain ⟨hb, hl⟩ := not_or.1 (mt List.mem_cons.2 h.noNul)
  exact ⟨Ne.symm hb, h.has.1, hl, h.has.2, h.readable.succ.2⟩

theorem StringAt.end (h : StringAt s a []) : Access.byte s a = 0 := h.has.1

/-- From byte `n` on it is a string, too. -/
theorem StringAt.drop (h : StringAt s a l) (n : ℕ) (hn : n ≤ l.length) : StringAt s (a + n) (l.drop n) := by
  induction n generalizing a l with
  | zero => exact h
  | succ n ih =>
    cases l with
    | nil => exact absurd hn (Nat.not_succ_le_zero n)
    | cons b l =>
      rw [List.drop_succ_cons, ← Nat.add_assoc, Nat.add_right_comm]
      exact ih h.tail.2.2 (Nat.le_of_succ_le_succ hn)

/-- The string is still there if none of its bytes has changed. -/
theorem StringAt.leaves {s' : σ} {m : Mem} (h : StringAt s a l) (hl : Leaves s m s')
    (hm : ∀ x, a ≤ x → x ≤ a + l.length → m x = Access.byte s x) : StringAt s' a l := by
  refine ⟨h.noNul, h.has.congr fun x hx hlt => ?_, h.readable.leaves hl⟩
  rw [List.length_append, List.length_singleton] at hlt
  rw [hl.byte]
  exact hm x hx (by omega)

theorem skipDelimiters_spec (h : StringAt s a l) (hf : l.length < fuel) : wp (skipDelimiters delimiters fuel a)
    (fun r s' => r = (!(l.dropWhile (delimits delimiters)).isEmpty, a + skipped (delimits delimiters) l) ∧ s' = s)
    (fun _ => False) s := by
  induction l generalizing a fuel with
  | nil =>
    obtain ⟨fuel, rfl⟩ : ∃ k, fuel = k + 1 := ⟨fuel - 1, by simp at hf; omega⟩
    rw [skipDelimiters, wp_bind, wp_loadByte h.readable.succ.1, h.end, if_pos (strchr_zero _), if_pos rfl]
    exact ⟨rfl, rfl⟩
  | cons b l ih =>
    obtain ⟨fuel, rfl⟩ : ∃ k, fuel = k + 1 := ⟨fuel - 1, by simp at hf; omega⟩
    obtain ⟨hb, hbyte, hrest⟩ := h.tail
    rw [skipDelimiters, wp_bind, wp_loadByte h.readable.succ.1, hbyte, strchr_isSome _ hb]
    by_cases hd : delimits delimiters b = true
    · rw [if_pos hd, if_neg hb]
      refine wp_post (ih hrest (by simp at hf; omega)) fun r s' hr => ⟨?_, hr.2⟩
      rw [hr.1, List.dropWhile_cons_of_pos hd, skipped, skipped, List.takeWhile_cons_of_pos hd, List.length_cons,
        Nat.add_assoc, Nat.add_comm 1]
    · rw [if_neg hd, skipped, List.dropWhile_cons_of_neg hd, List.takeWhile_cons_of_neg hd]
      exact ⟨rfl, rfl⟩

theorem skipToken_spec (h : StringAt s a l) (hf : l.length < fuel) : wp (skipToken delimiters fuel a)
    (fun r s' => r = a + (l.takeWhile fun c => !delimits delimiters c).length ∧ s' = s) (fun _ => False) s := by
  induction l generalizing a fuel with
  | nil =>
    obtain ⟨fuel, rfl⟩ : ∃ k, fuel = k + 1 := ⟨fuel - 1, by simp at hf; omega⟩
    rw [skipToken, wp_bind, wp_loadByte h.readable.succ.1, h.end, if_pos (strchr_zero _)]
    exact ⟨rfl, rfl⟩
  | cons b l ih =>
    obtain ⟨fuel, rfl⟩ : ∃ k, fuel = k + 1 := ⟨fuel - 1, by simp at hf; omega⟩
    obtain ⟨hb, hbyte, hrest⟩ := h.tail
    rw [skipToken, wp_bind, wp_loadByte h.readable.succ.1, hbyte, strchr_isSome _ hb]
    by_cases hd : delimits delimiters b = true
    · rw [if_pos hd, List.takeWhile_cons_of_neg (by simp [hd])]
      exact ⟨rfl, rfl⟩
    · rw [if_neg hd, List.takeWhile_cons_of_pos (by simp [hd]), List.length_cons]
      refine wp_post (ih hrest (by simp at hf; omega)) fun r s' hr => ⟨?_, hr.2⟩
      rw [hr.1, Nat.add_assoc, Nat.add_comm 1]

/-- Where the first token ends. -/
def tokenEnd (delimiters : CString) (l : List UInt8) : ℕ := skipped (delimits delimiters) l + tokenLength (delimits delimiters) l

theorem tokenEnd_le (delimiters : CString) (l : List UInt8) : tokenEnd delimiters l ≤ l.length := by
  have hle := tokenLength_le (p := delimits delimiters) (l := l)
  have hsum := skipped_add_length (p := delimits delimiters) (l := l)
  unfold tokenEnd
  omega

/-- The delimiter behind the first token, if there is one, is a null byte. -/
def cutToken (delimiters : CString) (m : Mem) (a : ℕ) (l : List UInt8) : Mem :=
  if tokenEnd delimiters l < l.length then Function.update m (a + tokenEnd delimiters l) 0 else m

/-- Where the rest begins. -/
def restOf (delimiters : CString) (a : ℕ) (l : List UInt8) : ℕ :=
  if tokenEnd delimiters l < l.length then a + tokenEnd delimiters l + 1 else a + tokenEnd delimiters l

theorem behindToken_eq (delimiters : CString) (l : List UInt8) :
    behindToken (delimits delimiters) l = l.drop (tokenEnd delimiters l + 1) := by
  refine List.ext_getElem? fun k => ?_
  rw [behindToken, List.getElem?_drop, List.getElem?_drop, ← getElem?_skipped]
  congr 1
  unfold tokenEnd
  omega

/-- Only the byte behind the token changes. -/
theorem cutToken_of_ne {m : Mem} {x : ℕ} (h : x ≠ a + tokenEnd delimiters l) : cutToken delimiters m a l x = m x := by
  unfold cutToken
  split_ifs
  · exact Function.update_of_ne h ..
  · rfl

/-- **One call of `strtok_r`**: no token is left, or the first one is cut off and the rest is saved. -/
theorem strtokR_spec (hs : LawfulAccess.Sound s) (h : StringAt s a l) (hw : WritableAt s a l.length) (ha : a ≠ 0)
    (hf : l.length < fuel) (harg : (if arg = 0 then savePtr else arg) = a) : wp (strtokR fuel arg delimiters savePtr)
      (fun r s' =>
        (l.dropWhile (delimits delimiters) = [] → r = (0, a + l.length) ∧ s' = s) ∧
          (l.dropWhile (delimits delimiters) ≠ [] →
            r = (a + skipped (delimits delimiters) l, restOf delimiters a l) ∧
              Leaves s (cutToken delimiters (Access.byte s) a l) s')) (fun _ => False) s := by
  rw [strtokR]
  dsimp only
  rw [harg, wp_bind, wp_require ha, wp_bind]
  refine wp_post (skipDelimiters_spec h hf) fun r s' ⟨hr, hs'⟩ => ?_
  subst hr
  subst hs'
  have hsum := skipped_add_length (p := delimits delimiters) (l := l)
  by_cases hnil : l.dropWhile (delimits delimiters) = []
  · have hall : skipped (delimits delimiters) l = l.length := by
      rw [hnil, List.length_nil] at hsum
      exact hsum
    dsimp only
    rw [hnil, hall]
    exact ⟨fun _ => ⟨rfl, rfl⟩, fun hne => absurd rfl hne⟩
  · have hfound : (!(l.dropWhile (delimits delimiters)).isEmpty) = true := by
      rw [Bool.not_eq_true', List.isEmpty_eq_false_iff]
      exact hnil
    dsimp only
    rw [hfound, if_pos rfl, wp_bind]
    have hdrop : l.drop (skipped (delimits delimiters) l) = l.dropWhile (delimits delimiters) := by
      refine List.ext_getElem? fun k => ?_
      rw [List.getElem?_drop, getElem?_skipped]
    have htoken : StringAt s' (a + skipped (delimits delimiters) l) (l.dropWhile (delimits delimiters)) :=
      hdrop ▸ h.drop _ (by omega)
    refine wp_post (skipToken_spec htoken (by omega)) fun r s₁ ⟨hr, hs₁⟩ => ?_
    have hend : r = a + tokenEnd delimiters l := by rw [hr, tokenEnd, tokenLength, Nat.add_assoc]
    subst hs₁
    rw [hend]
    have hle := tokenEnd_le delimiters l
    rw [wp_bind, wp_loadByte (h.readable _ (by omega))]
    have hbyte : Access.byte s₁ (a + tokenEnd delimiters l) ≠ 0 ↔ tokenEnd delimiters l < l.length := by
      have hat := h.drop (tokenEnd delimiters l) hle
      constructor
      · intro hne
        refine lt_of_le_of_ne hle fun heq => hne ?_
        rw [heq, List.drop_length] at hat
        rw [heq]
        exact hat.end
      · intro hlt
        rw [List.drop_eq_getElem_cons hlt] at hat
        rw [hat.tail.2.1]
        exact hat.tail.1
    rw [wp_ite]
    constructor
    · intro hne
      have hlt := hbyte.1 hne
      rw [wp_bind]
      refine wp_storeByte hs (hw _ hlt) fun s₂ h₂ => ⟨fun hn => absurd hn hnil, fun _ => ⟨?_, ?_⟩⟩
      · rw [restOf, if_pos hlt]
      · rw [cutToken, if_pos hlt]
        exact h₂
    · intro hzero
      have hlt := mt hbyte.2 hzero
      refine ⟨fun hn => absurd hn hnil, fun _ => ⟨?_, ?_⟩⟩
      · rw [restOf, if_neg hlt]
      · rw [cutToken, if_neg hlt]
        exact .refl hs

/-- What is behind the token is a string. -/
theorem StringAt.behind {s' : σ} (h : StringAt s a l) (hl : Leaves s (cutToken delimiters (Access.byte s) a l) s') :
    StringAt s' (restOf delimiters a l) (behindToken (delimits delimiters) l) := by
  have hle := tokenEnd_le delimiters l
  rw [behindToken_eq, restOf]
  by_cases hlt : tokenEnd delimiters l < l.length
  · rw [if_pos hlt, Nat.add_assoc]
    refine (h.drop _ (by omega)).leaves hl fun x hx _ => ?_
    exact cutToken_of_ne (by omega)
  · rw [if_neg hlt, show l.drop (tokenEnd delimiters l + 1) = l.drop (tokenEnd delimiters l) by
      rw [List.drop_eq_nil_of_le (by omega), List.drop_eq_nil_of_le (by omega)]]
    refine (h.drop _ hle).leaves hl fun x _ _ => ?_
    rw [cutToken, if_neg hlt]

/-! ### The calls -/

/-- The delimiters behind the tokens `toks` are null bytes; the one that ends the string is one already. -/
def cutTokens (m : Mem) (a length : ℕ) (toks : List (ℕ × ℕ)) : Mem := fun x =>
  if ∃ t ∈ toks, x = a + (t.1 + t.2) ∧ t.1 + t.2 < length then 0 else m x

theorem cutTokens_nil (m : Mem) (a length : ℕ) : cutTokens m a length [] = m := by
  funext x
  exact if_neg fun ⟨t, ht, _⟩ => List.not_mem_nil ht

/-- The tokens of the rest are the tokens behind the first one, as they are counted from `a`. -/
theorem restOf_tokens (delimiters : CString) (a : ℕ) (l : List UInt8) (k : ℕ) :
    ((tokens (delimits delimiters) (behindToken (delimits delimiters) l)).take k).map (fun t => restOf delimiters a l + t.1) =
      (((tokens (delimits delimiters) (behindToken (delimits delimiters) l)).map
        fun t => (tokenEnd delimiters l + 1 + t.1, t.2)).take k).map fun t => a + t.1 := by
  rw [← List.map_take, List.map_map]
  by_cases hlt : tokenEnd delimiters l < l.length
  · refine List.map_congr_left fun t _ => ?_
    rw [restOf, if_pos hlt, Function.comp_apply]
    omega
  · have hnil : behindToken (delimits delimiters) l = [] := by
      rw [behindToken_eq, List.drop_eq_nil_of_le (by omega)]
    rw [hnil, tokens_of_nil List.dropWhile_nil, List.take_nil]
    rfl

/-- A delimiter is cut out of the string, and then the others out of the rest. -/
theorem cutTokens_cons (m : Mem) (delimiters : CString) (a k : ℕ) (l : List UInt8)
    (hne : l.dropWhile (delimits delimiters) ≠ []) :
    cutTokens (cutToken delimiters m a l) (restOf delimiters a l) (behindToken (delimits delimiters) l).length
        ((tokens (delimits delimiters) (behindToken (delimits delimiters) l)).take k) =
      cutTokens m a l.length ((tokens (delimits delimiters) l).take (k + 1)) := by
  have hlen : (behindToken (delimits delimiters) l).length = l.length - (tokenEnd delimiters l + 1) := by
    rw [behindToken_eq, List.length_drop]
  funext x
  rw [tokens_of_ne_nil hne, List.take_succ_cons, ← List.map_take]
  unfold cutTokens
  simp only [List.mem_cons, List.mem_map, exists_eq_or_imp, exists_exists_and_eq_and, hlen]
  by_cases hlt : tokenEnd delimiters l < l.length
  · have hrest : restOf delimiters a l = a + tokenEnd delimiters l + 1 := if_pos hlt
    have hiff : ∀ t : ℕ × ℕ, (x = restOf delimiters a l + (t.1 + t.2) ∧ t.1 + t.2 < l.length - (tokenEnd delimiters l + 1)) ↔
        x = a + (skipped (delimits delimiters) l + tokenLength (delimits delimiters) l + 1 + t.1 + t.2) ∧
          skipped (delimits delimiters) l + tokenLength (delimits delimiters) l + 1 + t.1 + t.2 < l.length := by
      intro t
      rw [hrest, tokenEnd] at *
      omega
    simp only [hiff]
    by_cases hx : x = a + tokenEnd delimiters l
    · have hcut : cutToken delimiters m a l x = 0 := by rw [cutToken, if_pos hlt, hx, Function.update_self]
      rw [hcut, ite_self]
      exact (if_pos (.inl ⟨hx, hlt⟩)).symm
    · rw [cutToken_of_ne hx]
      refine if_congr (or_iff_right fun h => hx h.1).symm rfl rfl
  · have hnil : behindToken (delimits delimiters) l = [] := List.eq_nil_of_length_eq_zero (by omega)
    rw [hnil, tokens_of_nil List.dropWhile_nil, List.take_nil, cutToken, if_neg hlt]
    rw [if_neg fun ⟨t, ht, _⟩ => List.not_mem_nil ht, if_neg]
    rintro (⟨_, h⟩ | ⟨t, ht, _⟩)
    · exact hlt h
    · exact List.not_mem_nil ht

/-- **The calls**: they return the tokens of the string, and then null pointers. -/
theorem strtokCalls_spec (k : ℕ) (hs : LawfulAccess.Sound s) (h : StringAt s a l) (hw : WritableAt s a l.length) (ha : a ≠ 0)
    (hf : l.length < fuel) (harg : (if arg = 0 then savePtr else arg) = a) : wp (strtokCalls fuel delimiters k arg savePtr)
      (fun r s' =>
        r = ((tokens (delimits delimiters) l).take k).map (fun t => a + t.1) ++
            List.replicate (k - (tokens (delimits delimiters) l).length) 0 ∧
          Leaves s (cutTokens (Access.byte s) a l.length ((tokens (delimits delimiters) l).take k)) s') (fun _ => False) s := by
  induction k generalizing s a l arg savePtr with
  | zero =>
    rw [List.take_zero, cutTokens_nil, Nat.zero_sub]
    exact ⟨rfl, .refl hs⟩
  | succ k ih =>
    rw [strtokCalls, wp_bind]
    refine wp_post (strtokR_spec hs h hw ha hf harg) fun r s₁ ⟨hnone, hsome⟩ => ?_
    by_cases hnil : l.dropWhile (delimits delimiters) = []
    · obtain ⟨hr, hs₁⟩ := hnone hnil
      subst hr
      subst hs₁
      have hrest : StringAt s₁ (a + l.length) [] := List.drop_length (l := l) ▸ h.drop l.length le_rfl
      rw [wp_bind]
      refine wp_post (ih hs hrest (fun i hi => absurd hi (Nat.not_lt_zero i)) (by omega) (Nat.zero_lt_of_lt hf) (if_pos rfl))
        fun r s₂ ⟨hr, hl⟩ => ?_
      rw [tokens_of_nil List.dropWhile_nil, List.take_nil] at hr hl
      rw [tokens_of_nil hnil, List.take_nil, cutTokens_nil]
      rw [cutTokens_nil] at hl
      subst hr
      exact ⟨rfl, hl⟩
    · obtain ⟨hr, hl₁⟩ := hsome hnil
      subst hr
      have hlen := length_behindToken hnil
      have hend := tokenEnd_le delimiters l
      have hat : restOf delimiters a l + (behindToken (delimits delimiters) l).length ≤ a + l.length ∧
          a ≤ restOf delimiters a l := by
        rw [behindToken_eq, List.length_drop, restOf]
        split_ifs <;> omega
      have hw₁ : WritableAt s₁ (restOf delimiters a l) (behindToken (delimits delimiters) l).length := fun i hi => by
        have hwi := hw (restOf delimiters a l + i - a) (by omega)
        rw [show a + (restOf delimiters a l + i - a) = restOf delimiters a l + i by omega] at hwi
        rw [hl₁.writable]
        exact hwi
      rw [wp_bind]
      refine wp_post (ih hl₁.sound (h.behind hl₁) hw₁ (by omega) (hlen.trans hf) (if_pos rfl)) fun r s₂ ⟨hr, hl₂⟩ => ?_
      rw [hl₁.byte, cutTokens_cons _ _ _ _ _ hnil] at hl₂
      refine ⟨?_, hl₁.trans hl₂⟩
      subst hr
      rw [restOf_tokens, tokens_of_ne_nil hnil, List.take_succ_cons, List.map_cons, List.length_cons, List.length_map,
        Nat.add_sub_add_right]
      rfl

/-- **`strtok_r` tokenises exactly**: the calls return the maximal segments of the string without a delimiter, in order, and
then null pointers; each token ends with a null byte where it stands, and what has changed is the delimiter behind each. -/
theorem strtok_r_tokenises (str delimiters : CString) (m : Mem) (s savePtr fuel k : ℕ) (hstr : m.Has s (str.bytes ++ [0]))
    (hs : s ≠ 0) (hf : str.bytes.length < fuel) :
    ∃ toks : List (ℕ × ℕ), (∀ i n, (i, n) ∈ toks ↔ IsRun (free (delimits delimiters) str.bytes) i n) ∧
      toks.Pairwise (fun t t' => t.1 + t.2 < t'.1) ∧
      ∃ m' : Mem, strtokCalls fuel delimiters k s savePtr m =
          .ok ((toks.take k).map (fun t => s + t.1) ++ List.replicate (k - toks.length) 0, m') ∧
        (∀ t ∈ toks.take k, m'.Has (s + t.1) ((str.bytes.drop t.1).take t.2 ++ [0])) ∧
        (∀ t ∈ toks.take k, t.1 + t.2 < str.bytes.length → m' (s + (t.1 + t.2)) = 0) ∧
        ∀ x, (∀ t ∈ toks.take k, t.1 + t.2 < str.bytes.length → x ≠ s + (t.1 + t.2)) → m' x = m x := by
  have hat : StringAt (σ := Mem) m s str.bytes := ⟨str.noNul, hstr, fun _ _ => rfl⟩
  have hspec : wp (strtokCalls fuel delimiters k s savePtr) _ _ m :=
    strtokCalls_spec k trivial hat (fun _ _ => rfl) hs hf (if_neg hs)
  obtain ⟨r, m', hrun, hr, hl⟩ := exists_ok hspec
  have hm' : m' = cutTokens m s str.bytes.length ((tokens (delimits delimiters) str.bytes).take k) := hl.byte
  have hends : ∀ t ∈ (tokens (delimits delimiters) str.bytes).take k, IsRun (free (delimits delimiters) str.bytes) t.1 t.2 :=
    fun t ht => (mem_tokens_iff _).1 (List.mem_of_mem_take ht)
  have hcut : ∀ t ∈ (tokens (delimits delimiters) str.bytes).take k, t.1 + t.2 < str.bytes.length → m' (s + (t.1 + t.2)) = 0 := by
    intro t ht hlt
    rw [hm', cutTokens, if_pos ⟨t, ht, rfl, hlt⟩]
  have hkept : ∀ x, (∀ t ∈ (tokens (delimits delimiters) str.bytes).take k, t.1 + t.2 < str.bytes.length →
      x ≠ s + (t.1 + t.2)) → m' x = m x := by
    intro x hx
    rw [hm', cutTokens, if_neg fun ⟨t, ht, heq, hlt⟩ => hx t ht hlt heq]
  refine ⟨tokens (delimits delimiters) str.bytes, fun i n => mem_tokens_iff _, pairwise_tokens _, m', ?_, ?_, hcut, hkept⟩
  · rw [hrun, hr]
  · intro t ht
    have hrun := hends t ht
    have hle := hrun.add_le
    have hlen : ((str.bytes.drop t.1).take t.2).length = t.2 := by
      rw [List.length_take, List.length_drop]
      omega
    rw [Mem.has_append]
    constructor
    · rw [Mem.has_iff]
      intro j hj
      rw [hlen] at hj
      -- a character of a token is not where another one ends
      have hfree := hrun.inside j hj
      rw [Nat.add_assoc, hkept (s + (t.1 + j)), Mem.has_iff.1 (Mem.has_append.1 hstr).1 (t.1 + j) (by omega)]
      · simp
      · intro t' ht' _ heq
        rw [show t.1 + j = t'.1 + t'.2 by omega, (hends t' ht').behind] at hfree
        exact Bool.false_ne_true hfree
    · rw [hlen]
      refine ⟨?_, trivial⟩
      rw [Nat.add_assoc]
      rcases Nat.lt_or_ge (t.1 + t.2) str.bytes.length with hlt | hge
      · exact hcut t ht hlt
      · have hend : t.1 + t.2 = str.bytes.length := by omega
        have hzero : m (s + str.bytes.length) = 0 := (Mem.has_append.1 hstr).2.1
        rw [hend, hkept _ fun t' _ hlt heq => by omega, hzero]

theorem noNul_words : (0 : UInt8) ∉ [32, 97, 98, 32, 32, 99] := by decide

theorem noNul_space : (0 : UInt8) ∉ [32] := by decide

/-- **Two words** with a space before them and two between them. -/
theorem strtok_r_tokenises_words : ∃ (toks : List (ℕ × ℕ)) (m' : Mem),
    (∀ i n, (i, n) ∈ toks ↔ IsRun (free (delimits ⟨[32], noNul_space⟩) [32, 97, 98, 32, 32, 99]) i n) ∧
      strtokCalls 7 ⟨[32], noNul_space⟩ 3 100 0 (fun x => [32, 97, 98, 32, 32, 99].getD (x - 100) 0 : Mem) =
        .ok ((toks.take 3).map (fun t => 100 + t.1) ++ List.replicate (3 - toks.length) 0, m') := by
  obtain ⟨toks, htoks, -, m', hrun, -⟩ := strtok_r_tokenises ⟨[32, 97, 98, 32, 32, 99], noNul_words⟩ ⟨[32], noNul_space⟩
    (fun x => [32, 97, 98, 32, 32, 99].getD (x - 100) 0) 100 0 7 3 ⟨rfl, rfl, rfl, rfl, rfl, rfl, rfl, trivial⟩ (by decide)
    (by decide)
  exact ⟨toks, m', htoks, hrun⟩

/-- The two words and then a null pointer. -/
example : ((strtokCalls 7 ⟨[32], noNul_space⟩ 3 100 0 (fun x => [32, 97, 98, 32, 32, 99].getD (x - 100) 0 : Mem)).toOption.map
    Prod.fst) = some [101, 105, 0] := by
  rfl

end Pintos.Strings
