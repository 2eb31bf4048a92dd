import Pintos.Library.Memories

/-!
# What a program stores to

`StoresIn W m` says that the program `m` changes its state by stores alone, to addresses in
`W`. So it keeps whatever these stores keep.
-/

namespace Pintos.Library

open Prog

variable {σ α β : Type} [Access σ] {W V : ℕ → Prop} {m : MemM σ α} {f : α → MemM σ β}

/-- **Only stores to `W`**: what they keep, the program keeps. -/
def StoresIn (W : ℕ → Prop) (m : MemM σ α) : Prop :=
  ∀ R : σ → Prop, (∀ s a v, W a → Access.writable s a = true → R s → R (Access.store s a v)) →
    ∀ s, R s → wp m (fun _ s' => R s') (fun _ => True) s

theorem StoresIn.pure (a : α) : StoresIn W (Pure.pure a : MemM σ α) := fun _ _ _ hs => hs

theorem StoresIn.stop (e : MemFault) : StoresIn W (Prog.stop e : MemM σ α) := fun _ _ _ _ => trivial

theorem StoresIn.bind (h : StoresIn W m) (hf : ∀ a, StoresIn W (f a)) : StoresIn W (m >>= f) := by
  intro R hR s hs
  rw [wp_bind]
  exact wp_post (h R hR s hs) fun a s' hs' => hf a R hR s' hs'

theorem StoresIn.ite {c : Prop} [Decidable c] {m' : MemM σ α} (h : StoresIn W m) (h' : StoresIn W m') :
    StoresIn W (if c then m else m') := by
  by_cases hc : c
  · rwa [if_pos hc]
  · rwa [if_neg hc]

theorem StoresIn.mono (h : StoresIn V m) (hsub : ∀ a, V a → W a) : StoresIn W m :=
  fun R hR => h R fun s a v ha => hR s a v (hsub a ha)

theorem storesIn_loadByte (a : ℕ) : StoresIn W (loadByte a : MemM σ UInt8) := by
  intro R _ s hs
  rw [loadByte, wp_bind, wp_gets, wp_ite]
  exact ⟨fun _ => hs, fun _ => trivial⟩

theorem storesIn_storeByte {a : ℕ} (ha : W a) (v : UInt8) : StoresIn W (storeByte a v : MemM σ Unit) := by
  intro R hR s hs
  rw [storeByte, wp_bind, wp_gets, wp_ite]
  exact ⟨fun hw => hR s a v ha hw hs, fun _ => trivial⟩

theorem storesIn_require (c : Prop) [Decidable c] : StoresIn W (require c : MemM σ Unit) := .ite (.pure ()) (.stop _)

end Pintos.Library
