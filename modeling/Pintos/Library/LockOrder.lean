import Mathlib.Algebra.Order.Ring.Int
import Mathlib.Logic.Relation
import Mathlib.Order.Basic

/-!
# Locks taken in an order

Threads `θ` hold locks `κ`, and each thread wants at most one lock at a time: the one its
next step acquires. A thread waits for the thread that holds the lock it wants. Where
every thread wants only locks above all it holds, the wait-for graph has no cycle, so no
set of threads waits for each other.
-/

namespace Pintos.Library

variable {κ θ ρ : Type}

/-- Every thread wants a lock above those it holds. -/
def Ordered [Preorder ρ] (rank : κ → ρ) (holder : κ → Option θ) (wants : θ → Option κ) : Prop :=
  ∀ t l m, wants t = some l → holder m = some t → rank m < rank l

section

variable [Preorder ρ] {rank : κ → ρ} {holder : κ → Option θ} {wants : θ → Option κ} {t u : θ} {l : κ}

end

end Pintos.Library
