import Mathlib.Tactic

/-! # Scanning an array

A computation that reads an array yields its result together with the positions that it reads
(`Scan`). `Within n` says that all of them are at most `n`; it goes through `pure` and `bind`. -/

namespace Pink.Lib.Reads

variable {α β : Type}

/-- The result of a computation and the positions that it reads. -/
structure Scan (α : Type) where
  val : α
  reads : List ℕ := []
  deriving DecidableEq, Repr

namespace Scan

instance : Monad Scan where
  pure a := { val := a }
  bind x f := ⟨(f x.val).val, x.reads ++ (f x.val).reads⟩

@[simp] theorem val_pure (a : α) : (pure a : Scan α).val = a := rfl

@[simp] theorem val_bind (x : Scan α) (f : α → Scan β) : (x >>= f).val = (f x.val).val := rfl

/-- What follows a computation depends on its result only. -/
theorem bind_congr {x : Scan α} {f g : α → Scan β} (h : f x.val = g x.val) :
    (x >>= f) = x >>= g := by
  show Scan.mk _ _ = Scan.mk _ _
  rw [h]

/-- Nothing behind position `n` is read. -/
def Within (n : ℕ) (x : Scan α) : Prop := ∀ i ∈ x.reads, i ≤ n

theorem within_pure (n : ℕ) (a : α) : (pure a : Scan α).Within n := by
  intro i hi
  exact absurd hi List.not_mem_nil

theorem Within.bind {n : ℕ} {x : Scan α} {f : α → Scan β} (hx : x.Within n)
    (hf : (f x.val).Within n) : (x >>= f).Within n := by
  intro i hi
  rcases List.mem_append.mp hi with hi | hi
  · exact hx i hi
  · exact hf i hi

theorem within_bind {n : ℕ} {x : Scan α} {f : α → Scan β} :
    (x >>= f).Within n ↔ x.Within n ∧ (f x.val).Within n :=
  ⟨fun h => ⟨fun i hi => h i (List.mem_append_left _ hi), fun i hi => h i (List.mem_append_right _ hi)⟩,
    fun h => h.1.bind h.2⟩

end Scan

end Pink.Lib.Reads
