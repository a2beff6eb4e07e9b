import Mathlib.Tactic

/-! # Dealing out in turn

`share n i xs` is what the queue `i` of `n` gets of a list whose elements are put into the queues in
turn, starting with queue `0`. It is described by its elements (`getElem?_share`: every `n`-th one)
and by its length, which differs by at most one between two queues. -/

namespace Pink.Lib.RoundRobin

variable {α : Type*} {n i j : ℕ}

/-- **What queue `i` of `n` gets.** -/
def share (n i : ℕ) (xs : List α) : List α :=
  (xs.zipIdx.filter fun p => p.2 % n = i).map Prod.fst

@[simp] theorem share_nil : share n i ([] : List α) = [] := rfl

theorem share_snoc (xs : List α) (x : α) :
    share n i (xs ++ [x]) = share n i xs ++ if xs.length % n = i then [x] else [] := by
  unfold share
  rw [List.zipIdx_append, List.filter_append, List.map_append]
  by_cases h : xs.length % n = i
  · simp [h]
  · simp [h]

/-- The number of elements of one queue. -/
theorem length_share (hi : i < n) (xs : List α) :
    (share n i xs).length = (xs.length + (n - 1 - i)) / n := by
  induction xs using List.reverseRecOn with
  | nil =>
    rw [share_nil, List.length_nil, Nat.div_eq_of_lt]
    omega
  | append_singleton xs x ih =>
    -- the new element completes a round of queue `i` exactly when it is that queue's turn
    have hdvd : n ∣ xs.length + (n - 1 - i) + 1 ↔ xs.length % n = i := by
      have he : xs.length + (n - 1 - i) + 1 + i = xs.length + n := by omega
      have hround : xs.length + (n - 1 - i) + 1 + i ≡ xs.length [MOD n] := by
        rw [he]
        exact Nat.add_modEq_right
      rw [← Nat.modEq_zero_iff_dvd]
      constructor
      · intro h
        have hz := hround.symm.trans (h.add_right i)
        rw [Nat.zero_add, Nat.ModEq, Nat.mod_eq_of_lt hi] at hz
        exact hz
      · intro h
        refine Nat.ModEq.add_right_cancel' i (hround.trans ?_)
        rw [Nat.zero_add, Nat.ModEq, Nat.mod_eq_of_lt hi]
        exact h
    rw [share_snoc, List.length_append, ih, List.length_append, List.length_singleton]
    have hs : xs.length + 1 + (n - 1 - i) = xs.length + (n - 1 - i) + 1 := by omega
    rw [hs, Nat.succ_div]
    by_cases h : xs.length % n = i
    · rw [if_pos h, if_pos (hdvd.mpr h)]; rfl
    · rw [if_neg h, if_neg (mt hdvd.mp h)]; rfl

/-- **The `k`-th element of queue `i` is element `k * n + i` of what is dealt out.** -/
theorem getElem?_share (hi : i < n) (xs : List α) (k : ℕ) :
    (share n i xs)[k]? = xs[k * n + i]? := by
  induction xs using List.reverseRecOn with
  | nil => rfl
  | append_singleton xs x ih =>
    have hlt : k < (share n i xs).length ↔ k * n + i < xs.length := by
      rw [length_share hi, Nat.lt_iff_add_one_le, Nat.le_div_iff_mul_le (by omega)]
      rw [Nat.add_one_mul]
      omega
    rw [share_snoc]
    by_cases hk : k < (share n i xs).length
    · rw [List.getElem?_append_left hk, List.getElem?_append_left (hlt.mp hk), ih]
    rw [List.getElem?_append_right (by omega), List.getElem?_append_right (by omega)]
    by_cases hturn : xs.length % n = i
    · rw [if_pos hturn]
      -- it is the turn of queue `i`, which has as many elements as rounds are over
      have hlen : (share n i xs).length = xs.length / n := by
        rw [length_share hi]
        have hd := Nat.div_add_mod xs.length n
        have hs : xs.length + (n - 1 - i) = n * (xs.length / n) + (n - 1) := by omega
        rw [hs, Nat.mul_add_div (by omega), Nat.div_eq_of_lt (by omega : n - 1 < n)]
        rfl
      have hd := Nat.div_add_mod xs.length n
      rw [hlen]
      by_cases he : k = xs.length / n
      · subst he
        rw [Nat.mul_comm, show n * (xs.length / n) + i - xs.length = 0 by omega, Nat.sub_self]
      · have hgt : xs.length / n + 1 ≤ k := by omega
        have hmul : (xs.length / n + 1) * n ≤ k * n := Nat.mul_le_mul_right n hgt
        rw [Nat.add_one_mul, Nat.mul_comm] at hmul
        rw [List.getElem?_eq_none (by simp only [List.length_singleton]; omega),
          List.getElem?_eq_none (by simp only [List.length_singleton]; omega)]
    · rw [if_neg hturn, List.getElem?_nil]
      have hne : k * n + i ≠ xs.length := by
        intro he
        apply hturn
        rw [← he, Nat.mul_add_mod_of_lt hi]
      rw [List.getElem?_eq_none (by simp only [List.length_singleton]; omega)]

/-- **Two queues differ by at most one element.** -/
theorem length_share_le (hi : i < n) (hj : j < n) (xs : List α) :
    (share n i xs).length ≤ (share n j xs).length + 1 := by
  rw [length_share hi, length_share hj, ← Nat.add_div_right _ (by omega)]
  exact Nat.div_le_div_right (by omega)

end Pink.Lib.RoundRobin
