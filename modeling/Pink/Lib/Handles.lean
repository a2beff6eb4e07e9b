import Mathlib.Tactic

/-! # Handles

A table of handles and the objects behind them. An object gets a number when it is opened, and what is
kept of the past is the sequence of the calls to close, each with the object that was behind the
handle at that moment, if any. If objects are only opened under handles that are free, every object
that has ever been opened is open under one handle and has not been closed, or is not open and has
been closed exactly once (`Wf`). Who keeps the handles, and which of them, is not part of it. -/

namespace Pink.Lib.Handles

variable {α : Type*} [DecidableEq α]

structure Table (α : Type*) where
  entry : α → Option ℕ := fun _ => none
  /-- The number of objects opened so far. -/
  next : ℕ := 0
  closes : List (α × Option ℕ) := []

namespace Table

def openAt (h : Table α) (a : α) : Table α :=
  { h with
    entry := Function.update h.entry a (some h.next)
    next := h.next + 1 }

def close (h : Table α) (a : α) : Table α :=
  { h with
    entry := Function.update h.entry a none
    closes := h.closes ++ [(a, h.entry a)] }

/-- How often an object has been closed. -/
def closings (h : Table α) (id : ℕ) : ℕ := h.closes.countP fun c => c.2 = some id

/-- Only handles with an object behind them have been closed. -/
def Owned (h : Table α) : Prop := ∀ c ∈ h.closes, c.2 ≠ none

end Table

open Table

/-- Every object is open, under one handle, or has been closed once. -/
structure Wf (h : Table α) : Prop where
  lt : ∀ {a : α} {id : ℕ}, h.entry a = some id → id < h.next
  inj : ∀ {a b : α} {id : ℕ}, h.entry a = some id → h.entry b = some id → a = b
  opened : ∀ {a : α} {id : ℕ}, h.entry a = some id → h.closings id = 0
  closed : ∀ {id : ℕ}, id < h.next → (∀ a, h.entry a ≠ some id) → h.closings id = 1
  fresh : ∀ {id : ℕ}, h.next ≤ id → h.closings id = 0

section Laws
variable {h : Table α} {a b : α} {id : ℕ}

@[simp] theorem entry_openAt :
    (h.openAt a).entry b = if b = a then some h.next else h.entry b :=
  Function.update_apply h.entry a (some h.next) b

@[simp] theorem entry_close : (h.close a).entry b = if b = a then none else h.entry b :=
  Function.update_apply h.entry a none b

@[simp] theorem closings_close :
    (h.close a).closings id = h.closings id + if h.entry a = some id then 1 else 0 := by
  unfold closings close
  rw [List.countP_append, List.countP_singleton]
  simp only [decide_eq_true_eq]

omit [DecidableEq α] in
theorem wf_empty : Wf ({} : Table α) :=
  ⟨fun h => (nomatch h), fun h => (nomatch h), fun h => (nomatch h),
    fun h => absurd h (Nat.not_lt_zero _), fun _ => rfl⟩

theorem wf_openAt (hw : Wf h) (ha : h.entry a = none) : Wf (h.openAt a) where
  lt {b id} hb := by
    rw [entry_openAt] at hb
    split_ifs at hb with he
    · cases hb
      exact Nat.lt_succ_self _
    · exact Nat.lt_succ_of_lt (hw.lt hb)
  inj {b c id} hb hc := by
    rw [entry_openAt] at hb hc
    split_ifs at hb hc with he he'
    · rw [he, he']
    · cases hb
      exact absurd (hw.lt hc) (lt_irrefl _)
    · cases hc
      exact absurd (hw.lt hb) (lt_irrefl _)
    · exact hw.inj hb hc
  opened {b id} hb := by
    rw [entry_openAt] at hb
    split_ifs at hb with he
    · cases hb
      exact hw.fresh le_rfl
    · exact hw.opened hb
  closed {id} hid hnone := by
    have hne : id ≠ h.next := fun he => hnone a (by rw [entry_openAt, if_pos rfl, he])
    refine hw.closed (lt_of_le_of_ne (Nat.lt_succ_iff.mp hid) hne) fun b hb => ?_
    have hba : b ≠ a := fun he => by
      rw [he, ha] at hb
      cases hb
    exact hnone b (by rw [entry_openAt, if_neg hba, hb])
  fresh hid := hw.fresh (Nat.le_of_succ_le hid)

theorem wf_close (hw : Wf h) (a : α) : Wf (h.close a) where
  lt {b id} hb := by
    rw [entry_close] at hb
    split_ifs at hb
    exact hw.lt hb
  inj {b c id} hb hc := by
    rw [entry_close] at hb hc
    split_ifs at hb hc
    exact hw.inj hb hc
  opened {b id} hb := by
    rw [entry_close] at hb
    split_ifs at hb with he
    rw [closings_close, hw.opened hb, if_neg fun ha => he (hw.inj hb ha)]
  closed {id} hid hnone := by
    rw [closings_close]
    by_cases ha : h.entry a = some id
    · rw [if_pos ha, hw.opened ha]
    · refine (congrArg (· + _) (hw.closed hid fun b hb => ?_)).trans (by rw [if_neg ha])
      have hba : b ≠ a := fun he => ha (he ▸ hb)
      exact hnone b (by rw [entry_close, if_neg hba, hb])
  fresh {id} hid := by
    rw [closings_close, hw.fresh hid, if_neg fun ha => absurd (hw.lt ha) (not_lt.mpr hid)]

theorem owned_close (ho : Owned h) (ha : h.entry a ≠ none) : Owned (h.close a) := by
  intro c hc
  rcases List.mem_append.mp hc with hc | hc
  · exact ho c hc
  · rw [List.mem_singleton.mp hc]
    exact ha

/-- An object that is opened and closed leaves the table as it was. -/
theorem entry_openAt_close (ha : h.entry a = none) : ((h.openAt a).close a).entry = h.entry := by
  funext b
  simp only [entry_close, entry_openAt]
  split_ifs with he
  · rw [he, ha]
  · rfl

end Laws

end Pink.Lib.Handles
