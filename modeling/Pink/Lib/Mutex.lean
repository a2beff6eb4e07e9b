import Mathlib.Tactic
import Mathlib.Logic.Relation
import Mathlib.Algebra.BigOperators.Group.Finset.Basic

/-! # A mutex that is not recursive

What a thread does to one mutex is a sequence of `lock` and `unlock`. It is `Bracketed` if the thread
never locks a mutex that it holds, never unlocks one that it does not hold, and does not hold it at
the end. Bracketed sequences compose (`Bracketed.append`); inside a lock guard they do not
(`bracketed_inScope_iff`).

Threads whose sequences are bracketed never wait for each other in a circle: as long as one of them
is not done, one of them can go on (`progress`), and finitely many of them get done (`completes`). A
thread that locks the mutex it holds stops for good, and with it every thread that needs the mutex
(`frozen`). -/

namespace Pink.Lib.Mutex

inductive Op
  | lock | unlock
  deriving DecidableEq, Repr

/-- Whether the mutex is held behind a sequence; `none` if it is locked while it is held, or unlocked
while it is not. -/
def after : Bool → List Op → Option Bool
  | held, [] => some held
  | false, .lock :: t => after true t
  | true, .unlock :: t => after false t
  | _, _ :: _ => none

/-- The sequence of a thread that does not hold the mutex before and behind it. -/
def Bracketed (t : List Op) : Prop := after false t = some false

instance : DecidablePred Bracketed := fun t => inferInstanceAs (Decidable (after false t = some false))

/-- The scope of a lock guard. -/
def inScope (body : List Op) : List Op := .lock :: (body ++ [.unlock])

/-! ### Sequences -/

theorem after_append (t t' : List Op) : ∀ held : Bool,
    after held (t ++ t') = (after held t).bind fun held => after held t' := by
  induction t with
  | nil =>
    intro held
    rw [List.nil_append, after, Option.bind_some]
  | cons a t ih =>
    intro held
    cases held <;> cases a
    · exact ih true
    · rfl
    · rfl
    · exact ih false

theorem bracketed_nil : Bracketed [] := rfl

theorem Bracketed.append {t t' : List Op} (h : Bracketed t) (h' : Bracketed t') :
    Bracketed (t ++ t') := by
  rw [Bracketed, after_append, h]
  exact h'

theorem bracketed_inScope_nil : Bracketed (inScope []) := rfl

/-- **No bracketed sequence fits into a lock guard**, but the empty one. -/
theorem bracketed_inScope_iff {body : List Op} (h : Bracketed body) :
    Bracketed (inScope body) ↔ body = [] := by
  constructor
  · intro hs
    rcases body with _ | ⟨a, t⟩
    · rfl
    · cases a
      · cases hs
      · cases h
  · rintro rfl
    exact bracketed_inScope_nil

/-! ### Threads -/

/-- What the threads still have to do, and which one holds the mutex. -/
structure Threads (ι : Type*) where
  todo : ι → List Op
  owner : Option ι := none

section System
variable {ι : Type*} [DecidableEq ι]

inductive Step : Threads ι → Threads ι → Prop
  | lock {s : Threads ι} {i : ι} {t : List Op} (h : s.todo i = .lock :: t) (hfree : s.owner = none) :
    Step s ⟨Function.update s.todo i t, some i⟩
  | unlock {s : Threads ι} {i : ι} {t : List Op} (h : s.todo i = .unlock :: t)
    (hheld : s.owner = some i) : Step s ⟨Function.update s.todo i t, none⟩

/-- What a thread still has to do fits to whether it holds the mutex. -/
def Sound (s : Threads ι) : Prop := ∀ i, after (s.owner = some i) (s.todo i) = some false

theorem sound_start {todo : ι → List Op} (h : ∀ i, Bracketed (todo i)) : Sound ⟨todo, none⟩ := by
  intro i
  rw [decide_eq_false (by simp)]
  exact h i

theorem Sound.step {s s' : Threads ι} (h : Sound s) (hs : Step s s') : Sound s' := by
  intro j
  have hj := h j
  cases hs with
  | @lock i t ht hfree =>
    by_cases hij : j = i
    · subst hij
      rw [hfree, ht, decide_eq_false (by simp)] at hj
      rw [decide_eq_true rfl]
      simpa [after] using hj
    · rw [hfree, decide_eq_false (by simp)] at hj
      rw [decide_eq_false (by simpa using Ne.symm hij)]
      simpa [hij] using hj
  | @unlock i t ht hheld =>
    by_cases hij : j = i
    · subst hij
      rw [hheld, ht, decide_eq_true rfl] at hj
      rw [decide_eq_false (by simp)]
      simpa [after] using hj
    · rw [hheld, decide_eq_false (by simpa using Ne.symm hij)] at hj
      rw [decide_eq_false (by simp)]
      simpa [hij] using hj

theorem Sound.reaches {s s' : Threads ι} (h : Sound s) (hs : Relation.ReflTransGen Step s s') :
    Sound s' := by
  induction hs with
  | refl => exact h
  | tail _ hs ih => exact ih.step hs

/-- The owner of the mutex can go on; without one, everybody can. -/
theorem Sound.progress {s : Threads ι} (h : Sound s) : (∀ i, s.todo i = []) ∨ ∃ s', Step s s' := by
  rcases ho : s.owner with _ | i
  · by_cases hdone : ∀ i, s.todo i = []
    · exact .inl hdone
    · obtain ⟨i, hi⟩ := not_forall.mp hdone
      have hafter := h i
      rw [ho, decide_eq_false (by simp)] at hafter
      rcases ht : s.todo i with _ | ⟨a, t⟩
      · exact absurd ht hi
      · cases a with
        | lock => exact .inr ⟨_, .lock ht ho⟩
        | unlock =>
          rw [ht] at hafter
          cases hafter
  · have hafter := h i
    rw [ho, decide_eq_true rfl] at hafter
    rcases ht : s.todo i with _ | ⟨a, t⟩
    · rw [ht] at hafter
      cases hafter
    · cases a with
      | lock =>
        rw [ht] at hafter
        cases hafter
      | unlock => exact .inr ⟨_, .unlock ht ho⟩

/-- **Threads with bracketed sequences do not block each other.** -/
theorem progress {todo : ι → List Op} (h : ∀ i, Bracketed (todo i)) {s : Threads ι}
    (hs : Relation.ReflTransGen Step ⟨todo, none⟩ s) : (∀ i, s.todo i = []) ∨ ∃ s', Step s s' :=
  ((sound_start h).reaches hs).progress

theorem sum_update [Fintype ι] {f : ι → List Op} {i : ι} {a : Op} {t : List Op} (h : f i = a :: t) :
    ∑ j, (Function.update f i t j).length + 1 = ∑ j, (f j).length := by
  rw [← Finset.add_sum_erase _ _ (Finset.mem_univ i), ← Finset.add_sum_erase _ _ (Finset.mem_univ i),
    Function.update_self, h, List.length_cons]
  have hrest : ∑ j ∈ Finset.univ.erase i, (Function.update f i t j).length =
      ∑ j ∈ Finset.univ.erase i, (f j).length := by
    refine Finset.sum_congr rfl fun j hj => ?_
    rw [Function.update_of_ne (Finset.ne_of_mem_erase hj)]
  omega

theorem Step.shorter [Fintype ι] {s s' : Threads ι} (h : Step s s') :
    ∑ j, (s'.todo j).length + 1 = ∑ j, (s.todo j).length := by
  cases h with
  | lock h _ => exact sum_update h
  | unlock h _ => exact sum_update h

/-- **Finitely many threads get done**, from wherever they have got to. -/
theorem completes [Fintype ι] {s : Threads ι} (h : Sound s) :
    ∃ s', Relation.ReflTransGen Step s s' ∧ ∀ i, s'.todo i = [] := by
  induction hn : ∑ j, (s.todo j).length using Nat.strong_induction_on generalizing s with
  | _ n ih =>
    subst hn
    rcases h.progress with hdone | ⟨s₁, hs⟩
    · exact ⟨s, .refl, hdone⟩
    · have hlt := hs.shorter
      obtain ⟨s', hs', hdone⟩ := ih _ (by omega) (h.step hs) rfl
      exact ⟨s', .head hs hs', hdone⟩

/-- **A thread that locks the mutex it holds stops for good**, and nobody gets the mutex again. -/
theorem frozen {s s' : Threads ι} {i : ι} {t : List Op} (h : s.todo i = .lock :: t)
    (hheld : s.owner = some i) (hs : Relation.ReflTransGen Step s s') :
    s'.todo i = .lock :: t ∧ s'.owner = some i := by
  induction hs with
  | refl => exact ⟨h, hheld⟩
  | tail _ hs ih =>
    obtain ⟨htodo, howner⟩ := ih
    cases hs with
    | lock _ hfree =>
      rw [howner] at hfree
      cases hfree
    | unlock h' hheld' =>
      rw [howner] at hheld'
      obtain rfl := Option.some.inj hheld'
      rw [htodo] at h'
      cases h'

end System

end Pink.Lib.Mutex
