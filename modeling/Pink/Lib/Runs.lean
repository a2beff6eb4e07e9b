import Mathlib.Tactic

/-! # Runs of a labelled machine

A machine is a step function on states and labels; a label holds all that the environment decides in
the step. A run is a sequence of labels. `Guarded` says that every step of a run is taken in a state
in which its label is allowed, and `run_inv` is the invariant rule: what holds at the start and is
kept by every allowed step holds after every guarded run, and so in every state it goes through.
`run_sim` is the same for a relation between the states of two machines with the same labels,
`length_le_measure` bounds the runs of a machine whose steps use something up, and `run_log` reads
off the labels what a machine keeps a list of. -/

namespace Pink.Lib.Runs

variable {σ α : Type*} (step : σ → α → σ) (guard : σ → α → Prop)

/-- The state after a sequence of steps. -/
def run (s : σ) (ops : List α) : σ := ops.foldl step s

/-- Every step is taken in a state that allows it. -/
def Guarded : σ → List α → Prop
  | _, [] => True
  | s, a :: ops => guard s a ∧ Guarded (step s a) ops

instance decidableGuarded [∀ s a, Decidable (guard s a)] :
    ∀ s ops, Decidable (Guarded step guard s ops)
  | _, [] => .isTrue trivial
  | s, a :: ops =>
    have := decidableGuarded (step s a) ops
    inferInstanceAs (Decidable (_ ∧ _))

variable {step guard}

/-- **The invariant rule.** -/
theorem run_inv (Inv : σ → Prop) (hstep : ∀ s a, Inv s → guard s a → Inv (step s a)) :
    ∀ {ops : List α} {s : σ}, Inv s → Guarded step guard s ops → Inv (run step s ops) := by
  intro ops
  induction ops with
  | nil => exact fun h _ => h
  | cons a ops ih => exact fun h hg => ih (hstep _ a h hg.1) hg.2

/-- **The simulation rule.** -/
theorem run_sim {τ : Type*} {step' : τ → α → τ} {R : σ → τ → Prop}
    (hstep : ∀ s t a, R s t → guard s a → R (step s a) (step' t a)) :
    ∀ {ops : List α} {s : σ} {t : τ}, R s t → Guarded step guard s ops →
      R (run step s ops) (run step' t ops) := by
  intro ops
  induction ops with
  | nil => exact fun h _ => h
  | cons a ops ih => exact fun h hg => ih (hstep _ _ a h hg.1) hg.2

/-- **The step rule**: what every allowed step from a state of the invariant satisfies, every step of
a guarded run satisfies. -/
theorem guarded_of_inv {prop : σ → α → Prop} (Inv : σ → Prop)
    (hstep : ∀ s a, Inv s → guard s a → Inv (step s a))
    (hprop : ∀ s a, Inv s → guard s a → prop s a) :
    ∀ {ops : List α} {s : σ}, Inv s → Guarded step guard s ops → Guarded step prop s ops
  | [], _, _, _ => trivial
  | _ :: _, _, h, hg =>
    ⟨hprop _ _ h hg.1, guarded_of_inv Inv hstep hprop (hstep _ _ h hg.1) hg.2⟩

/-- Two guards that say the same in the states of an invariant allow the same runs. -/
theorem guarded_iff_of_inv {prop : σ → α → Prop} (Inv : σ → Prop)
    (hstep : ∀ s a, Inv s → guard s a → Inv (step s a))
    (hiff : ∀ s a, Inv s → (prop s a ↔ guard s a)) {ops : List α} {s : σ} (h : Inv s) :
    Guarded step prop s ops ↔ Guarded step guard s ops := by
  constructor
  · exact guarded_of_inv Inv (fun s a hs hp => hstep s a hs ((hiff s a hs).mp hp))
      (fun s a hs hp => (hiff s a hs).mp hp) h
  · exact guarded_of_inv Inv hstep (fun s a hs hg => (hiff s a hs).mpr hg) h

theorem run_append (s : σ) (ops ops' : List α) :
    run step s (ops ++ ops') = run step (run step s ops) ops' := List.foldl_append

theorem guarded_append : ∀ {ops ops' : List α} {s : σ}, Guarded step guard s (ops ++ ops') ↔
    Guarded step guard s ops ∧ Guarded step guard (run step s ops) ops'
  | [], _, _ => ⟨fun h => ⟨trivial, h⟩, fun h => h.2⟩
  | _ :: _, _, _ => by
    rw [List.cons_append, Guarded, Guarded, guarded_append, and_assoc]; rfl

theorem Guarded.and {guard' : σ → α → Prop} : ∀ {ops : List α} {s : σ}, Guarded step guard s ops →
    Guarded step guard' s ops → Guarded step (fun s a => guard s a ∧ guard' s a) s ops
  | [], _, _, _ => trivial
  | _ :: _, _, h, h' => ⟨⟨h.1, h'.1⟩, h.2.and h'.2⟩

/-- A guard that does not look at the state. -/
theorem guarded_of_forall {allowed : α → Prop} :
    ∀ {ops : List α} {s : σ}, (∀ a ∈ ops, allowed a) → Guarded step (fun _ => allowed) s ops
  | [], _, _ => trivial
  | a :: _, _, h =>
    ⟨h a List.mem_cons_self, guarded_of_forall fun b hb => h b (List.mem_cons_of_mem _ hb)⟩

/-- The invariant rule when the guard does not look at the state. -/
theorem run_inv_of_forall {allowed : α → Prop} (Inv : σ → Prop)
    (hstep : ∀ s a, Inv s → allowed a → Inv (step s a)) {ops : List α} {s : σ} (h : Inv s)
    (hops : ∀ a ∈ ops, allowed a) : Inv (run step s ops) :=
  run_inv Inv hstep h (guarded_of_forall hops)

/-- A guard and what every label of the run has. -/
theorem guarded_and_forall {allowed : α → Prop} : ∀ {ops : List α} {s : σ},
    Guarded step guard s ops → (∀ a ∈ ops, allowed a) →
    Guarded step (fun s a => guard s a ∧ allowed a) s ops
  | [], _, _, _ => trivial
  | a :: _, _, hg, h => ⟨⟨hg.1, h a List.mem_cons_self⟩,
      guarded_and_forall hg.2 fun b hb => h b (List.mem_cons_of_mem _ hb)⟩

/-- **The rule of the measure**: if every allowed step makes it smaller, a run is not longer than it
was at the start. -/
theorem length_le_measure (Inv : σ → Prop) (measure : σ → ℕ)
    (hstep : ∀ s a, Inv s → guard s a → Inv (step s a) ∧ measure (step s a) < measure s) :
    ∀ {ops : List α} {s : σ}, Inv s → Guarded step guard s ops → ops.length ≤ measure s
  | [], _, _, _ => Nat.zero_le _
  | a :: ops, s, h, hg => by
    obtain ⟨hnext, hlt⟩ := hstep s a h hg.1
    have ih := length_le_measure Inv measure hstep hnext hg.2
    exact Nat.lt_of_le_of_lt ih hlt

/-- **The log rule**: what every step appends to a list, a run appends in order. -/
theorem run_log {β : Type*} (log : σ → List β) (entry : α → Option β)
    (hstep : ∀ s a, log (step s a) = log s ++ (entry a).toList) (s : σ) (ops : List α) :
    log (run step s ops) = log s ++ ops.filterMap entry := by
  induction ops generalizing s with
  | nil => simp [run]
  | cons a ops ih =>
    have hcons : run step s (a :: ops) = run step (step s a) ops := rfl
    rw [hcons, ih, hstep, List.append_assoc]
    cases h : entry a with
    | none => simp [h]
    | some b => simp [h]

/-- The invariant rule without a guard. -/
theorem run_inv_of_step (Inv : σ → Prop) (hstep : ∀ s a, Inv s → Inv (step s a)) {s : σ}
    (h : Inv s) (ops : List α) : Inv (run step s ops) := by
  have hops : ∀ a ∈ ops, (fun _ => True : α → Prop) a := fun _ _ => trivial
  exact run_inv_of_forall Inv (fun s a hs _ => hstep s a hs) h hops

end Pink.Lib.Runs
