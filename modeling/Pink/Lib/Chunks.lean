import Mathlib.Tactic

/-! # Consumers of a divided stream

A consumer is fed a stream chunk by chunk. Each chunk yields some output and either a state to go
on from or a verdict, after which nothing is read any more. Of the state in which it stops only a
view is seen from outside. If cutting a chunk in two changes nothing that is seen (`Composes`), then
the whole stream may be cut anywhere: every division shows what the undivided stream shows
(`seen_feedAll`).

The law need only hold for the streams that may come in a state: `Good s x` says that `x` may. -/

namespace Pink.Lib.Chunks

variable {α β σ τ ε : Type*}

/-- `cs` is a division of `s` into non-empty chunks. -/
structure Division (cs : List (List α)) (s : List α) : Prop where
  flatten : cs.flatten = s
  nonempty : ∀ c ∈ cs, c ≠ []

theorem Division.ne_nil {cs : List (List α)} {s : List α} (h : Division cs s) (hs : s ≠ []) :
    cs ≠ [] := by
  rintro rfl
  exact hs h.flatten.symm

theorem Division.take {cs : List (List α)} {s : List α} (h : Division cs s) (k : ℕ) :
    Division (cs.take k) (cs.take k).flatten :=
  ⟨rfl, fun c hc => h.nonempty c (List.mem_of_mem_take hc)⟩

/-- Go on from a state, or stop at a verdict. -/
def andThen (x : List β × (σ ⊕ ε)) (f : σ → List β × (σ ⊕ ε)) : List β × (σ ⊕ ε) :=
  match x.2 with
  | .inl s => (x.1 ++ (f s).1, (f s).2)
  | .inr e => (x.1, .inr e)

variable (feed : σ → List α → List β × (σ ⊕ ε)) (view : σ → τ) (Good : σ → List α → Prop)

/-- Feed the chunks one after the other. -/
def feedAll : σ → List (List α) → List β × (σ ⊕ ε)
  | s, [] => ([], .inl s)
  | s, c :: cs => andThen (feed s c) fun s => feedAll s cs

/-- What is seen of a result. -/
def seen (x : List β × (σ ⊕ ε)) : List β × (τ ⊕ ε) := (x.1, x.2.map view id)

/-- **A chunk may be cut in two.** -/
structure Composes : Prop where
  cut : ∀ s a b, a ≠ [] → b ≠ [] → Good s (a ++ b) →
    seen view (feed s (a ++ b)) = seen view (andThen (feed s a) fun s => feed s b)
  good : ∀ s a b s', a ≠ [] → b ≠ [] → Good s (a ++ b) → (feed s a).2 = .inl s' → Good s' b

variable {feed view Good}

theorem andThen_nil (x : List β × (σ ⊕ ε)) : andThen x (fun s => ([], .inl s)) = x := by
  obtain ⟨o, s | e⟩ := x <;> simp [andThen]

/-- Only what is seen of the second part is seen of the whole. -/
theorem seen_andThen_congr {x : List β × (σ ⊕ ε)} {f g : σ → List β × (σ ⊕ ε)}
    (h : ∀ s, x.2 = .inl s → seen view (f s) = seen view (g s)) :
    seen view (andThen x f) = seen view (andThen x g) := by
  obtain ⟨o, s | e⟩ := x
  · have hs := h s rfl
    simp only [seen, Prod.mk.injEq] at hs
    simp [andThen, seen, hs.1, hs.2]
  · rfl

/-- **Every division shows what the undivided stream shows.** -/
theorem seen_feedAll (h : Composes feed view Good) : ∀ {cs : List (List α)} {s : σ}, cs ≠ [] →
    (∀ c ∈ cs, c ≠ []) → Good s cs.flatten →
    seen view (feedAll feed s cs) = seen view (feed s cs.flatten)
  | [], _, hne, _, _ => absurd rfl hne
  | [c], s, _, _, _ => by simp [feedAll, andThen_nil]
  | c :: d :: cs, s, _, hc, hg => by
    have hc0 := hc c (by simp)
    have hrest : (d :: cs).flatten ≠ [] := by simp [hc d (by simp)]
    rw [List.flatten_cons] at hg ⊢
    rw [h.cut s c _ hc0 hrest hg, feedAll]
    refine seen_andThen_congr fun s' hs' => ?_
    exact seen_feedAll h (by simp) (fun e he => hc e (List.mem_cons_of_mem _ he))
      (h.good s c _ s' hc0 hrest hg hs')

end Pink.Lib.Chunks
