import Pink.Pb.Replies

/-! # When `SendReply` ends

The outer loop of `SendReply` goes on until the queue is empty, and an item is taken off the queue
only by the inner loop, which is not entered for an empty item. `SendReply` ends for all results of
`write` exactly if no item of the queue is empty (`ends_iff`); with an empty item it may turn forever,
and `resp_mu_` stays locked. -/

namespace Pink.Pb.Ending

open Pink.Redis.Wire Pink.Lib.Runs Pink.Pb.Conn Pink.Pb.Replies
open Pink.Redis.Conn (WriteStatus)

/-- Every `write` takes a byte at least, or fails. -/
def Progress (outs : List Sent) : Prop := .wrote 0 ∉ outs

instance (outs : List Sent) : Decidable (Progress outs) := inferInstanceAs (Decidable (_ ∉ outs))

/-- `resp_mu_` after so many turns of the outer loop: it is locked at the start of `SendReply` and
given back when it returns. -/
def respMuHeld (s : Sender) (outs : List Sent) (turns : ℕ) : Bool :=
  (sendLoop turns s.buf s.written outs).2.2.isNone

/-- **`SendReply` ends**: from some turn on it has returned, and `resp_mu_` is free. -/
def Ends (s : Sender) (outs : List Sent) : Prop :=
  ∃ n st, ∀ turns, n ≤ turns → (sendLoop turns s.buf s.written outs).2.2 = some st ∧
    respMuHeld s outs turns = false

/-- What has been written of the first item is not all of it, unless it is empty. -/
def Ready (buf : WriteBuf) : Prop :=
  buf.itemPos = 0 ∨ ∃ item rest, buf.queue = item :: rest ∧ buf.itemPos < item.length

theorem Ready.lt {item : Bytes} {rest : List Bytes} {pos : ℕ} (h : Ready ⟨item :: rest, pos⟩)
    (hne : item ≠ []) : pos < item.length := by
  rcases h with h | ⟨item', rest', heq, hlt⟩
  · have hpos := List.length_pos_iff.mpr hne
    dsimp only at h
    omega
  · cases heq
    exact hlt

theorem Ready.eq_zero {rest : List Bytes} {pos : ℕ} (h : Ready ⟨[] :: rest, pos⟩) : pos = 0 := by
  rcases h with h | ⟨item, rest', heq, hlt⟩
  · exact h
  · cases heq
    exact absurd hlt (Nat.not_lt_zero _)

/-! ### Items that are not empty -/

/-- The loop after it has returned. -/
theorem sendLoop_returns (queue : List Bytes) (hne : ∀ item ∈ queue, item ≠ []) :
    ∀ {pos : ℕ} (written : Bytes) (outs : List Sent), Ready ⟨queue, pos⟩ →
      ∃ st, ∀ fuel, queue.length < fuel →
        (sendLoop fuel ⟨queue, pos⟩ written outs).2.2 = some st := by
  induction queue with
  | nil =>
    intro pos written outs _
    refine ⟨.writeAll, fun fuel hfuel => ?_⟩
    obtain ⟨fuel, rfl⟩ : ∃ k, fuel = k + 1 := ⟨fuel - 1, by simp at hfuel; omega⟩
    rfl
  | cons item rest ih =>
    intro pos written outs hready
    have hlt : pos < item.length := hready.lt (hne item List.mem_cons_self)
    rcases writeItem_cases rest outs written hlt with
      ⟨n, stop, outs', hlt', hstop, heq⟩ | ⟨outs', heq⟩
    · have hneq : ¬item.length = pos + n := by omega
      cases stop with
      | done => exact absurd rfl hstop
      | zero =>
        refine ⟨.writeHalf, fun fuel hfuel => ?_⟩
        obtain ⟨fuel, rfl⟩ : ∃ k, fuel = k + 1 := ⟨fuel - 1, by omega⟩
        simp only [sendLoop, heq, hneq, if_false]
      | eagain =>
        refine ⟨.writeHalf, fun fuel hfuel => ?_⟩
        obtain ⟨fuel, rfl⟩ : ∃ k, fuel = k + 1 := ⟨fuel - 1, by omega⟩
        simp only [sendLoop, heq]
      | failed =>
        refine ⟨.writeError, fun fuel hfuel => ?_⟩
        obtain ⟨fuel, rfl⟩ : ∃ k, fuel = k + 1 := ⟨fuel - 1, by omega⟩
        simp only [sendLoop, heq]
    · obtain ⟨st, hst⟩ := ih (fun i hi => hne i (List.mem_cons_of_mem _ hi))
        (written ++ item.drop pos) outs' (.inl rfl)
      refine ⟨st, fun fuel hfuel => ?_⟩
      obtain ⟨fuel, rfl⟩ : ∃ k, fuel = k + 1 := ⟨fuel - 1, by omega⟩
      simp only [sendLoop, heq, if_true]
      exact hst fuel (by simpa using hfuel)

/-! ### An empty item -/

/-- **At an empty item the outer loop turns without end.** -/
theorem sendLoop_stuck (fuel : ℕ) (rest : List Bytes) (written : Bytes) (outs : List Sent) :
    (sendLoop fuel ⟨[] :: rest, 0⟩ written outs).2.2 = none := by
  induction fuel with
  | zero => rfl
  | succ fuel ih =>
    have heq : writeItem [] outs ⟨⟨[] :: rest, 0⟩, ([] : Bytes).length, written⟩ =
        (⟨⟨[] :: rest, 0⟩, 0, written⟩, .done, outs) := writeItem_of_eq rfl outs
    simp only [sendLoop, heq, if_true]
    exact ih

/-- The results of `write` with which all items before the empty one are written. -/
theorem sendLoop_reaches (pre : List Bytes) (hne : ∀ item ∈ pre, item ≠ []) (rest : List Bytes) :
    ∀ {pos : ℕ} (written : Bytes), Ready ⟨pre ++ [] :: rest, pos⟩ → ∀ fuel,
      (sendLoop fuel ⟨pre ++ [] :: rest, pos⟩ written
        (pre.map fun item => .wrote item.length)).2.2 = none := by
  induction pre with
  | nil =>
    intro pos written hready fuel
    obtain rfl := hready.eq_zero
    exact sendLoop_stuck fuel rest written _
  | cons item pre ih =>
    intro pos written hready fuel
    have hlt : pos < item.length := hready.lt (hne item List.mem_cons_self)
    cases fuel with
    | zero => rfl
    | succ fuel =>
      have heq : ∀ outs, writeItem item (.wrote item.length :: outs)
          ⟨⟨item :: (pre ++ [] :: rest), pos⟩, item.length, written⟩ =
            (⟨⟨pre ++ [] :: rest, 0⟩, 0, written ++ (item.drop pos).take (item.length - pos)⟩,
              .done, outs) := by
        intro outs
        have hn : min item.length (subSize item.length pos) = item.length - pos := by
          rw [subSize_of_le hlt.le]
          omega
        have hend : pos + (item.length - pos) = item.length := by omega
        simp only [writeItem, hn]
        rw [if_neg (by omega), if_neg (by omega)]
        simp only [Sending.advance, hend, if_true, List.tail_cons]
        exact writeItem_of_eq rfl outs
      simp only [List.cons_append, List.map_cons, sendLoop, heq, if_true]
      exact ih (fun i hi => hne i (List.mem_cons_of_mem _ hi)) _ (.inl rfl) fuel

/-! ### Runs -/

theorem sendLoop_ready (fuel : ℕ) : ∀ {buf : WriteBuf} {written : Bytes} (outs : List Sent),
    Ready buf → Ready (sendLoop fuel buf written outs).1 := by
  induction fuel with
  | zero => exact fun _ h => h
  | succ fuel ih =>
    intro buf written outs h
    obtain ⟨queue, pos⟩ := buf
    cases queue with
    | nil => exact h
    | cons item rest =>
      by_cases hne : item = []
      · subst hne
        obtain rfl := h.eq_zero
        have heq : writeItem [] outs ⟨⟨[] :: rest, 0⟩, ([] : Bytes).length, written⟩ =
            (⟨⟨[] :: rest, 0⟩, 0, written⟩, .done, outs) := writeItem_of_eq rfl outs
        simp only [sendLoop, heq, if_true]
        exact ih outs h
      · rcases writeItem_cases rest outs written (h.lt hne) with
          ⟨n, stop, outs', hlt', hstop, heq⟩ | ⟨outs', heq⟩
        · have hready : Ready ⟨item :: rest, pos + n⟩ := .inr ⟨item, rest, rfl, hlt'⟩
          have hneq : ¬item.length = pos + n := by omega
          cases stop with
          | done => exact absurd rfl hstop
          | zero => simpa only [sendLoop, heq, hneq, if_false] using hready
          | eagain => simpa only [sendLoop, heq] using hready
          | failed => simpa only [sendLoop, heq] using hready
        · simp only [sendLoop, heq, if_true]
          exact ih outs' (.inl rfl)

theorem push_ready {buf : WriteBuf} (m : Bytes) (h : Ready buf) : Ready (buf.push m) := by
  rcases h with h | ⟨item, rest, heq, hlt⟩
  · exact .inl h
  · exact .inr ⟨item, rest ++ [buildInternalTag m, m], by simp [WriteBuf.push, heq], hlt⟩

theorem run_ready (ops : List Replies.Op) : Ready (run Replies.step {} ops).buf := by
  have hstep : ∀ (s : Sender) (op : Replies.Op), Ready s.buf → Ready (Replies.step s op).buf := by
    rintro s (m | outs) h
    · exact push_ready m h
    · exact sendLoop_ready _ outs h
  exact run_inv_of_step (fun s : Sender => Ready s.buf) hstep (.inl rfl) ops

/-- **`SendReply` ends exactly if no item of the queue is empty**, in every state that calls of
`WriteResp` and `SendReply` lead to. -/
theorem ends_iff (ops : List Replies.Op) :
    let s := run Replies.step {} ops
    (∀ outs, Progress outs → Ends s outs) ↔ ∀ item ∈ s.buf.queue, item ≠ [] := by
  intro s
  have hready : Ready s.buf := run_ready ops
  constructor
  · rintro hall item hitem rfl
    obtain ⟨pre, rest, hq, hnot⟩ := List.eq_append_cons_of_mem hitem
    have hpre : ∀ item ∈ pre, item ≠ [] := fun item hi h => hnot (h ▸ hi)
    obtain ⟨n, st, hst⟩ := hall (pre.map fun item => .wrote item.length) (by
      intro hmem
      obtain ⟨i, hi, hlen⟩ := List.mem_map.mp hmem
      exact hpre i hi (List.length_eq_zero_iff.mp (by simpa using hlen)))
    have hbuf : s.buf = ⟨pre ++ [] :: rest, s.buf.itemPos⟩ := by rw [← hq]
    have hnone := sendLoop_reaches pre hpre rest s.written (hbuf ▸ hready) n
    have hsome := (hst n le_rfl).1
    rw [hbuf] at hsome
    rw [hsome] at hnone
    cases hnone
  · intro hne outs _
    obtain ⟨st, hst⟩ := sendLoop_returns s.buf.queue hne s.written outs hready
    refine ⟨s.buf.queue.length + 1, st, fun turns hturns => ?_⟩
    have hret : (sendLoop turns s.buf s.written outs).2.2 = some st := hst turns (by omega)
    exact ⟨hret, by rw [respMuHeld, hret]; rfl⟩

/-- A response of no bytes: `SendReply` writes the tag and turns at the empty item forever. -/
theorem empty_response_never_ends :
    let s := run Replies.step {} [.writeResp []]
    Progress [.wrote 4] ∧ ∀ turns, (sendLoop turns s.buf s.written [.wrote 4]).2.2 = none ∧
      respMuHeld s [.wrote 4] turns = true := by
  intro s
  refine ⟨by decide, fun turns => ?_⟩
  have hnone : (sendLoop turns s.buf s.written [.wrote 4]).2.2 = none :=
    sendLoop_reaches [buildInternalTag []] (by decide +kernel) [] s.written (.inl rfl) turns
  exact ⟨hnone, by rw [respMuHeld, hnone]; rfl⟩

end Pink.Pb.Ending
