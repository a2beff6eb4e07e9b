import Pink.Pb.Frames

/-! # The replies of a protobuf connection

A response becomes two items of the queue, its length and its bytes. `SendReply` writes the items
one after the other and may stop in the middle of one. What has been written is at any time a prefix
of all the items in the order in which they were accepted (`Fifo`), and all of it when `SendReply`
returns `kWriteAll` (`replies_fifo`).

The event loop calls `SendReply` only while `is_reply_` is positive, and decrements it after
`kWriteAll`. As one call may write several responses, the counter may be larger than the number of
responses not completely written, but it is never smaller (`wakeup_not_lost`): a decrement that is
still to come stands for one of them. -/

namespace Pink.Pb.Replies

open Pink.Redis.Wire Pink.Lib.Runs Pink.Pb.Conn
open Pink.Pb.Frames (encode)
open Pink.Redis.Conn (WriteStatus)

/-- The items of the responses. -/
def items (ms : List Bytes) : List Bytes := ms.flatMap fun m => [buildInternalTag m, m]

/-- The tag of a response whose length is a `uint32_t` is its length. -/
theorem flatten_items {ms : List Bytes} (hm : ∀ m ∈ ms, m.length < 2 ^ 32) :
    (items ms).flatten = ms.flatMap encode := by
  induction ms with
  | nil => rfl
  | cons m ms ih =>
    have htag : buildInternalTag m = htonl m.length := by
      rw [buildInternalTag, uint32_of_lt (hm m List.mem_cons_self)]
    have := ih fun m' h => hm m' (List.mem_cons_of_mem _ h)
    simp only [items, List.flatMap_cons, List.flatten_append, encode, htag] at this ⊢
    rw [this]
    simp

theorem length_items (ms : List Bytes) : (items ms).length = 2 * ms.length := by
  induction ms with
  | nil => rfl
  | cons m ms ih =>
    simp only [items, List.flatMap_cons, List.length_append] at ih ⊢
    rw [ih]
    simp only [List.length_cons, List.length_nil]
    omega

theorem items_take (ms : List Bytes) (n : ℕ) : items (ms.take n) = (items ms).take (2 * n) := by
  induction ms generalizing n with
  | nil => simp [items]
  | cons m ms ih =>
    cases n with
    | zero => simp [items]
    | succ n =>
      have := ih n
      simp only [items, List.take_succ_cons, List.flatMap_cons, List.cons_append, List.nil_append,
        Nat.mul_add, Nat.mul_one] at this ⊢
      rw [this]

theorem mem_items_ne_nil {ms : List Bytes} (hm : ∀ m ∈ ms, m ≠ []) : ∀ i ∈ items ms, i ≠ [] := by
  intro i hi
  obtain ⟨m, hmem, h⟩ := List.mem_flatMap.mp hi
  rcases List.mem_cons.mp h with rfl | h
  · simp [buildInternalTag, htonl]
  · rw [List.mem_singleton.mp h]
    exact hm m hmem

/-! ### The send queue -/

/-- The items of the accepted responses are those sent and those in the queue, and of the first of
these `item_pos_` bytes have been written. -/
structure Fifo (accepted sent : List Bytes) (buf : WriteBuf) (written : Bytes) : Prop where
  order : items accepted = sent ++ buf.queue
  written : written = sent.flatten ++ (buf.queue.headD []).take buf.itemPos
  empty : buf.queue = [] → buf.itemPos = 0
  itemPos : ∀ item ∈ buf.queue.head?, buf.itemPos < item.length

theorem Fifo.prefix_stream {accepted sent : List Bytes} {buf : WriteBuf} {written : Bytes}
    (h : Fifo accepted sent buf written) : written <+: (items accepted).flatten := by
  rw [h.order, h.written, List.flatten_append]
  refine (List.prefix_append_right_inj _).mpr ?_
  cases buf.queue with
  | nil => simp
  | cons item rest =>
    rw [List.flatten_cons]
    exact (List.take_prefix _ _).trans (List.prefix_append _ _)

theorem Fifo.all {accepted sent : List Bytes} {buf : WriteBuf} {written : Bytes}
    (h : Fifo accepted sent buf written) (hq : buf.queue = []) :
    written = (items accepted).flatten := by
  rw [h.order, h.written, hq]
  simp

section Send

variable {accepted : List Bytes} (hne : ∀ i ∈ items accepted, i ≠ [])
include hne

/-- A queue of whose first item nothing has been written. -/
theorem Fifo.of_front {sent rest : List Bytes} {written : Bytes}
    (hitems : items accepted = sent ++ rest) (hw : written = sent.flatten) :
    Fifo accepted sent ⟨rest, 0⟩ written := by
  refine ⟨hitems, by simpa using hw, fun _ => rfl, ?_⟩
  intro item hi
  refine List.length_pos_iff.mpr (hne item ?_)
  rw [hitems]
  exact List.mem_append_right _ (List.mem_of_mem_head? hi)

omit hne in
theorem writeItem_of_eq {item : Bytes} {x : Sending} (h : x.itemLen = x.buf.itemPos)
    (outs : List Sent) : writeItem item outs x = (x, .done, outs) := by
  cases outs with
  | nil => simp only [writeItem, if_pos h]
  | cons out outs => cases out <;> simp only [writeItem, if_pos h]

omit hne in
/-- **The inner loop** stops in the middle of the item, or takes it off the queue. -/
theorem writeItem_cases (rest : List Bytes) {item : Bytes} (outs : List Sent) {pos : ℕ}
    (written : Bytes) (hlt : pos < item.length) :
    (∃ n stop outs', pos + n < item.length ∧ stop ≠ .done ∧
      writeItem item outs ⟨⟨item :: rest, pos⟩, item.length, written⟩ =
        (⟨⟨item :: rest, pos + n⟩, item.length, written ++ (item.drop pos).take n⟩, stop, outs')) ∨
    ∃ outs', writeItem item outs ⟨⟨item :: rest, pos⟩, item.length, written⟩ =
      (⟨⟨rest, 0⟩, 0, written ++ item.drop pos⟩, .done, outs') := by
  induction outs generalizing pos written with
  | nil =>
    refine .inl ⟨0, .eagain, [], hlt, by simp, ?_⟩
    simp only [writeItem]
    rw [if_neg (by omega)]
    simp
  | cons out outs ih =>
    have hne' : ¬item.length = pos := by omega
    cases out with
    | eagain => exact .inl ⟨0, .eagain, outs, hlt, by simp, by simp [writeItem, hne']⟩
    | failed => exact .inl ⟨0, .failed, outs, hlt, by simp, by simp [writeItem, hne']⟩
    | wrote k =>
      have hcount : subSize item.length pos = item.length - pos := subSize_of_le hlt.le
      simp only [writeItem, hne', if_false, hcount]
      set n := min k (item.length - pos) with hn
      by_cases hn0 : n = 0
      · refine .inl ⟨0, .zero, outs, hlt, by simp, ?_⟩
        rw [if_pos hn0]
        simp
      · rw [if_neg hn0]
        by_cases hend : pos + n = item.length
        · have hadv : Sending.advance ⟨⟨item :: rest, pos⟩, item.length, written⟩ item n =
              ⟨⟨rest, 0⟩, 0, written ++ item.drop pos⟩ := by
            simp only [Sending.advance, hend, if_true, List.tail_cons]
            rw [List.take_of_length_le (by rw [List.length_drop]; omega)]
          rw [hadv]
          exact .inr ⟨outs, writeItem_of_eq rfl outs⟩
        · have hadv : Sending.advance ⟨⟨item :: rest, pos⟩, item.length, written⟩ item n =
              ⟨⟨item :: rest, pos + n⟩, item.length, written ++ (item.drop pos).take n⟩ := by
            simp only [Sending.advance, hend, if_false]
          rw [hadv]
          rcases ih (written ++ (item.drop pos).take n) (by omega : pos + n < item.length) with
            ⟨n', stop, outs', hlt', hstop, heq⟩ | ⟨outs', heq⟩
          · refine .inl ⟨n + n', stop, outs', by omega, hstop, heq.trans ?_⟩
            rw [List.take_add, List.drop_drop, Nat.add_assoc, List.append_assoc]
          · refine .inr ⟨outs', heq.trans ?_⟩
            rw [← List.drop_drop, List.append_assoc, List.take_append_drop]

theorem writeItem_fifo {sent rest : List Bytes} {item : Bytes} (outs : List Sent) {pos : ℕ}
    {written : Bytes} (h : Fifo accepted sent ⟨item :: rest, pos⟩ written) :
    (∃ pos' written' stop outs', Fifo accepted sent ⟨item :: rest, pos'⟩ written' ∧ stop ≠ .done ∧
      writeItem item outs ⟨⟨item :: rest, pos⟩, item.length, written⟩ =
        (⟨⟨item :: rest, pos'⟩, item.length, written'⟩, stop, outs')) ∨
    ∃ written' outs', Fifo accepted (sent ++ [item]) ⟨rest, 0⟩ written' ∧
      writeItem item outs ⟨⟨item :: rest, pos⟩, item.length, written⟩ =
        (⟨⟨rest, 0⟩, 0, written'⟩, .done, outs') := by
  have hw : written = sent.flatten ++ item.take pos := h.written
  rcases writeItem_cases rest outs written (h.itemPos item rfl) with
    ⟨n, stop, outs', hlt, hstop, heq⟩ | ⟨outs', heq⟩
  · refine .inl ⟨pos + n, _, stop, outs', ⟨h.order, ?_, by simp, ?_⟩, hstop, heq⟩
    · rw [hw, List.append_assoc, ← List.take_add]
      rfl
    · intro i hi
      obtain rfl : item = i := by simpa using hi
      exact hlt
  · refine .inr ⟨_, outs', Fifo.of_front hne ?_ ?_, heq⟩
    · rw [h.order, List.append_assoc, List.singleton_append]
    · rw [hw, List.append_assoc, List.take_append_drop, List.flatten_append]
      simp

/-- The outer loop writes items one after the other, returns, and returns `kWriteAll` when the queue
is empty. -/
theorem sendLoop_fifo {sent : List Bytes} {fuel : ℕ} {buf : WriteBuf} {written : Bytes}
    (outs : List Sent) (hfuel : buf.queue.length < fuel) (h : Fifo accepted sent buf written) :
    ∃ sent' buf' written' st, sendLoop fuel buf written outs = (buf', written', some st) ∧
      Fifo accepted sent' buf' written' ∧ buf'.queue.length ≤ buf.queue.length ∧
      (st = .writeAll → buf'.queue = []) := by
  induction fuel generalizing sent buf written outs with
  | zero => omega
  | succ fuel ih =>
    obtain ⟨queue, pos⟩ := buf
    cases queue with
    | nil => exact ⟨sent, ⟨[], pos⟩, written, .writeAll, rfl, h, le_rfl, fun _ => rfl⟩
    | cons item rest =>
      rcases writeItem_fifo hne outs h with
        ⟨pos', written', stop, outs', h', hstop, heq⟩ | ⟨written', outs', h', heq⟩
      · have hlt : pos' < item.length := h'.itemPos item rfl
        have hneq : ¬item.length = pos' := by omega
        cases stop with
        | done => exact absurd rfl hstop
        | zero =>
          exact ⟨sent, _, _, .writeHalf, by simp only [sendLoop, heq, hneq, if_false], h', le_rfl,
            by simp⟩
        | eagain =>
          exact ⟨sent, _, _, .writeHalf, by simp only [sendLoop, heq], h', le_rfl, by simp⟩
        | failed =>
          exact ⟨sent, _, _, .writeError, by simp only [sendLoop, heq], h', le_rfl, by simp⟩
      · obtain ⟨sent'', buf'', written'', st, heq', h'', hle, hst⟩ :=
          ih outs' (by simpa using hfuel) h'
        exact ⟨sent'', buf'', written'', st, by simp only [sendLoop, heq, if_true, heq'], h'',
          hle.trans (Nat.le_succ _), hst⟩

end Send

/-- `WriteResp` appends the items of the response. -/
theorem Fifo.push {accepted sent : List Bytes} {buf : WriteBuf} {written m : Bytes}
    (h : Fifo accepted sent buf written) : Fifo (accepted ++ [m]) sent (buf.push m) written := by
  have hitems : items (accepted ++ [m]) = items accepted ++ [buildInternalTag m, m] := by
    simp [items]
  obtain ⟨queue, pos⟩ := buf
  cases queue with
  | nil =>
    obtain rfl : pos = 0 := h.empty rfl
    refine ⟨by rw [hitems, h.order]; simp [WriteBuf.push], by rw [h.written]; rfl,
      by simp [WriteBuf.push], ?_⟩
    intro item hi
    obtain rfl : buildInternalTag m = item := by simpa [WriteBuf.push] using hi
    exact Nat.zero_lt_succ _
  | cons item rest =>
    refine ⟨by rw [hitems, h.order, List.append_assoc]; rfl, by rw [h.written]; rfl,
      by simp [WriteBuf.push], h.itemPos⟩

/-- A connection's send queue, with the responses accepted and the bytes written so far. -/
structure Sender where
  buf : WriteBuf := {}
  accepted : List Bytes := []
  written : Bytes := []
  deriving DecidableEq, Repr

inductive Op
  | writeResp (m : Bytes)
  | sendReply (outs : List Sent)
  deriving DecidableEq, Repr

def Sender.writeResp (s : Sender) (m : Bytes) : Sender :=
  { s with buf := s.buf.push m, accepted := s.accepted ++ [m] }

def Sender.sendReply (s : Sender) (outs : List Sent) : Sender × Option WriteStatus :=
  let r := Conn.sendReply s.buf s.written outs
  ({ s with buf := r.1, written := r.2.1 }, r.2.2)

def step (s : Sender) : Op → Sender
  | .writeResp m => s.writeResp m
  | .sendReply outs => (s.sendReply outs).1

/-- The response that a call of `WriteResp` accepts. -/
def Op.response : Op → Option Bytes
  | .writeResp m => some m
  | .sendReply _ => none

/-- Responses are not empty. -/
def Op.Ok : Op → Prop
  | .writeResp m => m ≠ []
  | .sendReply _ => True

instance : DecidablePred Op.Ok := fun op => by cases op <;> unfold Op.Ok <;> infer_instance

/-- The responses accepted are not empty, and the queue is in order. -/
def Sender.Inv (s : Sender) : Prop :=
  (∀ m ∈ s.accepted, m ≠ []) ∧ ∃ sent, Fifo s.accepted sent s.buf s.written

theorem Sender.writeResp_inv {s : Sender} {m : Bytes} (hm : m ≠ []) (h : s.Inv) :
    (s.writeResp m).Inv := by
  obtain ⟨hs, sent, hf⟩ := h
  refine ⟨?_, sent, hf.push⟩
  intro m' hm'
  rcases List.mem_append.mp hm' with hm' | hm'
  · exact hs m' hm'
  · rw [List.mem_singleton.mp hm']
    exact hm

theorem Sender.sendReply_inv {s : Sender} (h : s.Inv) (outs : List Sent) :
    (s.sendReply outs).1.Inv ∧ (s.sendReply outs).1.accepted = s.accepted ∧
      (s.sendReply outs).1.buf.queue.length ≤ s.buf.queue.length ∧
      ∃ st, (s.sendReply outs).2 = some st ∧
        (st = .writeAll → (s.sendReply outs).1.buf.queue = []) := by
  obtain ⟨hs, sent, hf⟩ := h
  obtain ⟨sent', buf', written', st, heq, hf', hle, hst⟩ :=
    sendLoop_fifo (mem_items_ne_nil hs) outs (Nat.lt_succ_self _) hf
  have hr : s.sendReply outs = ({ s with buf := buf', written := written' }, some st) := by
    simp only [Sender.sendReply, Conn.sendReply, heq]
  rw [hr]
  exact ⟨⟨hs, sent', hf'⟩, rfl, hle, st, rfl, hst⟩

theorem run_sender {ops : List Op} (hops : ∀ op ∈ ops, op.Ok) : (run step {} ops).Inv := by
  refine run_inv_of_forall Sender.Inv ?_ ?_ hops
  · rintro s (m | outs) h hop
    · exact Sender.writeResp_inv hop h
    · exact (Sender.sendReply_inv h outs).1
  · exact ⟨by simp, [], rfl, rfl, fun _ => rfl, by simp⟩

theorem accepted_lt {ops : List Op} (hops : ∀ m, Op.writeResp m ∈ ops → m.length < 2 ^ 32) :
    ∀ m ∈ (run step {} ops).accepted, m.length < 2 ^ 32 := by
  have hguard : ∀ op ∈ ops, ∀ m, op = .writeResp m → m.length < 2 ^ 32 := by
    rintro op hop m rfl
    exact hops m hop
  refine run_inv_of_forall (fun s : Sender => ∀ m ∈ s.accepted, m.length < 2 ^ 32) ?_ (by simp)
    hguard
  rintro s (m | outs) h hop
  · intro m' hm'
    rcases List.mem_append.mp hm' with hm' | hm'
    · exact h m' hm'
    · rw [List.mem_singleton.mp hm']
      exact hop m rfl
  · exact h

theorem accepted_eq (ops : List Op) :
    (run step ({} : Sender) ops).accepted = ops.filterMap Op.response := by
  refine run_log Sender.accepted Op.response ?_ {} ops
  rintro s (m | outs)
  · rfl
  · exact (List.append_nil _).symm

/-- **The send queue is a stream.** After any calls of `WriteResp` and `SendReply` the responses
accepted are those of the calls of `WriteResp` in order, the bytes written are a prefix of their
frames, `item_pos_` is inside the first item, and `SendReply` returns `kWriteAll` only when all has
been written. -/
theorem replies_fifo (ops : List Op) (hops : ∀ op ∈ ops, op.Ok)
    (hlen : ∀ m, Op.writeResp m ∈ ops → m.length < 2 ^ 32) :
    let s := run step {} ops
    s.accepted = ops.filterMap Op.response ∧
    s.written <+: s.accepted.flatMap encode ∧
    (∀ item ∈ s.buf.queue.head?, s.buf.itemPos ≤ item.length) ∧
    ∀ outs, ∃ st, (s.sendReply outs).2 = some st ∧
      (st = .writeAll → (s.sendReply outs).1.written = s.accepted.flatMap encode) := by
  intro s
  obtain ⟨hs, sent, hf⟩ : s.Inv := run_sender hops
  rw [← flatten_items (accepted_lt hlen)]
  refine ⟨accepted_eq ops, hf.prefix_stream, fun item hi => (hf.itemPos item hi).le, fun outs => ?_⟩
  obtain ⟨⟨-, sent', hf'⟩, hacc, -, st, hst, hall⟩ := Sender.sendReply_inv ⟨hs, sent, hf⟩ outs
  refine ⟨st, hst, fun hst' => ?_⟩
  rw [hf'.all (hall hst'), hacc]

theorem replies_fifo_two :
    let s := run step {} [.writeResp [1, 2], .sendReply [.wrote 5], .writeResp [3]]
    s.accepted = [[1, 2], [3]] ∧ s.written <+: s.accepted.flatMap encode ∧
    (∀ item ∈ s.buf.queue.head?, s.buf.itemPos ≤ item.length) ∧
    ∀ outs, ∃ st, (s.sendReply outs).2 = some st ∧
      (st = .writeAll → (s.sendReply outs).1.written = s.accepted.flatMap encode) :=
  replies_fifo [.writeResp [1, 2], .sendReply [.wrote 5], .writeResp [3]] (by decide) (by simp)

/-! ### Waking the event loop -/

/-- How far the event loop is with its write event: before the test of `is_reply()`, between a test
that succeeded and `SendReply`, or between a `SendReply` that returned `kWriteAll` and
`set_is_reply(false)`. -/
inductive Loop
  | idle | tested | drained
  deriving DecidableEq, Repr

/-- A connection whose responses are written by any number of threads. `writer` is the thread that
holds `resp_mu_` in `WriteResp`, with whether it has counted its response. -/
structure Machine where
  sender : Sender := {}
  isReply : ℤ := 0
  writer : Option (ℕ × Bool) := none
  loop : Loop := .idle
  deriving DecidableEq, Repr

/-- The sections of `WriteResp` and of the event loop. -/
inductive Label
  /-- `WriteResp` takes `resp_mu_` and pushes the items of the response. -/
  | push (thread : ℕ) (m : Bytes)
  /-- `set_is_reply(true)` in `WriteResp`. -/
  | count (thread : ℕ)
  /-- `WriteResp` gives `resp_mu_` back. -/
  | unlock (thread : ℕ)
  /-- `is_reply()` in the event loop. -/
  | test
  /-- `SendReply`, which holds `resp_mu_`. -/
  | sendReply (outs : List Sent)
  /-- `set_is_reply(false)` in the event loop. -/
  | clear
  deriving DecidableEq, Repr

/-- One section. A section that cannot be entered, as its mutex is taken or its thread is somewhere
else, changes nothing. After an error the loop closes the connection; that it goes on to serve it
instead only adds runs. -/
def enter (s : Machine) : Label → Machine
  | .push t m =>
    if s.writer = none then { s with sender := s.sender.writeResp m, writer := some (t, false) }
    else s
  | .count t =>
    if s.writer = some (t, false) then
      { s with isReply := setIsReply s.isReply true, writer := some (t, true) }
    else s
  | .unlock t => if s.writer = some (t, true) then { s with writer := none } else s
  | .test => if s.loop = .idle ∧ 0 < s.isReply then { s with loop := .tested } else s
  | .sendReply outs =>
    if s.loop = .tested ∧ s.writer = none then
      let r := s.sender.sendReply outs
      { s with sender := r.1, loop := if r.2 = some .writeAll then .drained else .idle }
    else s
  | .clear =>
    if s.loop = .drained then { s with isReply := setIsReply s.isReply false, loop := .idle } else s

/-- Responses are not empty. -/
def Label.Ok : Label → Prop
  | .push _ m => m ≠ []
  | _ => True

instance : DecidablePred Label.Ok := fun l => by cases l <;> unfold Label.Ok <;> infer_instance

/-- The number of responses not completely written. -/
def unsent (s : Sender) : ℕ :=
  (List.range s.accepted.length).countP fun i =>
    decide (s.written.length < (items (s.accepted.take (i + 1))).flatten.length)

theorem countP_range (k a : ℕ) :
    (List.range a).countP (fun i => decide (k < 2 * (i + 1))) = a - k / 2 := by
  induction a with
  | zero => simp
  | succ a ih =>
    rw [List.range_succ, List.countP_append, ih, List.countP_singleton]
    by_cases h : k < 2 * (a + 1)
    · simp only [h, decide_true, if_true]
      omega
    · simp only [h, decide_false, Bool.false_eq_true, if_false]
      omega

/-- The first `n` items have been written when they have been taken off the queue. -/
theorem Fifo.length_lt_iff {accepted sent : List Bytes} {buf : WriteBuf} {written : Bytes}
    (h : Fifo accepted sent buf written) {n : ℕ} (hn : n ≤ (items accepted).length) :
    written.length < ((items accepted).take n).flatten.length ↔ sent.length < n := by
  constructor
  · intro hlt
    by_contra hle
    have hpre : (items accepted).take n <+: sent := by
      rw [h.order, List.take_append_of_le_length (by omega)]
      exact List.take_prefix _ _
    have := hpre.flatten.length_le
    rw [h.written, List.length_append] at hlt
    omega
  · intro hlt
    rw [h.order, List.length_append] at hn
    obtain ⟨item, rest, hq⟩ : ∃ item rest, buf.queue = item :: rest := by
      cases hq : buf.queue with
      | nil =>
        rw [hq, List.length_nil] at hn
        omega
      | cons item rest => exact ⟨item, rest, rfl⟩
    have hpos := h.itemPos item (by rw [hq]; rfl)
    have hpre : sent ++ [item] <+: (items accepted).take n := by
      have : sent ++ [item] <+: items accepted := ⟨rest, by rw [h.order, hq]; simp⟩
      exact List.prefix_take_iff.mpr ⟨this, by simpa using hlt⟩
    have hle := hpre.flatten.length_le
    rw [h.written, hq, List.length_append, List.headD_cons, List.length_take]
    simp only [List.flatten_append, List.flatten_cons, List.flatten_nil, List.append_nil,
      List.length_append] at hle
    omega

/-- A response is not completely written as long as its second item is in the queue. -/
theorem Sender.Inv.unsent_eq {s : Sender} (h : s.Inv) :
    unsent s = (s.buf.queue.length + 1) / 2 := by
  obtain ⟨-, sent, hf⟩ := h
  have hlen : 2 * s.accepted.length = sent.length + s.buf.queue.length := by
    rw [← length_items, hf.order, List.length_append]
  have hcount : unsent s = (List.range s.accepted.length).countP
      (fun i => decide (sent.length < 2 * (i + 1))) := by
    refine List.countP_congr fun i hi => ?_
    have hi' := List.mem_range.mp hi
    rw [decide_eq_true_iff, decide_eq_true_iff, items_take]
    exact hf.length_lt_iff (by rw [length_items]; omega)
  rw [hcount, countP_range]
  omega

/-- The response that a thread has pushed and not counted. -/
def Machine.uncounted (s : Machine) : ℤ :=
  match s.writer with
  | some (_, false) => 1
  | _ => 0

/-- The decrement that is still to come. -/
def Machine.pending (s : Machine) : ℤ := if s.loop = .drained then 1 else 0

structure Machine.Inv (s : Machine) : Prop where
  sender : s.sender.Inv
  counter : unsent s.sender + s.pending ≤ s.isReply + s.uncounted
  positive : s.loop ≠ .idle → 0 < s.isReply
  nonneg : 0 ≤ s.isReply

theorem Sender.Inv.unsent_writeResp {s : Sender} {m : Bytes} (hm : m ≠ []) (h : s.Inv) :
    unsent (s.writeResp m) = unsent s + 1 := by
  rw [(Sender.writeResp_inv hm h).unsent_eq, h.unsent_eq]
  simp only [Sender.writeResp, WriteBuf.push, List.length_append, List.length_cons, List.length_nil]
  omega

theorem Sender.Inv.unsent_sendReply {s : Sender} (h : s.Inv) (outs : List Sent) :
    unsent (s.sendReply outs).1 ≤ unsent s ∧
      ((s.sendReply outs).2 = some .writeAll → unsent (s.sendReply outs).1 = 0) := by
  obtain ⟨hinv, -, hle, st, hst, hall⟩ := Sender.sendReply_inv h outs
  constructor
  · rw [hinv.unsent_eq, h.unsent_eq]
    omega
  · intro hw
    rw [hst, Option.some.injEq] at hw
    rw [hinv.unsent_eq, hall hw]
    rfl

/-- **One section keeps the counter large enough.** -/
theorem Machine.Inv.enter {s : Machine} {l : Label} (hl : l.Ok) (h : s.Inv) : (enter s l).Inv := by
  have hcounter := h.counter
  have hnonneg := h.nonneg
  cases l with
  | push t m =>
    dsimp only [Replies.enter]
    split_ifs with hw
    · refine ⟨Sender.writeResp_inv hl h.sender, ?_, h.positive, h.nonneg⟩
      have := h.sender.unsent_writeResp hl
      simp only [Machine.pending, Machine.uncounted, hw] at hcounter ⊢
      omega
    · exact h
  | count t =>
    dsimp only [Replies.enter]
    split_ifs with hw
    · have hset : setIsReply s.isReply true = s.isReply + 1 := by
        simp only [setIsReply, if_true]
        exact if_neg (by omega)
      refine ⟨h.sender, ?_, fun _ => ?_, ?_⟩
      · simp only [Machine.pending, Machine.uncounted, hw, hset] at hcounter ⊢
        omega
      · show 0 < setIsReply s.isReply true
        omega
      · show 0 ≤ setIsReply s.isReply true
        omega
    · exact h
  | unlock t =>
    dsimp only [Replies.enter]
    split_ifs with hw
    · refine ⟨h.sender, ?_, h.positive, h.nonneg⟩
      simp only [Machine.pending, Machine.uncounted, hw] at hcounter ⊢
      exact hcounter
    · exact h
  | test =>
    dsimp only [Replies.enter]
    split_ifs with hw
    · refine ⟨h.sender, ?_, fun _ => hw.2, h.nonneg⟩
      simp only [Machine.pending, Machine.uncounted, hw.1] at hcounter ⊢
      exact hcounter
    · exact h
  | sendReply outs =>
    dsimp only [Replies.enter]
    by_cases hw : s.loop = .tested ∧ s.writer = none
    · rw [if_pos hw]
      have hpos := h.positive (by rw [hw.1]; simp)
      obtain ⟨hle, hall⟩ := h.sender.unsent_sendReply outs
      refine ⟨(Sender.sendReply_inv h.sender outs).1, ?_, fun _ => hpos, h.nonneg⟩
      simp only [Machine.pending, Machine.uncounted, hw.1, hw.2, reduceCtorEq, if_false] at hcounter ⊢
      by_cases hst : (s.sender.sendReply outs).2 = some .writeAll
      · -- all responses are written, and the decrement to come is matched by the counter tested
        have := hall hst
        simp only [hst, if_true]
        omega
      · simp only [hst, if_false, reduceCtorEq]
        omega
    · rw [if_neg hw]
      exact h
  | clear =>
    dsimp only [Replies.enter]
    split_ifs with hw
    · have hpos := h.positive (by rw [hw]; simp)
      have hset : setIsReply s.isReply false = s.isReply - 1 := by
        simp only [setIsReply, Bool.false_eq_true, if_false]
        exact if_neg (by omega)
      refine ⟨h.sender, ?_, fun hne => absurd rfl hne, ?_⟩
      · simp only [Machine.pending, Machine.uncounted, hw, hset, if_true, reduceCtorEq,
          if_false] at hcounter ⊢
        omega
      · show 0 ≤ setIsReply s.isReply false
        omega
    · exact h

/-- **No reply is left without a wake-up.** In every state in which no `WriteResp` is in progress,
the counter is at least the number of responses not completely written, and it is positive when the
queue is not empty; a `WriteResp` that takes `resp_mu_` then adds its response. -/
theorem wakeup_not_lost (ls : List Label) (hls : ∀ l ∈ ls, l.Ok) :
    let s := run enter {} ls
    s.writer = none → unsent s.sender ≤ s.isReply ∧ (s.sender.buf.queue ≠ [] → 0 < s.isReply) ∧
      ∀ t m, (enter s (.push t m)).sender.accepted = s.sender.accepted ++ [m] := by
  intro s hw
  have h : s.Inv := by
    have hstart : (run step {} []).Inv := run_sender (by simp)
    have hstep : ∀ s l, s.Inv → l.Ok → (enter s l).Inv := fun _ _ hs hl => hs.enter hl
    refine run_inv_of_forall Machine.Inv hstep ?_ hls
    exact ⟨hstart, by decide, by simp, le_rfl⟩
  have hcounter := h.counter
  have hpending : 0 ≤ s.pending := by unfold Machine.pending; split_ifs <;> omega
  simp only [Machine.uncounted, hw] at hcounter
  refine ⟨by omega, fun hq => ?_, fun t m => ?_⟩
  · have hunsent := h.sender.unsent_eq
    have := List.length_pos_iff.mpr hq
    omega
  · simp only [enter, if_pos hw, Sender.writeResp]

theorem wakeup_not_lost_overlap :
    let s := run enter {} [.push 1 [7], .count 1, .unlock 1, .test, .sendReply [.wrote 9, .wrote 9],
      .push 2 [8], .clear, .count 2, .unlock 2]
    s.sender.accepted = [[7], [8]] ∧ s.writer = none ∧ unsent s.sender ≤ s.isReply ∧
      (s.sender.buf.queue ≠ [] → 0 < s.isReply) ∧
      ∀ t m, (enter s (.push t m)).sender.accepted = s.sender.accepted ++ [m] :=
  ⟨by decide +kernel, by decide +kernel, wakeup_not_lost _ (by decide) (by decide +kernel)⟩

end Pink.Pb.Replies
