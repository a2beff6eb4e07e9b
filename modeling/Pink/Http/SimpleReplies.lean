import Pink.Http.Prints

/-! # Sending a response of a simple connection

`SendReply` fills `wbuf_` at the start of every call, behind what has not been sent yet, and again
whenever all of it has been sent. In between, what has been written and what is in the buffer are
together the head and the body up to `response_pos_` (`Filled`), and the buffer is full unless the body
is in it to the end, so that the loop ends with an empty buffer exactly when all has been written.

`response_pos_` is an `int`, which overflows in a body of `2 ^ 31` bytes, and a head that takes the
whole buffer ends in the terminating zero; apart from these two, a response is sent as it should be
(`sentOnce_iff`). -/

namespace Pink.Http.SimpleReplies

open Pink.Redis.Wire Pink.Lib.Runs Pink.Http.SimpleConn Pink.Http.Prints
open Pink.Pb.Conn (store uint32 sub32 uint32_of_lt sub32_of_le take_store le_length_store)
open Pink.Pb.Conn (Sent)
open Pink.Redis.Conn (WriteStatus)

/-! ### The run -/

/-- A response being sent: what has been written, and whether `kWriteAll` has been returned. -/
structure Replying where
  conn : SimpleHTTPConn
  out : Bytes := []
  finished : Bool := false

/-- A call of `SendReply`, of which there are no more after `kWriteAll`. -/
def replyStep (s : Replying) (outs : List Sent) : Replying :=
  if s.finished then s
  else
    match sendReply s.conn outs with
    | none => s
    | some (x, st) => ⟨x.conn, s.out ++ x.out, decide (st = .writeAll)⟩

/-- Nothing of a response is in the buffer, and the next one begins with its head. -/
structure Ready (c : SimpleHTTPConn) : Prop where
  pos : c.responsePos = -1
  len : c.wbufLen = 0
  cursor : c.wbufPos = 0

/-- Writes of some bytes, or `EAGAIN`. -/
def Writes (outs : List Sent) : Prop := .failed ∉ outs ∧ .wrote 0 ∉ outs

/-- **A call of `SendReply` sends further what is to be sent**, with the cursors in order. -/
structure GoodCall (full : Bytes) (s : Replying) (x : Sending) (st : WriteStatus) : Prop where
  cursors : ∀ w ∈ x.writes, w.1 ≤ w.2 ∧ w.2 ≤ kHTTPMaxMessage
  cursor : x.conn.wbufPos ≤ x.conn.wbufLen ∧ x.conn.wbufLen ≤ kHTTPMaxMessage
  sent : s.out ++ x.out <+: full
  all : st = .writeAll ↔ s.out ++ x.out = full
  ready : st = .writeAll → Ready x.conn

/-- **The response of a connection is written exactly once**, whatever is written by each write of
each call. -/
def SentOnce (c : SimpleHTTPConn) : Prop :=
  ∀ ops : List (List Sent), (∀ outs ∈ ops, Writes outs) →
    Guarded replyStep
      (fun s outs => s.finished = false →
        ∃ x st, sendReply s.conn outs = some (x, st) ∧
          GoodCall (arrayHead c.response ++ c.response.body) s x st)
      { conn := c } ops

/-! ### Filling the buffer -/

/-- What has been written and what is in the buffer are the head and the first `p` bytes of the
body. -/
structure Filled (head body : Bytes) (p : ℕ) (c : SimpleHTTPConn) (out : Bytes) : Prop where
  pos : c.responsePos = p
  le : p ≤ body.length
  same : c.response.body = body
  content : out ++ (c.wbuf.take c.wbufLen).drop c.wbufPos = head ++ body.take p
  len_le : c.wbufLen ≤ kHTTPMaxMessage
  stored : c.wbufLen ≤ c.wbuf.length
  cursor : c.wbufPos < c.wbufLen ∨ c.wbufPos = 0 ∧ c.wbufLen = 0

/-- The buffer is full, or the body is in it to the end. -/
def Full (body : Bytes) (p : ℕ) (c : SimpleHTTPConn) : Prop :=
  c.wbufLen = kHTTPMaxMessage ∨ p = body.length

section Fill

variable {head body out : Bytes} {p : ℕ} {c : SimpleHTTPConn}

theorem Filled.cursor_le (h : Filled head body p c out) : c.wbufPos ≤ c.wbufLen := by
  rcases h.cursor with hlt | ⟨hpos, hlen⟩ <;> omega

/-- What has been written is a prefix of the response. -/
theorem Filled.out_le (h : Filled head body p c out) : out <+: head ++ body := by
  have hpre : out <+: head ++ body.take p := ⟨_, h.content⟩
  exact hpre.trans ((List.prefix_append_right_inj _).mpr (List.take_prefix _ _))

/-- While something is in the buffer, not all has been written. -/
theorem Filled.ne (h : Filled head body p c out) (hlt : c.wbufPos < c.wbufLen) :
    out ≠ head ++ body := by
  rintro rfl
  have hlen := congrArg List.length h.content
  have hstored := h.stored
  simp only [List.length_append, List.length_drop, List.length_take] at hlen
  omega

/-- With an empty and full buffer, all has been written. -/
theorem Filled.eq (h : Filled head body p c out) (hfull : Full body p c) (hlen : c.wbufLen = 0) :
    out = head ++ body := by
  have hp : p = body.length := by
    rcases hfull with hmax | hp
    · rw [hlen] at hmax
      exact absurd hmax (by decide)
    · exact hp
  have hcontent := h.content
  rwa [hlen, List.take_zero, List.drop_nil, List.append_nil, hp, List.take_length] at hcontent

/-- **The loop of `FillResponseBuf`** fills the buffer, or takes the body to its end. -/
theorem fillBody_filled (h : Filled head body p c out) (hbody : body.length < 2 ^ 31) :
    ∃ c' p', fillBody c = some c' ∧ Filled head body p' c' out ∧ Full body p' c' := by
  have hp : c.responsePos.toNat = p := by rw [h.pos]; rfl
  have hle := h.le
  have hcursor := h.cursor_le
  have hlen := h.len_le
  rw [fillBody, h.same, hp]
  by_cases hmore : p < body.length ∧ c.wbufLen < kHTTPMaxMessage
  · obtain ⟨hlt, hroom⟩ := hmore
    have hcount : bodyCount c = min (kHTTPMaxMessage - c.wbufLen) (body.length - p) := by
      rw [bodyCount, h.same, hp]
    have hint : c.responsePos + bodyCount c < 2 ^ 31 := by
      rw [h.pos, hcount]
      omega
    rw [if_pos ⟨hlt, hroom⟩, if_pos hint]
    have hchunk : ((body.drop p).take (bodyCount c)).length = bodyCount c := by
      rw [List.length_take, List.length_drop, hcount]
      omega
    have htake := @take_store _ ((body.drop p).take (bodyCount c)) _ h.stored
    have hstored := @le_length_store _ ((body.drop p).take (bodyCount c)) _ h.stored
    rw [hchunk] at htake hstored
    refine ⟨_, p + bodyCount c, rfl, ⟨?_, ?_, h.same, ?_, ?_, hstored, ?_⟩, ?_⟩
    · rw [h.pos]
      rfl
    · rw [hcount]
      omega
    · dsimp only
      rw [htake, List.drop_append_of_le_length (by rw [List.length_take]; have := h.stored; omega),
        ← List.append_assoc, h.content, List.append_assoc, List.take_add]
    · dsimp only
      rw [hcount]
      omega
    · left
      dsimp only
      rw [hcount]
      omega
    · rw [Full, hcount]
      dsimp only
      omega
  · rw [if_neg hmore]
    refine ⟨c, p, rfl, h, ?_⟩
    rw [Full]
    omega

/-- Between the head and its end, `FillResponseBuf` fills in the body only. -/
theorem fillResponseBuf_filled (h : Filled head body p c out) (hbody : body.length < 2 ^ 31) :
    ∃ c' p', fillResponseBuf c = some (c', true) ∧ Filled head body p' c' out ∧
      Full body p' c' := by
  obtain ⟨c', p', hfill, hfilled, hfull⟩ := fillBody_filled h hbody
  have hhead : fillHead c = (c, true) := by
    rw [fillHead, if_neg]
    rw [h.pos]
    omega
  refine ⟨c', p', ?_, hfilled, hfull⟩
  rw [fillResponseBuf, hhead]
  dsimp only
  rw [hfill]
  rfl

/-- The first bytes of the buffer and the cursors after the head has been serialized. -/
theorem fillHead_ready {r : Response} (hready : Ready c) (hr : c.response = r)
    (hfits : (arrayHead r).length ≤ kHTTPMaxMessage) :
    ∃ c', fillHead c = (c', true) ∧ c'.responsePos = 0 ∧ c'.response.body = r.body ∧
      c'.wbufPos = 0 ∧ c'.wbufLen = (arrayHead r).length ∧ c'.wbufLen ≤ c'.wbuf.length ∧
      c'.wbuf.take c'.wbufLen =
        if (arrayHead r).length = kHTTPMaxMessage then (arrayLines r).flatten ++ [CR, 0]
        else arrayHead r := by
  have hlen : (arrayHead r).length = (arrayLines r).flatten.length + 2 := by
    rw [arrayHead, List.length_append]
    rfl
  have hlt : (arrayLines r).flatten.length < kHTTPMaxMessage := by omega
  have hmax : kHTTPMaxMessage < 2 ^ 31 := by decide
  obtain ⟨y, hy, hprint⟩ := serializeHeaderToArray_end r hmax hlt
  have hactual : (printLines kHTTPMaxMessage [] y).1 = (arrayHead r).length := by
    rw [printLines, Printing.print, hlen, hy.pos]
    rfl
  have hsize : sub32 kHTTPMaxMessage 0 = kHTTPMaxMessage := by
    rw [sub32_of_le (Nat.zero_le _) (by omega)]
    rfl
  have hbody : r.withLength.body = r.body := by
    rw [Response.withLength]
    split_ifs <;> rfl
  -- what the last print leaves in the array
  have hdata : (printLines kHTTPMaxMessage [] y).2.data.take (arrayHead r).length =
      (if (arrayHead r).length = kHTTPMaxMessage then (arrayLines r).flatten ++ [CR, 0]
        else arrayHead r) ∧
      (arrayHead r).length ≤ (printLines kHTTPMaxMessage [] y).2.data.length := by
    by_cases hend : (arrayHead r).length = kHTTPMaxMessage
    · obtain ⟨htake, hle⟩ := printEnd_data hy hend
      rw [if_pos hend, hend]
      exact ⟨htake, hle⟩
    · have hlast := @print_printed _ _ _ hy [CR, LF] (by
        rw [← List.length_append, ← arrayHead]
        omega)
      rw [if_neg hend]
      exact ⟨hlast.data, hlast.le⟩
  obtain ⟨hdata, hle⟩ := hdata
  have hstore : store c.wbuf 0 (printLines kHTTPMaxMessage [] y).2.data =
      (printLines kHTTPMaxMessage [] y).2.data ++
        c.wbuf.drop (printLines kHTTPMaxMessage [] y).2.data.length := by
    rw [store, List.take_zero, List.nil_append, Nat.zero_add]
  have hfill : fillHead c = ({ c with
      response := r.withLength
      wbuf := store c.wbuf 0 (printLines kHTTPMaxMessage [] y).2.data
      wbufLen := (arrayHead r).length
      responsePos := 0 }, true) := by
    have hnone : c.responsePos < 0 := by rw [hready.pos]; decide
    rw [fillHead, if_pos hnone, hready.len, hsize, hr, hprint]
    dsimp only
    rw [hactual, if_neg (not_lt.mpr (Int.natCast_nonneg _)), Int.toNat_natCast, Nat.zero_add,
      uint32_of_lt (by omega)]
  refine ⟨_, hfill, rfl, hbody, hready.cursor, rfl, ?_, ?_⟩
  · dsimp only
    rw [hstore, List.length_append]
    omega
  · dsimp only
    rw [hstore, List.take_append_of_le_length hle, hdata]

/-- The first `FillResponseBuf` of a response. -/
theorem fillHead_filled {r : Response} (hready : Ready c) (hr : c.response = r)
    (hfits : (arrayHead r).length < kHTTPMaxMessage) :
    ∃ c', fillHead c = (c', true) ∧ Filled (arrayHead r) r.body 0 c' [] := by
  obtain ⟨c', hfill, hpos, hbody, hcursor, hlen, hstored, hdata⟩ := fillHead_ready hready hr hfits.le
  rw [if_neg hfits.ne] at hdata
  have hne : 0 < (arrayHead r).length := by
    rw [arrayHead, List.length_append]
    exact Nat.lt_add_left _ (by decide)
  refine ⟨c', hfill, hpos, Nat.zero_le _, hbody, ?_, ?_, hstored, ?_⟩
  · rw [hdata, hcursor, List.drop_zero, List.nil_append, List.take_zero, List.append_nil]
  · rw [hlen]
    exact hfits.le
  · rw [hcursor, hlen]
    exact .inl hne

end Fill

/-! ### The loop of `SendReply` -/

section Loop

variable {head body : Bytes}

/-- What has been written by a call, with the cursors in order. -/
structure Wrote (head body : Bytes) (p : ℕ) (out : Bytes) (x : Sending) : Prop where
  filled : Filled head body p x.conn (out ++ x.out)
  full : Full body p x.conn
  cursors : ∀ w ∈ x.writes, w.1 ≤ w.2 ∧ w.2 ≤ kHTTPMaxMessage

/-- A write of some of the bytes in the buffer. -/
theorem write_filled {p : ℕ} {out : Bytes} {x : Sending} (h : Wrote head body p out x) {n : ℕ}
    (hn : n ≤ x.conn.wbufLen - x.conn.wbufPos) :
    out ++ (x.write n).out ++ (x.conn.wbuf.take x.conn.wbufLen).drop (x.conn.wbufPos + n) =
        head ++ body.take p ∧
      ∀ w ∈ (x.write n).writes, w.1 ≤ w.2 ∧ w.2 ≤ kHTTPMaxMessage := by
  have hle := h.filled.cursor_le
  constructor
  · have hchunk : (x.conn.wbuf.drop x.conn.wbufPos).take n =
        ((x.conn.wbuf.take x.conn.wbufLen).drop x.conn.wbufPos).take n := by
      rw [List.drop_take, List.take_take, Nat.min_eq_left hn]
    rw [Sending.write]
    dsimp only
    rw [hchunk, ← List.drop_drop, ← List.append_assoc, List.append_assoc (out ++ x.out),
      List.take_append_drop]
    exact h.filled.content
  · intro w hw
    rw [Sending.write] at hw
    rcases List.mem_append.mp hw with hw | hw
    · exact h.cursors w hw
    · obtain rfl := List.mem_singleton.mp hw
      exact ⟨hle, h.filled.len_le⟩

/-- How a call ends: all has been written, or some of it is left. -/
inductive Ended (head body out : Bytes) (x : Sending) : WriteStatus → Prop
  | all (hout : out ++ x.out = head ++ body) (hready : Ready x.conn) : Ended head body out x .writeAll
  | half (p : ℕ) (hfilled : Filled head body p x.conn (out ++ x.out))
      (hlt : x.conn.wbufPos < x.conn.wbufLen) : Ended head body out x .writeHalf

/-- A call that ends because the kernel takes no more. -/
theorem write_ended {p : ℕ} {out : Bytes} {x : Sending} (h : Wrote head body p out x)
    (hne : x.conn.wbufLen ≠ 0) :
    Ended head body out (x.write 0) .writeHalf ∧
      ∀ w ∈ (x.write 0).writes, w.1 ≤ w.2 ∧ w.2 ≤ kHTTPMaxMessage := by
  have hlt : x.conn.wbufPos < x.conn.wbufLen := by
    rcases h.filled.cursor with hlt | ⟨-, hlen⟩
    · exact hlt
    · exact absurd hlen hne
  obtain ⟨hcontent, hcursors⟩ := write_filled h (Nat.zero_le _)
  refine ⟨.half p ?_ hlt, hcursors⟩
  exact ⟨h.filled.pos, h.filled.le, h.filled.same, hcontent, h.filled.len_le, h.filled.stored, .inl hlt⟩

/-- A call that ends because the buffer is empty. -/
theorem empty_ended {p : ℕ} {out : Bytes} {x : Sending} (h : Wrote head body p out x)
    (hzero : x.conn.wbufLen = 0) (outs : List Sent) :
    ∃ y st, sendLoop outs x = some (y, st) ∧ Ended head body out y st ∧
      ∀ w ∈ y.writes, w.1 ≤ w.2 ∧ w.2 ≤ kHTTPMaxMessage := by
  have hle := h.filled.cursor_le
  have hpos : x.conn.wbufPos = 0 := by omega
  refine ⟨{ x with conn := { x.conn with responsePos := -1 } }, .writeAll, ?_,
    .all (h.filled.eq h.full hzero) ⟨rfl, hzero, hpos⟩, h.cursors⟩
  rw [sendLoop.eq_def]
  exact if_pos hzero

theorem sendLoop_ended (hbody : body.length < 2 ^ 31) {outs : List Sent} (houts : Writes outs)
    {p : ℕ} {out : Bytes} {x : Sending} (h : Wrote head body p out x) :
    ∃ y st, sendLoop outs x = some (y, st) ∧ Ended head body out y st ∧
      ∀ w ∈ y.writes, w.1 ≤ w.2 ∧ w.2 ≤ kHTTPMaxMessage := by
  induction outs generalizing p x with
  | nil =>
    by_cases hzero : x.conn.wbufLen = 0
    · exact empty_ended h hzero []
    · rw [sendLoop, if_neg hzero, if_neg (not_lt.mpr h.filled.len_le)]
      exact ⟨_, _, rfl, write_ended h hzero⟩
  | cons o outs ih =>
    by_cases hzero : x.conn.wbufLen = 0
    · exact empty_ended h hzero _
    · rw [sendLoop.eq_def]
      dsimp only
      rw [if_neg hzero, if_neg (not_lt.mpr h.filled.len_le)]
      obtain ⟨hfail, hnone⟩ := houts
      have houts' : Writes outs :=
        ⟨fun hmem => hfail (List.mem_cons_of_mem _ hmem),
          fun hmem => hnone (List.mem_cons_of_mem _ hmem)⟩
      cases o with
      | eagain => exact ⟨_, _, rfl, write_ended h hzero⟩
      | failed => exact absurd List.mem_cons_self hfail
      | wrote k =>
        have hk : k ≠ 0 := by
          rintro rfl
          exact hnone List.mem_cons_self
        have hlt : x.conn.wbufPos < x.conn.wbufLen := by
          rcases h.filled.cursor with hlt | ⟨-, hlen⟩
          · exact hlt
          · exact absurd hlen hzero
        have hmax := h.filled.len_le
        have hint : kHTTPMaxMessage < 2 ^ 32 := by decide
        dsimp only
        rw [sub32_of_le hlt.le (by omega)]
        set n := min k (x.conn.wbufLen - x.conn.wbufPos) with hn
        obtain ⟨hcontent, hcursors⟩ := write_filled h (n := n) (by omega)
        rw [if_neg (by omega)]
        by_cases hend : (x.write n).conn.wbufPos = (x.write n).conn.wbufLen
        · -- all of the buffer has been sent, and it is filled again
          rw [if_pos hend]
          have hnil : (x.conn.wbuf.take x.conn.wbufLen).drop (x.conn.wbufPos + n) = [] := by
            refine List.drop_eq_nil_of_le ?_
            rw [List.length_take]
            exact (min_le_left _ _).trans hend.ge
          rw [hnil, List.append_nil] at hcontent
          have hempty : Filled head body p { (x.write n).conn with wbufLen := 0, wbufPos := 0 }
              (out ++ (x.write n).out) :=
            ⟨h.filled.pos, h.filled.le, h.filled.same, by simpa using hcontent, Nat.zero_le _,
              Nat.zero_le _, .inr ⟨rfl, rfl⟩⟩
          obtain ⟨c, p', hfill, hfilled, hfull⟩ := fillResponseBuf_filled hempty hbody
          rw [hfill]
          exact ih houts' ⟨hfilled, hfull, hcursors⟩
        · rw [if_neg hend]
          have hcursor : x.conn.wbufPos + n < x.conn.wbufLen := by
            have hne : x.conn.wbufPos + n ≠ x.conn.wbufLen := hend
            omega
          exact ih houts' ⟨⟨h.filled.pos, h.filled.le, h.filled.same, hcontent, hmax,
            h.filled.stored, .inl hcursor⟩, h.full, hcursors⟩

end Loop

/-! ### A call, and a run -/

/-- How far the response `r` has been sent. -/
inductive Stand (r : Response) (s : Replying) : Prop
  | start (hready : Ready s.conn) (hr : s.conn.response = r) (hout : s.out = [])
  | going (p : ℕ) (hfilled : Filled (arrayHead r) r.body p s.conn s.out)
  | finished (h : s.finished = true)

section Call

variable {r : Response} {s : Replying} {outs : List Sent}

theorem sendReply_good (hhead : (arrayHead r).length < kHTTPMaxMessage)
    (hbody : r.body.length < 2 ^ 31) (hstand : Stand r s) (hopen : s.finished = false)
    (houts : Writes outs) :
    ∃ x st, sendReply s.conn outs = some (x, st) ∧ GoodCall (arrayHead r ++ r.body) s x st ∧
      Stand r ⟨x.conn, s.out ++ x.out, decide (st = .writeAll)⟩ := by
  have hfill : ∃ c p, fillResponseBuf s.conn = some (c, true) ∧
      Filled (arrayHead r) r.body p c s.out ∧ Full r.body p c := by
    cases hstand with
    | start hready hr hout =>
      obtain ⟨c, hfill, hfilled⟩ := fillHead_filled hready hr hhead
      obtain ⟨c', p, hfill', hfilled', hfull⟩ := fillBody_filled hfilled hbody
      refine ⟨c', p, ?_, hout ▸ hfilled', hfull⟩
      rw [fillResponseBuf, hfill]
      dsimp only
      rw [hfill']
      rfl
    | going p hfilled => exact fillResponseBuf_filled hfilled hbody
    | finished h => simp [hopen] at h
  obtain ⟨c, p, hfill, hfilled, hfull⟩ := hfill
  have hstart : Wrote (arrayHead r) r.body p s.out { conn := c } := by
    refine ⟨?_, hfull, by simp⟩
    rwa [List.append_nil]
  obtain ⟨x, st, hloop, hended, hcursors⟩ := sendLoop_ended hbody houts hstart
  have hcall : sendReply s.conn outs = some (x, st) := by
    rw [sendReply, hfill]
    exact hloop
  refine ⟨x, st, hcall, ?_⟩
  cases hended with
  | all hout hready =>
    refine ⟨⟨hcursors, ?_, ?_, ⟨fun _ => hout, fun _ => rfl⟩, fun _ => hready⟩, .finished rfl⟩
    · rw [hready.len, hready.cursor]
      exact ⟨le_rfl, Nat.zero_le _⟩
    · rw [hout]
  | half q hfilled hlt =>
    refine ⟨⟨hcursors, ⟨hlt.le, hfilled.len_le⟩, hfilled.out_le, ⟨?_, ?_⟩, ?_⟩, .going q hfilled⟩
    · simp
    · exact fun hout => absurd hout (hfilled.ne hlt)
    · simp

theorem sentOnce_of_lt {c : SimpleHTTPConn} (hready : Ready c)
    (hhead : (arrayHead c.response).length < kHTTPMaxMessage)
    (hbody : c.response.body.length < 2 ^ 31) : SentOnce c := by
  intro ops hops
  have hstep : ∀ s outs, Stand c.response s → Writes outs →
      Stand c.response (replyStep s outs) := by
    intro s outs hstand houts
    rw [replyStep]
    by_cases hfin : s.finished = true
    · rw [if_pos hfin]
      exact hstand
    · obtain ⟨x, st, hcall, -, hnext⟩ :=
        sendReply_good hhead hbody hstand (Bool.not_eq_true _ ▸ hfin) houts
      rw [if_neg hfin, hcall]
      exact hnext
  refine guarded_of_inv (Stand c.response) hstep (fun s outs hstand houts hopen => ?_)
    (.start hready rfl rfl) (guarded_of_forall hops)
  obtain ⟨x, st, hcall, hgood, -⟩ := sendReply_good hhead hbody hstand hopen houts
  exact ⟨x, st, hcall, hgood⟩

end Call

/-! ### The two ways to fail -/

/-- A write that takes the whole buffer. -/
theorem sendLoop_whole {x : Sending} (hlen : x.conn.wbufLen = kHTTPMaxMessage)
    (hcursor : x.conn.wbufPos = 0) (outs : List Sent) :
    sendLoop (.wrote kHTTPMaxMessage :: outs) x =
      match fillResponseBuf { (x.write kHTTPMaxMessage).conn with wbufLen := 0, wbufPos := 0 } with
      | none => none
      | some (c, false) => some ({ x.write kHTTPMaxMessage with conn := c }, .writeError)
      | some (c, true) => sendLoop outs { x.write kHTTPMaxMessage with conn := c } := by
  have hcount : min kHTTPMaxMessage (sub32 x.conn.wbufLen x.conn.wbufPos) = kHTTPMaxMessage := by
    rw [hlen, hcursor, sub32_of_le (Nat.zero_le _) (by decide)]
    exact min_self _
  have hne : ¬x.conn.wbufLen = 0 := by rw [hlen]; decide
  have hle : ¬kHTTPMaxMessage < x.conn.wbufLen := by rw [hlen]; exact lt_irrefl _
  have hend : (x.write kHTTPMaxMessage).conn.wbufPos = (x.write kHTTPMaxMessage).conn.wbufLen := by
    rw [Sending.write]
    dsimp only
    rw [hlen, hcursor, Nat.zero_add]
  rw [sendLoop.eq_def]
  dsimp only
  rw [if_neg hne, if_neg hle, hcount, if_neg (by decide)]
  exact if_pos hend

/-- **In a body of `2 ^ 31` bytes `response_pos_` overflows**, once enough has been written. -/
theorem sendLoop_overflow {p : ℕ} {x : Sending} (hpos : x.conn.responsePos = p) (hp : p < 2 ^ 31)
    (hbody : 2 ^ 31 ≤ x.conn.response.body.length) (hlen : x.conn.wbufLen = kHTTPMaxMessage)
    (hcursor : x.conn.wbufPos = 0) : ∃ outs, Writes outs ∧ sendLoop outs x = none := by
  have hmax : kHTTPMaxMessage < 2 ^ 31 := by decide
  have hmax0 : 0 < kHTTPMaxMessage := by decide
  induction hk : 2 ^ 31 - p using Nat.strong_induction_on generalizing p x with
  | _ k ih =>
    set c : SimpleHTTPConn := { (x.write kHTTPMaxMessage).conn with wbufLen := 0, wbufPos := 0 }
      with hc
    have hcp : c.responsePos = p := hpos
    have htoNat : c.responsePos.toNat = p := by rw [hcp]; rfl
    have hcb : c.response.body = x.conn.response.body := rfl
    have hcount : bodyCount c = min kHTTPMaxMessage (x.conn.response.body.length - p) := by
      rw [bodyCount, htoNat, hcb]
      rfl
    have hhead : fillHead c = (c, true) := by
      rw [fillHead, if_neg]
      rw [hcp]
      omega
    have hmore : c.responsePos.toNat < c.response.body.length ∧ c.wbufLen < kHTTPMaxMessage := by
      rw [htoNat, hcb]
      exact ⟨hp.trans_le hbody, hmax0⟩
    by_cases hint : c.responsePos + bodyCount c < 2 ^ 31
    · have hwhole : bodyCount c = kHTTPMaxMessage := by
        rw [hcp] at hint
        omega
      have hnext : ∃ c', fillResponseBuf c = some (c', true) ∧
          c'.responsePos = (p + kHTTPMaxMessage : ℕ) ∧ c'.response = x.conn.response ∧
          c'.wbufLen = kHTTPMaxMessage ∧ c'.wbufPos = 0 := by
        rw [fillResponseBuf, hhead]
        dsimp only
        rw [fillBody, if_pos hmore, if_pos hint, hwhole]
        refine ⟨_, rfl, ?_, rfl, ?_, rfl⟩
        · dsimp only
          rw [hcp, Nat.cast_add]
        · exact Nat.zero_add _
      obtain ⟨c', hfill, hpos', hresp', hlen', hcursor'⟩ := hnext
      have hp' : p + kHTTPMaxMessage < 2 ^ 31 := by
        rw [hcp, hwhole] at hint
        omega
      obtain ⟨outs, houts, hnone⟩ := ih (2 ^ 31 - (p + kHTTPMaxMessage)) (by omega)
        (x := { x.write kHTTPMaxMessage with conn := c' }) hpos' hp' (by rwa [hresp']) hlen'
        hcursor' rfl
      refine ⟨.wrote kHTTPMaxMessage :: outs, ⟨?_, ?_⟩, ?_⟩
      · simpa using houts.1
      · rw [List.mem_cons, not_or]
        exact ⟨by decide, houts.2⟩
      · rw [sendLoop_whole hlen hcursor, ← hc, hfill]
        exact hnone
    · refine ⟨[.wrote kHTTPMaxMessage], ⟨by simp, by decide⟩, ?_⟩
      rw [sendLoop_whole hlen hcursor, ← hc, fillResponseBuf, hhead]
      dsimp only
      rw [fillBody, if_pos hmore, if_neg hint]
      rfl

theorem not_sentOnce_of_long {c : SimpleHTTPConn} (hready : Ready c)
    (hhead : (arrayHead c.response).length < kHTTPMaxMessage)
    (hbody : 2 ^ 31 ≤ c.response.body.length) : ¬SentOnce c := by
  have hmax : kHTTPMaxMessage < 2 ^ 31 := by decide
  obtain ⟨c₁, hfill, hfilled⟩ := fillHead_filled hready rfl hhead
  -- the first part of the body takes what the head has left of the buffer
  have hlen := hfilled.len_le
  have hcursor : c₁.wbufPos = 0 ∧ c₁.wbufLen < kHTTPMaxMessage := by
    obtain ⟨c', hfill', -, -, hcursor, hlen', -⟩ := fillHead_ready hready rfl hhead.le
    obtain rfl : c₁ = c' := (Prod.mk.inj (hfill.symm.trans hfill')).1
    exact ⟨hcursor, by rw [hlen']; exact hhead⟩
  have hpos : c₁.responsePos = (0 : ℕ) := hfilled.pos
  have htoNat : c₁.responsePos.toNat = 0 := by rw [hpos]; rfl
  have hcount : bodyCount c₁ = kHTTPMaxMessage - c₁.wbufLen := by
    rw [bodyCount, htoNat, hfilled.same]
    omega
  have hmore : c₁.responsePos.toNat < c₁.response.body.length ∧ c₁.wbufLen < kHTTPMaxMessage := by
    rw [htoNat, hfilled.same]
    exact ⟨by omega, hcursor.2⟩
  have hint : c₁.responsePos + bodyCount c₁ < 2 ^ 31 := by
    rw [hpos, hcount]
    omega
  have hnext : ∃ c₂, fillResponseBuf c = some (c₂, true) ∧
      c₂.responsePos = (bodyCount c₁ : ℕ) ∧ c₂.response.body = c.response.body ∧
      c₂.wbufLen = kHTTPMaxMessage ∧ c₂.wbufPos = 0 := by
    rw [fillResponseBuf, hfill]
    dsimp only
    rw [fillBody, if_pos hmore, if_pos hint]
    refine ⟨_, rfl, ?_, hfilled.same, ?_, hcursor.1⟩ <;> dsimp only
    · rw [hpos]
      omega
    · omega
  obtain ⟨c₂, hfill₂, hpos₂, hbody₂, hlen₂, hcursor₂⟩ := hnext
  obtain ⟨outs, houts, hnone⟩ := sendLoop_overflow (x := { conn := c₂ }) hpos₂ (by omega)
    (by rwa [hbody₂]) hlen₂ hcursor₂
  intro hsent
  obtain ⟨x, st, hcall, -⟩ := (hsent [outs] (by simpa using houts)).1 rfl
  rw [sendReply, hfill₂] at hcall
  exact absurd (hcall.symm.trans hnone) (by simp)

/-- Without a further write, nothing more is written. -/
theorem sendLoop_nil_out {x y : Sending} {st : WriteStatus} (h : sendLoop [] x = some (y, st)) :
    y.out = x.out := by
  rw [sendLoop] at h
  split_ifs at h
  · obtain ⟨rfl, -⟩ := Prod.mk.inj (Option.some.inj h)
    rfl
  · obtain ⟨rfl, -⟩ := Prod.mk.inj (Option.some.inj h)
    rw [Sending.write]
    simp

theorem not_sentOnce_of_full {c : SimpleHTTPConn} (hready : Ready c)
    (hhead : (arrayHead c.response).length = kHTTPMaxMessage) : ¬SentOnce c := by
  obtain ⟨c₁, hfill, -, -, hcursor, hlen, hstored, hdata⟩ := fillHead_ready hready rfl hhead.le
  rw [if_pos hhead] at hdata
  rw [hhead] at hlen
  have hfill₁ : fillResponseBuf c = some (c₁, true) := by
    rw [fillResponseBuf, hfill]
    dsimp only
    rw [fillBody, if_neg]
    · rfl
    · rw [hlen]
      exact fun h => lt_irrefl _ h.2
  have hwrites : ∀ outs ∈ [[Sent.wrote kHTTPMaxMessage]], Writes outs := by
    intro outs hmem
    obtain rfl := List.mem_singleton.mp hmem
    exact ⟨by simp, by decide⟩
  intro hsent
  obtain ⟨x, st, hcall, hgood⟩ := (hsent [[.wrote kHTTPMaxMessage]] hwrites).1 rfl
  have hout : x.out = (arrayLines c.response).flatten ++ [CR, 0] := by
    have hwrite : (({ conn := c₁ } : Sending).write kHTTPMaxMessage).out =
        (arrayLines c.response).flatten ++ [CR, 0] := by
      rw [Sending.write]
      dsimp only
      rw [hcursor, List.drop_zero, List.nil_append, ← hlen]
      exact hdata
    rw [sendReply, hfill₁] at hcall
    dsimp only at hcall
    rw [sendLoop_whole hlen hcursor] at hcall
    split at hcall
    · simp at hcall
    · obtain ⟨rfl, -⟩ := Prod.mk.inj (Option.some.inj hcall)
      exact hwrite
    · rw [sendLoop_nil_out hcall]
      exact hwrite
  -- the last byte of the head is a zero
  have hsent := hgood.sent
  rw [List.nil_append, hout, arrayHead, List.append_assoc, List.prefix_append_right_inj] at hsent
  obtain ⟨-, hlf⟩ := List.cons_prefix_cons.mp hsent
  exact absurd (List.cons_prefix_cons.mp hlf).1 (by decide)

/-- **A response is sent exactly once, in any number of calls and writes, precisely if its body is
shorter than `2 ^ 31` bytes and its head does not take the whole buffer.** -/
theorem sentOnce_iff {c : SimpleHTTPConn} (hready : Ready c)
    (hfits : (arrayHead c.response).length ≤ kHTTPMaxMessage) :
    SentOnce c ↔
      c.response.body.length < 2 ^ 31 ∧ (arrayHead c.response).length < kHTTPMaxMessage := by
  refine ⟨fun hsent => ?_, fun ⟨hbody, hhead⟩ => sentOnce_of_lt hready hhead hbody⟩
  have hhead : (arrayHead c.response).length < kHTTPMaxMessage :=
    lt_of_le_of_ne hfits fun hfull => not_sentOnce_of_full hready hfull hsent
  exact ⟨not_le.mp fun hbody => not_sentOnce_of_long hready hhead hbody hsent, hhead⟩

/-- A connection with a response to send. -/
def answering (body : Bytes) : SimpleHTTPConn :=
  { response := { headers := [(bytes "Content-Length", bytes "0")], body := body }, isReply := true }

theorem sentOnce_iff_hello :
    SentOnce (answering (bytes "hello")) ↔ (bytes "hello").length < 2 ^ 31 ∧
      (arrayHead (answering (bytes "hello")).response).length < kHTTPMaxMessage :=
  sentOnce_iff ⟨rfl, rfl, rfl⟩ (by decide +kernel)

theorem long_body_overflows :
    (arrayHead (answering (List.replicate (2 ^ 31) 0)).response).length ≤ kHTTPMaxMessage ∧
      ¬SentOnce (answering (List.replicate (2 ^ 31) 0)) := by
  have hhead : ∀ body, (arrayHead (answering body).response).length = 34 := fun body => rfl
  have hlt : (34 : ℕ) < kHTTPMaxMessage := by decide
  refine ⟨by rw [hhead]; exact hlt.le, not_sentOnce_of_long ⟨rfl, rfl, rfl⟩ (by rwa [hhead]) ?_⟩
  exact List.length_replicate.ge

end Pink.Http.SimpleReplies
