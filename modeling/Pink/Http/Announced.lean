import Pink.Http.Heads
import Pink.Http.SimpleConn

/-! # The counter of the outstanding body

`remain_packet_len_` is set by `BuildRequestHeader` to the value of the Content-Length header, which
may be negative, and decreased by the bytes that have come behind the header block, which may be more.
In the body a read asks for no more than is outstanding. So the counter is at most what is announced,
and no subtraction wraps, precisely if every header block that is completed has a value that is not
negative and covers the bytes behind it (`announced_iff`). -/

namespace Pink.Http.Announced

open Pink.Redis Pink.Redis.Wire Pink.Lib.Runs Pink.Http.Simple Pink.Http.SimpleConn
open Pink.Http.Request (cstr findSub)
open Pink.Pb.Conn (ConnStatus Recv nextRecv sub32 sub32_of_le)
open Pink.Http.Handlers (asciiLower)

variable (stringToLower : Bytes → Bytes) (string2l : Bytes → ℕ → Option ℤ)

/-! ### The turns of a call -/

/-- The turns of the loop of `GetRequest`, each by the state before it. -/
def loopTurns (e : Env) : ℕ → Call → List Call
  | 0, _ => []
  | fuel + 1, x =>
    if x.status.isSome then [] else x :: loopTurns e fuel (turn stringToLower string2l e x)

/-- The number of bytes that a turn asks for, if it makes a read. -/
def asked (c : SimpleHTTPConn) : Option ℕ :=
  match c.connStatus with
  | .header => some (sub32 kHTTPMaxHeader c.rbuf.length)
  | .packet => if 0 < c.remainPacketLen then some (packetCount c) else none
  | _ => none

/-- The bytes that the read of a turn brings. -/
def brought (x : Call) : Option Bytes :=
  match asked x.w.conn with
  | none => none
  | some count =>
    match x.w.read count (nextRecv x.recvs) with
    | (_, .bytes bs) => some bs
    | _ => none

/-- The header block in the bytes that have come: its length, and the request that is made of it. -/
def headOf (got : Bytes) : Option (ℕ × Request) :=
  match findSub [CR, LF, CR, LF] (cstr got) with
  | none => none
  | some sepPos =>
    (parseHeadFromArray stringToLower {} (got.take (sepPos + 4))).map fun r => (sepPos + 4, r)

/-- The subtractions of a turn: the counter before, and what is subtracted. -/
def subtracted (x : Call) : List (ℕ × ℕ) :=
  match x.w.conn.connStatus, brought x with
  | .packet, some bs => [(x.w.conn.remainPacketLen, bs.length)]
  | .header, some bs =>
    match headOf stringToLower (x.w.conn.rbuf ++ bs) with
    | none => []
    | some (len, r) =>
      if len < (x.w.conn.rbuf ++ bs).length then
        [(sizeT (contentLength string2l r), (x.w.conn.rbuf ++ bs).length - len)]
      else []
  | _, _ => []

/-- A turn completes a header block of `len` bytes with the request `r`, `got` having come. -/
def Completes (x : Call) (got : Bytes) (len : ℕ) (r : Request) : Prop :=
  x.w.conn.connStatus = .header ∧ ∃ bs, brought x = some bs ∧ got = x.w.conn.rbuf ++ bs ∧
    headOf stringToLower got = some (len, r)

/-- **The subtractions of a turn are exact, and the counter that `BuildRequestHeader` leaves is at most
what is announced.** -/
structure Exact (e : Env) (x : Call) : Prop where
  subtractions : ∀ s ∈ subtracted stringToLower string2l x, s.2 ≤ s.1
  remain : ∀ got len r, Completes stringToLower x got len r →
    ((turn stringToLower string2l e x).w.conn.remainPacketLen : ℤ) ≤ max 0 (contentLength string2l r)

/-- **A header block that a turn completes has a Content-Length that is not negative and covers the
bytes behind it.** -/
def Within (_ : Env) (x : Call) : Prop :=
  ∀ got len r, Completes stringToLower x got len r →
    0 ≤ contentLength string2l r ∧ (got.length : ℤ) ≤ len + contentLength string2l r

/-- All turns of an event satisfy `P`. -/
def Throughout (P : Env → Call → Prop) (w : World) : Op → Prop
  | .getRequest e =>
    w.alive = true → ∀ x ∈ loopTurns stringToLower string2l e (e.recvs.length + 3)
      { w := w, recvs := e.recvs }, P e x
  | .sendReply _ => True

variable {stringToLower string2l}

/-! ### One turn -/

/-- The header block is no longer than the limit. -/
def Room (c : SimpleHTTPConn) : Prop := c.connStatus = .header → c.rbuf.length ≤ kHTTPMaxHeader

theorem headOf_le {got : Bytes} {len : ℕ} {r : Request}
    (h : headOf stringToLower got = some (len, r)) : len ≤ got.length := by
  unfold headOf at h
  split at h
  · simp at h
  case _ i hi =>
    obtain ⟨r', -, heq⟩ := Option.map_eq_some_iff.mp h
    obtain ⟨rfl, -⟩ := Prod.mk.inj heq
    have hle := Heads.findSub_le hi
    have hcstr : (cstr got).length ≤ got.length := (List.takeWhile_prefix _).length_le
    have hfour : [CR, LF, CR, LF].length = 4 := rfl
    omega

/-- A turn that makes a read. -/
theorem turn_header {e : Env} {x : Call} {bs : Bytes} (hst : x.w.conn.connStatus = .header)
    (hbs : brought x = some bs) :
    turn stringToLower string2l e x = headerGot stringToLower string2l
      { x with
        w := { x.w with
          conn := { x.w.conn with rbuf := x.w.conn.rbuf ++ bs }, input := x.w.input.drop bs.length }
        recvs := x.recvs.tail } ∧
      bs.length ≤ sub32 kHTTPMaxHeader x.w.conn.rbuf.length := by
  have hasked : asked x.w.conn = some (sub32 kHTTPMaxHeader x.w.conn.rbuf.length) := by
    rw [asked, hst]
  rw [brought, hasked] at hbs
  obtain ⟨hread, hle⟩ := read_bytes hbs
  rw [turn, hst]
  dsimp only
  rw [headerTurn, hread]
  exact ⟨rfl, hle⟩

/-- The counter after a header block has been completed. -/
theorem headerGot_remain {x : Call} {len : ℕ} {r : Request}
    (h : headOf stringToLower x.w.conn.rbuf = some (len, r)) :
    (headerGot stringToLower string2l x).w.conn.remainPacketLen =
      remainOf (contentLength string2l r) len x.w.conn.rbuf.length := by
  unfold headOf at h
  split at h
  · simp at h
  case _ i hi =>
    obtain ⟨r', hparse, heq⟩ := Option.map_eq_some_iff.mp h
    obtain ⟨rfl, rfl⟩ := Prod.mk.inj heq
    rw [headerGot_some hi hparse]
    split_ifs <;> rfl

/-- A value that `string2l` returns is a `long`. -/
theorem contentLength_inLong (hs : String2lSpec string2l) (r : Request) :
    InLong (contentLength string2l r) := by
  have hzero : InLong 0 := by decide
  rw [contentLength]
  split
  · exact hzero
  case _ s hs' =>
    cases hv : string2l s s.length with
    | none => exact hzero
    | some v => exact ((hs.accepts s s.length v).mp hv).2.2

/-- **The counter is right after a header block** exactly if the value is not negative and covers what
has come behind the block. -/
theorem remainOf_iff {v : ℤ} (hv : InLong v) {len n : ℕ} (hlen : len ≤ n)
    (hn : n ≤ kHTTPMaxHeader) :
    (n - len ≤ sizeT v ∧ (remainOf v len n : ℤ) ≤ max 0 v) ↔ 0 ≤ v ∧ (n : ℤ) ≤ len + v := by
  obtain ⟨hmin, hmax⟩ := hv
  unfold LONG_MIN at hmin
  unfold LONG_MAX at hmax
  unfold kHTTPMaxHeader at hn
  have hsize : (sizeT v : ℤ) = if 0 ≤ v then v else v + 2 ^ 64 := by
    unfold sizeT
    split_ifs <;> omega
  unfold remainOf
  by_cases hpos : 0 ≤ v
  · rw [if_pos hpos] at hsize
    rw [max_eq_right hpos]
    by_cases hmore : len < n
    · rw [if_pos hmore]
      by_cases hfit : n - len ≤ sizeT v
      · rw [subSize_of_le hfit]
        omega
      · omega
    · rw [if_neg hmore]
      omega
  · -- the counter is beyond every announced value
    rw [if_neg hpos] at hsize
    rw [max_eq_left (by omega)]
    by_cases hmore : len < n
    · rw [if_pos hmore, subSize_of_le (by omega)]
      omega
    · rw [if_neg hmore]
      omega

/-- The subtraction of a read in the body is exact. -/
theorem packet_exact {x : Call} {bs : Bytes} (hst : x.w.conn.connStatus = .packet)
    (hbs : brought x = some bs) : bs.length ≤ x.w.conn.remainPacketLen := by
  rw [brought, asked, hst] at hbs
  dsimp only at hbs
  by_cases hpos : 0 < x.w.conn.remainPacketLen
  · rw [if_pos hpos] at hbs
    dsimp only at hbs
    have hcount : packetCount x.w.conn ≤ x.w.conn.remainPacketLen := by
      rw [packetCount]
      split_ifs with hlt
      · exact le_rfl
      · exact not_lt.mp hlt
    exact (read_bytes hbs).2.trans hcount
  · rw [if_neg hpos] at hbs
    simp at hbs

theorem exact_iff (hs : String2lSpec string2l) {e : Env} {x : Call} (hroom : Room x.w.conn) :
    Exact stringToLower string2l e x ↔ Within stringToLower string2l e x := by
  -- a header block that the turn completes
  have hcompletes : ∀ got len r, Completes stringToLower x got len r →
      ((∀ s ∈ subtracted stringToLower string2l x, s.2 ≤ s.1) ∧
        ((turn stringToLower string2l e x).w.conn.remainPacketLen : ℤ) ≤
          max 0 (contentLength string2l r) ↔
        0 ≤ contentLength string2l r ∧ (got.length : ℤ) ≤ len + contentLength string2l r) := by
    rintro got len r ⟨hst, bs, hbs, rfl, hhead⟩
    obtain ⟨hturn, hcount⟩ := @turn_header stringToLower string2l e x bs hst hbs
    have hle := hroom hst
    rw [sub32_of_le hle (by decide)] at hcount
    have hlen : (x.w.conn.rbuf ++ bs).length ≤ kHTTPMaxHeader := by
      rw [List.length_append]
      omega
    have hremain : (turn stringToLower string2l e x).w.conn.remainPacketLen =
        remainOf (contentLength string2l r) len (x.w.conn.rbuf ++ bs).length := by
      rw [hturn]
      exact headerGot_remain hhead
    have hsub : (∀ s ∈ subtracted stringToLower string2l x, s.2 ≤ s.1) ↔
        (x.w.conn.rbuf ++ bs).length - len ≤ sizeT (contentLength string2l r) := by
      rw [subtracted, hst, hbs]
      dsimp only
      rw [hhead]
      dsimp only
      split_ifs with hmore
      · simp
      · rw [Nat.sub_eq_zero_of_le (not_lt.mp hmore)]
        simp
    rw [hremain, hsub]
    exact remainOf_iff (contentLength_inLong hs r) (headOf_le hhead) hlen
  constructor
  · intro hexact got len r hc
    exact (hcompletes got len r hc).mp ⟨hexact.subtractions, hexact.remain got len r hc⟩
  · intro hwithin
    refine ⟨fun s hmem => ?_, fun got len r hc => ((hcompletes got len r hc).mpr
      (hwithin got len r hc)).2⟩
    by_cases hc : ∃ got len r, Completes stringToLower x got len r
    · obtain ⟨got, len, r, hc⟩ := hc
      exact ((hcompletes got len r hc).mpr (hwithin got len r hc)).1 s hmem
    · -- otherwise only a read in the body subtracts
      rw [subtracted] at hmem
      split at hmem
      case _ bs hst hbs =>
        obtain rfl := List.mem_singleton.mp hmem
        exact packet_exact hst hbs
      case _ bs hst hbs =>
        cases hhead : headOf stringToLower (x.w.conn.rbuf ++ bs) with
        | none => simp [hhead] at hmem
        | some y => exact absurd ⟨_, y.1, y.2, hst, bs, hbs, rfl, hhead⟩ hc
      case _ => simp at hmem

/-! ### The run -/

theorem headerGot_room {x : Call} (h : x.w.conn.rbuf.length ≤ kHTTPMaxHeader) :
    Room (headerGot stringToLower string2l x).w.conn := by
  unfold headerGot
  dsimp only
  split
  · exact fun _ => h
  case _ i hi =>
    unfold buildRequestHeader
    split
    · exact fun _ => h
    case _ c hc =>
      obtain ⟨r, -, rfl⟩ := Option.map_eq_some_iff.mp hc
      split_ifs <;> exact fun hst => by simp at hst

theorem packetGot_room {x : Call} (hst : x.w.conn.connStatus = .packet) :
    Room (packetGot x).w.conn := by
  intro hheader
  rw [packetGot] at hheader
  dsimp only [appendRequestBody] at hheader
  split_ifs at hheader <;> simp [hst] at hheader

/-- Every turn leaves room for the header. -/
theorem turn_room {e : Env} {x : Call} (h : Room x.w.conn) :
    Room (turn stringToLower string2l e x).w.conn := by
  rw [turn]
  cases hst : x.w.conn.connStatus with
  | header =>
    have hle := h hst
    dsimp only
    rcases @headerTurn_cases stringToLower string2l x with ⟨st, hturn⟩ | ⟨bs, hturn, hcount⟩
    · rw [hturn]
      exact h
    · rw [sub32_of_le hle (by decide)] at hcount
      rw [hturn]
      refine headerGot_room ?_
      dsimp only
      rw [List.length_append]
      omega
  | packet =>
    dsimp only
    rcases packetTurn_cases x with ⟨st, hturn⟩ | ⟨y, hturn, hy⟩
    · rw [hturn]
      exact h
    · rw [hturn]
      exact packetGot_room (hy.trans hst)
  | complete => exact fun _ => Nat.zero_le _
  | buildObuf => exact h
  | writeObuf => exact h

theorem loopTurns_room {e : Env} {fuel : ℕ} {x : Call} (h : Room x.w.conn) :
    ∀ y ∈ loopTurns stringToLower string2l e fuel x, Room y.w.conn := by
  induction fuel generalizing x with
  | zero => simp [loopTurns]
  | succ fuel ih =>
    intro y hy
    rw [loopTurns] at hy
    split_ifs at hy
    · simp at hy
    · rcases List.mem_cons.mp hy with rfl | hy
      · exact h
      · exact ih (turn_room h) y hy

theorem turns_room {e : Env} {fuel : ℕ} {x : Call} (h : Room x.w.conn) :
    Room (turns stringToLower string2l e fuel x).w.conn := by
  induction fuel generalizing x with
  | zero => exact h
  | succ fuel ih =>
    rw [turns]
    split_ifs
    · exact h
    · exact ih (turn_room h)

theorem step_room {w : World} {op : Op} (h : Room w.conn) :
    Room (step stringToLower string2l w op).conn := by
  rw [step]
  cases hstep : stepOption stringToLower string2l w op with
  | none => exact h
  | some w' =>
    rw [Option.getD_some]
    cases op with
    | getRequest e =>
      obtain ⟨-, rfl⟩ := stepOption_getRequest.mp hstep
      exact turns_room h
    | sendReply outs =>
      obtain ⟨-, hsame, -⟩ := stepOption_sendReply hstep
      intro hst
      rw [hsame.rbuf]
      exact h (hsame.status ▸ hst)

/-- **In a run, the counter is never more than what was announced, and no subtraction from it wraps,
precisely if every header block has a Content-Length that is not negative and covers the bytes that
have come behind it.** -/
theorem announced_iff (stringToLower : Bytes → Bytes) {string2l : Bytes → ℕ → Option ℤ}
    (hs : String2lSpec string2l) (stream : Bytes) (ops : List Op) :
    Guarded (step stringToLower string2l)
        (Throughout stringToLower string2l (Exact stringToLower string2l)) { input := stream } ops ↔
      Guarded (step stringToLower string2l)
        (Throughout stringToLower string2l (Within stringToLower string2l)) { input := stream }
        ops := by
  refine guarded_iff_of_inv (fun w : World => Room w.conn) (fun w op hw _ => step_room hw)
    (fun w op hw => ?_) (fun _ => Nat.zero_le _)
  cases op with
  | sendReply outs => exact Iff.rfl
  | getRequest e =>
    refine forall_congr' fun _ => forall₂_congr fun x hx => ?_
    exact exact_iff hs (loopTurns_room (x := { w := w, recvs := e.recvs }) hw x hx)

/-- A request without a body, and the beginning of the next one. -/
def pipelined : Bytes := bytes "GET /a HTTP/1.1\r\n\r\nGET"

/-- A call that reads all that has been sent. -/
def readAllOf (stream : Bytes) : Op := .getRequest ⟨[.data stream.length], {}⟩

theorem announced_iff_pipelined :
    Guarded (step asciiLower Wire.string2l)
        (Throughout asciiLower Wire.string2l (Exact asciiLower Wire.string2l)) { input := pipelined }
        [readAllOf pipelined] ↔
      Guarded (step asciiLower Wire.string2l)
        (Throughout asciiLower Wire.string2l (Within asciiLower Wire.string2l)) { input := pipelined }
        [readAllOf pipelined] :=
  announced_iff asciiLower string2l_spec pipelined [readAllOf pipelined]

/-- A request without a body whose length is below zero. -/
def negative : Bytes := bytes "PUT /a HTTP/1.1\r\nContent-Length: -5\r\n\r\n"

/-- The connection waits for `2 ^ 64 - 3` or `2 ^ 64 - 5` bytes. -/
theorem announced_wraps :
    (step asciiLower Wire.string2l { input := pipelined } (readAllOf pipelined)).conn.remainPacketLen =
        2 ^ 64 - 3 ∧
      (step asciiLower Wire.string2l { input := negative } (readAllOf negative)).conn.remainPacketLen =
        2 ^ 64 - 5 ∧
      ¬Guarded (step asciiLower Wire.string2l)
        (Throughout asciiLower Wire.string2l (Exact asciiLower Wire.string2l)) { input := pipelined }
        [readAllOf pipelined] := by
  refine ⟨by decide +kernel, by decide +kernel, fun h => ?_⟩
  have hfirst := (h.1 rfl _ List.mem_cons_self).subtractions (0, 3)
  exact absurd (hfirst (by decide +kernel)) (by decide)

end Pink.Http.Announced
