import Pink.Redis.Wire
import Pink.Lib.Runs

/-! # The replies of a connection

`WriteResp` and `SendReply` of `RedisConn`. The responses are collected in `response`; the first
attempt to send them builds an array of buffers from it, `iov`, which further attempts go on with,
and `iovIdx` is not negative as long as such an array is in use.

`terark::easy_writev`, which is not part of this repository, sends a prefix of the bytes of the
array and advances the array by it: how many bytes, what it returns and `errno` are part of a step.
The buffers point into the responses, so a `push_back` that moves a short string, whose bytes are
inside the string object, leaves a dangling pointer behind; sending from it is a fault.

A response that is added while an array is in use is not in the array, and is cleared with the
others when the array is sent. If this does not happen, nothing is lost (`run_lossless`). -/

namespace Pink.Redis.Conn

open Pink.Redis.Wire Pink.Lib.Runs

inductive WriteStatus
  | writeAll | writeHalf | writeError
  deriving DecidableEq, Repr

inductive Errno
  | eagain | edeadlk | other
  deriving DecidableEq, Repr

inductive Fault
  /-- Bytes that are no longer there are sent. -/
  | dangling
  /-- `resize_no_init` with a negative size. -/
  | badAlloc
  deriving DecidableEq, Repr

/-- What one call of `easy_writev` does: `sent` bytes are sent, as far as there are any. -/
structure Writev where
  sent : ℕ
  ret : ℤ
  errno : Errno
  deriving DecidableEq, Repr

/-- A buffer: the bytes from `iov_base` on, and whether they are gone. -/
structure Iovec where
  bytes : Bytes
  /-- The bytes are inside the string object. -/
  inObject : Bool
  dangling : Bool := false
  deriving DecidableEq, Repr

structure RedisConn where
  response : List Bytes := []
  /-- The capacity of the vector `response_`. -/
  capacity : ℕ := 0
  iov : List Iovec := []
  iovIdx : ℤ := -1
  numRetry : ℤ := 0
  isReply : Bool := false
  fault : Option Fault := none
  /-- What has been sent, what was passed to `WriteResp`, and what the last step returned. -/
  sent : Bytes := []
  accepted : List Bytes := []
  last : Option WriteStatus := none
  deriving DecidableEq, Repr

namespace RedisConn

/-- Strings up to this length are stored inside the string object. -/
def localCapacity : ℕ := 15

def writeResp (c : RedisConn) (resp : Bytes) : RedisConn :=
  let full := c.response.length = c.capacity
  { c with
    response := c.response ++ [resp]
    capacity := if full then max 1 (2 * c.capacity) else c.capacity
    iov := if full then
        c.iov.map fun v => { v with dangling := v.dangling || v.inObject }
      else c.iov
    isReply := true
    accepted := c.accepted ++ [resp]
    last := none }

/-- The array built from the responses; empty ones are left out. -/
def buildIov (response : List Bytes) : List Iovec :=
  (response.filter (· ≠ [])).map fun r => ⟨r, decide (r.length ≤ localCapacity), false⟩

/-- Advance the array by `n` bytes. -/
def advance : ℕ → List Iovec → List Iovec
  | _, [] => []
  | n, v :: vs =>
    if n < v.bytes.length then { v with bytes := v.bytes.drop n } :: vs
    else { v with bytes := [] } :: advance (n - v.bytes.length) vs

/-- The bytes of the array. -/
def iovBytes (iov : List Iovec) : Bytes := iov.flatMap Iovec.bytes

/-- `easy_writev(fd, iov, num, &iov_idx_)`. -/
def easyWritev (c : RedisConn) (n : ℕ) : RedisConn :=
  if c.iov.any (fun v => v.dangling && v.bytes ≠ []) then { c with fault := some .dangling }
  else
    let iov := advance n c.iov
    { c with
      iov := iov
      iovIdx := (iov.takeWhile fun v => v.bytes = []).length
      sent := c.sent ++ (iovBytes c.iov).take n }

/-- The lines behind the loop of `SendReply`. -/
def halfOrError (c : RedisConn) (nwritten : ℤ) (errno : Errno) : RedisConn × WriteStatus :=
  if nwritten = -1 then
    match errno with
    | .eagain => ({ c with numRetry := 0 }, .writeHalf)
    | .edeadlk =>
      if c.numRetry < 5 then ({ c with numRetry := c.numRetry + 1 }, .writeHalf)
      else ({ c with numRetry := 0 }, .writeError)
    | .other => ({ c with numRetry := 0 }, .writeError)
  else (c, .writeHalf)

/-- The loop of `SendReply` and the lines behind it; behind the last result `easy_writev` returns
`-1` with `EAGAIN`. -/
def writeLoop : List Writev → RedisConn → RedisConn × WriteStatus
  | [], c => c.halfOrError (-1) .eagain
  | w :: ws, c =>
    let c := c.easyWritev w.sent
    if c.fault ≠ none then (c, .writeHalf)
    else if (c.iov.getLast?.map Iovec.bytes) = some [] then
      ({ c with response := [], iov := [], iovIdx := -1 }, .writeAll)
    else if w.ret > 0 then writeLoop ws c
    else c.halfOrError w.ret w.errno

def sendReply (c : RedisConn) (ws : List Writev) : RedisConn × WriteStatus :=
  let num := toInt32 c.response.length
  if num = 0 then (c, .writeAll)
  else if c.iovIdx < 0 then
    if num < 0 then ({ c with fault := some .badAlloc }, .writeHalf)
    else
      let iov := buildIov (c.response.take num.toNat)
      if iov = [] then (c, .writeAll) else writeLoop ws { c with iov := iov, iovIdx := 0 }
  else writeLoop ws c

end RedisConn

/-! ### Runs -/

inductive Op
  | writeResp (resp : Bytes)
  /-- `SendReply`, with what its calls of `easy_writev` do. -/
  | sendReply (ws : List Writev)
  deriving DecidableEq, Repr

def step (c : RedisConn) (op : Op) : RedisConn :=
  if c.fault ≠ none then c
  else
    match op with
    | .writeResp resp => c.writeResp resp
    | .sendReply ws => let x := c.sendReply ws; { x.1 with last := some x.2 }

/-- **Nothing is lost or sent twice**: what was sent is a prefix of the responses, and all of them
when `SendReply` has just returned `kWriteAll`. -/
structure Lossless (c : RedisConn) : Prop where
  fault : c.fault = none
  sent_prefix : c.sent <+: c.accepted.flatten
  all : c.last = some .writeAll → c.sent = c.accepted.flatten

instance (c : RedisConn) : Decidable (Lossless c) :=
  decidable_of_iff (c.fault = none ∧ c.sent <+: c.accepted.flatten ∧
    (c.last = some .writeAll → c.sent = c.accepted.flatten))
    ⟨fun h => ⟨h.1, h.2.1, h.2.2⟩, fun h => ⟨h.1, h.2, h.3⟩⟩

/-- A response is not added while an array is in use, and the number of responses is an `int`. -/
def Quiet (c : RedisConn) : Op → Prop
  | .writeResp _ => c.iovIdx < 0
  | .sendReply _ => c.response.length < 2 ^ 31

instance (c : RedisConn) (op : Op) : Decidable (Quiet c op) := by
  unfold Quiet; split <;> infer_instance

/-! ### The array -/

open RedisConn

/-- The first buffers are used up, the others are not. -/
def Shape (iov : List Iovec) : Prop :=
  ∃ used rest : List Iovec, iov = used ++ rest ∧ (∀ v ∈ used, v.bytes = []) ∧
    ∀ v ∈ rest, v.bytes ≠ []

theorem iovBytes_advance : ∀ (n : ℕ) (iov : List Iovec),
    iovBytes (advance n iov) = (iovBytes iov).drop n
  | n, [] => by simp [advance, iovBytes]
  | n, v :: vs => by
    have ih := iovBytes_advance (n - v.bytes.length) vs
    unfold iovBytes at ih ⊢
    rw [advance]
    split_ifs with h
    · simp [List.drop_append_of_le_length h.le]
    · simp [List.drop_append, List.drop_eq_nil_of_le (not_lt.mp h), ih]

theorem advance_used {used : List Iovec} (hu : ∀ v ∈ used, v.bytes = []) (n : ℕ)
    (rest : List Iovec) : advance n (used ++ rest) = used ++ advance n rest := by
  induction used with
  | nil => rfl
  | cons v used ih =>
    have hv := hu v (by simp)
    have hv' : ({ v with bytes := [] } : Iovec) = v := by rw [← hv]
    rw [List.cons_append, advance, if_neg (by simp [hv]), hv', hv, List.length_nil, Nat.sub_zero,
      ih fun w hw => hu w (List.mem_cons_of_mem _ hw)]
    rfl

theorem advance_shape {iov : List Iovec} (h : Shape iov) (n : ℕ) : Shape (advance n iov) := by
  obtain ⟨used, rest, rfl, hu, hr⟩ := h
  rw [advance_used hu]
  induction rest generalizing used n with
  | nil => exact ⟨used, [], by simp [advance], hu, by simp⟩
  | cons v rest ih =>
    have hv := hr v (by simp)
    have hr' : ∀ w ∈ rest, w.bytes ≠ [] := fun w hw => hr w (List.mem_cons_of_mem _ hw)
    rw [advance]
    split_ifs with hlt
    · refine ⟨used, _, rfl, hu, fun w hw => ?_⟩
      rcases List.mem_cons.mp hw with rfl | hw
      · simpa using hlt
      · exact hr' w hw
    · have hu' : ∀ w ∈ used ++ [{ v with bytes := [] }], w.bytes = [] := fun w hw => by
        rcases List.mem_append.mp hw with hw | hw
        · exact hu w hw
        · rw [List.mem_singleton.mp hw]
      have := ih (n - v.bytes.length) (used ++ [{ v with bytes := [] }]) hu' hr'
      rwa [List.append_assoc, List.singleton_append] at this

theorem advance_dangling : ∀ (n : ℕ) {iov : List Iovec}, (∀ v ∈ iov, v.dangling = false) →
    ∀ v ∈ advance n iov, v.dangling = false
  | n, [], _, v, hv => by simp [advance] at hv
  | n, w :: ws, h, v, hv => by
    have hw := h w (by simp)
    have hws : ∀ u ∈ ws, u.dangling = false := fun u hu => h u (List.mem_cons_of_mem _ hu)
    rw [advance] at hv
    split_ifs at hv
    · rcases List.mem_cons.mp hv with rfl | hv
      · exact hw
      · exact hws v hv
    · rcases List.mem_cons.mp hv with rfl | hv
      · exact hw
      · exact advance_dangling _ hws v hv

/-- The array is sent when its last buffer is used up. -/
theorem iovBytes_of_last {iov : List Iovec} (h : Shape iov)
    (hl : iov.getLast?.map Iovec.bytes = some []) : iovBytes iov = [] := by
  obtain ⟨used, rest, rfl, hu, hr⟩ := h
  have hnil : rest = [] := by
    by_contra hne
    rw [List.getLast?_append_of_ne_nil _ hne, List.getLast?_eq_some_getLast hne, Option.map_some,
      Option.some.injEq] at hl
    exact hr _ (List.getLast_mem hne) hl
  subst hnil
  simpa [iovBytes, List.flatMap_eq_nil_iff] using hu

/-! ### The invariant -/

/-- What is accepted and not yet sent. -/
def pending (c : RedisConn) : Bytes :=
  if c.iovIdx < 0 then c.response.flatten else iovBytes c.iov

/-- An array that is in use holds all that is to be sent. -/
structure Inv (c : RedisConn) : Prop where
  fault : c.fault = none
  idle : c.iovIdx < 0 → c.iov = []
  shape : 0 ≤ c.iovIdx → Shape c.iov ∧ c.iov ≠ [] ∧ c.response ≠ []
  dangling : ∀ v ∈ c.iov, v.dangling = false
  balance : c.sent ++ pending c = c.accepted.flatten

/-- An array is in use. -/
structure Busy (c : RedisConn) : Prop extends Inv c where
  busy : 0 ≤ c.iovIdx

theorem Busy.pending {c : RedisConn} (h : Busy c) : pending c = iovBytes c.iov :=
  if_neg (not_lt.mpr h.busy)

/-- How a call of `SendReply` ends. -/
def Sends (c : RedisConn) (x : RedisConn × WriteStatus) : Prop :=
  Inv x.1 ∧ x.1.accepted = c.accepted ∧ (x.2 = .writeAll → Conn.pending x.1 = [])

theorem advance_ne_nil {iov : List Iovec} (h : iov ≠ []) (n : ℕ) : advance n iov ≠ [] := by
  cases iov with
  | nil => exact absurd rfl h
  | cons v vs => rw [advance]; split_ifs <;> simp

theorem easyWritev_busy {c : RedisConn} (h : Busy c) (n : ℕ) :
    Busy (c.easyWritev n) ∧ (c.easyWritev n).accepted = c.accepted := by
  have hd : ¬ c.iov.any (fun v => v.dangling && v.bytes ≠ []) = true := by
    simp only [List.any_eq_true, not_exists, not_and]
    intro v hv
    simp [h.dangling v hv]
  obtain ⟨h1, h2, h3⟩ := h.shape h.busy
  rw [easyWritev, if_neg hd]
  refine ⟨⟨⟨h.fault, fun hi => absurd hi (by simp),
    fun _ => ⟨advance_shape h1 n, advance_ne_nil h2 n, h3⟩, advance_dangling n h.dangling, ?_⟩,
    by simp⟩, rfl⟩
  have hb := h.balance
  rw [h.pending] at hb
  rw [← hb, Conn.pending, if_neg (by simp)]
  simp only [iovBytes_advance, List.append_assoc, List.take_append_drop]

theorem halfOrError_sends {c : RedisConn} (h : Busy c) (r : ℤ) (e : Errno) :
    Sends c (c.halfOrError r e) := by
  have hk : ∀ k, Inv { c with numRetry := k } := fun k =>
    ⟨h.fault, h.idle, h.shape, h.dangling, h.balance⟩
  unfold halfOrError
  by_cases h1 : r = -1
  · rw [if_pos h1]
    cases e with
    | eagain => exact ⟨hk 0, rfl, by simp⟩
    | edeadlk =>
      dsimp only
      split_ifs
      · exact ⟨hk _, rfl, by simp⟩
      · exact ⟨hk 0, rfl, by simp⟩
    | other => exact ⟨hk 0, rfl, by simp⟩
  · rw [if_neg h1]; exact ⟨h.toInv, rfl, by simp⟩

theorem writeLoop_sends : ∀ (ws : List Writev) {c : RedisConn}, Busy c → Sends c (writeLoop ws c)
  | [], c, h => halfOrError_sends h _ _
  | w :: ws, c, h => by
    obtain ⟨hb, ha⟩ := easyWritev_busy h w.sent
    rw [writeLoop, if_neg (by simp [hb.fault])]
    split_ifs with hl hr
    · have hnil := iovBytes_of_last (hb.shape hb.busy).1 hl
      refine ⟨⟨hb.fault, fun _ => rfl, fun hi => absurd hi (by simp), by simp, ?_⟩, ha,
        fun _ => rfl⟩
      have := hb.balance
      rw [hb.pending, hnil] at this
      exact this
    · obtain ⟨i1, i2, i3⟩ := writeLoop_sends ws hb
      exact ⟨i1, i2.trans ha, i3⟩
    · obtain ⟨i1, i2, i3⟩ := halfOrError_sends hb w.ret w.errno
      exact ⟨i1, i2.trans ha, i3⟩

theorem buildIov_shape (response : List Bytes) : Shape (buildIov response) := by
  refine ⟨[], buildIov response, rfl, by simp, fun v hv => ?_⟩
  simp only [buildIov, List.mem_map, List.mem_filter, decide_eq_true_eq] at hv
  obtain ⟨r, ⟨-, hr⟩, rfl⟩ := hv
  exact hr

theorem iovBytes_buildIov (response : List Bytes) :
    iovBytes (buildIov response) = response.flatten := by
  induction response with
  | nil => rfl
  | cons r rs ih =>
    unfold iovBytes buildIov at ih ⊢
    by_cases hr : r = []
    · simpa [hr] using ih
    · simpa [hr] using ih

theorem sendReply_sends {c : RedisConn} (h : Inv c) (hn : c.response.length < 2 ^ 31)
    (ws : List Writev) : Sends c (c.sendReply ws) := by
  have hnum : toInt32 c.response.length = c.response.length := toInt32_of_lt hn
  unfold sendReply
  rw [hnum]
  dsimp only
  by_cases h0 : (c.response.length : ℤ) = 0
  · rw [if_pos h0]
    have hnil : c.response = [] := List.length_eq_zero_iff.mp (by omega)
    have hidle : c.iovIdx < 0 := by
      by_contra hi
      exact (h.shape (not_lt.mp hi)).2.2 hnil
    exact ⟨h, rfl, fun _ => by rw [pending, if_pos hidle, hnil]; rfl⟩
  rw [if_neg h0]
  by_cases hidle : c.iovIdx < 0
  swap
  · rw [if_neg hidle]
    exact writeLoop_sends ws ⟨h, not_lt.mp hidle⟩
  rw [if_pos hidle, if_neg (by omega), Int.toNat_natCast, List.take_length]
  have hpend : pending c = c.response.flatten := if_pos hidle
  split_ifs with hiov
  · refine ⟨h, rfl, fun _ => ?_⟩
    rw [hpend, ← iovBytes_buildIov, hiov]; rfl
  · refine writeLoop_sends ws ⟨⟨h.fault, fun hi => absurd hi (by simp),
      fun _ => ⟨buildIov_shape _, hiov, ?_⟩, ?_, ?_⟩, le_rfl⟩
    · rintro hnil; rw [hnil] at h0; exact h0 rfl
    · intro v hv
      simp only [buildIov, List.mem_map] at hv
      obtain ⟨r, -, rfl⟩ := hv; rfl
    · have := h.balance
      rw [hpend] at this
      rw [pending, if_neg (by simp)]
      simpa [iovBytes_buildIov] using this

/-- What every state of a run satisfies. -/
structure Sound (c : RedisConn) : Prop extends Inv c where
  all : c.last = some .writeAll → pending c = []

theorem Sound.lossless {c : RedisConn} (h : Sound c) : Lossless c := by
  refine ⟨h.fault, ⟨pending c, h.balance⟩, fun hl => ?_⟩
  have := h.balance
  rwa [h.all hl, List.append_nil] at this

theorem Sends.sound {c : RedisConn} {x : RedisConn × WriteStatus} (h : Sends c x) :
    Sound { x.1 with last := some x.2 } := by
  obtain ⟨h1, -, h3⟩ := h
  refine ⟨⟨h1.fault, h1.idle, h1.shape, h1.dangling, h1.balance⟩, fun hl => h3 ?_⟩
  simpa using hl

theorem writeResp_sound {c : RedisConn} (h : Sound c) (hidle : c.iovIdx < 0) (resp : Bytes) :
    Sound (c.writeResp resp) := by
  have hb := h.balance
  have hiov : (c.writeResp resp).iov = [] := by simp [writeResp, h.idle hidle]
  rw [pending, if_pos hidle] at hb
  refine ⟨⟨h.fault, fun _ => hiov, fun hi => absurd hi (not_le.mpr hidle), ?_, ?_⟩,
    by simp [writeResp]⟩
  · intro v hv
    rw [hiov] at hv
    cases hv
  · rw [pending, if_pos (show (c.writeResp resp).iovIdx < 0 from hidle)]
    simp only [writeResp, List.flatten_append, List.flatten_singleton]
    rw [← hb, List.append_assoc]

theorem step_sound (c : RedisConn) (op : Op) (h : Sound c) (hq : Quiet c op) :
    Sound (step c op) := by
  have hf : ¬ c.fault ≠ none := by simp [h.fault]
  cases op with
  | writeResp resp =>
    simp only [step, hf, if_false]
    exact writeResp_sound h hq resp
  | sendReply ws =>
    have hn : c.response.length < 2 ^ 31 := hq
    simp only [step, hf, if_false]
    exact (sendReply_sends h.toInv hn ws).sound

/-- **Nothing is lost or sent twice** in a run that adds no response while an array is in use. -/
theorem run_lossless (ops : List Op) (h : Guarded step Quiet {} ops) : Lossless (run step {} ops) :=
  (run_inv Sound step_sound
    ⟨⟨rfl, fun _ => rfl, fun hi => absurd hi (by decide), by simp, rfl⟩, by simp⟩ h).lossless

/-- Two responses, a partial write, and the rest. -/
theorem run_lossless_partial : Lossless (run step {}
    [.writeResp (bytes "+OK\r\n"), .writeResp (bytes ":1\r\n"), .sendReply [⟨3, -1, .eagain⟩],
      .sendReply [⟨6, 6, .eagain⟩]]) :=
  run_lossless _ (by decide +kernel)

/-- A response that comes between a partial write and the rest is dropped. -/
theorem not_lossless_between : ¬ Lossless (run step {}
    [.writeResp (bytes "$16\r\n0123456789abcdef\r\n"), .sendReply [⟨3, -1, .eagain⟩],
      .writeResp (bytes "+OK\r\n"), .sendReply [⟨30, 21, .eagain⟩]]) := by
  decide +kernel

end Pink.Redis.Conn
