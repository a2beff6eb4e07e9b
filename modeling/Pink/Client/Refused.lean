import Pink.Client.Indexes

/-! # Messages that are not taken

The loop of `ProcessNotifyEvents` that hands the messages for an address to their connection, with
the line for a message that is not taken: `to_send_[ip_port].push_back(msg)`, on the vector that is
gone through. Either the vector is moved, and the loop uses an iterator into freed memory, or the
message is behind the old end, where the loop does not get, and is erased with the entry. So what a
connection does not take is lost; the messages are kept exactly if it takes them all (`kept_iff`).

`Client.Thread` halts at the first message that is not taken; it is the case in which there is never
room for another one (`processWrite_zero`). -/

namespace Pink.Client.Refused

open Pink.Redis.Wire Pink.Server.Conns Pink.Client.Thread
open ClientThread (connectLoop newConnection)

/-- What `WriteResp` does with a message: whether it returns something else than zero, and what it
leaves of the string. -/
structure Answer where
  refused : Bool := false
  left : Bytes := []
  deriving DecidableEq, Repr

/-- The messages with the answers to them. -/
def offers : List Bytes → List Answer → List (Bytes × Answer)
  | [], _ => []
  | msg :: msgs, answers => (msg, answers.headD {}) :: offers msgs answers.tail

/-! ### The loop -/

/-- `to_send_[ip_port].push_back(msg)` and `NotifyWrite(ip_port)`. -/
def putBack (s : ClientThread) (ipPort left : Bytes) : ClientThread :=
  { s with
    toSend := s.toSend.insert ipPort (s.toSend.getD ipPort [] ++ [left])
    pipe := s.pipe ++ [.write ipPort] }

/-- The loop goes through the messages that were there at its beginning; `spare` is the number of
strings that can still be put into the vector without moving it. -/
def retryLoop (ipPort : Bytes) (conn : Conn) :
    List (Bytes × Answer) → ℕ → ClientThread → ClientThread
  | [], _, s => { s with toSend := s.toSend.erase ipPort }
  | (msg, a) :: rest, spare, s =>
    if a.refused then
      if spare = 0 then { s with halted := true }
      else retryLoop ipPort conn rest (spare - 1) (putBack s ipPort a.left)
    else retryLoop ipPort conn rest spare { s with delivered := s.delivered ++ [(conn, msg)] }

/-- The lines behind the connecting. -/
def sendRetrying (ipPort : Bytes) (answers : List Answer) (spare : ℕ) (s : ClientThread) :
    ClientThread :=
  match s.toSend[ipPort]?, s.ipportConns[ipPort]? with
  | none, _ => s
  | some [], _ => { s with toSend := s.toSend.erase ipPort }
  | some (_ :: _), none => { s with halted := true }
  | some msgs, some conn => retryLoop ipPort conn (offers msgs answers) spare s

/-- The lines in front: whether they get to the messages. -/
def connecting (parse : Bytes → Option (Bytes × Int32)) (res : Resolved) (now : ℤ) (ipPort : Bytes)
    (s : ClientThread) : ClientThread × Bool :=
  match s.ipportConns[ipPort]? with
  | some _ => (s, true)
  | none =>
    match parse ipPort with
    | none => (s, false)
    | some (ip, port) =>
      let (s, status) := s.scheduleConnect ip port res now
      (s, status = .ok)

/-- A notification to write. -/
def processWrite (parse : Bytes → Option (Bytes × Int32)) (res : Resolved) (answers : List Answer)
    (spare : ℕ) (now : ℤ) (ipPort : Bytes) (s : ClientThread) : ClientThread :=
  let (s, go) := connecting parse res now ipPort s
  if go then sendRetrying ipPort answers spare s else s

/-! ### What should hold -/

/-- The loop has ended; the messages that were taken have been handed over in order, those that were
not are pending, in order, and there is a further notification if there are any. -/
structure Kept (ipPort : Bytes) (conn : Conn) (os : List (Bytes × Answer)) (s s' : ClientThread) :
    Prop where
  finished : s'.halted = false
  handed : s'.delivered = s.delivered ++ (os.filter fun o => !o.2.refused).map fun o => (conn, o.1)
  pending : s'.toSend.getD ipPort [] = (os.filter fun o => o.2.refused).map Prod.fst
  notified : (∃ o ∈ os, o.2.refused) → ∃ items, s'.pipe = s.pipe ++ items ∧ .write ipPort ∈ items

/-- The connection takes every message. -/
def TakesAll (os : List (Bytes × Answer)) : Prop := ∀ o ∈ os, o.2.refused = false

/-! ### The loop erases the entry -/

section Loop
variable {ipPort : Bytes} {conn : Conn} {s : ClientThread}

/-- However the messages are answered, the loop does not end or nothing is pending behind it. -/
theorem retryLoop_erases : ∀ (os : List (Bytes × Answer)) (spare : ℕ) (s : ClientThread),
    (retryLoop ipPort conn os spare s).halted = false →
      (retryLoop ipPort conn os spare s).toSend.getD ipPort [] = [] := by
  intro os
  induction os with
  | nil =>
    intro _ s _
    show (s.toSend.erase ipPort).getD ipPort [] = []
    exact Std.ExtTreeMap.getD_erase_self
  | cons o rest ih =>
    intro spare s
    obtain ⟨msg, a⟩ := o
    unfold retryLoop
    split_ifs
    · intro h
      cases h
    · exact ih (spare - 1) _
    · exact ih spare _

/-- If every message is taken the loop hands them over and erases the entry. -/
theorem retryLoop_takesAll : ∀ (os : List (Bytes × Answer)) (spare : ℕ) (s : ClientThread),
    TakesAll os → retryLoop ipPort conn os spare s =
      { s with
        delivered := s.delivered ++ os.map fun o => (conn, o.1)
        toSend := s.toSend.erase ipPort } := by
  intro os
  induction os with
  | nil =>
    intro _ s _
    simp [retryLoop]
  | cons o rest ih =>
    intro spare s h
    obtain ⟨msg, a⟩ := o
    have ha : a.refused = false := h (msg, a) List.mem_cons_self
    rw [retryLoop, if_neg (by simp [ha]), ih spare _ fun o ho => h o (List.mem_cons_of_mem _ ho)]
    simp

theorem kept_retryLoop (hh : s.halted = false) (os : List (Bytes × Answer)) (spare : ℕ) :
    Kept ipPort conn os s (retryLoop ipPort conn os spare s) ↔ TakesAll os := by
  constructor
  · intro h o ho
    have hnil := retryLoop_erases os spare s h.finished
    rw [h.pending, List.map_eq_nil_iff, List.filter_eq_nil_iff] at hnil
    simpa using hnil o ho
  · intro h
    rw [retryLoop_takesAll os spare s h]
    have htaken : os.filter (fun o => !o.2.refused) = os :=
      List.filter_eq_self.mpr fun o ho => by simp [h o ho]
    have hrefused : os.filter (fun o => o.2.refused) = [] :=
      List.filter_eq_nil_iff.mpr fun o ho => by simp [h o ho]
    refine ⟨hh, by rw [htaken], ?_, ?_⟩
    · rw [hrefused]
      exact Std.ExtTreeMap.getD_erase_self
    · rintro ⟨o, ho, hr⟩
      rw [h o ho] at hr
      cases hr

end Loop

/-! ### The notification -/

section Notification
variable {ipPort error : Bytes} {now : ℤ} {s : ClientThread}

/-- What the connecting leaves behind when it is successful. -/
structure Ready (ipPort : Bytes) (s s' : ClientThread) : Prop where
  halted : s'.halted = s.halted
  conn : ∃ conn, s'.ipportConns[ipPort]? = some conn

theorem ready_newConnection (ipPort : Bytes) (fd now : ℤ) :
    Ready ipPort s (s.newConnection ipPort fd now) := by
  refine ⟨rfl, ?_⟩
  show ∃ conn, (s.ipportConns.insertIfNew ipPort _)[ipPort]? = some conn
  rw [Std.ExtTreeMap.getElem?_insertIfNew]
  split_ifs with hif
  · exact ⟨_, rfl⟩
  · refine Option.isSome_iff_exists.mp ?_
    rw [← Std.ExtTreeMap.mem_iff_isSome_getElem?]
    simpa using hif

theorem ready_connectLoop : ∀ {attempts : List Attempt} {s : ClientThread},
    (connectLoop ipPort error now attempts s).2 = .ok →
      Ready ipPort s (connectLoop ipPort error now attempts s).1
  | [], s => fun h => by cases h
  | .noSocket :: rest, s => @ready_connectLoop rest s
  | .unreachable fd :: rest, s => by
    unfold connectLoop
    split_ifs
    · exact ready_connectLoop
    · intro h
      obtain ⟨hh, hc⟩ := ready_connectLoop h
      exact ⟨hh, hc⟩
  | .inProgress fd :: rest, s => by
    unfold connectLoop
    split_ifs
    · exact ready_connectLoop
    · intro _
      obtain ⟨hh, hc⟩ := ready_newConnection (s := s) ipPort fd now
      exact ⟨hh, hc⟩
  | .failed fd :: rest, s => by
    unfold connectLoop
    split_ifs
    · exact ready_connectLoop
    · intro h
      cases h
  | .connected fd same :: rest, s => by
    unfold connectLoop
    split_ifs
    · exact ready_connectLoop
    · intro h
      cases h
    · intro _
      exact ready_newConnection ipPort fd now

/-- Where the loop begins there is a connection. -/
theorem ready_connecting {parse : Bytes → Option (Bytes × Int32)} (hp : ParseSpec parse)
    {res : Resolved} {ip : Bytes} {port : Int32} {s' : ClientThread}
    (h : connecting parse res now (join ip port) s = (s', true)) : Ready (join ip port) s s' := by
  unfold connecting at h
  split at h
  · rename_i conn hconn
    cases h
    exact ⟨rfl, conn, hconn⟩
  · split at h
    · cases h
    · rename_i ip' port' hparse
      rw [Prod.mk.injEq, decide_eq_true_eq] at h
      obtain ⟨rfl, hok⟩ := h
      unfold ClientThread.scheduleConnect at hok ⊢
      rw [hp.joins ip port ip' port' hparse] at hok ⊢
      rcases hres : res.attempts with _ | attempts <;> rw [hres] at hok
      · cases hok
      · exact ready_connectLoop hok

/-- The lines behind the connecting, for a connection that is there. -/
theorem kept_sendRetrying (hh : s.halted = false) {conn : Conn}
    (hc : s.ipportConns[ipPort]? = some conn) (answers : List Answer) (spare : ℕ) :
    Kept ipPort conn (offers (s.toSend.getD ipPort []) answers) s
        (sendRetrying ipPort answers spare s) ↔
      TakesAll (offers (s.toSend.getD ipPort []) answers) := by
  rw [Std.ExtTreeMap.getD_eq_getD_getElem?]
  unfold sendRetrying
  rw [hc]
  rcases hs : s.toSend[ipPort]? with _ | (_ | ⟨msg, msgs⟩)
  · refine iff_of_true ⟨hh, by simp [offers], ?_, by simp [offers]⟩ (by simp [TakesAll, offers])
    rw [Std.ExtTreeMap.getD_eq_getD_getElem?, hs]
    rfl
  · refine iff_of_true ⟨hh, by simp [offers], ?_, by simp [offers]⟩ (by simp [TakesAll, offers])
    exact Std.ExtTreeMap.getD_erase_self
  · exact kept_retryLoop hh _ spare

/-- With no room in the vector the loop is that of `Client.Thread`. -/
theorem retryLoop_zero (ipPort : Bytes) (conn : Conn) : ∀ (msgs : List Bytes) (answers : List Answer)
    (s : ClientThread), retryLoop ipPort conn (offers msgs answers) 0 s =
      s.handOver ipPort conn msgs (answers.map Answer.refused)
  | [], _, _ => rfl
  | msg :: msgs, answers, s => by
    rw [offers, retryLoop, ClientThread.handOver]
    have hhead : (answers.map Answer.refused).headD false = (answers.headD {}).refused := by
      cases answers <;> rfl
    rw [hhead, ← List.map_tail, if_pos rfl]
    split_ifs
    · rfl
    · exact retryLoop_zero ipPort conn msgs answers.tail _

theorem sendRetrying_zero (s : ClientThread) (ipPort : Bytes) (answers : List Answer) :
    sendRetrying ipPort answers 0 s = s.sendPending ipPort (answers.map Answer.refused) := by
  unfold sendRetrying ClientThread.sendPending
  rcases s.toSend[ipPort]? with _ | (_ | ⟨msg, msgs⟩)
  · rfl
  · rfl
  rcases s.ipportConns[ipPort]? with _ | conn
  · rfl
  · exact retryLoop_zero ipPort conn (msg :: msgs) answers s

/-- **The notification is that of `Client.Thread`** if there is no room for another message. -/
theorem processWrite_zero (parse : Bytes → Option (Bytes × Int32)) (res : Resolved)
    (answers : List Answer) (now : ℤ) (ipPort : Bytes) (s : ClientThread) :
    processWrite parse res answers 0 now ipPort s =
      s.processNotify parse res (answers.map Answer.refused) now (.write ipPort) := by
  unfold processWrite connecting ClientThread.processNotify
  dsimp only
  rcases s.ipportConns[ipPort]? with _ | conn
  · dsimp only
    rcases parse ipPort with _ | ⟨ip, port⟩
    · rfl
    · dsimp only
      simp only [decide_eq_true_eq, sendRetrying_zero]
  · exact sendRetrying_zero s ipPort answers

/-- **The pending messages are kept exactly if the connection takes them all.** -/
theorem kept_iff {parse : Bytes → Option (Bytes × Int32)} (hp : ParseSpec parse) {res : Resolved}
    {ip : Bytes} {port : Int32} {s s₁ : ClientThread} (hh : s.halted = false)
    (hs₁ : connecting parse res now (join ip port) s = (s₁, true)) (answers : List Answer)
    (spare : ℕ) :
    ∃ conn, s₁.ipportConns[join ip port]? = some conn ∧
      (Kept (join ip port) conn (offers (s₁.toSend.getD (join ip port) []) answers) s₁
          (processWrite parse res answers spare now (join ip port) s) ↔
        TakesAll (offers (s₁.toSend.getD (join ip port) []) answers)) := by
  obtain ⟨hh₁, conn, hc⟩ := ready_connecting hp hs₁
  refine ⟨conn, hc, ?_⟩
  have hw : processWrite parse res answers spare now (join ip port) s =
      sendRetrying (join ip port) answers spare s₁ := by
    unfold processWrite
    rw [hs₁]
    rfl
  rw [hw]
  exact kept_sendRetrying (hh₁.trans hh) hc answers spare

end Notification

/-- A connection, and two messages for it. -/
def twoPending : ClientThread where
  ipportConns := Std.ExtTreeMap.empty.insert (bytes "a:1") ⟨0, 5, bytes "a:1"⟩
  toSend := Std.ExtTreeMap.empty.insert (bytes "a:1") [bytes "x", bytes "y"]

theorem kept_iff_twoPending :
    ∃ conn, twoPending.ipportConns[join (bytes "a") 1]? = some conn ∧
      (Kept (join (bytes "a") 1) conn (offers (twoPending.toSend.getD (join (bytes "a") 1) []) [])
          twoPending (processWrite Indexes.parseIpPortString {} [] 0 0 (join (bytes "a") 1) twoPending) ↔
        TakesAll (offers (twoPending.toSend.getD (join (bytes "a") 1) []) [])) := by
  have hc : twoPending.ipportConns[join (bytes "a") 1]? = some ⟨0, 5, bytes "a:1"⟩ := by
    decide +kernel
  exact kept_iff Indexes.parseIpPortString_spec rfl (by rw [connecting, hc]) [] 0

/-- The second message is not taken: with room for two more in the vector, and with none. -/
theorem not_kept_refused :
    ¬Kept (bytes "a:1") ⟨0, 5, bytes "a:1"⟩
        (offers [bytes "x", bytes "y"] [⟨false, []⟩, ⟨true, bytes "y"⟩]) twoPending
        (processWrite Indexes.parseIpPortString {} [⟨false, []⟩, ⟨true, bytes "y"⟩] 2 0 (bytes "a:1")
          twoPending) ∧
      ¬Kept (bytes "a:1") ⟨0, 5, bytes "a:1"⟩
        (offers [bytes "x", bytes "y"] [⟨false, []⟩, ⟨true, bytes "y"⟩]) twoPending
        (processWrite Indexes.parseIpPortString {} [⟨false, []⟩, ⟨true, bytes "y"⟩] 0 0 (bytes "a:1")
          twoPending) :=
  ⟨fun h => absurd h.pending (by decide +kernel), fun h => absurd h.finished (by decide +kernel)⟩

end Pink.Client.Refused
