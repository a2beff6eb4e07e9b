import Pink.Lib.Runs
import Pink.Backend.Thread

/-! # Messages stay with their connection

`to_send_` is cleared for a descriptor in one section under `mu_`, and the connection is erased from
`conns_` in a later one. A `Write` that gets in between is accepted for the connection that is being
closed; its message stays in `to_send_`, and goes to the next connection with the same descriptor.
In a run without such a `Write`, every message is passed to the connection that was registered when
it was accepted (`run_uncrossed`). -/

namespace Pink.Backend.Messages

open Pink.Redis.Wire Pink.Lib.Runs Pink.Server.Conns Pink.Backend.Thread
open BackendThread

/-- Every message was passed to the connection it was accepted for. -/
def Uncrossed (s : BackendThread) : Prop := ∀ d ∈ s.delivered, d.conn = d.owner

/-- The step is not a `Write` to a descriptor that is between `CleanUpConnRemaining` and
`conns_.erase`. -/
def Timely (s : BackendThread) : Op → Prop
  | .write fd _ _ => s.cleanedFd ≠ some fd
  | _ => True

instance (s : BackendThread) (op : Op) : Decidable (Timely s op) := by
  cases op <;> unfold Timely <;> infer_instance

/-- The connection the event loop is closing. -/
def target (s : BackendThread) : Option (ℤ × Conn) :=
  match s.pc with
  | .idle => none
  | .closing fd c | .closed fd c | .cleaned fd c => some (fd, c)

/-- The messages of `to_send_` are for the connections registered in `conns_`, and there are none
for a descriptor that has been cleaned up. -/
structure Owned (s : BackendThread) : Prop where
  key : ∀ fd (c : Conn), s.conns[fd]? = some c → c.fd = fd
  target : ∀ fd c, target s = some (fd, c) → c.fd = fd
  owned : ∀ fd, ∀ m ∈ s.messages fd, s.conns[fd]? = some m.2
  cleaned : ∀ fd, s.cleanedFd = some fd → s.messages fd = []

/-- What holds in every state; a run is over when the event loop is halted. -/
def Inv (s : BackendThread) : Prop := Uncrossed s ∧ (s.halted = none → Owned s)

section Steps
variable {s : BackendThread}

theorem messages_insert (s : BackendThread) (fd fd' : ℤ) (ms : List (Bytes × Conn)) :
    (s.toSend.insert fd ms).getD fd' [] = if fd' = fd then ms else s.messages fd' := by
  rw [Std.ExtTreeMap.getD_insert]
  simp only [Std.compare_eq_iff_eq, @eq_comm _ fd fd']
  rfl

theorem messages_cleanUp (s : BackendThread) (fd fd' : ℤ) :
    (s.cleanUpConnRemaining fd).messages fd' = if fd' = fd then [] else s.messages fd' := by
  unfold messages cleanUpConnRemaining
  rw [Std.ExtTreeMap.getD_erase]
  simp only [Std.compare_eq_iff_eq, @eq_comm _ fd fd']

/-- Changes that the ownership does not mention. -/
theorem Owned.congr {s' : BackendThread} (h : Owned s) (h1 : s'.conns = s.conns)
    (h2 : s'.toSend = s.toSend) (h3 : s'.pc = s.pc) : Owned s' := by
  have hm : ∀ fd, s'.messages fd = s.messages fd := fun fd => by unfold messages; rw [h2]
  have ht : Messages.target s' = Messages.target s := by unfold Messages.target; rw [h3]
  have hc : s'.cleanedFd = s.cleanedFd := by unfold cleanedFd; rw [h3]
  refine ⟨h1 ▸ h.key, ht ▸ h.target, fun fd => ?_, fun fd => ?_⟩
  · rw [hm, h1]; exact h.owned fd
  · rw [hm, hc]; exact h.cleaned fd

theorem Owned.cleanUp (h : Owned s) (fd : ℤ) : Owned (s.cleanUpConnRemaining fd) := by
  refine ⟨h.key, h.target, fun fd' m hm => ?_, fun fd' hc => ?_⟩
  · rw [messages_cleanUp] at hm
    split_ifs at hm
    · simp at hm
    · exact h.owned fd' m hm
  · rw [messages_cleanUp]
    split_ifs
    · rfl
    · exact h.cleaned fd' hc

/-- Messages for a registered connection are put into `to_send_`. -/
theorem Owned.insert (h : Owned s) {fd : ℤ} (hfd : s.cleanedFd ≠ some fd)
    {ms : List (Bytes × Conn)} (hms : ∀ m ∈ ms, s.conns[fd]? = some m.2) :
    Owned { s with toSend := s.toSend.insert fd ms } := by
  refine ⟨h.key, h.target, fun fd' m hm => ?_, fun fd' hc => ?_⟩
  · rw [messages, messages_insert] at hm
    split_ifs at hm with he
    · subst he; exact hms m hm
    · exact h.owned fd' m hm
  · rw [messages, messages_insert, if_neg (by rintro rfl; exact hfd hc)]
    exact h.cleaned fd' hc

theorem owned_write (h : Owned s) {fd : ℤ} (hfd : s.cleanedFd ≠ some fd) (msg : Bytes)
    (access : Bool) : Owned (s.write fd msg access).1 := by
  unfold write
  rcases hc : s.conns[fd]? with _ | c
  · exact h
  · dsimp only
    split_ifs
    · exact h.insert hfd (h.owned fd)
    · have hms : ∀ m ∈ s.messages fd ++ [(msg, c)], s.conns[fd]? = some m.2 := by
        intro m hm
        rcases List.mem_append.mp hm with hm | hm
        · exact h.owned fd m hm
        · rw [List.mem_singleton.mp hm]; exact hc
      exact (h.insert hfd hms).congr rfl rfl rfl
    · exact h

theorem owned_addConnection (h : Owned s) (fd : ℤ) (ipPort : Bytes) (inProgress : Bool)
    (now : ℤ) : Owned (s.addConnection fd ipPort inProgress now) := by
  have hkeep : ∀ (fd' : ℤ) (c : Conn), s.conns[fd']? = some c →
      (s.addConnection fd ipPort inProgress now).conns[fd']? = some c := by
    intro fd' c hc
    unfold addConnection
    rw [Std.ExtTreeMap.getElem?_insertIfNew, if_neg]
    · exact hc
    · rintro ⟨he, hn⟩
      rw [Std.compare_eq_iff_eq.mp he] at hn
      exact hn (Std.ExtTreeMap.mem_iff_isSome_getElem?.mpr (by rw [hc]; rfl))
  refine ⟨fun fd' c hc => ?_, h.target, fun fd' m hm => hkeep fd' _ (h.owned fd' m hm), h.cleaned⟩
  unfold addConnection at hc
  rw [Std.ExtTreeMap.getElem?_insertIfNew] at hc
  split_ifs at hc with he
  · rw [← Option.some.inj hc]; exact Std.compare_eq_iff_eq.mp he.1
  · exact h.key fd' c hc

theorem owned_connEvent (h : Owned s) (hpc : s.pc = .idle) (fd : ℤ) (mask : Server.Threads.Mask)
    (o : Server.Threads.Outcome) (connectError : Bool) (now : ℤ) :
    Owned (s.connEvent fd mask o connectError now) := by
  unfold connEvent
  rcases hc : s.conns[fd]? with _ | c
  · exact h
  · dsimp only
    generalize closes _ connectError mask o = b
    cases b with
    | false => exact h.congr rfl rfl hpc.symm
    | true =>
      refine ⟨h.key, fun fd' c' ht => ?_, h.owned, fun fd' hcl => ?_⟩
      · obtain ⟨rfl, rfl⟩ := Prod.mk.inj (Option.some.inj ht)
        exact h.key _ _ hc
      · simp [cleanedFd] at hcl

theorem owned_advance (h : Owned s) : Owned s.advance := by
  unfold advance
  rcases hpc : s.pc with _ | ⟨fd, c⟩ | ⟨fd, c⟩ | ⟨fd, c⟩
  · exact h
  · refine ⟨h.key, fun fd' c' ht => ?_, h.owned, fun fd' hcl => ?_⟩
    · exact h.target fd' c' (by rw [← ht]; simp [Messages.target, hpc])
    · simp [cleanedFd] at hcl
  · have hfd : c.fd = fd := h.target fd c (by simp [Messages.target, hpc])
    have hclean := h.cleanUp c.fd
    refine ⟨h.key, fun fd' c' ht => ?_, hclean.owned, fun fd' hcl => ?_⟩
    · exact h.target fd' c' (by rw [← ht]; simp [Messages.target, hpc])
    · obtain rfl : fd = fd' := by simpa [cleanedFd] using hcl
      show (s.cleanUpConnRemaining c.fd).messages fd = []
      rw [messages_cleanUp, if_pos hfd.symm]
  · have hnone : s.messages fd = [] := h.cleaned fd (by simp [cleanedFd, hpc])
    refine ⟨fun fd' c' hc => ?_, fun fd' c' ht => ?_, fun fd' m hm => ?_, fun fd' hcl => ?_⟩
    · dsimp only at hc
      rw [Std.ExtTreeMap.getElem?_erase] at hc
      split_ifs at hc
      exact h.key fd' c' hc
    · simp [Messages.target] at ht
    · have hne : fd ≠ fd' := by
        rintro rfl
        have : m ∈ s.messages fd := hm
        rw [hnone] at this
        exact List.not_mem_nil this
      dsimp only
      rw [Std.ExtTreeMap.getElem?_erase, if_neg (fun he => hne (Std.compare_eq_iff_eq.mp he))]
      exact h.owned fd' m hm
    · simp [cleanedFd] at hcl

/-! ### Every step -/

theorem inv_processNotify (h : Inv s) (ho : Owned s) (n : Notify) : Inv (s.processNotify n) := by
  cases n with
  | close fd => exact ⟨h.1, fun hh => by simp [processNotify] at hh⟩
  | write fd =>
    dsimp only [processNotify]
    split
    · exact h
    case _ c hc =>
      refine ⟨fun d hd => ?_, fun _ => (ho.cleanUp fd).congr rfl rfl rfl⟩
      rcases List.mem_append.mp hd with hd | hd
      · exact h.1 d hd
      · obtain ⟨m, hm, rfl⟩ := List.mem_map.mp hd
        exact Option.some.inj (hc.symm.trans (ho.owned fd m hm))

theorem inv_doCronTask (h : Inv s) (now : ℤ) : Inv (s.doCronTask now) := by
  unfold doCronTask
  split
  · exact h
  · exact ⟨h.1, fun hh => by simp at hh⟩

theorem inv_of_owned (h : Inv s) {s' : BackendThread} (hd : s'.delivered = s.delivered)
    (ho : Owned s') : Inv s' := ⟨by rw [Uncrossed, hd]; exact h.1, fun _ => ho⟩

theorem delivered_write (fd : ℤ) (msg : Bytes) (access : Bool) :
    (s.write fd msg access).1.delivered = s.delivered := by
  unfold write
  split
  · rfl
  · dsimp only; split_ifs <;> rfl

theorem delivered_connEvent (fd : ℤ) (mask : Server.Threads.Mask) (o : Server.Threads.Outcome)
    (connectError : Bool) (now : ℤ) :
    (s.connEvent fd mask o connectError now).delivered = s.delivered := by
  unfold connEvent; split <;> rfl

theorem delivered_advance : s.advance.delivered = s.delivered := by
  unfold advance; split <;> rfl

/-- **Every step but a late `Write` keeps the messages with their connections.** -/
theorem inv_step (h : Inv s) (op : Op) (hop : Timely s op) : Inv (step s op) := by
  unfold step
  by_cases hh : s.halted = none
  · have ho := h.2 hh
    rw [if_neg (not_not.mpr hh)]
    cases op with
    | write fd msg access =>
      exact inv_of_owned h (delivered_write fd msg access) (owned_write ho hop msg access)
    | close fd =>
      dsimp only [close]
      split
      · exact h
      · exact inv_of_owned h rfl (ho.congr rfl rfl rfl)
    | notify n =>
      dsimp only
      split_ifs
      · exact inv_of_owned h rfl (ho.congr rfl rfl rfl)
      · exact h
    | socket fd =>
      dsimp only
      split_ifs
      · exact h
      · exact inv_of_owned h rfl (ho.congr rfl rfl rfl)
    | connectFailed fd =>
      dsimp only
      split_ifs
      · exact inv_of_owned h rfl (ho.congr rfl rfl rfl)
      · exact h
    | cleanUp fd =>
      dsimp only
      split_ifs
      · exact inv_of_owned h rfl ((ho.cleanUp fd).congr rfl rfl rfl)
      · exact h
    | addConnection fd ipPort inProgress now =>
      dsimp only
      split_ifs
      · exact inv_of_owned h rfl (owned_addConnection ho fd ipPort inProgress now)
      · exact h
    | processNotify =>
      dsimp only
      split
      case _ n ns hpc hpipe =>
        have ho' : Owned { s with pipe := ns } := ho.congr rfl rfl rfl
        have h' : Inv { s with pipe := ns } := ⟨h.1, fun _ => ho'⟩
        exact inv_processNotify h' ho' n
      · exact h
    | connEvent fd mask o connectError now =>
      dsimp only
      split_ifs with hpc
      · exact inv_of_owned h (delivered_connEvent fd mask o connectError now)
          (owned_connEvent ho hpc fd mask o connectError now)
      · exact h
    | advance => exact inv_of_owned h delivered_advance (owned_advance ho)
    | cron now =>
      dsimp only
      split_ifs
      · exact inv_doCronTask h now
      · exact h
  · rw [if_pos hh]; exact h

theorem inv_start (timeout : ℤ) : Inv { keepaliveTimeout := timeout } :=
  ⟨by simp [Uncrossed], fun _ => ⟨by simp, by simp [target], by simp [messages],
    by simp [cleanedFd]⟩⟩

end Steps

/-- **In every run without a late `Write` no message crosses connections.** -/
theorem run_uncrossed (timeout : ℤ) {ops : List Op}
    (h : Guarded step Timely { keepaliveTimeout := timeout } ops) :
    Uncrossed (run step { keepaliveTimeout := timeout } ops) :=
  (run_inv Inv (fun _ op hs hop => inv_step hs op hop) (inv_start timeout) h).1

/-- A connection is closed with a message pending, and its descriptor is used again. -/
theorem run_uncrossed_reuse : Uncrossed (run step { keepaliveTimeout := 60 }
    [.socket 5, .addConnection 5 (bytes "a:1") false 0, .write 5 (bytes "x") true,
      .connEvent 5 { epollin := true } { read := .readClose } false 1, .advance, .advance, .advance,
      .socket 5, .addConnection 5 (bytes "b:1") false 2, .write 5 (bytes "y") true,
      .notify (.write 5), .processNotify]) :=
  run_uncrossed 60 (by decide +kernel)

/-- The `Write` comes after `CleanUpConnRemaining` and before `conns_.erase`. -/
theorem not_uncrossed_late : ¬Uncrossed (run step { keepaliveTimeout := 60 }
    [.socket 5, .addConnection 5 (bytes "a:1") false 0,
      .connEvent 5 { epollin := true } { read := .readClose } false 1, .advance, .advance,
      .write 5 (bytes "x") true, .advance,
      .socket 5, .addConnection 5 (bytes "b:1") false 2,
      .notify (.write 5), .processNotify]) := fun h =>
  absurd (h ⟨⟨1, 5, bytes "b:1"⟩, bytes "x", ⟨0, 5, bytes "a:1"⟩⟩ (by decide +kernel))
    (by decide +kernel)

end Pink.Backend.Messages
