import Pink.Lib.Handles
import Pink.Lib.Runs
import Pink.Redis.Wire

/-! # The synchronous client

`PinkCli` keeps one descriptor, `sockfd`, and `available`, which says that it is that of a connection.
`Connect` assigns `sockfd` for every address it tries, and sets `available` only when it is
successful; `Close`, which the destructor calls, closes `sockfd` only if `available` is set. The two
agree, and every socket but the current one has been closed exactly once (`Owns`), exactly if
`Connect` is not called for addresses while there is a connection and no connection is with itself
(`guarded_owns_iff`): in the first case the socket is forgotten, in the second it stays open.

The files of the process are those of `Lib.Handles`, as far as they are sockets of this client. -/

namespace Pink.Client.Cli

open Pink.Redis.Wire Pink.Lib.Runs Pink.Lib.Handles

inductive Status
  | ok
  | ioError (msg msg2 : Bytes)
  | timeout (msg : Bytes)
  deriving DecidableEq, Repr

/-- The exits of `Connect` at an address that cannot be connected to. -/
inductive Failure
  | pollError | pollTimeout | getsockoptError | soError | connectError
  deriving DecidableEq, Repr

def Failure.status : Failure → Status
  | .pollError => .ioError (bytes "EHOSTUNREACH") (bytes "connect poll error")
  | .pollTimeout => .timeout []
  | .getsockoptError => .ioError (bytes "EHOSTUNREACH") (bytes "connect host getsockopt error")
  | .soError => .ioError (bytes "EHOSTUNREACH") (bytes "connect host error")
  | .connectError => .ioError (bytes "EHOSTUNREACH") (bytes "The target host cannot be reached")

inductive Outcome
  | unreachable
  | failed (why : Failure)
  /-- Connected, at once or after `poll`; `getsockname` returns this address. -/
  | connected (lip : Bytes) (lport : ℤ)
  deriving DecidableEq, Repr

/-- What `socket` returns for an address, and what follows. -/
structure Attempt where
  fd : ℤ
  outcome : Outcome
  deriving DecidableEq, Repr

/-- The outcome of `getaddrinfo`, and of what follows; `error` is the text of the last `errno`. -/
structure Resolved where
  attempts : Option (List Attempt) := none
  error : Bytes := []
  deriving DecidableEq, Repr

structure PinkCli where
  peerIp : Bytes := []
  peerPort : ℤ := 0
  sockfd : ℤ := -1
  available : Bool := false
  files : Table ℤ := {}

namespace PinkCli

/-- `socket` returns only descriptors that are not open; anything else stands for `-1`. -/
def IsFree (s : PinkCli) (fd : ℤ) : Prop := 0 ≤ fd ∧ s.files.entry fd = none

instance (s : PinkCli) (fd : ℤ) : Decidable (s.IsFree fd) := inferInstanceAs (Decidable (_ ∧ _))

/-- `sockfd = socket(..)`. -/
def socket (s : PinkCli) (fd : ℤ) : PinkCli := { s with sockfd := fd, files := s.files.openAt fd }

/-- `close(sockfd)`. -/
def closeSocket (s : PinkCli) : PinkCli := { s with files := s.files.close s.sockfd }

/-- The loop of `Connect` over the resolved addresses. -/
def connectLoop (ip : Bytes) (port : ℤ) (error : Bytes) : List Attempt → PinkCli → PinkCli × Status
  | [], s => (s, .ioError error (bytes "Can't create socket "))
  | a :: rest, s =>
    if ¬s.IsFree a.fd then connectLoop ip port error rest { s with sockfd := -1 }
    else
      match a.outcome with
      | .unreachable => connectLoop ip port error rest (s.socket a.fd).closeSocket
      | .failed why => ((s.socket a.fd).closeSocket, why.status)
      | .connected lip lport =>
        if ip = lip ∧ port = lport then
          (s.socket a.fd, .ioError (bytes "EHOSTUNREACH") (bytes "same ip port"))
        else ({ s.socket a.fd with available := true }, .ok)

def connect (s : PinkCli) (ip : Bytes) (port : ℤ) (res : Resolved) : PinkCli × Status :=
  match res.attempts with
  | none => (s, .ioError (bytes "connect getaddrinfo error for ") ip)
  | some attempts => connectLoop ip port res.error attempts s

/-- `Connect(bind_ip)`. -/
def connectPeer (s : PinkCli) (res : Resolved) : PinkCli × Status := s.connect s.peerIp s.peerPort res

def close (s : PinkCli) : PinkCli :=
  if s.available then { s.closeSocket with available := false, sockfd := -1 } else s

/-! ### Runs -/

inductive Op
  | connectPeer (res : Resolved)
  | connect (ip : Bytes) (port : ℤ) (res : Resolved)
  | close
  deriving DecidableEq, Repr

def step (s : PinkCli) : Op → PinkCli
  | .connectPeer res => (s.connectPeer res).1
  | .connect ip port res => (s.connect ip port res).1
  | .close => s.close

/-- A new client. -/
def start (ip : Bytes) (port : ℤ) : PinkCli := { peerIp := ip, peerPort := port }

end PinkCli

open PinkCli

/-! ### What should hold -/

/-- `available` says that `sockfd` is an open socket of this client; every other socket has been
closed once, and nothing else has been closed. -/
structure Owns (s : PinkCli) : Prop where
  available : s.available = true ↔ s.files.entry s.sockfd ≠ none
  closed : ∀ id < s.files.next, s.files.entry s.sockfd ≠ some id → s.files.closings id = 1
  owned : s.files.Owned

/-- The loop goes on behind this attempt. -/
def goesOn (s : PinkCli) (a : Attempt) : Bool := ¬s.IsFree a.fd ∨ a.outcome = .unreachable

/-- The attempt that decides the call. -/
def decisive (s : PinkCli) (attempts : List Attempt) : Option Attempt :=
  attempts.find? fun a => !goesOn s a

/-- There is no connection that would be forgotten, and the new one, if any, is not with itself. -/
def Connectable (s : PinkCli) (ip : Bytes) (port : ℤ) (res : Resolved) : Prop :=
  (res.attempts.getD [] ≠ [] → s.available = false) ∧
    (decisive s (res.attempts.getD [])).map Attempt.outcome ≠ some (.connected ip port)

def Allowed (s : PinkCli) : Op → Prop
  | .connectPeer res => Connectable s s.peerIp s.peerPort res
  | .connect ip port res => Connectable s ip port res
  | .close => True

instance (s : PinkCli) (ip : Bytes) (port : ℤ) (res : Resolved) :
    Decidable (Connectable s ip port res) := inferInstanceAs (Decidable ((_ → _) ∧ _))

instance (s : PinkCli) : ∀ op, Decidable (Allowed s op)
  | .connectPeer _ | .connect _ _ _ => inferInstanceAs (Decidable (Connectable _ _ _ _))
  | .close => .isTrue trivial

/-! ### The invariant -/

/-- No socket is open but the one of a connection. -/
structure Inv (s : PinkCli) : Prop where
  wf : Wf s.files
  owned : s.files.Owned
  nonneg : ∀ fd, s.files.entry fd ≠ none → 0 ≤ fd
  available : s.available = true → s.files.entry s.sockfd ≠ none
  only : ∀ fd, s.files.entry fd ≠ none → s.available = true ∧ fd = s.sockfd

/-- There is no connection. -/
structure Idle (s : PinkCli) : Prop extends Inv s where
  unavailable : s.available = false

section Invariant
variable {s s' : PinkCli} {ip error : Bytes} {port : ℤ}

theorem Inv.owns (h : Inv s) : Owns s where
  available := ⟨h.available, fun he => (h.only s.sockfd he).1⟩
  closed id hid hne := h.wf.closed hid fun fd hfd =>
    hne ((h.only fd (by rw [hfd]; simp)).2 ▸ hfd)
  owned := h.owned

theorem inv_start (ip : Bytes) (port : ℤ) : Inv (start ip port) :=
  ⟨wf_empty, fun _ hc => (nomatch hc), fun _ hfd => absurd rfl hfd, fun h => (nomatch h),
    fun _ hfd => absurd rfl hfd⟩

theorem Idle.entry_eq_none (h : Idle s) (fd : ℤ) : s.files.entry fd = none := by
  by_contra hfd
  have hav := (h.only fd hfd).1
  rw [h.unavailable] at hav
  cases hav

/-- A client that has no socket open. -/
theorem idle_of_entry (hw : Wf s.files) (ho : s.files.Owned) (ha : s.available = false)
    (hnone : ∀ fd, s.files.entry fd = none) : Idle s where
  wf := hw
  owned := ho
  nonneg fd hfd := absurd (hnone fd) hfd
  available h := by
    rw [ha] at h
    cases h
  only fd hfd := absurd (hnone fd) hfd
  unavailable := ha

theorem idle_close (h : Inv s) : Idle s.close := by
  unfold PinkCli.close
  split_ifs with ha
  · refine idle_of_entry (wf_close h.wf s.sockfd) (owned_close h.owned (h.available ha)) rfl
      fun fd => ?_
    show (s.files.close s.sockfd).entry fd = none
    rw [entry_close]
    split_ifs with he
    · rfl
    · by_contra hfd
      exact he (h.only fd hfd).2
  · exact { h with unavailable := by simpa using ha }

/-! ### The loop without a connection -/

theorem decisive_cons (s : PinkCli) (a : Attempt) (rest : List Attempt) :
    decisive s (a :: rest) = if goesOn s a then decisive s rest else some a := by
  unfold decisive
  rw [List.find?_cons]
  cases goesOn s a <;> rfl

/-- The attempts see only which descriptors are open. -/
theorem decisive_congr (h : s'.files.entry = s.files.entry) (attempts : List Attempt) :
    decisive s' attempts = decisive s attempts := by
  have hfree : ∀ fd, s'.IsFree fd ↔ s.IsFree fd := fun fd => by
    unfold PinkCli.IsFree
    rw [h]
  unfold decisive goesOn
  simp only [hfree]

/-- A socket that is opened and closed is only a number and a call to close more. -/
theorem idle_attempt (h : Idle s) {fd : ℤ} (hfd : s.IsFree fd) :
    Idle (s.socket fd).closeSocket ∧ (s.socket fd).closeSocket.files.entry = s.files.entry := by
  have hentry : (s.socket fd).closeSocket.files.entry = s.files.entry := entry_openAt_close hfd.2
  refine ⟨idle_of_entry (wf_close (wf_openAt h.wf hfd.2) fd) ?_ h.unavailable fun fd' => ?_, hentry⟩
  · refine owned_close (h := s.files.openAt fd) h.owned ?_
    show (s.files.openAt fd).entry fd ≠ none
    rw [entry_openAt, if_pos rfl]
    simp
  · rw [hentry]
    exact h.entry_eq_none fd'

/-- The exits of the loop. -/
def exit (ip : Bytes) (port : ℤ) (error : Bytes) (s : PinkCli) : Option Attempt → PinkCli × Status
  | some ⟨fd, .failed why⟩ => ((s.socket fd).closeSocket, why.status)
  | some ⟨fd, .connected lip lport⟩ =>
    if ip = lip ∧ port = lport then
      (s.socket fd, .ioError (bytes "EHOSTUNREACH") (bytes "same ip port"))
    else ({ s.socket fd with available := true }, .ok)
  | _ => (s, .ioError error (bytes "Can't create socket "))

/-- **The loop**: the attempts in front of the decisive one leave nothing behind. -/
theorem connectLoop_exit (ip : Bytes) (port : ℤ) (error : Bytes) :
    ∀ (attempts : List Attempt) {s : PinkCli}, Idle s → ∃ s', Idle s' ∧
      s'.files.entry = s.files.entry ∧
      connectLoop ip port error attempts s = exit ip port error s' (decisive s attempts)
  | [], s, h => ⟨s, h, rfl, rfl⟩
  | ⟨fd, outcome⟩ :: rest, s, h => by
    rw [decisive_cons, connectLoop]
    by_cases hfree : s.IsFree fd
    · rw [if_neg (not_not.mpr hfree)]
      have hgo : outcome ≠ .unreachable → goesOn s ⟨fd, outcome⟩ = false := fun hne => by
        simp [goesOn, hfree, hne]
      cases outcome with
      | unreachable =>
        obtain ⟨hi, he⟩ := idle_attempt h hfree
        obtain ⟨s', hs', hentry, heq⟩ := connectLoop_exit ip port error rest hi
        rw [decisive_congr he] at heq
        rw [if_pos (by simp [goesOn])]
        exact ⟨s', hs', hentry.trans he, heq⟩
      | failed why =>
        rw [hgo (by simp)]
        exact ⟨s, h, rfl, rfl⟩
      | connected lip lport =>
        rw [hgo (by simp)]
        exact ⟨s, h, rfl, rfl⟩
    · rw [if_pos hfree, if_pos (by simp [goesOn, hfree])]
      have hi : Idle { s with sockfd := -1 } :=
        idle_of_entry h.wf h.owned h.unavailable h.entry_eq_none
      obtain ⟨s', hs', hentry, heq⟩ := connectLoop_exit ip port error rest hi
      have hd : decisive { s with sockfd := -1 } rest = decisive s rest := decisive_congr rfl rest
      exact ⟨s', hs', hentry, hd ▸ heq⟩

theorem isFree_decisive {attempts : List Attempt} {a : Attempt} (h : decisive s attempts = some a) :
    s.IsFree a.fd ∧ a.outcome ≠ .unreachable := by
  have hgo := List.find?_some h
  simpa [goesOn] using hgo

theorem inv_connected (h : Idle s) {fd : ℤ} (hfd : s.IsFree fd) :
    Inv { s.socket fd with available := true } := by
  have hentry : ∀ fd', (s.socket fd).files.entry fd' ≠ none → fd' = fd := fun fd' hfd' => by
    by_contra hne
    refine hfd' ?_
    show (s.files.openAt fd).entry fd' = none
    rw [entry_openAt, if_neg hne, h.entry_eq_none]
  refine ⟨wf_openAt h.wf hfd.2, h.owned, ?_, fun _ => ?_, ?_⟩
  · intro fd' hfd'
    rw [hentry fd' hfd']
    exact hfd.1
  · show (s.files.openAt fd).entry fd ≠ none
    rw [entry_openAt, if_pos rfl]
    simp
  · exact fun fd' hfd' => ⟨rfl, hentry fd' hfd'⟩

/-- The socket of a connection with itself stays open, and `available` is not set. -/
theorem not_owns_socket (h : Idle s) (fd : ℤ) : ¬Owns (s.socket fd) := by
  intro ho
  have hav : s.available = true := ho.available.mpr (by
    show (s.files.openAt fd).entry fd ≠ none
    rw [entry_openAt, if_pos rfl]
    simp)
  rw [h.unavailable] at hav
  cases hav

/-- Without a connection the call goes right exactly if it does not connect to itself. -/
theorem idle_connectLoop (h : Idle s) (attempts : List Attempt) :
    ((decisive s attempts).map Attempt.outcome ≠ some (.connected ip port) →
        Inv (connectLoop ip port error attempts s).1) ∧
      ((decisive s attempts).map Attempt.outcome = some (.connected ip port) →
        ¬Owns (connectLoop ip port error attempts s).1) := by
  obtain ⟨s', hs', hentry, heq⟩ := connectLoop_exit ip port error attempts h
  rw [heq]
  rcases hd : decisive s attempts with _ | ⟨fd, outcome⟩
  · exact ⟨fun _ => hs'.toInv, by simp⟩
  have hfree : s'.IsFree fd := by
    unfold PinkCli.IsFree
    rw [hentry]
    exact (isFree_decisive hd).1
  cases outcome with
  | unreachable => exact absurd rfl (isFree_decisive hd).2
  | failed why => exact ⟨fun _ => (idle_attempt hs' hfree).1.toInv, by simp⟩
  | connected lip lport =>
    simp only [Option.map_some, ne_eq, Option.some.injEq, Outcome.connected.injEq, exit]
    constructor
    · intro hne
      rw [if_neg fun he => hne ⟨he.1.symm, he.2.symm⟩]
      exact inv_connected hs' hfree
    · rintro ⟨rfl, rfl⟩
      rw [if_pos ⟨rfl, rfl⟩]
      exact not_owns_socket hs' fd

/-! ### The loop with a connection -/

/-- A socket that is open, and is not the current one. -/
structure Lost (fd : ℤ) (s : PinkCli) : Prop where
  wf : Wf s.files
  nonneg : 0 ≤ fd
  opened : s.files.entry fd ≠ none
  other : s.sockfd ≠ fd

theorem Lost.not_owns {fd : ℤ} (h : Lost fd s) : ¬Owns s := by
  intro ho
  obtain ⟨id, hid⟩ := Option.ne_none_iff_exists'.mp h.opened
  have hne : s.files.entry s.sockfd ≠ some id := fun he => h.other (h.wf.inj he hid)
  have hone := ho.closed id (h.wf.lt hid) hne
  rw [h.wf.opened hid] at hone
  cases hone

/-- The first attempt makes the client forget its socket, and it is never closed. -/
theorem lost_connectLoop {fd : ℤ} (hfd : 0 ≤ fd) : ∀ {attempts : List Attempt} {s : PinkCli},
    Wf s.files → s.files.entry fd ≠ none → (attempts = [] → s.sockfd ≠ fd) →
      Lost fd (connectLoop ip port error attempts s).1
  | [], s, hw, ho, hs => ⟨hw, hfd, ho, hs rfl⟩
  | ⟨fd', outcome⟩ :: rest, s, hw, ho, _ => by
    rw [connectLoop]
    by_cases hfree : s.IsFree fd'
    · have hne : fd' ≠ fd := fun he => ho (he ▸ hfree.2)
      have hopen : ((s.socket fd').files).entry fd ≠ none := by
        show (s.files.openAt fd').entry fd ≠ none
        rw [entry_openAt, if_neg hne.symm]
        exact ho
      have hw' : Wf (s.socket fd').files := wf_openAt hw hfree.2
      have hclosed : ((s.socket fd').closeSocket.files).entry fd ≠ none := by
        show ((s.socket fd').files.close fd').entry fd ≠ none
        rw [entry_close, if_neg hne.symm]
        exact hopen
      rw [if_neg (not_not.mpr hfree)]
      cases outcome with
      | unreachable => exact lost_connectLoop hfd (wf_close hw' fd') hclosed fun _ => hne
      | failed why => exact ⟨wf_close hw' fd', hfd, hclosed, hne⟩
      | connected lip lport =>
        dsimp only
        split_ifs
        · exact ⟨hw', hfd, hopen, hne⟩
        · exact ⟨hw', hfd, hopen, hne⟩
    · rw [if_pos hfree]
      refine lost_connectLoop hfd hw ho fun _ (he : -1 = fd) => ?_
      omega

/-! ### Runs -/

theorem connect_connectable (h : Inv s) (res : Resolved) :
    (Connectable s ip port res → Inv (s.connect ip port res).1) ∧
      (¬Connectable s ip port res → ¬Owns (s.connect ip port res).1) := by
  unfold Connectable PinkCli.connect
  rcases res.attempts with _ | attempts
  · exact ⟨fun _ => h, fun hn => absurd ⟨fun hne => absurd rfl hne, by simp [decisive]⟩ hn⟩
  rw [Option.getD_some]
  rcases ha : s.available with _ | _
  · have hidle : Idle s := { h with unavailable := ha }
    obtain ⟨hok, hbad⟩ : _ ∧ (_ → ¬Owns (connectLoop ip port res.error attempts s).1) :=
      idle_connectLoop hidle attempts
    exact ⟨fun hc => hok hc.2, fun hn => hbad (by simpa using hn)⟩
  cases attempts with
  | nil => exact ⟨fun _ => h, fun hn => absurd ⟨fun hne => absurd rfl hne, by simp [decisive]⟩ hn⟩
  | cons a rest =>
    have hopen := h.available ha
    have hlost : Lost s.sockfd (connectLoop ip port res.error (a :: rest) s).1 :=
      lost_connectLoop (h.nonneg _ hopen) h.wf hopen fun he => by cases he
    exact ⟨fun hc => by simpa using hc.1, fun _ => hlost.not_owns⟩

theorem inv_step (h : Inv s) {op : Op} (hop : Allowed s op) : Inv (step s op) := by
  cases op with
  | connectPeer res => exact (connect_connectable h res).1 hop
  | connect ip port res => exact (connect_connectable h res).1 hop
  | close => exact (idle_close h).toInv

/-- **A step**: what it leaves behind is in order exactly if it is allowed. -/
theorem owns_step_iff (h : Inv s) (op : Op) : Owns (step s op) ↔ Allowed s op := by
  refine ⟨fun ho => ?_, fun hop => (inv_step h hop).owns⟩
  by_contra hop
  cases op with
  | connectPeer res => exact (connect_connectable h res).2 hop ho
  | connect ip port res => exact (connect_connectable h res).2 hop ho
  | close => exact hop trivial

end Invariant

/-- **Runs**: every state is in order exactly if every step is allowed. -/
theorem guarded_owns_iff (ip : Bytes) (port : ℤ) (ops : List Op) :
    Guarded step (fun s op => Owns (step s op)) (start ip port) ops ↔
      Guarded step Allowed (start ip port) ops :=
  guarded_iff_of_inv Inv (fun _ _ hs hop => inv_step hs hop) (fun _ op hs => owns_step_iff hs op)
    (inv_start ip port)

/-- **The client knows its socket** in every state, up to and including the one after its
destruction, exactly if `Connect` is only called for addresses while there is no connection, and no
connection is with itself. -/
theorem owns_iff (ip : Bytes) (port : ℤ) (ops : List Op) :
    Owns (start ip port) ∧
      (Guarded step (fun s op => Owns (step s op)) (start ip port) (ops ++ [.close]) ↔
        Guarded step Allowed (start ip port) (ops ++ [.close])) :=
  ⟨(inv_start ip port).owns, guarded_owns_iff ip port _⟩

/-- Two calls of `Connect` that are both successful, and a connection with itself. -/
theorem not_owns_reconnect :
    ¬Guarded step (fun s op => Owns (step s op)) (start (bytes "10.0.0.1") 6379)
        ([.connectPeer ⟨some [⟨5, .connected (bytes "10.0.0.2") 40000⟩], []⟩,
          .connectPeer ⟨some [⟨6, .connected (bytes "10.0.0.2") 40001⟩], []⟩] ++ [.close]) ∧
      ¬Guarded step (fun s op => Owns (step s op)) (start (bytes "127.0.0.1") 40000)
        ([.connectPeer ⟨some [⟨5, .connected (bytes "127.0.0.1") 40000⟩], []⟩] ++ [.close]) := by
  rw [guarded_owns_iff, guarded_owns_iff]
  constructor <;> decide

end Pink.Client.Cli
