import Pink.Redis.Wire
import Pink.Lib.Runs

/-! # How `Publish` hands a message over

Any number of threads call `PubSubThread::Publish`. The one that holds `pub_mutex_` puts the channel
and the message into two cells, writes a byte to a pipe, and waits under `receiver_mutex_` until the
cell `receivers_` is no longer -1. The pub/sub thread reads the byte, takes the channel and the
message out of the cells, sends the message, puts the number of receivers into `receivers_` and
signals. Every lock, wait, signal, access to the pipe and access to a cell is a step of its own, and
the steps may come in any order.

There are ten stages that a message goes through (`Stage`); what is in the pipe, in the cells and in
the registers of the two threads is determined in each of them. So the calls of `Publish` return, in
the order in which they get the mutex, the counts of the messages that the pub/sub thread processes
in the same order (`publish_agrees`). -/

namespace Pink.PubSub.Handshake

open Pink.Redis.Wire Pink.Lib.Runs

/-- A call of `Publish`. -/
structure Call where
  thread : ℕ
  channel : Bytes
  msg : Bytes
  deriving DecidableEq, Repr

/-- How far the call that holds `pub_mutex_` is; the last step done. -/
inductive PubPc
  | locked
  | channelSet
  | messageSet
  | piped
  /-- It holds `receiver_mutex_` and is about to test `receivers_`. -/
  | testing
  /-- In `receiver_rsignal_.Wait()`. -/
  | asleep
  /-- Woken up, and about to take `receiver_mutex_` again. -/
  | notified
  | tested
  | read (receivers : ℤ)
  | reset (receivers : ℤ)
  | unlocked (receivers : ℤ)
  deriving DecidableEq, Repr

/-- How far the pub/sub thread is, with its local variables. -/
inductive ThreadPc
  | poll
  | triggered
  | gotChannel (channel : Bytes)
  | gotMessage (channel msg : Bytes)
  | channelCleared (channel msg : Bytes)
  | messageCleared (channel msg : Bytes)
  | sent (receivers : ℕ)
  | locked (receivers : ℕ)
  | answered
  | signalled
  deriving DecidableEq, Repr

inductive Owner
  | publisher | thread
  deriving DecidableEq, Repr

structure State where
  /-- The calls made. -/
  called : List Call := []
  /-- The calls that wait for `pub_mutex_`. -/
  waiting : List Call := []
  /-- The call that holds it. -/
  holder : Option (Call × PubPc) := none
  threadPc : ThreadPc := .poll
  /-- The number of bytes in the pipe. -/
  pipe : ℕ := 0
  channel : Bytes := []
  message : Bytes := []
  receivers : ℤ := -1
  receiverMutex : Option Owner := none
  /-- The messages processed, with their numbers of receivers. -/
  processed : List (Bytes × Bytes × ℤ) := []
  /-- The calls that have returned, with what they returned. -/
  returned : List (Call × ℤ) := []
  deriving DecidableEq, Repr

/-- The next step of the call that holds `pub_mutex_`. -/
def publisherStep (s : State) : Option State :=
  match s.holder with
  | none => none
  | some (c, pc) =>
    match pc with
    | .locked => some { s with channel := c.channel, holder := some (c, .channelSet) }
    | .channelSet => some { s with message := c.msg, holder := some (c, .messageSet) }
    | .messageSet => some { s with pipe := s.pipe + 1, holder := some (c, .piped) }
    | .piped | .notified =>
      if s.receiverMutex = none then
        some { s with receiverMutex := some .publisher, holder := some (c, .testing) }
      else none
    | .testing =>
      if s.receivers = -1 then some { s with receiverMutex := none, holder := some (c, .asleep) }
      else some { s with holder := some (c, .tested) }
    | .asleep => none
    | .tested => some { s with holder := some (c, .read s.receivers) }
    | .read r => some { s with receivers := -1, holder := some (c, .reset r) }
    | .reset r => some { s with receiverMutex := none, holder := some (c, .unlocked r) }
    | .unlocked r => some { s with holder := none, returned := s.returned ++ [(c, r)] }

/-- The next step of the pub/sub thread; `n` is the number of receivers if it sends the message. -/
def threadStep (s : State) (n : ℕ) : Option State :=
  match s.threadPc with
  | .poll => if 0 < s.pipe then some { s with pipe := s.pipe - 1, threadPc := .triggered } else none
  | .triggered => some { s with threadPc := .gotChannel s.channel }
  | .gotChannel channel => some { s with threadPc := .gotMessage channel s.message }
  | .gotMessage channel msg => some { s with channel := [], threadPc := .channelCleared channel msg }
  | .channelCleared channel msg =>
    some { s with message := [], threadPc := .messageCleared channel msg }
  | .messageCleared channel msg =>
    some { s with processed := s.processed ++ [(channel, msg, (n : ℤ))], threadPc := .sent n }
  | .sent n =>
    if s.receiverMutex = none then
      some { s with receiverMutex := some .thread, threadPc := .locked n }
    else none
  | .locked n => some { s with receivers := n, threadPc := .answered }
  | .answered =>
    some { s with
      holder := s.holder.map fun h => if h.2 = .asleep then (h.1, .notified) else h
      threadPc := .signalled }
  | .signalled => some { s with receiverMutex := none, threadPc := .poll }

inductive Label
  /-- A thread calls `Publish`. -/
  | call (c : Call)
  /-- A call takes `pub_mutex_`. -/
  | lock (c : Call)
  | publisher
  /-- A wait ends although nobody has signalled. -/
  | wake
  | thread (n : ℕ)
  deriving DecidableEq, Repr

/-- One step; `none` when it cannot be taken. -/
def stepOption (s : State) : Label → Option State
  | .call c => some { s with called := s.called ++ [c], waiting := s.waiting ++ [c] }
  | .lock c =>
    if s.holder = none ∧ c ∈ s.waiting then
      some { s with waiting := s.waiting.erase c, holder := some (c, .locked) }
    else none
  | .publisher => publisherStep s
  | .wake =>
    match s.holder with
    | some (c, .asleep) => some { s with holder := some (c, .notified) }
    | _ => none
  | .thread n => threadStep s n

/-- A step that cannot be taken changes nothing. -/
def step (s : State) (l : Label) : State := (stepOption s l).getD s

/-! ### The stages of a message -/

/-- What the calls that have returned say about the messages processed. -/
def answers (s : State) : List (Bytes × Bytes × ℤ) :=
  s.returned.map fun x => (x.1.channel, x.1.msg, x.2)

/-- The call waits for an answer that is not there yet, and holds `receiver_mutex_` while it
tests. -/
def Waits (pc : PubPc) (mutex : Option Owner) : Prop :=
  (pc = .testing ∧ mutex = some .publisher) ∨
    ((pc = .piped ∨ pc = .asleep ∨ pc = .notified) ∧ mutex = none)

/-- How far the pub/sub thread is with the message of `c` before it sends it. -/
def Takes (s : State) (c : Call) : Prop :=
  match s.threadPc with
  | .poll | .triggered =>
    s.pipe = (if s.threadPc = .poll then 1 else 0) ∧ s.channel = c.channel ∧ s.message = c.msg
  | .gotChannel channel => s.pipe = 0 ∧ channel = c.channel ∧ s.message = c.msg
  | .gotMessage channel msg | .channelCleared channel msg | .messageCleared channel msg =>
    s.pipe = 0 ∧ channel = c.channel ∧ msg = c.msg
  | _ => False

inductive Stage (s : State) : Prop
  /-- No message is on its way; a call may be filling the cells. -/
  | idle (ht : s.threadPc = .poll) (hp : s.pipe = 0) (hr : s.receivers = -1)
      (hm : s.receiverMutex = none) (hlog : s.processed = answers s)
      (hh : s.holder = none ∨ (∃ c, s.holder = some (c, .locked)) ∨
        (∃ c, s.holder = some (c, .channelSet) ∧ s.channel = c.channel) ∨
        ∃ c, s.holder = some (c, .messageSet) ∧ s.channel = c.channel ∧ s.message = c.msg)
  /-- The byte has been written, and the message has not been sent. -/
  | asked (c : Call) (pc : PubPc) (hh : s.holder = some (c, pc)) (hw : Waits pc s.receiverMutex)
      (ht : Takes s c) (hr : s.receivers = -1) (hlog : s.processed = answers s)
  | sent (c : Call) (pc : PubPc) (n : ℕ) (hh : s.holder = some (c, pc))
      (hw : Waits pc s.receiverMutex) (ht : s.threadPc = .sent n) (hp : s.pipe = 0)
      (hr : s.receivers = -1) (hlog : s.processed = answers s ++ [(c.channel, c.msg, (n : ℤ))])
  | locked (c : Call) (pc : PubPc) (n : ℕ) (hh : s.holder = some (c, pc))
      (hw : pc = .piped ∨ pc = .asleep ∨ pc = .notified) (hm : s.receiverMutex = some .thread)
      (ht : s.threadPc = .locked n) (hp : s.pipe = 0) (hr : s.receivers = -1)
      (hlog : s.processed = answers s ++ [(c.channel, c.msg, (n : ℤ))])
  | answered (c : Call) (pc : PubPc) (n : ℕ) (hh : s.holder = some (c, pc))
      (hw : pc = .piped ∨ pc = .asleep ∨ pc = .notified) (hm : s.receiverMutex = some .thread)
      (ht : s.threadPc = .answered) (hp : s.pipe = 0) (hr : s.receivers = n)
      (hlog : s.processed = answers s ++ [(c.channel, c.msg, (n : ℤ))])
  | signalled (c : Call) (pc : PubPc) (n : ℕ) (hh : s.holder = some (c, pc))
      (hw : pc = .piped ∨ pc = .notified) (hm : s.receiverMutex = some .thread)
      (ht : s.threadPc = .signalled) (hp : s.pipe = 0) (hr : s.receivers = n)
      (hlog : s.processed = answers s ++ [(c.channel, c.msg, (n : ℤ))])
  /-- The answer is there, and the call has not taken it. -/
  | ready (c : Call) (pc : PubPc) (n : ℕ) (hh : s.holder = some (c, pc))
      (hw : ((pc = .piped ∨ pc = .notified) ∧ s.receiverMutex = none) ∨
        ((pc = .testing ∨ pc = .tested ∨ pc = .read n) ∧ s.receiverMutex = some .publisher))
      (ht : s.threadPc = .poll) (hp : s.pipe = 0) (hr : s.receivers = n)
      (hlog : s.processed = answers s ++ [(c.channel, c.msg, (n : ℤ))])
  | reset (c : Call) (pc : PubPc) (n : ℕ) (hh : s.holder = some (c, pc))
      (hw : (pc = .reset n ∧ s.receiverMutex = some .publisher) ∨
        (pc = .unlocked n ∧ s.receiverMutex = none))
      (ht : s.threadPc = .poll) (hp : s.pipe = 0) (hr : s.receivers = -1)
      (hlog : s.processed = answers s ++ [(c.channel, c.msg, (n : ℤ))])

/-! ### The steps -/

/-- The steps that a call has before it, at most, if nobody wakes it up without a signal. -/
def PubPc.rank : PubPc → ℕ
  | .locked => 21
  | .channelSet => 20
  | .messageSet => 19
  | .piped => 6
  | .notified => 6
  | .testing => 5
  | .asleep => 4
  | .tested => 4
  | .read _ => 3
  | .reset _ => 2
  | .unlocked _ => 1

/-- The steps that the pub/sub thread has before it, with two more for the call that it wakes up. -/
def ThreadPc.rank : ThreadPc → ℕ
  | .poll => 0
  | .triggered => 11
  | .gotChannel _ => 10
  | .gotMessage _ _ => 9
  | .channelCleared _ _ => 8
  | .messageCleared _ _ => 7
  | .sent _ => 6
  | .locked _ => 5
  | .answered => 4
  | .signalled => 1

def rank (s : State) : ℕ :=
  (s.holder.map fun h => h.2.rank).getD 0 + s.threadPc.rank + 12 * s.pipe

/-- A call that waits for an answer that is not there goes on waiting. -/
theorem publisherStep_waits {s s' : State} {c : Call} {pc : PubPc} (hh : s.holder = some (c, pc))
    (hw : Waits pc s.receiverMutex) (hr : s.receivers = -1) (hs : publisherStep s = some s') :
    ∃ pc' mutex, s' = { s with receiverMutex := mutex, holder := some (c, pc') } ∧
      Waits pc' mutex ∧ pc'.rank < pc.rank := by
  rcases hw with ⟨rfl, hm⟩ | ⟨rfl | rfl | rfl, hm⟩
  · simp only [publisherStep, hh] at hs
    rw [if_pos hr] at hs
    exact ⟨.asleep, none, (Option.some.inj hs).symm, .inr ⟨.inr (.inl rfl), rfl⟩, by decide⟩
  · simp only [publisherStep, hh] at hs
    rw [if_pos hm] at hs
    exact ⟨.testing, some .publisher, (Option.some.inj hs).symm, .inl ⟨rfl, rfl⟩, by decide⟩
  · simp [publisherStep, hh] at hs
  · simp only [publisherStep, hh] at hs
    rw [if_pos hm] at hs
    exact ⟨.testing, some .publisher, (Option.some.inj hs).symm, .inl ⟨rfl, rfl⟩, by decide⟩

/-- **The call that holds the mutex** goes on to a later stage or stays in its stage. -/
theorem publisherStep_stage {s s' : State} (h : Stage s) (hs : publisherStep s = some s') :
    Stage s' ∧ rank s' < rank s := by
  cases h with
  | idle ht hp hr hm hlog hh =>
    rcases hh with hh | ⟨c, hh⟩ | ⟨c, hh, hc⟩ | ⟨c, hh, hc, hmsg⟩
    · simp [publisherStep, hh] at hs
    · simp only [publisherStep, hh, Option.some.injEq] at hs
      subst hs
      refine ⟨.idle ht hp hr hm hlog (.inr (.inr (.inl ⟨c, rfl, rfl⟩))), ?_⟩
      simp [rank, hh, PubPc.rank]
    · simp only [publisherStep, hh, Option.some.injEq] at hs
      subst hs
      refine ⟨.idle ht hp hr hm hlog (.inr (.inr (.inr ⟨c, rfl, hc, rfl⟩))), ?_⟩
      simp [rank, hh, PubPc.rank]
    · simp only [publisherStep, hh, Option.some.injEq] at hs
      subst hs
      refine ⟨.asked c .piped rfl (.inr ⟨.inl rfl, hm⟩) ?_ hr hlog, ?_⟩
      · simp only [Takes, ht, hp]
        exact ⟨by simp, hc, hmsg⟩
      · simp [rank, hh, PubPc.rank]
        omega
  | asked c pc hh hw ht hr hlog =>
    obtain ⟨pc', mutex, rfl, hw', hlt⟩ := publisherStep_waits hh hw hr hs
    refine ⟨.asked c pc' rfl hw' ht hr hlog, ?_⟩
    simpa [rank, hh] using hlt
  | sent c pc n hh hw ht hp hr hlog =>
    obtain ⟨pc', mutex, rfl, hw', hlt⟩ := publisherStep_waits hh hw hr hs
    refine ⟨.sent c pc' n rfl hw' ht hp hr hlog, ?_⟩
    simpa [rank, hh] using hlt
  | locked c pc n hh hw hm =>
    rcases hw with rfl | rfl | rfl <;> simp [publisherStep, hh, hm] at hs
  | answered c pc n hh hw hm =>
    rcases hw with rfl | rfl | rfl <;> simp [publisherStep, hh, hm] at hs
  | signalled c pc n hh hw hm =>
    rcases hw with rfl | rfl <;> simp [publisherStep, hh, hm] at hs
  | ready c pc n hh hw ht hp hr hlog =>
    have hne : ¬(s.receivers = -1) := by omega
    rcases hw with ⟨rfl | rfl, hm⟩ | ⟨rfl | rfl | rfl, hm⟩
    · simp only [publisherStep, hh, hm, if_true, Option.some.injEq] at hs
      subst hs
      refine ⟨.ready c .testing n rfl (.inr ⟨.inl rfl, rfl⟩) ht hp hr hlog, ?_⟩
      simp [rank, hh, PubPc.rank]
    · simp only [publisherStep, hh, hm, if_true, Option.some.injEq] at hs
      subst hs
      refine ⟨.ready c .testing n rfl (.inr ⟨.inl rfl, rfl⟩) ht hp hr hlog, ?_⟩
      simp [rank, hh, PubPc.rank]
    · simp only [publisherStep, hh, hne, if_false, Option.some.injEq] at hs
      subst hs
      refine ⟨.ready c .tested n rfl (.inr ⟨.inr (.inl rfl), hm⟩) ht hp hr hlog, ?_⟩
      simp [rank, hh, PubPc.rank]
    · simp only [publisherStep, hh, Option.some.injEq] at hs
      subst hs
      refine ⟨.ready c (.read n) n (by rw [hr]) (.inr ⟨.inr (.inr rfl), hm⟩) ht hp hr hlog, ?_⟩
      simp [rank, hh, PubPc.rank]
    · simp only [publisherStep, hh, Option.some.injEq] at hs
      subst hs
      refine ⟨.reset c (.reset n) n rfl (.inl ⟨rfl, hm⟩) ht hp rfl hlog, ?_⟩
      simp [rank, hh, PubPc.rank]
  | reset c pc n hh hw ht hp hr hlog =>
    rcases hw with ⟨rfl, hm⟩ | ⟨rfl, hm⟩
    · simp only [publisherStep, hh, Option.some.injEq] at hs
      subst hs
      refine ⟨.reset c (.unlocked n) n rfl (.inr ⟨rfl, rfl⟩) ht hp hr hlog, ?_⟩
      simp [rank, hh, PubPc.rank]
    · simp only [publisherStep, hh, Option.some.injEq] at hs
      subst hs
      refine ⟨.idle ht hp hr hm ?_ (.inl rfl), ?_⟩
      · simpa [answers] using hlog
      · simp [rank, hh, PubPc.rank]

/-- **The pub/sub thread** takes the message of the call that waits, sends it and answers. -/
theorem threadStep_stage {s s' : State} {n : ℕ} (h : Stage s) (hs : threadStep s n = some s') :
    Stage s' ∧ rank s' < rank s := by
  cases h with
  | idle ht hp => simp [threadStep, ht, hp] at hs
  | ready c pc m hh hw ht hp => simp [threadStep, ht, hp] at hs
  | reset c pc m hh hw ht hp => simp [threadStep, ht, hp] at hs
  | asked c pc hh hw ht hr hlog =>
    unfold Takes at ht
    unfold threadStep at hs
    cases hpc : s.threadPc with
    | poll =>
      simp only [hpc, if_true] at ht hs
      obtain ⟨hp, hc, hm⟩ := ht
      simp only [hp, Nat.lt_one_iff, if_true, Option.some.injEq] at hs
      subst hs
      refine ⟨.asked c pc hh hw ?_ hr hlog, ?_⟩
      · simp [Takes, hc, hm]
      · simp [rank, hpc, ThreadPc.rank, hp]
    | triggered =>
      simp only [hpc, reduceCtorEq, if_false] at ht hs
      obtain ⟨hp, hc, hm⟩ := ht
      obtain rfl := Option.some.inj hs
      refine ⟨.asked c pc hh hw ⟨hp, hc, hm⟩ hr hlog, ?_⟩
      simp [rank, hpc, ThreadPc.rank]
    | gotChannel ch =>
      simp only [hpc] at ht hs
      obtain ⟨hp, hc, hm⟩ := ht
      obtain rfl := Option.some.inj hs
      refine ⟨.asked c pc hh hw ⟨hp, hc, hm⟩ hr hlog, ?_⟩
      simp [rank, hpc, ThreadPc.rank]
    | gotMessage ch m =>
      simp only [hpc] at ht hs
      obtain rfl := Option.some.inj hs
      refine ⟨.asked c pc hh hw ht hr hlog, ?_⟩
      simp [rank, hpc, ThreadPc.rank]
    | channelCleared ch m =>
      simp only [hpc] at ht hs
      obtain rfl := Option.some.inj hs
      refine ⟨.asked c pc hh hw ht hr hlog, ?_⟩
      simp [rank, hpc, ThreadPc.rank]
    | messageCleared ch m =>
      simp only [hpc] at ht hs
      obtain ⟨hp, rfl, rfl⟩ := ht
      obtain rfl := Option.some.inj hs
      refine ⟨.sent c pc n hh hw rfl hp hr ?_, ?_⟩
      · show s.processed ++ [_] = answers s ++ [_]
        rw [hlog]
      · simp [rank, hpc, ThreadPc.rank]
    | sent m => simp [hpc] at ht
    | locked m => simp [hpc] at ht
    | answered => simp [hpc] at ht
    | signalled => simp [hpc] at ht
  | sent c pc m hh hw ht hp hr hlog =>
    simp only [threadStep, ht] at hs
    split_ifs at hs with hm
    obtain rfl := Option.some.inj hs
    refine ⟨.locked c pc m hh ?_ rfl rfl hp hr hlog, ?_⟩
    · rcases hw with ⟨-, hw⟩ | ⟨hw, -⟩
      · simp [hm] at hw
      · exact hw
    · simp [rank, ht, ThreadPc.rank]
  | locked c pc m hh hw hm ht hp hr hlog =>
    simp only [threadStep, ht, Option.some.injEq] at hs
    subst hs
    refine ⟨.answered c pc m hh hw hm rfl hp rfl hlog, ?_⟩
    simp [rank, ht, ThreadPc.rank]
  | answered c pc m hh hw hm ht hp hr hlog =>
    simp only [threadStep, ht, hh, Option.map_some, Option.some.injEq] at hs
    subst hs
    rcases hw with rfl | rfl | rfl
    · refine ⟨.signalled c .piped m (by simp) (.inl rfl) hm rfl hp hr hlog, ?_⟩
      simp [rank, ht, hh, ThreadPc.rank]
    · refine ⟨.signalled c .notified m (by simp) (.inr rfl) hm rfl hp hr hlog, ?_⟩
      simp [rank, ht, hh, ThreadPc.rank, PubPc.rank]
    · refine ⟨.signalled c .notified m (by simp) (.inr rfl) hm rfl hp hr hlog, ?_⟩
      simp [rank, ht, hh, ThreadPc.rank]
  | signalled c pc m hh hw hm ht hp hr hlog =>
    simp only [threadStep, ht, Option.some.injEq] at hs
    subst hs
    refine ⟨.ready c pc m hh (.inl ⟨hw, rfl⟩) rfl hp hr hlog, ?_⟩
    simp [rank, ht, ThreadPc.rank]

/-- A wait that ends without a signal is taken up again. -/
theorem wake_stage {s s' : State} (h : Stage s) (hs : stepOption s .wake = some s') : Stage s' := by
  obtain ⟨c, hh, rfl⟩ : ∃ c, s.holder = some (c, .asleep) ∧
      s' = { s with holder := some (c, .notified) } := by
    unfold stepOption at hs
    dsimp only at hs
    split at hs
    case _ c hc => exact ⟨c, hc, (Option.some.inj hs).symm⟩
    case _ => simp at hs
  cases h with
  | idle ht hp hr hm hlog hh' => rcases hh' with h | ⟨c, h⟩ | ⟨c, h, -⟩ | ⟨c, h, -⟩ <;> simp [hh] at h
  | asked c' pc hh' hw ht hr hlog =>
    obtain ⟨rfl, rfl⟩ : c = c' ∧ PubPc.asleep = pc := by simpa [hh] using hh'
    rcases hw with ⟨h, -⟩ | ⟨-, hm⟩
    · simp at h
    · exact .asked c .notified rfl (.inr ⟨.inr (.inr rfl), hm⟩) ht hr hlog
  | sent c' pc n hh' hw ht hp hr hlog =>
    obtain ⟨rfl, rfl⟩ : c = c' ∧ PubPc.asleep = pc := by simpa [hh] using hh'
    rcases hw with ⟨h, -⟩ | ⟨-, hm⟩
    · simp at h
    · exact .sent c .notified n rfl (.inr ⟨.inr (.inr rfl), hm⟩) ht hp hr hlog
  | locked c' pc n hh' hw hm ht hp hr hlog =>
    obtain ⟨rfl, rfl⟩ : c = c' ∧ PubPc.asleep = pc := by simpa [hh] using hh'
    exact .locked c .notified n rfl (.inr (.inr rfl)) hm ht hp hr hlog
  | answered c' pc n hh' hw hm ht hp hr hlog =>
    obtain ⟨rfl, rfl⟩ : c = c' ∧ PubPc.asleep = pc := by simpa [hh] using hh'
    exact .answered c .notified n rfl (.inr (.inr rfl)) hm ht hp hr hlog
  | signalled c' pc n hh' hw =>
    obtain ⟨rfl, rfl⟩ : c = c' ∧ PubPc.asleep = pc := by simpa [hh] using hh'
    simp at hw
  | ready c' pc n hh' hw =>
    obtain ⟨rfl, rfl⟩ : c = c' ∧ PubPc.asleep = pc := by simpa [hh] using hh'
    simp at hw
  | reset c' pc n hh' hw =>
    obtain ⟨rfl, rfl⟩ : c = c' ∧ PubPc.asleep = pc := by simpa [hh] using hh'
    simp at hw

/-- The stage does not depend on the calls that wait for the mutex. -/
theorem Stage.waiting {s : State} (h : Stage s) (called waiting : List Call) :
    Stage { s with called := called, waiting := waiting } := by
  cases h with
  | idle ht hp hr hm hlog hh => exact .idle ht hp hr hm hlog hh
  | asked c pc hh hw ht hr hlog => exact .asked c pc hh hw ht hr hlog
  | sent c pc n hh hw ht hp hr hlog => exact .sent c pc n hh hw ht hp hr hlog
  | locked c pc n hh hw hm ht hp hr hlog => exact .locked c pc n hh hw hm ht hp hr hlog
  | answered c pc n hh hw hm ht hp hr hlog => exact .answered c pc n hh hw hm ht hp hr hlog
  | signalled c pc n hh hw hm ht hp hr hlog => exact .signalled c pc n hh hw hm ht hp hr hlog
  | ready c pc n hh hw ht hp hr hlog => exact .ready c pc n hh hw ht hp hr hlog
  | reset c pc n hh hw ht hp hr hlog => exact .reset c pc n hh hw ht hp hr hlog

/-- A call takes `pub_mutex_` only when no message is on its way. -/
theorem lock_stage {s s' : State} {c : Call} (h : Stage s)
    (hs : stepOption s (.lock c) = some s') : Stage s' := by
  simp only [stepOption, Option.ite_none_right_eq_some, Option.some.injEq] at hs
  obtain ⟨⟨hnone, -⟩, rfl⟩ := hs
  cases h with
  | idle ht hp hr hm hlog hh => exact .idle ht hp hr hm hlog (.inr (.inl ⟨c, rfl⟩))
  | asked c pc hh => simp [hnone] at hh
  | sent c pc n hh => simp [hnone] at hh
  | locked c pc n hh => simp [hnone] at hh
  | answered c pc n hh => simp [hnone] at hh
  | signalled c pc n hh => simp [hnone] at hh
  | ready c pc n hh => simp [hnone] at hh
  | reset c pc n hh => simp [hnone] at hh

/-- The calls that have returned, the one that holds the mutex, and those that wait for it. -/
def accounted (s : State) : List Call :=
  s.returned.map Prod.fst ++ (s.holder.map Prod.fst).toList ++ s.waiting

theorem publisherStep_accounted {s s' : State} (hs : publisherStep s = some s') :
    accounted s' = accounted s ∧ s'.called = s.called := by
  unfold publisherStep at hs
  cases hh : s.holder with
  | none => simp [hh] at hs
  | some x =>
    obtain ⟨c, pc⟩ := x
    rw [hh] at hs
    cases pc <;> dsimp only at hs <;> (try split_ifs at hs) <;>
      first
      | (obtain rfl := Option.some.inj hs; exact ⟨by simp [accounted, hh], rfl⟩)
      | simp at hs

theorem threadStep_accounted {s s' : State} {n : ℕ} (hs : threadStep s n = some s') :
    accounted s' = accounted s ∧ s'.called = s.called := by
  have hmap : ∀ h : Option (Call × PubPc),
      (h.map fun h => if h.2 = .asleep then (h.1, PubPc.notified) else h).map Prod.fst =
        h.map Prod.fst := by
    intro h
    cases h with
    | none => rfl
    | some x =>
      simp only [Option.map_some, Option.some.injEq]
      split_ifs <;> rfl
  unfold threadStep at hs
  cases hpc : s.threadPc <;> rw [hpc] at hs <;> dsimp only at hs <;> (try split_ifs at hs) <;>
    (obtain rfl := Option.some.inj hs; exact ⟨by simp only [accounted, hmap], rfl⟩)

/-- The call of `Publish` that begins. -/
def Label.begins : Label → Option Call
  | .call c => some c
  | _ => none

theorem step_called (s : State) (l : Label) :
    (step s l).called = s.called ++ l.begins.toList := by
  have hsame : ∀ s', stepOption s l = some s' → l.begins = none → s'.called = s.called := by
    rintro s' hs hl
    cases l with
    | call c => cases hl
    | lock c =>
      simp only [stepOption, Option.ite_none_right_eq_some, Option.some.injEq] at hs
      rw [← hs.2]
    | publisher => exact (publisherStep_accounted hs).2
    | wake =>
      unfold stepOption at hs
      dsimp only at hs
      split at hs
      case _ c hc => rw [← Option.some.inj hs]
      case _ => simp at hs
    | thread n => exact (threadStep_accounted hs).2
  cases hl : l.begins with
  | some c =>
    cases l with
    | call c' =>
      obtain rfl := Option.some.inj hl
      rfl
    | _ => cases hl
  | none =>
    unfold step
    cases hs : stepOption s l with
    | none => simp
    | some s' => simpa using hsame s' hs hl

structure Inv (s : State) : Prop where
  stage : Stage s
  calls : s.called.Perm (accounted s)

/-- **One step.** -/
theorem step_inv {s : State} {l : Label} (h : Inv s) : Inv (step s l) := by
  unfold step
  cases hs : stepOption s l with
  | none => exact h
  | some s' =>
    rw [Option.getD_some]
    cases l with
    | call c =>
      obtain rfl := Option.some.inj hs
      refine ⟨h.stage.waiting _ _, ?_⟩
      simp only [accounted]
      rw [← List.append_assoc]
      exact h.calls.append_right _
    | lock c =>
      refine ⟨lock_stage h.stage hs, ?_⟩
      simp only [stepOption, Option.ite_none_right_eq_some, Option.some.injEq] at hs
      obtain ⟨⟨hnone, hmem⟩, rfl⟩ := hs
      refine h.calls.trans ?_
      simp only [accounted, hnone, Option.map_none, Option.toList_none, List.append_nil,
        Option.map_some, Option.toList_some, List.append_assoc, List.singleton_append]
      exact (List.perm_cons_erase hmem).append_left _
    | publisher =>
      refine ⟨(publisherStep_stage h.stage hs).1, ?_⟩
      rw [(publisherStep_accounted hs).1, (publisherStep_accounted hs).2]
      exact h.calls
    | wake =>
      refine ⟨wake_stage h.stage hs, ?_⟩
      unfold stepOption at hs
      dsimp only at hs
      split at hs
      case _ c hc =>
        obtain rfl := Option.some.inj hs
        refine h.calls.trans ?_
        simp [accounted, hc]
      case _ => simp at hs
    | thread n =>
      refine ⟨(threadStep_stage h.stage hs).1, ?_⟩
      rw [(threadStep_accounted hs).1, (threadStep_accounted hs).2]
      exact h.calls

/-- A call that holds `pub_mutex_` is not stuck: it can go on itself, or the pub/sub thread can. -/
theorem Stage.not_stuck {s : State} (h : Stage s) (hh : s.holder ≠ none) (n : ℕ) :
    (publisherStep s).isSome ∨ (threadStep s n).isSome := by
  cases h with
  | idle ht hp hr hm hlog hh' =>
    rcases hh' with h | ⟨c, h⟩ | ⟨c, h, -⟩ | ⟨c, h, -⟩
    · exact absurd h hh
    all_goals exact .inl (by simp [publisherStep, h])
  | asked c pc hh' hw ht =>
    refine .inr ?_
    unfold Takes at ht
    unfold threadStep
    cases hpc : s.threadPc with
    | poll =>
      simp only [hpc, if_true] at ht
      simp [ht.1]
    | sent m => simp [hpc] at ht
    | locked m => simp [hpc] at ht
    | answered => simp [hpc] at ht
    | signalled => simp [hpc] at ht
    | triggered => rfl
    | gotChannel c => rfl
    | gotMessage c m => rfl
    | channelCleared c m => rfl
    | messageCleared c m => rfl
  | sent c pc m hh' hw ht hp hr =>
    rcases hw with ⟨rfl, -⟩ | ⟨-, hm⟩
    · exact .inl (by simp [publisherStep, hh', hr])
    · exact .inr (by simp [threadStep, ht, hm])
  | locked c pc m hh' hw hm ht => exact .inr (by simp [threadStep, ht])
  | answered c pc m hh' hw hm ht => exact .inr (by simp [threadStep, ht])
  | signalled c pc m hh' hw hm ht => exact .inr (by simp [threadStep, ht])
  | ready c pc m hh' hw ht hp hr =>
    have hne : ¬(s.receivers = -1) := by omega
    rcases hw with ⟨rfl | rfl, hm⟩ | ⟨rfl | rfl | rfl, hm⟩
    all_goals exact .inl (by simp [publisherStep, hh', hm, hne])
  | reset c pc m hh' hw =>
    rcases hw with ⟨rfl, hm⟩ | ⟨rfl, hm⟩
    all_goals exact .inl (by simp [publisherStep, hh'])

/-- **Publishers and the pub/sub thread agree message by message.** In every state of every run:

* every call of `Publish` that has begun has returned, holds the mutex or waits for it;
* the messages processed are those of the calls that have returned, in order and with the numbers
  that they returned, followed by at most one, which is that of the call that holds the mutex;
* while a call holds the mutex, it or the pub/sub thread can take a step, and every step of theirs
  brings the end of the call nearer;
* when none holds it, every call that waits for it can take it. -/
theorem publish_agrees (ls : List Label) :
    let s := run step {} ls
    s.called = ls.filterMap Label.begins ∧ s.called.Perm (accounted s) ∧
    (s.processed = answers s ∨ ∃ c pc n, s.holder = some (c, pc) ∧
      s.processed = answers s ++ [(c.channel, c.msg, n)]) ∧
    (s.holder ≠ none → ∀ n, (stepOption s .publisher).isSome ∨ (stepOption s (.thread n)).isSome) ∧
    (∀ l s', (l = .publisher ∨ ∃ n, l = .thread n) → stepOption s l = some s' →
      rank s' < rank s) ∧
    (s.holder = none → ∀ c ∈ s.waiting, (stepOption s (.lock c)).isSome) := by
  intro s
  have h : Inv s := by
    refine run_inv_of_step Inv (fun s l hs => step_inv hs) ?_ ls
    exact ⟨.idle rfl rfl rfl rfl rfl (.inl rfl), List.Perm.refl _⟩
  refine ⟨run_log State.called Label.begins step_called {} ls, h.calls, ?_,
    fun hh n => h.stage.not_stuck hh n, ?_, fun hnone c hc => ?_⟩
  · cases h.stage with
    | idle ht hp hr hm hlog hh => exact .inl hlog
    | asked c pc hh hw ht hr hlog => exact .inl hlog
    | sent c pc n hh hw ht hp hr hlog => exact .inr ⟨c, pc, n, hh, hlog⟩
    | locked c pc n hh hw hm ht hp hr hlog => exact .inr ⟨c, pc, n, hh, hlog⟩
    | answered c pc n hh hw hm ht hp hr hlog => exact .inr ⟨c, pc, n, hh, hlog⟩
    | signalled c pc n hh hw hm ht hp hr hlog => exact .inr ⟨c, pc, n, hh, hlog⟩
    | ready c pc n hh hw ht hp hr hlog => exact .inr ⟨c, pc, n, hh, hlog⟩
    | reset c pc n hh hw ht hp hr hlog => exact .inr ⟨c, pc, n, hh, hlog⟩
  · rintro l s' (rfl | ⟨n, rfl⟩) hs
    · exact (publisherStep_stage h.stage hs).2
    · exact (threadStep_stage h.stage hs).2
  · simp [stepOption, hnone, hc]

/-- Two calls overlap; the one that began last gets the mutex first, and its wait ends once without
a signal. -/
def overlapRun : List Label :=
  [.call ⟨0, [97], [1]⟩, .call ⟨1, [98], [2]⟩, .lock ⟨1, [98], [2]⟩] ++
    List.replicate 5 Label.publisher ++ [Label.wake] ++ List.replicate 10 (Label.thread 3) ++
    List.replicate 6 Label.publisher ++ [Label.lock ⟨0, [97], [1]⟩] ++
    List.replicate 5 Label.publisher ++ List.replicate 10 (Label.thread 0) ++
    List.replicate 6 Label.publisher

theorem publish_agrees_overlapRun :
    let s := run step {} overlapRun
    s.returned = [(⟨1, [98], [2]⟩, 3), (⟨0, [97], [1]⟩, 0)] ∧
    s.called = [⟨0, [97], [1]⟩, ⟨1, [98], [2]⟩] ∧ s.called.Perm (accounted s) := by
  obtain ⟨hcalled, hcalls, -⟩ := publish_agrees overlapRun
  exact ⟨by decide +kernel, hcalled.trans (by decide +kernel), hcalls⟩

end Pink.PubSub.Handshake
