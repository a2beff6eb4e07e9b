import Pink.PubSub.Registry
import Pink.Redis.Conn

/-! # Publishing a message

The part of `PubSubThread::ThreadMain` that sends a published message: first to the subscribers of
the channel, then to those of the patterns that match it. The outcome of each `SendReply` is given
by the environment, one for each subscription.

When `SendReply` fails, `MoveConnOut` gets a reference to the slot of the failed connection. As soon
as `RemoveConn` has erased it from that vector the reference is to its right neighbour, which is
then the connection that is erased from the names that follow, taken out of `conns_` and closed,
and which the loop skips; behind the last slot there is no neighbour. So the message is processed
as it should be if and only if no `SendReply` fails (`publish_exact_iff`). -/

namespace Pink.PubSub.Publish

open Pink.Redis.Wire Pink.PubSub.Registry
open Pink.Redis.Conn (WriteStatus)

/-! ### The loops -/

/-- A bulk string. -/
def bulk (s : Bytes) : Bytes := bytes "$" ++ decimalNat s.length ++ [CR, LF] ++ s ++ [CR, LF]

def constructPublishResp (subscribeChannel publishChannel msg : Bytes) (pattern : Bool) : Bytes :=
  if pattern then
    bytes "*4" ++ [CR, LF] ++ bulk (bytes "pmessage") ++ bulk subscribeChannel ++
      bulk publishChannel ++ bulk msg
  else
    bytes "*3" ++ [CR, LF] ++ bulk (bytes "message") ++ bulk publishChannel ++ bulk msg

/-- A subscription: a kind, a name and a connection under it. -/
abbrev Subscription := Kind × Bytes × PinkConn

/-- What is outside of this repository: the outcome of each `SendReply`, and
`slash::stringmatchlen(pattern, string)`. -/
structure Env where
  sendReply : Subscription → WriteStatus
  stringmatchlen : Bytes → Bytes → Bool

/-- One call of `WriteResp` and `SendReply`. -/
structure Delivery where
  kind : Kind
  conn : PinkConn
  resp : Bytes
  status : WriteStatus
  deriving DecidableEq, Repr

structure Published where
  thread : PubSubThread
  calls : List Delivery := []
  /-- The connections whose descriptors were closed. -/
  closed : List PinkConn := []
  /-- The local counter. -/
  receivers : ℕ := 0

/-- `receivers_`, an `int32_t`. -/
def Published.reported (p : Published) : ℤ := toInt32 p.receivers

section Loops
variable (env : Env) (channel msg : Bytes)

/-- The delivery of a subscription. -/
def delivery (s : Subscription) : Delivery where
  kind := s.1
  conn := s.2.2
  resp := constructPublishResp s.2.1 channel msg (s.1 = .pattern)
  status := env.sendReply s

/-- The body of the inner loop, at slot `i`. -/
def turn (k : Kind) (name : Bytes) (i : ℕ) (conn : PinkConn) (p : Published) : Option Published :=
  if p.thread.isReady conn.fd then
    let d := delivery env channel msg (k, name, conn)
    let p := { p with calls := p.calls ++ [d] }
    match d.status with
    | .writeHalf => some { p with thread := { p.thread with
        epoll := p.thread.epoll ++ [.modEvent conn.fd .epollin .epollout] } }
    | .writeError =>
      (p.thread.moveConnOut (.slot k name i)).bind fun t =>
        (t.deref (.slot k name i)).map fun c =>
          { p with thread := t, closed := p.closed ++ [c] }
    | .writeAll => some { p with receivers := p.receivers + 1 }
  else some p

/-- The inner loop from slot `i` on. The vector does not grow, so its length at the start is enough
fuel (`deliver_fuel`). -/
def deliver (k : Kind) (name : Bytes) : ℕ → ℕ → Published → Option Published
  | 0, _, p => some p
  | fuel + 1, i, p =>
    match (p.thread.subscribers k name)[i]? with
    | none => some p
    | some conn => (turn env channel msg k name i conn p).bind (deliver k name fuel (i + 1))

/-- The names the message goes to. -/
def due : Kind → Bytes → Bool
  | .channel, name => channel = name
  | .pattern, name => env.stringmatchlen name channel

/-- One turn of the outer loop. -/
def deliverName (k : Kind) (p : Published) (name : Bytes) : Option Published :=
  if due env channel k name then
    deliver env channel msg k name (p.thread.subscribers k name).length 0 p
  else some p

/-- One of the two outer loops. -/
def deliverAll (k : Kind) (p : Published) : Option Published :=
  (p.thread.subs k).keys.foldlM (deliverName env channel msg k) p

/-- The processing of one message. -/
def publish (r : PubSubThread) : Option Published :=
  (deliverAll env channel msg .channel { thread := r }).bind (deliverAll env channel msg .pattern)

/-! ### What should happen -/

/-- The subscriptions of one kind the message goes to. -/
def subscriptions (k : Kind) (r : PubSubThread) : List Subscription :=
  ((r.subs k).keys.filter (due env channel k)).flatMap fun name =>
    ((r.subscribers k name).filter fun c => r.isReady c.fd).map fun c => (k, name, c)

/-- The connections whose `SendReply` failed. -/
def failed (ds : List Delivery) : List PinkConn :=
  (ds.filter fun d => d.status = .writeError).map Delivery.conn

/-- One delivery for each subscription whose connection has not failed before. -/
def deliveries : List PinkConn → List Subscription → List Delivery
  | _, [] => []
  | gone, s :: ss =>
    if s.2.2 ∈ gone then deliveries gone ss
    else
      let d := delivery env channel msg s
      d :: deliveries (if d.status = .writeError then s.2.2 :: gone else gone) ss

/-- The message reaches every ready subscriber once, and exactly the connections that failed are
unregistered and closed. -/
structure Exact (r : PubSubThread) (p : Published) : Prop where
  calls : ∃ cs ps, p.calls = cs ++ ps ∧
    cs.Perm (deliveries env channel msg [] (subscriptions env channel .channel r)) ∧
    ps.Perm (deliveries env channel msg (failed cs) (subscriptions env channel .pattern r))
  closed : p.closed.Perm (failed p.calls)
  conns : ∀ fd, p.thread.conns[fd]? =
    if fd ∈ (failed p.calls).map PinkConn.fd then none else r.conns[fd]?
  subscribers : ∀ k n, p.thread.subscribers k n =
    (r.subscribers k n).filter (· ∉ failed p.calls)
  receivers : p.reported = toInt32 (p.calls.countP fun d => d.status = .writeAll)

/-! ### How it goes -/

/-- Some subscriptions have been served, and nothing else has happened. -/
structure Clean (ss : List Subscription) (p p' : Published) : Prop where
  subs : ∀ k, p'.thread.subs k = p.thread.subs k
  conns : p'.thread.conns = p.thread.conns
  calls : p'.calls = p.calls ++ ss.map (delivery env channel msg)
  closed : p'.closed = p.closed
  receivers : p'.receivers = p.receivers + ss.countP fun s => env.sendReply s = .writeAll

/-- Every outcome up to now was good. -/
def Calm (p : Published) : Prop := ∀ d ∈ p.calls, d.status ≠ .writeError

/-- No subscription fails. -/
def Fine (ss : List Subscription) : Prop := ∀ s ∈ ss, env.sendReply s ≠ .writeError

/-- A connection was closed that is no longer looked after and that never failed. -/
def Doomed (p : Published) : Prop :=
  ∃ c ∈ p.closed, p.thread.conns[c.fd]? = none ∧ ∀ d ∈ p.calls, d.conn = c → d.status ≠ .writeError

/-- Serving some subscriptions: if none fails all is well, otherwise it is not. -/
def Serves (ss : List Subscription) (p : Published) (res : Option Published) : Prop :=
  (Fine env ss ∧ ∃ p', res = some p' ∧ Clean env channel msg ss p p') ∨
    (¬Fine env ss ∧ ∀ p', res = some p' → Doomed p')

variable {env channel msg}

/-! ### Without failures -/

theorem Clean.refl (p : Published) : Clean env channel msg [] p p :=
  ⟨fun _ => rfl, rfl, by simp, rfl, by simp⟩

theorem Clean.trans {ss ss' : List Subscription} {p p' p'' : Published}
    (h : Clean env channel msg ss p p') (h' : Clean env channel msg ss' p' p'') :
    Clean env channel msg (ss ++ ss') p p'' where
  subs k := (h'.subs k).trans (h.subs k)
  conns := h'.conns.trans h.conns
  calls := by rw [h'.calls, h.calls, List.map_append, List.append_assoc]
  closed := h'.closed.trans h.closed
  receivers := by rw [h'.receivers, h.receivers, List.countP_append]; omega

theorem Clean.subscribers {ss : List Subscription} {p p' : Published}
    (h : Clean env channel msg ss p p') (k : Kind) (n : Bytes) :
    p'.thread.subscribers k n = p.thread.subscribers k n := by
  rw [PubSubThread.subscribers, h.subs, PubSubThread.subscribers]

theorem Clean.isReady {ss : List Subscription} {p p' : Published}
    (h : Clean env channel msg ss p p') (fd : ℤ) :
    p'.thread.isReady fd = p.thread.isReady fd := by
  rw [PubSubThread.isReady, h.conns, PubSubThread.isReady]

theorem Clean.calm {ss : List Subscription} {p p' : Published}
    (h : Clean env channel msg ss p p') (hp : Calm p) (hs : Fine env ss) : Calm p' := by
  intro d hd
  rw [h.calls] at hd
  rcases List.mem_append.mp hd with hd | hd
  · exact hp d hd
  · obtain ⟨s, hmem, rfl⟩ := List.mem_map.mp hd
    exact hs s hmem

theorem subscribers_turn {k : Kind} {name : Bytes} {i : ℕ} {conn : PinkConn} {p p' : Published}
    (ht : turn env channel msg k name i conn p = some p') :
    (p'.thread.subscribers k name).Sublist (p.thread.subscribers k name) := by
  unfold turn at ht
  split_ifs at ht
  · dsimp only at ht
    split at ht
    · obtain rfl := Option.some.inj ht
      cases k <;> exact List.Sublist.refl _
    · obtain ⟨t, hm, ht⟩ := Option.bind_eq_some_iff.mp ht
      obtain ⟨c, -, rfl⟩ := Option.map_eq_some_iff.mp ht
      exact PubSubThread.moveConnOut_sublist hm k name
    · obtain rfl := Option.some.inj ht
      exact List.Sublist.refl _
  · obtain rfl := Option.some.inj ht
    exact List.Sublist.refl _

/-- More fuel than slots changes nothing. -/
theorem deliver_fuel {k : Kind} {name : Bytes} : ∀ {fuel i : ℕ} {p : Published},
    (p.thread.subscribers k name).length ≤ i + fuel →
    deliver env channel msg k name (fuel + 1) i p = deliver env channel msg k name fuel i p
  | 0, i, p, h => by
    have hi : (p.thread.subscribers k name)[i]? = none := List.getElem?_eq_none_iff.mpr h
    simp only [deliver, hi]
  | fuel + 1, i, p, h => by
    rw [deliver]
    conv_rhs => rw [deliver]
    split
    · rfl
    · refine Option.bind_congr fun p' hp' => deliver_fuel ?_
      have := (subscribers_turn hp').length_le
      omega

/-! ### After a failure -/

theorem getElem?_erase_eq_none {conns : Conns} {fd : ℤ} (h : conns[fd]? = none) (fd' : ℤ) :
    (conns.erase fd')[fd]? = none := by
  rw [Std.ExtTreeMap.getElem?_erase, h, ite_self]

/-- Once wrong, always wrong: a connection that is not looked after is not ready. -/
theorem doomed_turn {k : Kind} {name : Bytes} {i : ℕ} {conn : PinkConn} {p p' : Published}
    (h : Doomed p) (ht : turn env channel msg k name i conn p = some p') : Doomed p' := by
  obtain ⟨c, hc, hnone, hcalls⟩ := h
  unfold turn at ht
  split_ifs at ht with hready
  · have hne : conn ≠ c := by
      rintro rfl
      simp [PubSubThread.isReady, hnone] at hready
    have hcalls' : ∀ d ∈ p.calls ++ [delivery env channel msg (k, name, conn)],
        d.conn = c → d.status ≠ .writeError := by
      intro d hd hdc
      rcases List.mem_append.mp hd with hd | hd
      · exact hcalls d hd hdc
      · obtain rfl := List.mem_singleton.mp hd
        exact absurd hdc hne
    dsimp only at ht
    split at ht
    · obtain rfl := Option.some.inj ht
      exact ⟨c, hc, hnone, hcalls'⟩
    · obtain ⟨t, hm, ht⟩ := Option.bind_eq_some_iff.mp ht
      obtain ⟨c', -, rfl⟩ := Option.map_eq_some_iff.mp ht
      obtain ⟨fd, hfd⟩ := PubSubThread.moveConnOut_conns hm
      refine ⟨c, List.mem_append_left _ hc, ?_, hcalls'⟩
      show t.conns[c.fd]? = none
      rw [hfd]
      exact getElem?_erase_eq_none hnone fd
    · obtain rfl := Option.some.inj ht
      exact ⟨c, hc, hnone, hcalls'⟩
  · obtain rfl := Option.some.inj ht
    exact ⟨c, hc, hnone, hcalls⟩

theorem doomed_deliver {k : Kind} {name : Bytes} {p' : Published} :
    ∀ {fuel i : ℕ} {p : Published}, Doomed p →
      deliver env channel msg k name fuel i p = some p' → Doomed p'
  | 0, _, _, h, hd => Option.some.inj hd ▸ h
  | fuel + 1, i, p, h, hd => by
    unfold deliver at hd
    split at hd
    · exact Option.some.inj hd ▸ h
    · obtain ⟨p₁, ht, hd⟩ := Option.bind_eq_some_iff.mp hd
      exact doomed_deliver (doomed_turn h ht) hd

theorem doomed_deliverName {k : Kind} {name : Bytes} {p p' : Published} (h : Doomed p)
    (hd : deliverName env channel msg k p name = some p') : Doomed p' := by
  unfold deliverName at hd
  split_ifs at hd
  · exact doomed_deliver h hd
  · exact Option.some.inj hd ▸ h

theorem doomed_foldlM {k : Kind} {p' : Published} : ∀ {names : List Bytes} {p : Published},
    Doomed p → names.foldlM (deliverName env channel msg k) p = some p' → Doomed p' := by
  intro names
  induction names with
  | nil =>
    intro _ h hd
    exact Option.some.inj hd ▸ h
  | cons name names ih =>
    intro p h hd
    rw [List.foldlM_cons] at hd
    obtain ⟨p₁, h1, h2⟩ := Option.bind_eq_some_iff.mp hd
    exact ih (doomed_deliverName h h1) h2

/-! ### One subscription after the other -/

theorem fine_append {ss ss' : List Subscription} :
    Fine env (ss ++ ss') ↔ Fine env ss ∧ Fine env ss' := List.forall_mem_append

theorem Serves.bind {ss ss' : List Subscription} {p : Published} {res : Option Published}
    {f : Published → Option Published} (h : Serves env channel msg ss p res)
    (hclean : ∀ p', Fine env ss → Clean env channel msg ss p p' →
      Serves env channel msg ss' p' (f p'))
    (hdoomed : ∀ p' p'', Doomed p' → f p' = some p'' → Doomed p'') :
    Serves env channel msg (ss ++ ss') p (res.bind f) := by
  rcases h with ⟨hfine, p', rfl, hc⟩ | ⟨hfine, hd⟩
  · rcases hclean p' hfine hc with ⟨hfine', p'', he, hc'⟩ | ⟨hfine', hd⟩
    · exact Or.inl ⟨fine_append.mpr ⟨hfine, hfine'⟩, p'', he, hc.trans hc'⟩
    · exact Or.inr ⟨fun h => hfine' (fine_append.mp h).2, hd⟩
  · refine Or.inr ⟨fun h => hfine (fine_append.mp h).1, fun p'' he => ?_⟩
    obtain ⟨p', rfl, he⟩ := Option.bind_eq_some_iff.mp he
    exact hdoomed p' p'' (hd p' rfl) he

theorem serves_nil (p : Published) :
    Serves env channel msg [] p (some p) :=
  Or.inl ⟨by simp [Fine], p, rfl, Clean.refl p⟩

/-- A failure at slot `i` takes its right neighbour. -/
theorem doomed_of_failure {k : Kind} {name : Bytes} {i : ℕ} {conn : PinkConn} {p : Published}
    {t : PubSubThread} {c : PinkConn} (hcalm : Calm p)
    (hnd : (p.thread.subscribers k name).Nodup)
    (hi : (p.thread.subscribers k name)[i]? = some conn)
    (hm : p.thread.moveConnOut (.slot k name i) = some t)
    (hc : t.deref (.slot k name i) = some c) :
    Doomed { p with
      thread := t
      calls := p.calls ++ [delivery env channel msg (k, name, conn)]
      closed := p.closed ++ [c] } := by
  obtain ⟨hs, c', hc', hconns⟩ := PubSubThread.moveConnOut_slot hi hm
  obtain rfl : c' = c := Option.some.inj (hc'.symm.trans hc)
  have hne : conn ≠ c' := by
    rintro rfl
    rw [PubSubThread.deref, hs] at hc
    exact hnd.not_mem_erase (List.mem_of_getElem? hc)
  refine ⟨c', List.mem_append_right _ (List.mem_singleton_self _), ?_, fun d hd hdc => ?_⟩
  · show t.conns[c'.fd]? = none
    rw [hconns]
    exact Std.ExtTreeMap.getElem?_erase_self
  · rcases List.mem_append.mp hd with hd | hd
    · exact hcalm d hd
    · obtain rfl := List.mem_singleton.mp hd
      exact absurd hdc hne

theorem serves_turn {k : Kind} {name : Bytes} {i : ℕ} {conn : PinkConn} {p : Published}
    (hcalm : Calm p) (hnd : (p.thread.subscribers k name).Nodup)
    (hi : (p.thread.subscribers k name)[i]? = some conn) :
    Serves env channel msg
      (([conn].filter fun c => p.thread.isReady c.fd).map fun c => (k, name, c)) p
      (turn env channel msg k name i conn p) := by
  unfold turn
  by_cases hready : p.thread.isReady conn.fd
  · have hl : [conn].filter (fun c => p.thread.isReady c.fd) = [conn] := by simp [hready]
    rw [if_pos hready, hl, List.map_cons, List.map_nil]
    dsimp only
    split
    case _ hst =>
      refine Or.inl ⟨?_, _, rfl, fun k => ?_, rfl, rfl, rfl, ?_⟩
      · simpa [Fine] using fun h => by simp [delivery, h] at hst
      · cases k <;> rfl
      · have : env.sendReply (k, name, conn) ≠ .writeAll := fun h => by simp [delivery, h] at hst
        simp [this]
    case _ hst =>
      refine Or.inr ⟨fun h => h _ (List.mem_singleton_self _) hst, fun p' hp' => ?_⟩
      obtain ⟨t, hm, hp'⟩ := Option.bind_eq_some_iff.mp hp'
      obtain ⟨c, hc, rfl⟩ := Option.map_eq_some_iff.mp hp'
      exact doomed_of_failure hcalm hnd hi hm hc
    case _ hst =>
      refine Or.inl ⟨?_, _, rfl, fun k => ?_, rfl, rfl, rfl, ?_⟩
      · simpa [Fine] using fun h => by simp [delivery, h] at hst
      · cases k <;> rfl
      · have : env.sendReply (k, name, conn) = .writeAll := hst
        simp [this]
  · have hl : [conn].filter (fun c => p.thread.isReady c.fd) = [] := by simp [hready]
    rw [if_neg hready, hl]
    exact serves_nil p

theorem serves_deliver {k : Kind} {name : Bytes} : ∀ {fuel i : ℕ} {p : Published}, Calm p →
    (p.thread.subscribers k name).Nodup → (p.thread.subscribers k name).length ≤ i + fuel →
    Serves env channel msg
      ((((p.thread.subscribers k name).drop i).filter fun c => p.thread.isReady c.fd).map
        fun c => (k, name, c)) p (deliver env channel msg k name fuel i p)
  | 0, i, p, _, _, hl => by
    rw [List.drop_of_length_le (by simpa using hl)]
    exact serves_nil p
  | fuel + 1, i, p, hcalm, hnd, hl => by
    unfold deliver
    rcases hi : (p.thread.subscribers k name)[i]? with _ | conn
    · rw [List.drop_of_length_le (List.getElem?_eq_none_iff.mp hi)]
      exact serves_nil p
    · have hdrop : (p.thread.subscribers k name).drop i =
          [conn] ++ (p.thread.subscribers k name).drop (i + 1) := by
        obtain ⟨hlt, rfl⟩ := List.getElem?_eq_some_iff.mp hi
        exact List.drop_eq_getElem_cons hlt
      rw [hdrop, List.filter_append, List.map_append]
      refine (serves_turn hcalm hnd hi).bind (fun p' hfine hc => ?_) fun _ _ => doomed_deliver
      have hs := hc.subscribers k name
      have hlen : (p'.thread.subscribers k name).length ≤ i + 1 + fuel := by rw [hs]; omega
      have := serves_deliver (hc.calm hcalm hfine) (hs ▸ hnd) hlen
      simpa only [hs, hc.isReady] using this

/-- The subscriptions under one name. -/
theorem serves_deliverName {k : Kind} {name : Bytes} {p : Published} (hcalm : Calm p)
    (hnd : (p.thread.subscribers k name).Nodup) :
    Serves env channel msg
      (([name].filter (due env channel k)).flatMap fun name =>
        ((p.thread.subscribers k name).filter fun c => p.thread.isReady c.fd).map
          fun c => (k, name, c)) p (deliverName env channel msg k p name) := by
  unfold deliverName
  by_cases hdue : due env channel k name
  · rw [if_pos hdue]
    simpa [hdue] using serves_deliver hcalm hnd (i := 0) (Nat.le_add_left _ _)
  · rw [if_neg hdue]
    simpa [hdue] using serves_nil p

theorem serves_foldlM {k : Kind} : ∀ (names : List Bytes) {p : Published}, Calm p →
    (∀ n, (p.thread.subscribers k n).Nodup) →
    Serves env channel msg
      ((names.filter (due env channel k)).flatMap fun name =>
        ((p.thread.subscribers k name).filter fun c => p.thread.isReady c.fd).map
          fun c => (k, name, c)) p (names.foldlM (deliverName env channel msg k) p) := by
  intro names
  induction names with
  | nil =>
    intro p _ _
    exact serves_nil p
  | cons name names ih =>
    intro p hcalm hnd
    rw [List.foldlM_cons, ← List.singleton_append, List.filter_append, List.flatMap_append]
    refine (serves_deliverName hcalm (hnd name)).bind (fun p' hfine hc => ?_)
      fun _ _ => doomed_foldlM
    have := ih (hc.calm hcalm hfine)
      (fun n => by rw [hc.subscribers]; exact hnd n)
    simpa only [hc.subscribers, hc.isReady] using this

theorem serves_deliverAll {k : Kind} {p : Published} (hcalm : Calm p)
    (hnd : ∀ n, (p.thread.subscribers k n).Nodup) :
    Serves env channel msg (subscriptions env channel k p.thread) p
      (deliverAll env channel msg k p) := serves_foldlM _ hcalm hnd

theorem Clean.subscriptions {ss : List Subscription} {p p' : Published}
    (h : Clean env channel msg ss p p') (k : Kind) :
    subscriptions env channel k p'.thread = subscriptions env channel k p.thread := by
  simp only [Publish.subscriptions, h.subs, h.subscribers, h.isReady]

theorem serves_publish {r : PubSubThread} (hnd : ∀ k n, (r.subscribers k n).Nodup) :
    Serves env channel msg
      (subscriptions env channel .channel r ++ subscriptions env channel .pattern r)
      { thread := r } (publish env channel msg r) := by
  have hcalm : Calm { thread := r } := by simp [Calm]
  have h1 : Serves env channel msg (subscriptions env channel .channel r) { thread := r }
      (deliverAll env channel msg .channel { thread := r }) :=
    serves_deliverAll hcalm (hnd .channel)
  refine h1.bind (fun p' hfine hc => ?_) fun _ _ => doomed_foldlM
  have h2 : Serves env channel msg (subscriptions env channel .pattern p'.thread) p'
      (deliverAll env channel msg .pattern p') :=
    serves_deliverAll (hc.calm hcalm hfine) fun n => by
      rw [hc.subscribers]; exact hnd .pattern n
  rwa [hc.subscriptions] at h2

/-! ### One message -/

theorem deliveries_of_fine : ∀ {ss : List Subscription} (_ : Fine env ss),
    deliveries env channel msg [] ss = ss.map (delivery env channel msg) := by
  intro ss
  induction ss with
  | nil =>
    intro _
    rfl
  | cons s ss ih =>
    intro h
    have hs : (delivery env channel msg s).status ≠ .writeError := h s List.mem_cons_self
    rw [deliveries, if_neg List.not_mem_nil]
    dsimp only
    rw [if_neg hs, List.map_cons,
      ih fun s' hs' => h s' (List.mem_cons_of_mem _ hs')]

theorem failed_of_fine {ss : List Subscription} (h : Fine env ss) :
    failed (ss.map (delivery env channel msg)) = [] := by
  have : (ss.map (delivery env channel msg)).filter (fun d => d.status = .writeError) = [] := by
    refine List.filter_eq_nil_iff.mpr fun d hd => ?_
    obtain ⟨s, hs, rfl⟩ := List.mem_map.mp hd
    exact fun hst => h s hs (of_decide_eq_true hst)
  rw [failed, this]; rfl

theorem exact_of_clean {r : PubSubThread} {p : Published}
    (hfine : Fine env
      (subscriptions env channel .channel r ++ subscriptions env channel .pattern r))
    (h : Clean env channel msg
      (subscriptions env channel .channel r ++ subscriptions env channel .pattern r)
      { thread := r } p) : Exact env channel msg r p := by
  have hcalls := h.calls
  rw [List.nil_append] at hcalls
  have hfailed : failed p.calls = [] := by rw [hcalls]; exact failed_of_fine hfine
  obtain ⟨hf1, hf2⟩ := fine_append.mp hfine
  refine ⟨⟨_, _, by rw [hcalls, List.map_append], ?_, ?_⟩, ?_, ?_, ?_, ?_⟩
  · rw [deliveries_of_fine hf1]
  · rw [failed_of_fine hf1, deliveries_of_fine hf2]
  · rw [hfailed, h.closed]
  · intro fd
    rw [hfailed, h.conns]; rfl
  · intro k n
    rw [hfailed, h.subscribers]; simp
  · rw [Published.reported, h.receivers, hcalls, List.countP_map]
    simp only [Nat.zero_add]
    rfl

theorem not_exact_of_doomed {r : PubSubThread} {p : Published} (h : Doomed p) :
    ¬Exact env channel msg r p := by
  intro he
  obtain ⟨c, hc, -, hcalls⟩ := h
  obtain ⟨d, hd, rfl⟩ := List.mem_map.mp (he.closed.mem_iff.mp hc)
  obtain ⟨hd, hst⟩ := List.mem_filter.mp hd
  exact hcalls d hd rfl (by simpa using hst)

/-- **A message is processed exactly if and only if no `SendReply` of a ready subscriber fails.** -/
theorem publish_exact_iff {r : PubSubThread} (hnd : ∀ k n, (r.subscribers k n).Nodup) :
    (∃ p, publish env channel msg r = some p ∧ Exact env channel msg r p) ↔
      ∀ s ∈ subscriptions env channel .channel r ++ subscriptions env channel .pattern r,
        env.sendReply s ≠ .writeError := by
  have h : Serves env channel msg _ { thread := r } (publish env channel msg r) :=
    serves_publish hnd
  rcases h with ⟨hfine, p, hp, hc⟩ | ⟨hfine, hd⟩
  · constructor
    · intro _
      exact hfine
    · intro _
      exact ⟨p, hp, exact_of_clean hfine hc⟩
  · constructor
    · rintro ⟨p, hp, he⟩
      exact absurd he (not_exact_of_doomed (hd p hp))
    · intro h
      exact absurd h hfine

end Loops

theorem nodup_of_toList {r : PubSubThread} (h : ∀ k, ∀ p ∈ (r.subs k).toList, p.2.Nodup)
    (k : Kind) (n : Bytes) : (r.subscribers k n).Nodup := by
  rw [PubSubThread.subscribers, Std.ExtTreeMap.getD_eq_getD_getElem?]
  rcases hm : (r.subs k)[n]? with _ | vec
  · exact List.nodup_nil
  · exact h k (n, vec) (Std.ExtTreeMap.mem_toList_iff_getElem?_eq_some.mpr hm)

/-- Two ready connections under `news`, the second also under the pattern `n*`. -/
def newsThread : PubSubThread where
  pubsubChannel := (∅ : Subs).insert (bytes "news") [⟨1, 7, []⟩, ⟨2, 8, []⟩]
  pubsubPattern := (∅ : Subs).insert (bytes "n*") [⟨2, 8, []⟩]
  conns := ((∅ : Conns).insert 7 ⟨⟨1, 7, []⟩, .ready⟩).insert 8 ⟨⟨2, 8, []⟩, .ready⟩

/-- A pattern that ends with a star matches what begins as it does. -/
def starMatch (pattern string : Bytes) : Bool :=
  pattern = string || (pattern.getLast? = some (ch '*') && pattern.dropLast.isPrefixOf string)

theorem newsThread_nodup : ∀ k, ∀ p ∈ (newsThread.subs k).toList, p.2.Nodup := by
  intro k; cases k <;> decide +kernel

/-- The first connection takes the message only in part. -/
theorem publish_exact_news :
    ∃ p, publish ⟨fun s => if s.2.2.id = 1 then .writeHalf else .writeAll, starMatch⟩
        (bytes "news") (bytes "hi") newsThread = some p ∧
      Exact ⟨fun s => if s.2.2.id = 1 then .writeHalf else .writeAll, starMatch⟩
        (bytes "news") (bytes "hi") newsThread p :=
  (publish_exact_iff (nodup_of_toList newsThread_nodup)).mpr (by decide +kernel)

/-- The first connection fails: the second one, which is ready, gets nothing and is closed. -/
theorem not_publish_exact_first_fails :
    ¬∃ p, publish ⟨fun s => if s.2.2.id = 1 then .writeError else .writeAll, starMatch⟩
        (bytes "news") (bytes "hi") newsThread = some p ∧
      Exact ⟨fun s => if s.2.2.id = 1 then .writeError else .writeAll, starMatch⟩
        (bytes "news") (bytes "hi") newsThread p := by
  rintro ⟨p, hp, he⟩
  have hclosed : (publish ⟨fun s => if s.2.2.id = 1 then .writeError else .writeAll, starMatch⟩
      (bytes "news") (bytes "hi") newsThread).map (fun p => (p.closed, failed p.calls)) =
      some ([⟨2, 8, []⟩], [⟨1, 7, []⟩]) := by decide +kernel
  rw [hp] at hclosed
  obtain ⟨h1, h2⟩ := Prod.mk.inj (Option.some.inj hclosed)
  have := he.closed
  rw [h1, h2] at this
  exact absurd this (by decide)

end Pink.PubSub.Publish
