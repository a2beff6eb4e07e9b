import Std.Data.ExtTreeMap
import Pink.Redis.Wire

/-! # The registry of subscriptions

The two maps of `PubSubThread`, from channel names and from patterns to the subscribed connections,
and the map of the connections the thread looks after. `MoveConnOut` and `RemoveConn` take the
connection by reference, and a publish passes a reference into one of the vectors that `RemoveConn`
erases from: a `Ref` is therefore read anew at every use, and reading a slot behind the end of its
vector is undefined, which is what the result `none` means.

The counters of the loops are unbounded here; the numbers of `PubSubNumSub` and `PubSubNumPat` are
conversions of a `size_t` to `int`. -/

namespace Pink.PubSub.Registry

open Pink.Redis.Wire

/-- A connection: the object behind a `shared_ptr`, its descriptor and its address. -/
structure PinkConn where
  id : ℕ
  fd : ℤ
  ipPort : Bytes := []
  deriving DecidableEq, Repr

inductive ReadyState
  | notReady | ready
  deriving DecidableEq, Repr

structure ConnHandle where
  conn : PinkConn
  readyState : ReadyState := .notReady
  deriving DecidableEq, Repr

def ConnHandle.isReady (h : ConnHandle) : Bool := h.readyState = .ready

inductive EpollMask
  | epollin | epollout
  deriving DecidableEq, Repr

/-- What is asked of the epoll object of the thread. -/
inductive EpollOp
  /-- `Register` of an item with `kNotiWait`. -/
  | register (fd : ℤ) (ipPort : Bytes)
  | delEvent (fd : ℤ)
  | modEvent (fd : ℤ) (oldMask mask : EpollMask)
  deriving DecidableEq, Repr

/-- Which of the two maps. -/
inductive Kind
  | channel | pattern
  deriving DecidableEq, Repr

/-- The kind a `pattern` flag stands for. -/
def Kind.ofFlag (pattern : Bool) : Kind := if pattern then .pattern else .channel

/-- A `std::map` from names to vectors of connections. -/
abbrev Subs := Std.ExtTreeMap Bytes (List PinkConn) compare

abbrev Conns := Std.ExtTreeMap ℤ ConnHandle compare

structure PubSubThread where
  pubsubChannel : Subs := ∅
  pubsubPattern : Subs := ∅
  conns : Conns := ∅
  epoll : List EpollOp := []

/-- A reference to a connection: one the caller owns, or a slot of a vector. -/
inductive Ref
  | owned (conn : PinkConn)
  | slot (kind : Kind) (name : Bytes) (i : ℕ)
  deriving DecidableEq, Repr

namespace PubSubThread

def subs (r : PubSubThread) : Kind → Subs
  | .channel => r.pubsubChannel
  | .pattern => r.pubsubPattern

def setSubs (r : PubSubThread) (k : Kind) (m : Subs) : PubSubThread :=
  match k with
  | .channel => { r with pubsubChannel := m }
  | .pattern => { r with pubsubPattern := m }

/-- The connections under a name; none under a name that is not in the map. -/
def subscribers (r : PubSubThread) (k : Kind) (name : Bytes) : List PinkConn :=
  (r.subs k).getD name []

/-- Assign the vector under a name. -/
def put (r : PubSubThread) (k : Kind) (name : Bytes) (vec : List PinkConn) : PubSubThread :=
  r.setSubs k ((r.subs k).insert name vec)

def deref (r : PubSubThread) : Ref → Option PinkConn
  | .owned conn => some conn
  | .slot k name i => (r.subscribers k name)[i]?

/-! ### Moving connections in and out -/

/-- The inner loop of `RemoveConn`: the first occurrence is erased. -/
def eraseFrom (ref : Ref) (k : Kind) (r : PubSubThread) (name : Bytes) : Option PubSubThread :=
  match r.subscribers k name with
  | [] => some r
  | c :: vec => (r.deref ref).map fun conn => r.put k name ((c :: vec).erase conn)

/-- One of the two outer loops of `RemoveConn`. -/
def removeFrom (ref : Ref) (k : Kind) (r : PubSubThread) : Option PubSubThread :=
  (r.subs k).keys.foldlM (eraseFrom ref k) r

def removeConn (ref : Ref) (r : PubSubThread) : Option PubSubThread :=
  (r.removeFrom ref .pattern).bind (removeFrom ref .channel)

def moveConnOut (ref : Ref) (r : PubSubThread) : Option PubSubThread :=
  (r.removeConn ref).bind fun r => (r.deref ref).map fun conn =>
    { r with epoll := r.epoll ++ [.delEvent conn.fd], conns := r.conns.erase conn.fd }

/-- `MoveConnIn(conn, kNotiWait)`. -/
def moveConnIn (conn : PinkConn) (r : PubSubThread) : PubSubThread :=
  { r with
    epoll := r.epoll ++ [.register conn.fd conn.ipPort]
    conns := r.conns.insert conn.fd { conn } }

def updateConnReadyState (fd : ℤ) (state : ReadyState) (r : PubSubThread) : PubSubThread :=
  match r.conns[fd]? with
  | none => r
  | some h => { r with conns := r.conns.insert fd { h with readyState := state } }

def isReady (r : PubSubThread) (fd : ℤ) : Bool := (r.conns[fd]?.map ConnHandle.isReady).getD false

/-! ### Subscribing -/

/-- The number of names of a map a connection is under. -/
def nameCount (m : Subs) (conn : PinkConn) : ℕ := m.toList.countP fun p => conn ∈ p.2

def clientChannelSize (r : PubSubThread) (conn : PinkConn) : ℤ :=
  nameCount r.pubsubChannel conn + nameCount r.pubsubPattern conn

/-- What `Subscribe` and `UnSubscribe` push to `result`. -/
abbrev Result := List (Bytes × ℤ)

/-- `insert({name, {}})` and the lines behind it. -/
def insertConn (m : Subs) (name : Bytes) (conn : PinkConn) (subscribed : ℤ) : Subs × ℤ :=
  match m[name]? with
  | some vec =>
    if conn ∈ vec then (m, subscribed) else (m.insert name (vec ++ [conn]), subscribed + 1)
  | none => (m.insert name [conn], subscribed + 1)

/-- One turn of the loop of `Subscribe`. -/
def subscribeTurn (conn : PinkConn) (pattern : Bool) (st : PubSubThread × ℤ × Result)
    (name : Bytes) : PubSubThread × ℤ × Result :=
  let (r, subscribed, result) := st
  if pattern then
    let (m, subscribed) := insertConn r.pubsubPattern name conn subscribed
    ({ r with pubsubPattern := m }, subscribed, result ++ [(name, subscribed)])
  else
    -- the general mode inserts into `pubsub_pattern_` as well
    let (m, subscribed) := insertConn r.pubsubPattern name conn subscribed
    ({ r with pubsubPattern := m }, subscribed, result ++ [(name, subscribed)])

def subscribe (conn : PinkConn) (channels : List Bytes) (pattern : Bool) (r : PubSubThread) :
    PubSubThread × Result :=
  let subscribed := r.clientChannelSize conn
  let r := if subscribed = 0 then r.moveConnIn conn else r
  let (r, _, result) := channels.foldl (subscribeTurn conn pattern) (r, subscribed, [])
  (r, result)

/-! ### Unsubscribing -/

/-- The names pushed by `UnSubscribe` without arguments, each with the count left. -/
def reportAll (conn : PinkConn) : ℤ → List (Bytes × List PinkConn) → Result
  | _, [] => []
  | subscribed, (name, vec) :: ps =>
    if conn ∈ vec then (name, subscribed - 1) :: reportAll conn (subscribed - 1) ps
    else reportAll conn subscribed ps

/-- One turn of the loop of `UnSubscribe`: all occurrences are removed. -/
def unSubscribeTurn (conn : PinkConn) (pattern : Bool) (st : PubSubThread × ℤ × Result)
    (name : Bytes) : PubSubThread × ℤ × Result :=
  let (r, subscribed, result) := st
  let k := Kind.ofFlag pattern
  match (r.subs k)[name]? with
  | some vec =>
    if conn ∈ vec then
      (r.put k name (vec.filter (· ≠ conn)), subscribed - 1, result ++ [(name, subscribed - 1)])
    else (r, subscribed, result ++ [(name, subscribed)])
  | none => (r, subscribed, result ++ [(name, 0)])

def unSubscribe (conn : PinkConn) (channels : List Bytes) (pattern : Bool) (r : PubSubThread) :
    Option (PubSubThread × Result × ℤ) :=
  let subscribed := r.clientChannelSize conn
  let exist := subscribed ≠ 0
  if channels = [] then
    let result := reportAll conn subscribed (r.subs (.ofFlag pattern)).toList
    (if exist then r.moveConnOut (.owned conn) else some r).map fun r => (r, result, 0)
  else
    let (r, _, result) := channels.foldl (unSubscribeTurn conn pattern) (r, subscribed, [])
    let subscribed := r.clientChannelSize conn
    (if subscribed = 0 ∧ exist then r.moveConnOut (.owned conn) else some r).map fun r =>
      (r, result, subscribed)

/-! ### Statistics -/

/-- `PubSubChannels`; `stringmatchlen` is `slash::stringmatchlen(pattern, string)`, and the loop
passes the channel as the pattern. -/
def pubSubChannels (stringmatchlen : Bytes → Bytes → Bool) (pattern : Bytes) (r : PubSubThread) :
    List Bytes :=
  if pattern = [] then
    (r.pubsubChannel.toList.filter fun p => p.2.length ≠ 0).map Prod.fst
  else
    (r.pubsubChannel.toList.filter fun p =>
      stringmatchlen p.1 pattern && p.2.length ≠ 0).map Prod.fst

/-- The inner loop of `PubSubNumSub`. -/
def numSub (r : PubSubThread) (name : Bytes) : ℤ :=
  r.pubsubChannel.toList.foldl
    (fun subscribed p => if p.1 = name then toInt32 p.2.length else subscribed) 0

def pubSubNumSub (channels : List Bytes) (r : PubSubThread) : Result :=
  channels.map fun name => (name, r.numSub name)

def pubSubNumPat (r : PubSubThread) : ℤ :=
  toInt32 (r.pubsubPattern.toList.map fun p => p.2.length).sum

/-! ### The vectors under the names -/

@[simp] theorem subs_setSubs (r : PubSubThread) (k k' : Kind) (m : Subs) :
    (r.setSubs k m).subs k' = if k' = k then m else r.subs k' := by
  cases k <;> cases k' <;> rfl

@[simp] theorem conns_put (r : PubSubThread) (k : Kind) (name : Bytes) (vec : List PinkConn) :
    (r.put k name vec).conns = r.conns := by cases k <;> rfl

@[simp] theorem epoll_put (r : PubSubThread) (k : Kind) (name : Bytes) (vec : List PinkConn) :
    (r.put k name vec).epoll = r.epoll := by cases k <;> rfl

theorem getD_insert (m : Subs) (name n : Bytes) (vec : List PinkConn) :
    (m.insert name vec).getD n [] = if n = name then vec else m.getD n [] := by
  rw [Std.ExtTreeMap.getD_insert]
  simp only [Std.compare_eq_iff_eq, @eq_comm _ name n]

theorem subscribers_put (r : PubSubThread) (k k' : Kind) (name n : Bytes) (vec : List PinkConn) :
    (r.put k name vec).subscribers k' n =
      if k' = k ∧ n = name then vec else r.subscribers k' n := by
  unfold put subscribers
  by_cases hk : k' = k
  · subst hk
    simp [getD_insert]
  · simp [hk]

theorem subscribers_eq_nil {r : PubSubThread} {k : Kind} {name : Bytes}
    (h : name ∉ (r.subs k).keys) : r.subscribers k name = [] :=
  Std.ExtTreeMap.getD_eq_fallback fun hm => h (Std.ExtTreeMap.mem_keys.mpr hm)

/-! ### `RemoveConn` -/

section Erase
variable {ref : Ref} {k : Kind} {r r' : PubSubThread} {name : Bytes} {c : PinkConn}

theorem eraseFrom_isSome (k : Kind) (name : Bytes) (hd : r.deref ref = some c) :
    ∃ r', eraseFrom ref k r name = some r' := by
  unfold eraseFrom
  split
  · exact ⟨r, rfl⟩
  · exact ⟨_, by rw [hd]; rfl⟩

/-- The inner loop leaves everything but its own vector alone. -/
theorem eraseFrom_frame (h : eraseFrom ref k r name = some r') :
    r'.conns = r.conns ∧ r'.epoll = r.epoll ∧
      ∀ k' n, ¬(k' = k ∧ n = name) → r'.subscribers k' n = r.subscribers k' n := by
  unfold eraseFrom at h
  split at h
  · obtain rfl := Option.some.inj h
    exact ⟨rfl, rfl, fun _ _ _ => rfl⟩
  · obtain ⟨conn, -, rfl⟩ := Option.map_eq_some_iff.mp h
    refine ⟨conns_put .., epoll_put .., fun k' n hn => ?_⟩
    rw [subscribers_put, if_neg hn]

theorem eraseFrom_own (hd : r.deref ref = some c) (h : eraseFrom ref k r name = some r') :
    r'.subscribers k name = (r.subscribers k name).erase c := by
  unfold eraseFrom at h
  split at h
  case _ hv =>
    obtain rfl := Option.some.inj h
    rw [hv]; rfl
  case _ b vec hv =>
    rw [hd] at h
    obtain rfl := Option.some.inj h
    rw [subscribers_put, if_pos ⟨rfl, rfl⟩, hv]

theorem foldlM_eraseFrom_frame : ∀ {names : List Bytes} {r : PubSubThread},
    names.foldlM (eraseFrom ref k) r = some r' →
    r'.conns = r.conns ∧ r'.epoll = r.epoll ∧
      ∀ k' n, ¬(k' = k ∧ n ∈ names) → r'.subscribers k' n = r.subscribers k' n := by
  intro names
  induction names with
  | nil =>
    intro r h
    obtain rfl := Option.some.inj h
    exact ⟨rfl, rfl, fun _ _ _ => rfl⟩
  | cons name names ih =>
    intro r h
    rw [List.foldlM_cons] at h
    obtain ⟨r₁, h1, h2⟩ := Option.bind_eq_some_iff.mp h
    obtain ⟨hc, he, hf⟩ := eraseFrom_frame h1
    obtain ⟨hc', he', hf'⟩ := ih h2
    refine ⟨hc'.trans hc, he'.trans he, fun k' n hn => ?_⟩
    rw [hf' k' n (fun h => hn ⟨h.1, List.mem_cons_of_mem _ h.2⟩),
      hf k' n (fun h => hn ⟨h.1, h.2 ▸ List.mem_cons_self⟩)]

/-- With a connection the caller owns the outer loop goes through and erases it everywhere. -/
theorem foldlM_eraseFrom_owned : ∀ {names : List Bytes} {r : PubSubThread}, names.Nodup →
    ∃ r', names.foldlM (eraseFrom (.owned c) k) r = some r' ∧
      ∀ n ∈ names, r'.subscribers k n = (r.subscribers k n).erase c := by
  intro names
  induction names with
  | nil =>
    intro r _
    exact ⟨r, rfl, by simp⟩
  | cons name names ih =>
    intro r hn
    obtain ⟨hnot, hn⟩ := List.nodup_cons.mp hn
    have hd : r.deref (.owned c) = some c := rfl
    obtain ⟨r₁, h1⟩ := eraseFrom_isSome k name hd
    obtain ⟨r', h2, hown⟩ := ih (r := r₁) hn
    refine ⟨r', by rw [List.foldlM_cons, h1]; exact h2, fun n hmem => ?_⟩
    rcases List.mem_cons.mp hmem with rfl | hmem
    · rw [(foldlM_eraseFrom_frame h2).2.2 k n (fun h => hnot h.2)]
      exact eraseFrom_own rfl h1
    · rw [hown n hmem, (eraseFrom_frame h1).2.2 k n (fun h => hnot (h.2 ▸ hmem))]

theorem removeFrom_owned (k : Kind) (c : PinkConn) (r : PubSubThread) :
    ∃ r', r.removeFrom (.owned c) k = some r' ∧ r'.conns = r.conns ∧ r'.epoll = r.epoll ∧
      ∀ k' n, r'.subscribers k' n =
        if k' = k then (r.subscribers k' n).erase c else r.subscribers k' n := by
  obtain ⟨r', h, hown⟩ := foldlM_eraseFrom_owned (c := c) (k := k) (r := r)
    (Std.ExtTreeMap.nodup_keys (t := r.subs k))
  obtain ⟨hc, he, hf⟩ := foldlM_eraseFrom_frame h
  refine ⟨r', h, hc, he, fun k' n => ?_⟩
  by_cases hk : k' = k
  · subst hk
    rw [if_pos rfl]
    by_cases hn : n ∈ (r.subs k').keys
    · exact hown n hn
    · rw [hf k' n (fun h => hn h.2), subscribers_eq_nil hn]; rfl
  · rw [if_neg hk, hf k' n (fun h => hk h.1)]

/-- **`MoveConnOut` of a connection the caller owns.** -/
theorem moveConnOut_owned (c : PinkConn) (r : PubSubThread) :
    ∃ r', r.moveConnOut (.owned c) = some r' ∧ r'.conns = r.conns.erase c.fd ∧
      ∀ k n, r'.subscribers k n = (r.subscribers k n).erase c := by
  obtain ⟨r₁, h1, hc1, he1, hs1⟩ := removeFrom_owned .pattern c r
  obtain ⟨r₂, h2, hc2, he2, hs2⟩ := removeFrom_owned .channel c r₁
  have hr : r.removeConn (.owned c) = some r₂ := by rw [removeConn, h1]; exact h2
  refine ⟨_, by rw [moveConnOut, hr]; rfl, ?_, fun k n => ?_⟩
  · show r₂.conns.erase c.fd = _
    rw [hc2, hc1]
  · show r₂.subscribers k n = _
    rw [hs2, hs1]
    cases k <;> simp

/-- With a slot of a vector the outer loop over its map erases from that vector what was in the
slot. -/
theorem foldlM_eraseFrom_slot {i : ℕ} : ∀ {names : List Bytes} {r : PubSubThread}, names.Nodup →
    name ∈ names → r.deref (.slot k name i) = some c →
    names.foldlM (eraseFrom (.slot k name i) k) r = some r' →
    r'.subscribers k name = (r.subscribers k name).erase c
  | n :: names, r, hn, hmem, hd, h => by
    obtain ⟨hnot, hn⟩ := List.nodup_cons.mp hn
    rw [List.foldlM_cons] at h
    obtain ⟨r₁, h1, h2⟩ := Option.bind_eq_some_iff.mp h
    rcases List.mem_cons.mp hmem with rfl | hmem
    · rw [(foldlM_eraseFrom_frame h2).2.2 k name (fun h => hnot h.2)]
      exact eraseFrom_own hd h1
    · have hs := (eraseFrom_frame h1).2.2 k name (fun h => hnot (h.2 ▸ hmem))
      rw [← hs]
      refine foldlM_eraseFrom_slot hn hmem ?_ h2
      rw [← hd, deref, deref, hs]

theorem removeFrom_frame (h : r.removeFrom ref k = some r') :
    r'.conns = r.conns ∧ ∀ k' n, k' ≠ k → r'.subscribers k' n = r.subscribers k' n := by
  obtain ⟨hc, -, hf⟩ := foldlM_eraseFrom_frame h
  exact ⟨hc, fun k' n hk => hf k' n fun h => hk h.1⟩

theorem removeFrom_slot {i : ℕ} (hd : r.deref (.slot k name i) = some c)
    (h : r.removeFrom (.slot k name i) k = some r') :
    r'.subscribers k name = (r.subscribers k name).erase c := by
  refine foldlM_eraseFrom_slot Std.ExtTreeMap.nodup_keys ?_ hd h
  by_contra hn
  rw [deref, subscribers_eq_nil hn] at hd
  simp at hd

theorem removeConn_slot {i : ℕ} (hd : r.deref (.slot k name i) = some c)
    (h : r.removeConn (.slot k name i) = some r') :
    r'.conns = r.conns ∧ r'.subscribers k name = (r.subscribers k name).erase c := by
  obtain ⟨r₁, h1, h2⟩ := Option.bind_eq_some_iff.mp h
  obtain ⟨hc1, hf1⟩ := removeFrom_frame h1
  obtain ⟨hc2, hf2⟩ := removeFrom_frame h2
  refine ⟨hc2.trans hc1, ?_⟩
  cases k with
  | channel =>
    have hs := hf1 .channel name (by decide)
    rw [← hs]
    exact removeFrom_slot (by rw [← hd, deref, deref, hs]) h2
  | pattern =>
    rw [hf2 .pattern name (by decide)]
    exact removeFrom_slot hd h1

/-- **`MoveConnOut` of a slot.** The connection taken out of `conns` is the one in the slot
afterwards. -/
theorem moveConnOut_slot {i : ℕ} (hd : r.deref (.slot k name i) = some c)
    (h : r.moveConnOut (.slot k name i) = some r') :
    r'.subscribers k name = (r.subscribers k name).erase c ∧
      ∃ c', r'.deref (.slot k name i) = some c' ∧ r'.conns = r.conns.erase c'.fd := by
  obtain ⟨r₁, h1, h2⟩ := Option.bind_eq_some_iff.mp h
  obtain ⟨c', hd', rfl⟩ := Option.map_eq_some_iff.mp h2
  obtain ⟨hc, hs⟩ := removeConn_slot hd h1
  exact ⟨hs, c', hd', by rw [← hc]⟩

/-- `MoveConnOut` takes at most one connection out of `conns`. -/
theorem moveConnOut_conns (h : r.moveConnOut ref = some r') :
    ∃ fd, r'.conns = r.conns.erase fd := by
  obtain ⟨r₁, h1, h2⟩ := Option.bind_eq_some_iff.mp h
  obtain ⟨c', -, rfl⟩ := Option.map_eq_some_iff.mp h2
  obtain ⟨r₂, h3, h4⟩ := Option.bind_eq_some_iff.mp h1
  exact ⟨c'.fd, by rw [← (removeFrom_frame h3).1, ← (removeFrom_frame h4).1]⟩

/-! ### Nothing is added -/

theorem eraseFrom_sublist (h : eraseFrom ref k r name = some r') (k' : Kind) (n : Bytes) :
    (r'.subscribers k' n).Sublist (r.subscribers k' n) := by
  by_cases hn : k' = k ∧ n = name
  · obtain ⟨rfl, rfl⟩ := hn
    unfold eraseFrom at h
    split at h
    · obtain rfl := Option.some.inj h
      exact List.Sublist.refl _
    case _ b vec hv =>
      obtain ⟨conn, -, rfl⟩ := Option.map_eq_some_iff.mp h
      rw [subscribers_put, if_pos ⟨rfl, rfl⟩, hv]
      exact List.erase_sublist
  · rw [(eraseFrom_frame h).2.2 k' n hn]

theorem foldlM_eraseFrom_sublist (k' : Kind) (n : Bytes) :
    ∀ {names : List Bytes} {r : PubSubThread}, names.foldlM (eraseFrom ref k) r = some r' →
      (r'.subscribers k' n).Sublist (r.subscribers k' n) := by
  intro names
  induction names with
  | nil =>
    intro r h
    obtain rfl := Option.some.inj h
    exact List.Sublist.refl _
  | cons name names ih =>
    intro r h
    rw [List.foldlM_cons] at h
    obtain ⟨r₁, h1, h2⟩ := Option.bind_eq_some_iff.mp h
    exact (ih h2).trans (eraseFrom_sublist h1 k' n)

theorem moveConnOut_sublist (h : r.moveConnOut ref = some r') (k' : Kind) (n : Bytes) :
    (r'.subscribers k' n).Sublist (r.subscribers k' n) := by
  obtain ⟨r₁, h1, h2⟩ := Option.bind_eq_some_iff.mp h
  obtain ⟨c, -, rfl⟩ := Option.map_eq_some_iff.mp h2
  obtain ⟨r₂, h3, h4⟩ := Option.bind_eq_some_iff.mp h1
  exact (foldlM_eraseFrom_sublist k' n h4).trans (foldlM_eraseFrom_sublist k' n h3)

end Erase

end PubSubThread

end Pink.PubSub.Registry
