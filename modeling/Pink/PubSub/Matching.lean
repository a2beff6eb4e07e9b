import Pink.PubSub.Publish

/-! # Which names a pattern matches

`slash::stringmatchlen` takes the pattern first and the string behind it. A publish passes the
registered pattern and the name of the channel, and so considers the patterns that match the channel
(`considered_iff`). `PubSubChannels` passes the name of the channel as the pattern: what it lists
are the channels that match the pattern, read as a string. It lists what it should exactly if the two
orders agree on every channel with a subscriber (`oriented_iff`), as they do on names without
wildcards (`lists_of_literal`). -/

namespace Pink.PubSub.Matching

open Pink.Redis.Wire Pink.PubSub.Registry Pink.PubSub.Publish
open Pink.Redis.Conn (WriteStatus)
open PubSubThread (pubSubChannels)

/-! ### The patterns that are considered -/

section Considered
variable (env : Env) (channel msg : Bytes)

/-- One turn of the outer loop, with the names noted whose inner loop is entered. -/
def considerName (k : Kind) (st : Published × List Bytes) (name : Bytes) :
    Option (Published × List Bytes) :=
  (deliverName env channel msg k st.1 name).map fun p =>
    (p, if due env channel k name then st.2 ++ [name] else st.2)

/-- The loop over `pubsub_pattern_`, with the patterns it considers. -/
def considerAll (p : Published) : Option (Published × List Bytes) :=
  (p.thread.subs .pattern).keys.foldlM (considerName env channel msg .pattern) (p, [])

/-- The processing of one message, with the patterns it considers. -/
def considered (r : PubSubThread) : Option (Published × List Bytes) :=
  (deliverAll env channel msg .channel { thread := r }).bind (considerAll env channel msg)

variable {env channel msg}

theorem foldlM_considerName {k : Kind} : ∀ (names : List Bytes) (st : Published × List Bytes),
    names.foldlM (considerName env channel msg k) st =
      (names.foldlM (deliverName env channel msg k) st.1).map fun p =>
        (p, st.2 ++ names.filter (due env channel k)) := by
  intro names
  induction names with
  | nil =>
    intro st
    simp
  | cons name names ih =>
    intro st
    rw [List.foldlM_cons, List.foldlM_cons]
    simp only [considerName]
    rcases deliverName env channel msg k st.1 name with _ | p
    · rfl
    · show List.foldlM _ (_ : Published × List Bytes) names = _
      rw [ih, List.filter_cons]
      show _ = Option.map _ (List.foldlM _ p names)
      congr 1
      funext p'
      split_ifs <;> simp

/-- Noting the names changes nothing. -/
theorem map_considered (r : PubSubThread) :
    (considered env channel msg r).map Prod.fst = publish env channel msg r := by
  unfold considered publish
  rcases deliverAll env channel msg .channel { thread := r } with _ | p
  · rfl
  · show Option.map Prod.fst (considerAll env channel msg p) = deliverAll env channel msg .pattern p
    rw [considerAll, foldlM_considerName, Option.map_map]
    exact Option.map_id'

end Considered

/-! ### The names stay -/

section Names
variable {ref : Ref} {k : Kind} {r r' : PubSubThread} {name : Bytes}

theorem mem_eraseFrom (h : PubSubThread.eraseFrom ref k r name = some r') (k' : Kind) (n : Bytes) :
    n ∈ r'.subs k' ↔ n ∈ r.subs k' := by
  unfold PubSubThread.eraseFrom at h
  split at h
  · obtain rfl := Option.some.inj h
    exact Iff.rfl
  case _ c vec hv =>
    obtain ⟨conn, -, rfl⟩ := Option.map_eq_some_iff.mp h
    -- the vector is not empty, so the name is there
    have hmem : name ∈ r.subs k := by
      by_contra hn
      rw [PubSubThread.subscribers_eq_nil fun hm => hn (Std.ExtTreeMap.mem_keys.mp hm)] at hv
      cases hv
    rw [PubSubThread.put, PubSubThread.subs_setSubs]
    split_ifs with hk
    · subst hk
      rw [Std.ExtTreeMap.mem_insert, Std.compare_eq_iff_eq]
      constructor
      · rintro (rfl | hn)
        · exact hmem
        · exact hn
      · exact Or.inr
    · exact Iff.rfl

theorem mem_removeFrom (h : r.removeFrom ref k = some r') (k' : Kind) (n : Bytes) :
    n ∈ r'.subs k' ↔ n ∈ r.subs k' := by
  unfold PubSubThread.removeFrom at h
  revert h
  generalize (r.subs k).keys = names
  induction names generalizing r with
  | nil =>
    intro h
    obtain rfl := Option.some.inj h
    exact Iff.rfl
  | cons name names ih =>
    intro h
    rw [List.foldlM_cons] at h
    obtain ⟨r₁, h1, h2⟩ := Option.bind_eq_some_iff.mp h
    exact (ih h2).trans (mem_eraseFrom h1 k' n)

theorem mem_moveConnOut (h : r.moveConnOut ref = some r') (k' : Kind) (n : Bytes) :
    n ∈ r'.subs k' ↔ n ∈ r.subs k' := by
  obtain ⟨r₁, h1, h2⟩ := Option.bind_eq_some_iff.mp h
  obtain ⟨c, -, rfl⟩ := Option.map_eq_some_iff.mp h2
  obtain ⟨r₂, h3, h4⟩ := Option.bind_eq_some_iff.mp h1
  have : ∀ x y, ({ r₁ with epoll := x, conns := y } : PubSubThread).subs k' = r₁.subs k' := by
    intro x y
    cases k' <;> rfl
  rw [this]
  exact (mem_removeFrom h4 k' n).trans (mem_removeFrom h3 k' n)

end Names

section Names
variable {env : Env} {channel msg : Bytes} {k : Kind} {name : Bytes} {p p' : Published}

theorem mem_turn {i : ℕ} {conn : PinkConn}
    (h : turn env channel msg k name i conn p = some p') (k' : Kind) (n : Bytes) :
    n ∈ p'.thread.subs k' ↔ n ∈ p.thread.subs k' := by
  unfold turn at h
  split_ifs at h
  · dsimp only at h
    split at h
    · obtain rfl := Option.some.inj h
      cases k' <;> exact Iff.rfl
    · obtain ⟨t, hm, h⟩ := Option.bind_eq_some_iff.mp h
      obtain ⟨c, -, rfl⟩ := Option.map_eq_some_iff.mp h
      exact mem_moveConnOut hm k' n
    · obtain rfl := Option.some.inj h
      exact Iff.rfl
  · obtain rfl := Option.some.inj h
    exact Iff.rfl

theorem mem_deliver (k' : Kind) (n : Bytes) : ∀ {fuel i : ℕ} {p : Published},
    deliver env channel msg k name fuel i p = some p' →
      (n ∈ p'.thread.subs k' ↔ n ∈ p.thread.subs k')
  | 0, _, _, h => by
    obtain rfl := Option.some.inj h
    exact Iff.rfl
  | fuel + 1, i, p, h => by
    unfold deliver at h
    split at h
    · obtain rfl := Option.some.inj h
      exact Iff.rfl
    · obtain ⟨p₁, ht, h⟩ := Option.bind_eq_some_iff.mp h
      exact (mem_deliver k' n h).trans (mem_turn ht k' n)

/-- A message goes to the subscribers of names, and leaves the names. -/
theorem mem_deliverAll (h : deliverAll env channel msg k p = some p') (k' : Kind) (n : Bytes) :
    n ∈ p'.thread.subs k' ↔ n ∈ p.thread.subs k' := by
  unfold deliverAll at h
  revert h
  generalize (p.thread.subs k).keys = names
  induction names generalizing p with
  | nil =>
    intro h
    obtain rfl := Option.some.inj h
    exact Iff.rfl
  | cons name names ih =>
    intro h
    rw [List.foldlM_cons] at h
    obtain ⟨p₁, h1, h2⟩ := Option.bind_eq_some_iff.mp h
    refine (ih h2).trans ?_
    unfold deliverName at h1
    split_ifs at h1
    · exact mem_deliver k' n h1
    · obtain rfl := Option.some.inj h1
      exact Iff.rfl

end Names

/-! ### Which way round -/

section Oriented
variable {stringmatchlen : Bytes → Bytes → Bool} {Matches : Bytes → Bytes → Prop}

/-- `result` lists the channels with a subscriber that the pattern matches, each once. -/
structure Lists (Matches : Bytes → Bytes → Prop) (r : PubSubThread) (pattern : Bytes)
    (result : List Bytes) : Prop where
  nodup : result.Nodup
  mem : ∀ name, name ∈ result ↔ r.subscribers .channel name ≠ [] ∧ Matches pattern name

/-- The patterns considered are the registered ones that match the channel, each once. -/
structure Routes (Matches : Bytes → Bytes → Prop) (r : PubSubThread) (channel : Bytes)
    (names : List Bytes) : Prop where
  nodup : names.Nodup
  mem : ∀ name, name ∈ names ↔ name ∈ r.pubsubPattern ∧ Matches name channel

/-- Both use the relation the same way round. -/
structure Oriented (stringmatchlen : Bytes → Bytes → Bool) (Matches : Bytes → Bytes → Prop)
    (r : PubSubThread) (pattern : Bytes) : Prop where
  lists : Lists Matches r pattern (pubSubChannels stringmatchlen pattern r)
  routes : ∀ (channel msg : Bytes) (sendReply : Subscription → WriteStatus) (p : Published)
    (names : List Bytes), considered ⟨sendReply, stringmatchlen⟩ channel msg r = some (p, names) →
      Routes Matches r channel names

/-- The two orders agree on the channels with a subscriber. -/
def Symmetric (Matches : Bytes → Bytes → Prop) (r : PubSubThread) (pattern : Bytes) : Prop :=
  ∀ name, r.subscribers .channel name ≠ [] → (Matches name pattern ↔ Matches pattern name)

/-- **A publish considers the patterns that match the channel.** -/
theorem considered_iff (hmatch : ∀ p s, stringmatchlen p s = true ↔ Matches p s)
    {r : PubSubThread} {channel msg : Bytes} {sendReply : Subscription → WriteStatus} {p : Published}
    {names : List Bytes}
    (h : considered ⟨sendReply, stringmatchlen⟩ channel msg r = some (p, names)) :
    Routes Matches r channel names := by
  obtain ⟨p₁, h1, h2⟩ := Option.bind_eq_some_iff.mp h
  rw [considerAll, foldlM_considerName] at h2
  obtain ⟨p₂, -, he⟩ := Option.map_eq_some_iff.mp h2
  obtain ⟨-, rfl⟩ := Prod.mk.inj he
  rw [List.nil_append]
  refine ⟨List.Nodup.filter _ Std.ExtTreeMap.nodup_keys, fun name => ?_⟩
  rw [List.mem_filter, Std.ExtTreeMap.mem_keys]
  exact and_congr (mem_deliverAll h1 .pattern name) (hmatch name channel)

/-- What `PubSubChannels` lists: the channels that match the pattern as a string. -/
theorem mem_pubSubChannels (hmatch : ∀ p s, stringmatchlen p s = true ↔ Matches p s)
    (r : PubSubThread) {pattern : Bytes} (hne : pattern ≠ []) (name : Bytes) :
    name ∈ pubSubChannels stringmatchlen pattern r ↔
      r.subscribers .channel name ≠ [] ∧ Matches name pattern := by
  rw [pubSubChannels, if_neg hne, PubSubThread.subscribers, PubSubThread.subs]
  simp only [List.mem_map, List.mem_filter, Prod.exists, exists_and_right, exists_eq_right,
    Std.ExtTreeMap.mem_toList_iff_getElem?_eq_some, Bool.and_eq_true, hmatch, decide_eq_true_eq,
    Std.ExtTreeMap.getD_eq_getD_getElem?]
  constructor
  · rintro ⟨vec, hvec, hm, hlen⟩
    rw [hvec]
    exact ⟨fun hnil => hlen (congrArg List.length hnil), hm⟩
  · rintro ⟨hvec, hm⟩
    rcases hs : r.pubsubChannel[name]? with _ | vec
    · rw [hs] at hvec
      exact absurd rfl hvec
    · rw [hs] at hvec
      exact ⟨vec, rfl, hm, fun hlen => hvec (List.length_eq_zero_iff.mp hlen)⟩

theorem nodup_pubSubChannels (r : PubSubThread) (pattern : Bytes) :
    (pubSubChannels stringmatchlen pattern r).Nodup := by
  have hkeys : (r.pubsubChannel.toList.map Prod.fst).Nodup := by
    rw [Std.ExtTreeMap.map_fst_toList_eq_keys]
    exact Std.ExtTreeMap.nodup_keys
  unfold pubSubChannels
  split_ifs
  · exact hkeys.sublist (List.filter_sublist.map _)
  · exact hkeys.sublist (List.filter_sublist.map _)

theorem lists_iff (hmatch : ∀ p s, stringmatchlen p s = true ↔ Matches p s) (r : PubSubThread)
    {pattern : Bytes} (hne : pattern ≠ []) :
    Lists Matches r pattern (pubSubChannels stringmatchlen pattern r) ↔
      Symmetric Matches r pattern := by
  have hmem := mem_pubSubChannels hmatch r hne
  constructor
  · intro h name hs
    have := (hmem name).symm.trans (h.mem name)
    simpa [hs] using this
  · intro h
    exact ⟨nodup_pubSubChannels r pattern, fun name => (hmem name).trans (and_congr_right (h name))⟩

/-- A pattern without wildcards matches itself only: on such names there is no difference. -/
theorem lists_of_literal (hmatch : ∀ p s, stringmatchlen p s = true ↔ Matches p s)
    {literal : Bytes → Prop} (hlit : ∀ p s, literal p → (Matches p s ↔ s = p)) {r : PubSubThread}
    {pattern : Bytes} (hne : pattern ≠ []) (hp : literal pattern)
    (hr : ∀ name, r.subscribers .channel name ≠ [] → literal name) :
    Lists Matches r pattern (pubSubChannels stringmatchlen pattern r) :=
  (lists_iff hmatch r hne).mpr fun name hs => by
    rw [hlit name pattern (hr name hs), hlit pattern name hp, eq_comm]

/-- **Listing and routing use the relation the same way round exactly if the two orders agree on the
channels with a subscriber.** -/
theorem oriented_iff (hmatch : ∀ p s, stringmatchlen p s = true ↔ Matches p s) (r : PubSubThread)
    {pattern : Bytes} (hne : pattern ≠ []) :
    Oriented stringmatchlen Matches r pattern ↔ Symmetric Matches r pattern := by
  rw [← lists_iff hmatch r hne]
  constructor
  · exact Oriented.lists
  · exact fun h => ⟨h, fun _ _ _ _ _ => considered_iff hmatch⟩

end Oriented

/-- The name of a channel is listed. -/
theorem oriented_news :
    Oriented starMatch (fun p s => starMatch p s = true) newsThread (bytes "news") :=
  (oriented_iff (fun _ _ => Iff.rfl) newsThread (by decide)).mpr fun name hs => by
    have hname : name = bytes "news" := by
      by_contra hn
      exact hs ((PubSubThread.getD_insert _ _ _ _).trans (if_neg hn))
    rw [hname]

/-- The pattern `n*` matches the channel `news`, which has two subscribers; it is not listed. -/
theorem not_oriented_star :
    ¬Oriented starMatch (fun p s => starMatch p s = true) newsThread (bytes "n*") := by
  intro h
  have hnil : pubSubChannels starMatch (bytes "n*") newsThread = [] := by decide +kernel
  have hmem := (h.lists.mem (bytes "news")).mpr ⟨by decide +kernel, by decide +kernel⟩
  rw [hnil] at hmem
  exact List.not_mem_nil hmem

end Pink.PubSub.Matching
