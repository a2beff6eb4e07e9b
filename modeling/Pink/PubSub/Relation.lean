import Mathlib.Data.Set.Card
import Pink.Lib.Runs
import Pink.PubSub.Registry

/-! # The registry as a pair of relations

What the registry is for: to hold two relations between names and connections, one for channels and
one for patterns (`Rel`). A registry refines such a pair if the vectors under the names are without
repetition and hold exactly the related connections, and the statistics report the cardinalities.

In pattern mode subscribing, unsubscribing and the removal of a connection act on the registry as
they should act on the relations. In general mode `Subscribe` inserts into the map of the patterns,
so that a run refines the run of the relations if and only if it has no such step
(`runRefines_iff`). -/

namespace Pink.PubSub.Relation

open Pink.Redis.Wire Pink.Lib.Runs Pink.PubSub.Registry

/-! ### The relations -/

/-- Who is subscribed to which channel, and to which pattern. -/
abbrev Rel := Kind → Set (Bytes × PinkConn)

inductive Op
  | subscribe (conn : PinkConn) (names : List Bytes) (pattern : Bool)
  | unSubscribe (conn : PinkConn) (names : List Bytes) (pattern : Bool)
  /-- A connection is removed. -/
  | moveConnOut (conn : PinkConn)
  deriving DecidableEq, Repr

/-- The pairs of some names with one connection. -/
def pairs (names : List Bytes) (conn : PinkConn) : Set (Bytes × PinkConn) :=
  {p | p.1 ∈ names ∧ p.2 = conn}

def Rel.step (s : Rel) : Op → Rel
  | .subscribe conn names pattern =>
    Function.update s (.ofFlag pattern) (s (.ofFlag pattern) ∪ pairs names conn)
  | .unSubscribe conn names pattern =>
    Function.update s (.ofFlag pattern) (s (.ofFlag pattern) \ pairs names conn)
  | .moveConnOut conn => fun k => s k \ {p | p.2 = conn}

/-! ### The steps of the registry -/

/-- One call. -/
def apply (r : PubSubThread) : Op → Option PubSubThread
  | .subscribe conn names pattern => some (r.subscribe conn names pattern).1
  | .unSubscribe conn names pattern => (r.unSubscribe conn names pattern).map Prod.fst
  | .moveConnOut conn => r.moveConnOut (.owned conn)

def step (r : Option PubSubThread) (op : Op) : Option PubSubThread := r.bind fun r => apply r op

/-- Names are given. -/
def Op.Named : Op → Prop
  | .subscribe _ names _ | .unSubscribe _ names _ => names ≠ []
  | .moveConnOut _ => True

/-- A `Subscribe` in general mode. -/
def Op.General : Op → Prop
  | .subscribe _ _ pattern => pattern = false
  | .unSubscribe .. | .moveConnOut _ => False

instance (op : Op) : Decidable op.Named := by cases op <;> unfold Op.Named <;> infer_instance
instance (op : Op) : Decidable op.General := by cases op <;> unfold Op.General <;> infer_instance

/-- The pairs a registry holds. -/
def held (r : PubSubThread) : Rel := fun k => {p | p.2 ∈ r.subscribers k p.1}

structure Refines (r : PubSubThread) (s : Rel) : Prop where
  held : held r = s
  nodup : ∀ k n, (r.subscribers k n).Nodup
  numSub : ∀ names, r.pubSubNumSub names =
    names.map fun n => (n, toInt32 {c | (n, c) ∈ s .channel}.ncard)
  numPat : r.pubSubNumPat = toInt32 (s .pattern).ncard

/-- Every state of the run refines the relations. -/
def RunRefines (ops : List Op) : Prop :=
  ∀ p, p <+: ops →
    ∃ r, run step (some {}) p = some r ∧ Refines r (run Rel.step (fun _ => ∅) p)

/-! ### Subscribing -/

/-- A vector with a connection added at its end, if it is not there. -/
def addConn (conn : PinkConn) (vec : List PinkConn) : List PinkConn :=
  if conn ∈ vec then vec else vec ++ [conn]

theorem mem_addConn {conn c : PinkConn} {vec : List PinkConn} :
    c ∈ addConn conn vec ↔ c ∈ vec ∨ c = conn := by
  unfold addConn
  split_ifs with h
  · exact ⟨Or.inl, fun hc => hc.elim id fun he => he ▸ h⟩
  · simp

theorem nodup_addConn {conn : PinkConn} {vec : List PinkConn} (h : vec.Nodup) :
    (addConn conn vec).Nodup := by
  unfold addConn
  split_ifs with hc
  · exact h
  · refine List.nodup_append.mpr ⟨h, List.nodup_singleton _, fun a ha b hb hab => hc ?_⟩
    rwa [← List.mem_singleton.mp hb, ← hab]

theorem addConn_addConn (conn : PinkConn) (vec : List PinkConn) :
    addConn conn (addConn conn vec) = addConn conn vec := by
  have : conn ∈ addConn conn vec := mem_addConn.mpr (Or.inr rfl)
  rw [addConn, if_pos this]

theorem getD_insertConn (m : Subs) (name n : Bytes) (conn : PinkConn) (subscribed : ℤ) :
    (PubSubThread.insertConn m name conn subscribed).1.getD n [] =
      if n = name then addConn conn (m.getD n []) else m.getD n [] := by
  by_cases hn : n = name
  · subst hn
    rw [if_pos rfl, PubSubThread.insertConn]
    rw [Std.ExtTreeMap.getD_eq_getD_getElem? (t := m)]
    rcases hm : m[n]? with _ | vec
    · simp [addConn]
    · dsimp only [Option.getD_some]
      unfold addConn
      split_ifs with h
      · rw [Std.ExtTreeMap.getD_eq_getD_getElem?, hm]; rfl
      · simp
  · rw [if_neg hn, PubSubThread.insertConn]
    split
    · split_ifs
      · rfl
      · rw [PubSubThread.getD_insert, if_neg hn]
    · rw [PubSubThread.getD_insert, if_neg hn]

/-- In both modes a turn of `Subscribe` adds to the map of the patterns. -/
theorem subscribers_subscribeTurn (conn : PinkConn) (pattern : Bool)
    (st : PubSubThread × ℤ × PubSubThread.Result) (name : Bytes) (k : Kind) (n : Bytes) :
    (PubSubThread.subscribeTurn conn pattern st name).1.subscribers k n =
      if k = .pattern ∧ n = name then addConn conn (st.1.subscribers k n)
      else st.1.subscribers k n := by
  obtain ⟨r, subscribed, result⟩ := st
  have h : (PubSubThread.subscribeTurn conn pattern (r, subscribed, result) name).1 =
      { r with pubsubPattern :=
          (PubSubThread.insertConn r.pubsubPattern name conn subscribed).1 } := by
    cases pattern <;> rfl
  rw [h]
  cases k with
  | channel => simp; rfl
  | pattern =>
    simp only [true_and]
    exact getD_insertConn r.pubsubPattern name n conn subscribed

theorem subscribers_foldl_subscribeTurn (conn : PinkConn) (pattern : Bool) (k : Kind) (n : Bytes) :
    ∀ (names : List Bytes) (st : PubSubThread × ℤ × PubSubThread.Result),
      (names.foldl (PubSubThread.subscribeTurn conn pattern) st).1.subscribers k n =
        if k = .pattern ∧ n ∈ names then addConn conn (st.1.subscribers k n)
        else st.1.subscribers k n := by
  intro names
  induction names with
  | nil =>
    intro st
    simp
  | cons name names ih =>
    intro st
    rw [List.foldl_cons, ih,
      subscribers_subscribeTurn]
    by_cases hk : k = .pattern
    · by_cases h1 : n = name
      · subst h1
        by_cases h2 : n ∈ names <;> simp [hk, h2, addConn_addConn]
      · simp [hk, h1]
    · simp [hk]

theorem subscribers_moveConnIn (conn : PinkConn) (r : PubSubThread) (k : Kind) (n : Bytes) :
    (r.moveConnIn conn).subscribers k n = r.subscribers k n := by cases k <;> rfl

theorem subscribers_subscribe (conn : PinkConn) (names : List Bytes) (pattern : Bool)
    (r : PubSubThread) (k : Kind) (n : Bytes) :
    (r.subscribe conn names pattern).1.subscribers k n =
      if k = .pattern ∧ n ∈ names then addConn conn (r.subscribers k n)
      else r.subscribers k n := by
  unfold PubSubThread.subscribe
  dsimp only
  rw [subscribers_foldl_subscribeTurn]
  dsimp only
  split_ifs <;> simp [subscribers_moveConnIn]

/-! ### Unsubscribing -/

theorem subscribers_unSubscribeTurn (conn : PinkConn) (pattern : Bool)
    (st : PubSubThread × ℤ × PubSubThread.Result) (name : Bytes) (k : Kind) (n : Bytes) :
    (PubSubThread.unSubscribeTurn conn pattern st name).1.subscribers k n =
      if k = .ofFlag pattern ∧ n = name then (st.1.subscribers k n).filter (· ≠ conn)
      else st.1.subscribers k n := by
  obtain ⟨r, subscribed, result⟩ := st
  have hs : r.subscribers (.ofFlag pattern) name =
      ((r.subs (.ofFlag pattern))[name]?).getD [] := Std.ExtTreeMap.getD_eq_getD_getElem?
  unfold PubSubThread.unSubscribeTurn
  dsimp only
  split
  case _ vec hv =>
    rw [hv, Option.getD_some] at hs
    split_ifs with hc hk hk
    · rw [PubSubThread.subscribers_put, if_pos hk, hk.1, hk.2, hs]
    · rw [PubSubThread.subscribers_put, if_neg hk]
    · rw [hk.1, hk.2, hs, List.filter_eq_self.mpr]
      intro c hcv
      simpa using fun he : c = conn => hc (he ▸ hcv)
    · rfl
  case _ hv =>
    rw [hv, Option.getD_none] at hs
    split_ifs with hk
    · rw [hk.1, hk.2, hs]; rfl
    · rfl

theorem subscribers_foldl_unSubscribeTurn (conn : PinkConn) (pattern : Bool) (k : Kind)
    (n : Bytes) :
    ∀ (names : List Bytes) (st : PubSubThread × ℤ × PubSubThread.Result),
      (names.foldl (PubSubThread.unSubscribeTurn conn pattern) st).1.subscribers k n =
        if k = .ofFlag pattern ∧ n ∈ names then (st.1.subscribers k n).filter (· ≠ conn)
        else st.1.subscribers k n := by
  intro names
  induction names with
  | nil =>
    intro st
    simp
  | cons name names ih =>
    intro st
    rw [List.foldl_cons, ih,
      subscribers_unSubscribeTurn]
    by_cases hk : k = .ofFlag pattern
    · by_cases h1 : n = name
      · subst h1
        by_cases h2 : n ∈ names <;> simp [hk, h2, List.filter_filter]
      · simp [hk, h1]
    · simp [hk]

theorem nameCount_eq_zero {m : Subs} {conn : PinkConn}
    (h : PubSubThread.nameCount m conn = 0) (n : Bytes) : conn ∉ m.getD n [] := by
  rw [Std.ExtTreeMap.getD_eq_getD_getElem?]
  rcases hm : m[n]? with _ | vec
  · simp
  · have := List.countP_eq_zero.mp h (n, vec)
      (Std.ExtTreeMap.mem_toList_iff_getElem?_eq_some.mpr hm)
    simpa using this

/-- A connection that is counted nowhere is nowhere. -/
theorem not_mem_of_clientChannelSize {r : PubSubThread} {conn : PinkConn}
    (h : r.clientChannelSize conn = 0) (k : Kind) (n : Bytes) : conn ∉ r.subscribers k n := by
  unfold PubSubThread.clientChannelSize at h
  have h1 : PubSubThread.nameCount r.pubsubChannel conn = 0 := by omega
  have h2 : PubSubThread.nameCount r.pubsubPattern conn = 0 := by omega
  cases k with
  | channel => exact nameCount_eq_zero h1 n
  | pattern => exact nameCount_eq_zero h2 n

theorem subscribers_unSubscribe (conn : PinkConn) {names : List Bytes} (hn : names ≠ [])
    (pattern : Bool) (r : PubSubThread) :
    ∃ res, r.unSubscribe conn names pattern = some res ∧ ∀ k n, res.1.subscribers k n =
      if k = .ofFlag pattern ∧ n ∈ names then (r.subscribers k n).filter (· ≠ conn)
      else r.subscribers k n := by
  have hfold := fun k n =>
    subscribers_foldl_unSubscribeTurn conn pattern k n names (r, r.clientChannelSize conn, [])
  unfold PubSubThread.unSubscribe
  rw [if_neg hn]
  dsimp only
  generalize List.foldl _ _ names = st at hfold ⊢
  by_cases h0 : st.1.clientChannelSize conn = 0 ∧ r.clientChannelSize conn ≠ 0
  · rw [if_pos h0]
    obtain ⟨r', hr, -, hs⟩ := PubSubThread.moveConnOut_owned conn st.1
    refine ⟨_, by rw [hr]; rfl, fun k n => ?_⟩
    rw [hs, ← hfold, List.erase_of_not_mem (not_mem_of_clientChannelSize h0.1 k n)]
  · rw [if_neg h0]
    exact ⟨_, rfl, hfold⟩

/-! ### The numbers -/

theorem ncard_mem {vec : List PinkConn} (h : vec.Nodup) : {c | c ∈ vec}.ncard = vec.length := by
  have : {c | c ∈ vec} = (vec.toFinset : Set PinkConn) := by ext; simp
  rw [this, Set.ncard_coe_finset, List.toFinset_card_of_nodup h]

theorem foldl_of_not_mem {β : Type*} (f : List PinkConn → β) {name : Bytes} :
    ∀ {ps : List (Bytes × List PinkConn)} (b : β), name ∉ ps.map Prod.fst →
      ps.foldl (fun b p => if p.1 = name then f p.2 else b) b = b := by
  intro ps
  induction ps with
  | nil =>
    intro _ _
    rfl
  | cons p ps ih =>
    intro b h
    rw [List.map_cons, List.mem_cons, not_or] at h
    rw [List.foldl_cons, if_neg (Ne.symm h.1), ih b h.2]

theorem foldl_of_mem {β : Type*} (f : List PinkConn → β) {name : Bytes} {vec : List PinkConn} :
    ∀ {ps : List (Bytes × List PinkConn)} (b : β), (ps.map Prod.fst).Nodup → (name, vec) ∈ ps →
      ps.foldl (fun b p => if p.1 = name then f p.2 else b) b = f vec
  | p :: ps, b, hd, h => by
    obtain ⟨hp, hd⟩ := List.nodup_cons.mp hd
    rw [List.foldl_cons]
    rcases List.mem_cons.mp h with rfl | h
    · rw [if_pos rfl, foldl_of_not_mem f _ hp]
    · exact foldl_of_mem f _ hd h

theorem numSub_eq (r : PubSubThread) (name : Bytes) :
    r.numSub name = toInt32 (r.subscribers .channel name).length := by
  have hs : r.subscribers .channel name = (r.pubsubChannel[name]?).getD [] :=
    Std.ExtTreeMap.getD_eq_getD_getElem?
  rw [PubSubThread.numSub, hs]
  rcases hm : r.pubsubChannel[name]? with _ | vec
  · rw [foldl_of_not_mem fun vec => toInt32 vec.length]
    · exact (toInt32_of_lt (n := 0) (by norm_num)).symm
    · rw [Std.ExtTreeMap.map_fst_toList_eq_keys, Std.ExtTreeMap.mem_keys]
      simp [Std.ExtTreeMap.mem_iff_isSome_getElem?, hm]
  · rw [foldl_of_mem (fun vec => toInt32 vec.length) _ _
      (Std.ExtTreeMap.mem_toList_iff_getElem?_eq_some.mpr hm)]
    · rfl
    · rw [Std.ExtTreeMap.map_fst_toList_eq_keys]
      exact Std.ExtTreeMap.nodup_keys

/-- The pairs of a map, listed. -/
def pairList (m : Subs) : List (Bytes × PinkConn) :=
  m.toList.flatMap fun p => p.2.map fun c => (p.1, c)

theorem mem_pairList {m : Subs} {p : Bytes × PinkConn} : p ∈ pairList m ↔ p.2 ∈ m.getD p.1 [] := by
  simp only [pairList, List.mem_flatMap, List.mem_map, Std.ExtTreeMap.getD_eq_getD_getElem?]
  constructor
  · rintro ⟨⟨n, vec⟩, hv, c, hc, rfl⟩
    rw [Std.ExtTreeMap.mem_toList_iff_getElem?_eq_some.mp hv]
    exact hc
  · intro h
    rcases hm : m[p.1]? with _ | vec
    · simp [hm] at h
    · rw [hm] at h
      exact ⟨(p.1, vec), Std.ExtTreeMap.mem_toList_iff_getElem?_eq_some.mpr hm, p.2, h, rfl⟩

theorem nodup_pairList {m : Subs} (h : ∀ n, (m.getD n []).Nodup) : (pairList m).Nodup := by
  refine List.nodup_flatMap.mpr ⟨fun p hp => ?_, ?_⟩
  · have hv := h p.1
    rw [Std.ExtTreeMap.getD_eq_getD_getElem?,
      Std.ExtTreeMap.mem_toList_iff_getElem?_eq_some.mp hp] at hv
    exact hv.map fun a b he => (Prod.mk.inj he).2
  · refine Std.ExtTreeMap.distinct_keys_toList.imp fun {p q} hpq => ?_
    intro x hx hy
    obtain ⟨c, -, rfl⟩ := List.mem_map.mp hx
    obtain ⟨c', -, he⟩ := List.mem_map.mp hy
    exact hpq (Std.compare_eq_iff_eq.mpr (Prod.mk.inj he).1.symm)

theorem length_pairList (m : Subs) :
    (pairList m).length = (m.toList.map fun p => p.2.length).sum := by
  simp [pairList, List.length_flatMap]

theorem numPat_eq {r : PubSubThread} (h : ∀ n, (r.subscribers .pattern n).Nodup) :
    r.pubSubNumPat = toInt32 (held r .pattern).ncard := by
  have : held r .pattern = ((pairList r.pubsubPattern).toFinset : Set (Bytes × PinkConn)) := by
    ext p
    rw [Finset.mem_coe, List.mem_toFinset, mem_pairList]
    rfl
  have hd : (pairList r.pubsubPattern).Nodup := nodup_pairList h
  rw [this, Set.ncard_coe_finset, List.toFinset_card_of_nodup hd, length_pairList]
  rfl

theorem refines_held {r : PubSubThread} (h : ∀ k n, (r.subscribers k n).Nodup) :
    Refines r (held r) where
  held := rfl
  nodup := h
  numSub names := by
    refine List.map_congr_left fun n _ => ?_
    rw [numSub_eq]
    exact congrArg (fun x => (n, toInt32 x)) (ncard_mem (h .channel n)).symm
  numPat := numPat_eq (h .pattern)

/-! ### Every step -/

/-- What a step does to the vectors, if it is not a `Subscribe` in general mode. -/
theorem apply_refines {r : PubSubThread} {op : Op} (hr : ∀ k n, (r.subscribers k n).Nodup)
    (hn : op.Named) (hg : ¬op.General) :
    ∃ r', apply r op = some r' ∧ (∀ k n, (r'.subscribers k n).Nodup) ∧
      held r' = (held r).step op := by
  cases op with
  | subscribe conn names pattern =>
    have hp : pattern = true := by simpa [Op.General] using hg
    subst hp
    refine ⟨_, rfl, fun k n => ?_, ?_⟩
    · rw [subscribers_subscribe]
      split_ifs
      · exact nodup_addConn (hr k n)
      · exact hr k n
    · funext k
      ext ⟨n, c⟩
      show c ∈ (r.subscribe conn names true).1.subscribers k n ↔ _
      rw [subscribers_subscribe]
      cases k with
      | channel => simp [Rel.step, held, Kind.ofFlag]
      | pattern =>
        by_cases hm : n ∈ names <;> simp [Rel.step, held, Kind.ofFlag, pairs, hm, mem_addConn]
  | unSubscribe conn names pattern =>
    obtain ⟨res, hres, hs⟩ := subscribers_unSubscribe conn hn pattern r
    refine ⟨res.1, by rw [apply, hres]; rfl, fun k n => ?_, ?_⟩
    · rw [hs]
      split_ifs
      · exact (hr k n).filter _
      · exact hr k n
    · funext k
      ext ⟨n, c⟩
      show c ∈ res.1.subscribers k n ↔ _
      rw [hs]
      by_cases hk : k = .ofFlag pattern
      · subst hk
        by_cases hm : n ∈ names <;> simp [Rel.step, held, pairs, hm]
      · simp [Rel.step, held, hk]
  | moveConnOut conn =>
    obtain ⟨r', hr', -, hs⟩ := PubSubThread.moveConnOut_owned conn r
    refine ⟨r', hr', fun k n => ?_, ?_⟩
    · rw [hs]; exact (hr k n).erase _
    · funext k
      ext ⟨n, c⟩
      show c ∈ r'.subscribers k n ↔ _
      rw [hs, (hr k n).mem_erase_iff]
      simp [Rel.step, held, and_comm]

/-- No step puts a connection under a channel name. -/
theorem channel_empty {r r' : PubSubThread} {op : Op} (hn : op.Named)
    (h : ∀ n, r.subscribers .channel n = []) (ha : apply r op = some r') (n : Bytes) :
    r'.subscribers .channel n = [] := by
  cases op with
  | subscribe conn names pattern =>
    obtain rfl := Option.some.inj ha
    rw [subscribers_subscribe, if_neg (by simp), h]
  | unSubscribe conn names pattern =>
    obtain ⟨res, hres, hs⟩ := subscribers_unSubscribe conn hn pattern r
    rw [apply, hres] at ha
    obtain rfl := Option.some.inj ha
    rw [hs, h]; simp
  | moveConnOut conn =>
    obtain ⟨r₁, hr₁, -, hs⟩ := PubSubThread.moveConnOut_owned conn r
    rw [apply, hr₁] at ha
    obtain rfl := Option.some.inj ha
    rw [hs, h]; rfl

/-! ### Every run -/

/-- The registry and the relations, side by side. -/
def Sim (r : Option PubSubThread) (s : Rel) : Prop :=
  ∃ r', r = some r' ∧ (∀ k n, (r'.subscribers k n).Nodup) ∧ held r' = s

theorem sim_step {r : Option PubSubThread} {s : Rel} {op : Op} (h : Sim r s)
    (hop : op.Named ∧ ¬op.General) : Sim (step r op) (s.step op) := by
  obtain ⟨r, rfl, hd, rfl⟩ := h
  obtain ⟨r', ha, hd', hs⟩ := apply_refines hd hop.1 hop.2
  exact ⟨r', ha, hd', hs⟩

theorem sim_empty : Sim (some {}) fun _ => ∅ := by
  have h : ∀ k n, ({} : PubSubThread).subscribers k n = [] := by
    intro k n; cases k <;> exact Std.ExtTreeMap.getD_empty
  refine ⟨{}, rfl, fun k n => by rw [h]; exact List.nodup_nil, funext fun k => ?_⟩
  ext p
  simp [held, h]

theorem refines_of_sim {r : Option PubSubThread} {s : Rel} (h : Sim r s) :
    ∃ r', r = some r' ∧ Refines r' s := by
  obtain ⟨r', rfl, hd, rfl⟩ := h
  exact ⟨r', rfl, refines_held hd⟩

/-- Nothing is ever under a channel name. -/
theorem run_channel_empty {ops : List Op} (hn : ∀ op ∈ ops, op.Named) {r : PubSubThread}
    (h : run step (some {}) ops = some r) (n : Bytes) : r.subscribers .channel n = [] := by
  have hg : Guarded step (fun _ => Op.Named) (some {}) ops := guarded_of_forall hn
  have hinv := run_inv (fun r => ∀ r', r = some r' → ∀ n, r'.subscribers .channel n = [])
    (fun r op h hop r' hr' => by
      obtain ⟨r₁, rfl, ha⟩ := Option.bind_eq_some_iff.mp hr'
      exact channel_empty hop (h r₁ rfl) ha)
    (fun r' hr' n => Option.some.inj hr' ▸ Std.ExtTreeMap.getD_empty) hg
  exact hinv r h n

/-- A `Subscribe` in general mode is lost. -/
theorem not_refines_of_general {ops : List Op} {conn : PinkConn} {name : Bytes}
    {names : List Bytes} (hn : ∀ op ∈ ops, op.Named) :
    ¬∃ r, run step (some {}) (ops ++ [.subscribe conn (name :: names) false]) = some r ∧
      Refines r (run Rel.step (fun _ => ∅) (ops ++ [.subscribe conn (name :: names) false])) := by
  rintro ⟨r, hr, href⟩
  have hnamed : ∀ op ∈ ops ++ [.subscribe conn (name :: names) false], op.Named := by
    intro op hop
    rcases List.mem_append.mp hop with hop | hop
    · exact hn op hop
    · obtain rfl := List.mem_singleton.mp hop
      exact List.cons_ne_nil _ _
  have hmem : (name, conn) ∈ held r .channel := by
    rw [href.held, run, List.foldl_append]
    simp [Rel.step, Kind.ofFlag, pairs]
  have : conn ∈ r.subscribers .channel name := hmem
  rw [run_channel_empty hnamed hr] at this
  exact List.not_mem_nil this

/-- **A run refines the run of the relations if and only if it has no `Subscribe` in general
mode.** -/
theorem runRefines_iff {ops : List Op} (hn : ∀ op ∈ ops, op.Named) :
    RunRefines ops ↔ ∀ op ∈ ops, ¬op.General := by
  constructor
  · intro h op hop hg
    obtain ⟨as, bs, rfl⟩ := List.append_of_mem hop
    cases op with
    | subscribe conn names pattern =>
      obtain rfl : pattern = false := hg
      rcases names with _ | ⟨name, names⟩
      · exact absurd rfl (hn _ hop)
      · have hp : as ++ [.subscribe conn (name :: names) false] <+:
            as ++ .subscribe conn (name :: names) false :: bs := ⟨bs, by simp⟩
        exact not_refines_of_general (fun op hop => hn op (List.mem_append_left _ hop)) (h _ hp)
    | unSubscribe _ _ _ => exact hg
    | moveConnOut _ => exact hg
  · rintro h p ⟨q, rfl⟩
    refine refines_of_sim (run_sim (fun _ _ _ => sim_step) sim_empty (guarded_of_forall ?_))
    intro op hop
    exact ⟨hn op (List.mem_append_left _ hop), h op (List.mem_append_left _ hop)⟩

/-- Two connections, a shared pattern, and the removal of one of them. -/
theorem runRefines_patterns : RunRefines
    [.subscribe ⟨1, 7, []⟩ [bytes "a*", bytes "b*"] true, .subscribe ⟨2, 8, []⟩ [bytes "a*"] true,
      .unSubscribe ⟨1, 7, []⟩ [bytes "b*"] true, .moveConnOut ⟨2, 8, []⟩] :=
  (runRefines_iff (by decide)).mpr (by decide)

/-- One client subscribes to one channel. -/
theorem not_runRefines_channel :
    ¬RunRefines [.subscribe ⟨1, 7, []⟩ [bytes "news"] false] := by
  intro h
  have hn : ∀ op ∈ ([] : List Op), op.Named := by simp
  exact not_refines_of_general hn (h _ List.prefix_rfl)

end Pink.PubSub.Relation
