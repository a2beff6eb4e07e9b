import Pink.PubSub.Relation

/-! # What `UnSubscribe` reports

`UnSubscribe` tells its caller which names the connection has left and how many it is still under,
channels and patterns together. Without names it computes the report on one of the two maps and
leaves the removal to `MoveConnOut`, which takes the connection out of both: the other kind is left
alone exactly if the connection has nothing there (`leaves_iff`). With names it counts down in a local
variable, which is right at every step, but for a name that is not in the map it reports 0: the counts
are true exactly if nothing is left to the connection at every such name (`counts_iff`). -/

namespace Pink.PubSub.Leaving

open Pink.Redis.Wire Pink.PubSub.Registry Pink.PubSub.Relation

/-! ### The names of a connection -/

/-- The names of a map that a connection is under, in the order of the map. -/
def namesOf (m : Subs) (conn : PinkConn) : List Bytes :=
  (m.toList.filter fun p => conn ∈ p.2).map Prod.fst

theorem mem_namesOf {m : Subs} {conn : PinkConn} {n : Bytes} :
    n ∈ namesOf m conn ↔ conn ∈ m.getD n [] := by
  simp only [namesOf, List.mem_map, List.mem_filter, Std.ExtTreeMap.getD_eq_getD_getElem?]
  constructor
  · rintro ⟨⟨n, vec⟩, ⟨hv, hc⟩, rfl⟩
    rw [Std.ExtTreeMap.mem_toList_iff_getElem?_eq_some.mp hv]
    exact of_decide_eq_true hc
  · intro h
    rcases hm : m[n]? with _ | vec
    · simp [hm] at h
    · rw [hm] at h
      have hv := Std.ExtTreeMap.mem_toList_iff_getElem?_eq_some.mpr hm
      exact ⟨(n, vec), ⟨hv, decide_eq_true h⟩, rfl⟩

theorem nodup_namesOf (m : Subs) (conn : PinkConn) : (namesOf m conn).Nodup := by
  have hkeys : (m.toList.map Prod.fst).Nodup := by
    rw [Std.ExtTreeMap.map_fst_toList_eq_keys]
    exact Std.ExtTreeMap.nodup_keys
  exact hkeys.sublist (List.filter_sublist.map _)

theorem length_namesOf (m : Subs) (conn : PinkConn) :
    (namesOf m conn).length = PubSubThread.nameCount m conn := by
  rw [namesOf, List.length_map, PubSubThread.nameCount, List.countP_eq_length_filter]

theorem clientChannelSize_eq (r : PubSubThread) (conn : PinkConn) :
    r.clientChannelSize conn =
      (namesOf (r.subs .channel) conn).length + (namesOf (r.subs .pattern) conn).length := by
  rw [length_namesOf, length_namesOf]
  rfl

/-- Two maps under the same names of which a connection is count it alike. -/
theorem length_namesOf_congr {m m' : Subs} {conn : PinkConn}
    (h : ∀ n, conn ∈ m'.getD n [] ↔ conn ∈ m.getD n []) :
    (namesOf m' conn).length = (namesOf m conn).length := by
  refine List.Perm.length_eq ((List.perm_ext_iff_of_nodup ?_ ?_).mpr fun n => ?_)
  · exact nodup_namesOf m' conn
  · exact nodup_namesOf m conn
  · rw [mem_namesOf, mem_namesOf, h]

/-- A connection that has left one name is counted once less. -/
theorem length_namesOf_leave {m m' : Subs} {conn : PinkConn} {name : Bytes}
    (hin : conn ∈ m.getD name [])
    (h : ∀ n, conn ∈ m'.getD n [] ↔ n ≠ name ∧ conn ∈ m.getD n []) :
    (namesOf m' conn).length + 1 = (namesOf m conn).length := by
  have hperm : (namesOf m' conn).Perm ((namesOf m conn).erase name) := by
    refine (List.perm_ext_iff_of_nodup ?_ ?_).mpr fun n => ?_
    · exact nodup_namesOf m' conn
    · exact (nodup_namesOf m conn).erase name
    · rw [(nodup_namesOf m conn).mem_erase_iff, mem_namesOf, mem_namesOf, h]
  rw [hperm.length_eq]
  exact List.length_erase_add_one (mem_namesOf.mpr hin)

/-- What a connection is counted after it may have left a name. -/
theorem clientChannelSize_leave {r r' : PubSubThread} {conn : PinkConn} {k : Kind} {name : Bytes}
    (h : ∀ k' n, conn ∈ r'.subscribers k' n ↔ ¬(k' = k ∧ n = name) ∧ conn ∈ r.subscribers k' n) :
    r'.clientChannelSize conn =
      if conn ∈ r.subscribers k name then r.clientChannelSize conn - 1
      else r.clientChannelSize conn := by
  have hother : ∀ k' ≠ k,
      (namesOf (r'.subs k') conn).length = (namesOf (r.subs k') conn).length := by
    intro k' hk
    refine length_namesOf_congr fun n => ?_
    exact (h k' n).trans (and_iff_right fun he => hk he.1)
  have hown : (namesOf (r.subs k) conn).length = (namesOf (r'.subs k) conn).length +
      if conn ∈ r.subscribers k name then 1 else 0 := by
    split_ifs with hin
    · refine (length_namesOf_leave hin fun n => ?_).symm
      exact (h k n).trans (and_congr_left fun _ => by simp)
    · refine (length_namesOf_congr fun n => ?_).symm
      refine (h k n).trans (and_iff_right_of_imp fun hmem he => hin ?_)
      rw [← he.2]
      exact hmem
  rw [clientChannelSize_eq, clientChannelSize_eq]
  cases k with
  | channel =>
    rw [hother .pattern (by decide)]
    split_ifs at hown ⊢ <;> omega
  | pattern =>
    rw [hother .channel (by decide)]
    split_ifs at hown ⊢ <;> omega

/-! ### Without names -/

/-- **The connection leaves one kind**: it is taken from all its names of that kind and from no other,
every name is reported with the count left at that point, and only if nothing is left does the thread
give the connection away. -/
structure Leaves (r : PubSubThread) (conn : PinkConn) (k : Kind) (r' : PubSubThread)
    (result : PubSubThread.Result) (n : ℤ) : Prop where
  removed : ∀ name, r'.subscribers k name = (r.subscribers k name).filter (· ≠ conn)
  other : ∀ k' ≠ k, ∀ name, r'.subscribers k' name = r.subscribers k' name
  reported : result = (namesOf (r.subs k) conn).zipIdx.map fun p =>
    (p.1, r.clientChannelSize conn - (p.2 + 1))
  kept : r'.clientChannelSize conn ≠ 0 → r'.conns = r.conns ∧ r'.epoll = r.epoll
  returned : n = r'.clientChannelSize conn

theorem reportAll_eq (conn : PinkConn) (n : ℤ) (ps : List (Bytes × List PinkConn)) (i : ℕ) :
    PubSubThread.reportAll conn (n - i) ps =
      (((ps.filter fun p => conn ∈ p.2).map Prod.fst).zipIdx i).map fun p =>
        (p.1, n - (p.2 + 1)) := by
  induction ps generalizing i with
  | nil => rfl
  | cons p ps ih =>
    obtain ⟨name, vec⟩ := p
    have hnext : n - i - 1 = n - (i + 1 : ℕ) := by
      push_cast
      ring
    rw [PubSubThread.reportAll]
    by_cases hmem : conn ∈ vec
    · rw [if_pos hmem, List.filter_cons_of_pos (by exact decide_eq_true hmem), hnext, ih]
      simp [List.zipIdx_cons]
    · rw [if_neg hmem, List.filter_cons_of_neg (by simpa using hmem), ih]

theorem clientChannelSize_eq_zero_iff {r : PubSubThread} {conn : PinkConn} :
    r.clientChannelSize conn = 0 ↔ ∀ k name, conn ∉ r.subscribers k name := by
  refine ⟨not_mem_of_clientChannelSize, fun h => ?_⟩
  have hnil : ∀ k, namesOf (r.subs k) conn = [] := by
    intro k
    refine List.eq_nil_iff_forall_not_mem.mpr fun name hmem => ?_
    exact h k name (mem_namesOf.mp hmem)
  rw [clientChannelSize_eq, hnil, hnil]
  rfl

theorem filter_eq_erase_iff {vec : List PinkConn} {conn : PinkConn} :
    vec.erase conn = vec.filter (· ≠ conn) ↔ vec.count conn ≤ 1 := by
  constructor
  · intro h
    have hcount := List.count_erase_self (a := conn) (l := vec)
    have hzero : (vec.filter (· ≠ conn)).count conn = 0 := by
      refine List.count_eq_zero.mpr fun hmem => ?_
      simp at hmem
    rw [h, hzero] at hcount
    omega
  · intro h
    by_cases hmem : conn ∈ vec
    · obtain ⟨as, bs, rfl, has⟩ := List.eq_append_cons_of_mem hmem
      have hbs : conn ∉ bs := by
        intro hb
        have hpos := List.count_pos_iff.mpr hb
        rw [List.count_append, List.count_cons_self] at h
        omega
      have hself : ∀ {l : List PinkConn}, conn ∉ l → l.filter (· ≠ conn) = l := by
        intro l hl
        refine List.filter_eq_self.mpr fun c hc => ?_
        simpa using fun he : c = conn => hl (he ▸ hc)
      rw [List.erase_append_right _ has, List.erase_cons_head, List.filter_append,
        List.filter_cons_of_neg (by simp), hself has, hself hbs]
    · rw [List.erase_of_not_mem hmem, List.filter_eq_self.mpr]
      intro c hc
      simpa using fun he : c = conn => hmem (he ▸ hc)

/-- What `UnSubscribe` without names does: its report is about one kind, and the connection is erased
everywhere. -/
theorem unSubscribe_nil (r : PubSubThread) (conn : PinkConn) (pattern : Bool) :
    ∃ r', r.unSubscribe conn [] pattern = some (r',
        (namesOf (r.subs (.ofFlag pattern)) conn).zipIdx.map fun p =>
          (p.1, r.clientChannelSize conn - (p.2 + 1)), 0) ∧
      ∀ k name, r'.subscribers k name = (r.subscribers k name).erase conn := by
  have hreport := reportAll_eq conn (r.clientChannelSize conn) (r.subs (.ofFlag pattern)).toList 0
  rw [Nat.cast_zero, sub_zero] at hreport
  unfold PubSubThread.unSubscribe
  rw [if_pos rfl]
  dsimp only
  rw [hreport]
  by_cases hzero : r.clientChannelSize conn = 0
  · refine ⟨r, by rw [if_neg (not_not.mpr hzero)]; rfl, fun k name => ?_⟩
    exact (List.erase_of_not_mem (not_mem_of_clientChannelSize hzero k name)).symm
  · obtain ⟨r', hr', -, hs⟩ := PubSubThread.moveConnOut_owned conn r
    exact ⟨r', by rw [if_pos hzero, hr']; rfl, hs⟩

/-- **`UnSubscribe` without names leaves one kind exactly if the connection has nothing of the other
kind** and no vector holds it twice. -/
theorem leaves_iff (r : PubSubThread) (conn : PinkConn) (pattern : Bool) :
    ∃ r' result n, r.unSubscribe conn [] pattern = some (r', result, n) ∧
      (Leaves r conn (.ofFlag pattern) r' result n ↔
        (∀ k ≠ Kind.ofFlag pattern, ∀ name, conn ∉ r.subscribers k name) ∧
          ∀ name, (r.subscribers (.ofFlag pattern) name).count conn ≤ 1) := by
  obtain ⟨r', hr', hs⟩ := unSubscribe_nil r conn pattern
  refine ⟨r', _, 0, hr', ?_⟩
  constructor
  · intro h
    refine ⟨fun k hk name hmem => ?_, fun name => filter_eq_erase_iff.mp ?_⟩
    · have hlen := congrArg List.length ((hs k name).symm.trans (h.other k hk name))
      have herase := List.length_erase_add_one hmem
      omega
    · exact (hs _ name).symm.trans (h.removed name)
  · rintro ⟨hother, honce⟩
    have hremoved : ∀ name, r'.subscribers (.ofFlag pattern) name =
        (r.subscribers (.ofFlag pattern) name).filter (· ≠ conn) :=
      fun name => (hs _ name).trans (filter_eq_erase_iff.mpr (honce name))
    have hother' : ∀ k ≠ Kind.ofFlag pattern, ∀ name,
        r'.subscribers k name = r.subscribers k name :=
      fun k hk name => (hs k name).trans (List.erase_of_not_mem (hother k hk name))
    have hnone : r'.clientChannelSize conn = 0 := by
      refine clientChannelSize_eq_zero_iff.mpr fun k name => ?_
      by_cases hk : k = .ofFlag pattern
      · rw [hk, hremoved]
        simp
      · rw [hother' k hk]
        exact hother k hk name
    exact ⟨hremoved, hother', rfl, fun hne => absurd hnone hne, hnone.symm⟩

/-- A client with a pattern that unsubscribes from its channels loses the pattern. -/
theorem channels_take_patterns :
    ∃ r' result n, ((PubSubThread.subscribe ⟨1, 7, []⟩ [bytes "a*"] true {}).1).unSubscribe
        ⟨1, 7, []⟩ [] false = some (r', result, n) ∧
      ¬Leaves (PubSubThread.subscribe ⟨1, 7, []⟩ [bytes "a*"] true {}).1 ⟨1, 7, []⟩ .channel
        r' result n := by
  generalize hr : (PubSubThread.subscribe ⟨1, 7, []⟩ [bytes "a*"] true {}).1 = r
  have hmem : r.subscribers .pattern (bytes "a*") = [⟨1, 7, []⟩] := by
    rw [← hr, subscribers_subscribe]
    rfl
  obtain ⟨r', hr', hs⟩ := unSubscribe_nil r ⟨1, 7, []⟩ false
  refine ⟨r', _, 0, hr', fun h => ?_⟩
  have hkept := h.other .pattern (by decide) (bytes "a*")
  rw [hs, hmem, List.erase_cons_head] at hkept
  cases hkept

/-! ### With names -/

section Named

variable (r : PubSubThread) (conn : PinkConn) (pattern : Bool)

/-- The loop of `UnSubscribe` after some names. -/
def processed (names : List Bytes) : PubSubThread × ℤ × PubSubThread.Result :=
  names.foldl (PubSubThread.unSubscribeTurn conn pattern) (r, r.clientChannelSize conn, [])

/-- The number of names that the connection is under after the loop has processed some names. -/
def sizeAfter (names : List Bytes) : ℤ := (processed r conn pattern names).1.clientChannelSize conn

/-- **The counts are true**: every name is reported with the number of names that the connection is
under after it, the numbers do not grow, and the last one is returned. -/
structure TrueCounts (names : List Bytes) (result : PubSubThread.Result) (n : ℤ) : Prop where
  counts : result = names.zipIdx.map fun p =>
    (p.1, sizeAfter r conn pattern (names.take (p.2 + 1)))
  falling : (result.map Prod.snd).Pairwise (· ≥ ·)
  last : (result.map Prod.snd).getLast? = some n

/-- At a name that is not in the map, nothing is left to the connection: it has nothing of the other
kind, and all its names stand before. -/
def NothingLeft (names : List Bytes) : Prop :=
  ∀ pre name post, names = pre ++ name :: post → name ∉ r.subs (.ofFlag pattern) →
    ∀ k n, conn ∈ r.subscribers k n → k = .ofFlag pattern ∧ n ∈ pre

variable {r conn pattern}

theorem processed_snoc (names : List Bytes) (name : Bytes) :
    processed r conn pattern (names ++ [name]) =
      PubSubThread.unSubscribeTurn conn pattern (processed r conn pattern names) name := by
  rw [processed, List.foldl_append]
  rfl

/-- The local variable is right at every step, whatever is reported. -/
theorem unSubscribeTurn_size (st : PubSubThread × ℤ × PubSubThread.Result) (name : Bytes) :
    (PubSubThread.unSubscribeTurn conn pattern st name).1.clientChannelSize conn =
      if conn ∈ st.1.subscribers (.ofFlag pattern) name then st.1.clientChannelSize conn - 1
      else st.1.clientChannelSize conn := by
  refine clientChannelSize_leave fun k n => ?_
  rw [subscribers_unSubscribeTurn]
  split_ifs with hk
  · simp [hk]
  · simp [hk]

theorem unSubscribeTurn_known (st : PubSubThread × ℤ × PubSubThread.Result) (name n : Bytes) :
    n ∈ (PubSubThread.unSubscribeTurn conn pattern st name).1.subs (.ofFlag pattern) ↔
      n ∈ st.1.subs (.ofFlag pattern) := by
  unfold PubSubThread.unSubscribeTurn
  dsimp only
  split
  case _ vec hv =>
    split_ifs with hmem
    · have hin : name ∈ st.1.subs (.ofFlag pattern) :=
        Std.ExtTreeMap.mem_iff_isSome_getElem?.mpr (by rw [hv]; rfl)
      rw [PubSubThread.put, PubSubThread.subs_setSubs, if_pos rfl, Std.ExtTreeMap.mem_insert,
        Std.compare_eq_iff_eq]
      refine ⟨fun h => h.elim (fun he => he ▸ hin) id, .inr⟩
    · rfl
  case _ => rfl

/-- What is reported is the local variable after the turn, but 0 for a name that is not in the
map. -/
theorem unSubscribeTurn_reports (st : PubSubThread × ℤ × PubSubThread.Result) (name : Bytes)
    (hst : st.2.1 = st.1.clientChannelSize conn) :
    (PubSubThread.unSubscribeTurn conn pattern st name).2 =
      ((PubSubThread.unSubscribeTurn conn pattern st name).1.clientChannelSize conn,
        st.2.2 ++ [(name, if name ∈ st.1.subs (.ofFlag pattern) then
          (PubSubThread.unSubscribeTurn conn pattern st name).1.clientChannelSize conn else 0)]) := by
  have hsub : st.1.subscribers (.ofFlag pattern) name =
      ((st.1.subs (.ofFlag pattern))[name]?).getD [] := Std.ExtTreeMap.getD_eq_getD_getElem?
  rw [unSubscribeTurn_size, ← hst]
  unfold PubSubThread.unSubscribeTurn
  dsimp only
  split
  case _ vec hv =>
    have hin : name ∈ st.1.subs (.ofFlag pattern) :=
      Std.ExtTreeMap.mem_iff_isSome_getElem?.mpr (by rw [hv]; rfl)
    rw [hv, Option.getD_some] at hsub
    rw [if_pos hin, hsub]
    split_ifs <;> rfl
  case _ hv =>
    have hout : name ∉ st.1.subs (.ofFlag pattern) := by
      rw [Std.ExtTreeMap.mem_iff_isSome_getElem?, hv]
      simp
    rw [hv, Option.getD_none] at hsub
    rw [if_neg hout, hsub]
    rfl

/-- The loop after some names: the variable, the report and the names of the map. -/
theorem processed_eq (names : List Bytes) :
    (processed r conn pattern names).2 = (sizeAfter r conn pattern names,
        names.zipIdx.map fun p => (p.1, if p.1 ∈ r.subs (.ofFlag pattern) then
          sizeAfter r conn pattern (names.take (p.2 + 1)) else 0)) ∧
      ∀ n, n ∈ (processed r conn pattern names).1.subs (.ofFlag pattern) ↔
        n ∈ r.subs (.ofFlag pattern) := by
  induction names using List.reverseRecOn with
  | nil => exact ⟨rfl, fun n => Iff.rfl⟩
  | append_singleton names name ih =>
    obtain ⟨hst, hknown⟩ := ih
    have hsize : (processed r conn pattern names).2.1 =
        (processed r conn pattern names).1.clientChannelSize conn := by
      rw [hst]
      rfl
    refine ⟨?_, fun n => ?_⟩
    · have hreports := @unSubscribeTurn_reports conn pattern _ name hsize
      rw [← processed_snoc] at hreports
      rw [hreports, hst, List.zipIdx_append, List.map_append]
      refine Prod.ext rfl ?_
      dsimp only
      congr 1
      · refine List.map_congr_left fun p hp => ?_
        have hlt : p.2 < names.length := by
          have := List.snd_lt_of_mem_zipIdx hp
          omega
        rw [List.take_append_of_le_length hlt]
      · simp only [hknown]
        simp [List.take_of_length_le, sizeAfter]
    · rw [processed_snoc, unSubscribeTurn_known]
      exact hknown n

/-- Nothing is left exactly if all the names of the connection have been processed. -/
theorem sizeAfter_eq_zero_iff {names : List Bytes} :
    sizeAfter r conn pattern names = 0 ↔
      ∀ k n, conn ∈ r.subscribers k n → k = .ofFlag pattern ∧ n ∈ names := by
  rw [sizeAfter, clientChannelSize_eq_zero_iff]
  refine forall_congr' fun k => forall_congr' fun n => ?_
  rw [processed, subscribers_foldl_unSubscribeTurn]
  split_ifs with hk
  · simp [hk]
  · simp [hk]

theorem sizeAfter_snoc (names : List Bytes) (name : Bytes) :
    sizeAfter r conn pattern (names ++ [name]) ≤ sizeAfter r conn pattern names := by
  rw [sizeAfter, processed_snoc, unSubscribeTurn_size, sizeAfter]
  split_ifs <;> omega

/-- At a name that is not in the map nothing changes. -/
theorem sizeAfter_unknown {names : List Bytes} {name : Bytes}
    (h : name ∉ r.subs (.ofFlag pattern)) :
    sizeAfter r conn pattern (names ++ [name]) = sizeAfter r conn pattern names := by
  have hout : name ∉ (processed r conn pattern names).1.subs (.ofFlag pattern) :=
    fun hin => h ((processed_eq names).2 name |>.mp hin)
  have hnil : (processed r conn pattern names).1.subscribers (.ofFlag pattern) name = [] :=
    PubSubThread.subscribers_eq_nil fun hm => hout (Std.ExtTreeMap.mem_keys.mp hm)
  rw [sizeAfter, processed_snoc, unSubscribeTurn_size, hnil, if_neg (by simp), sizeAfter]

theorem sizeAfter_take (names : List Bytes) {i j : ℕ} (h : i ≤ j) :
    sizeAfter r conn pattern (names.take j) ≤ sizeAfter r conn pattern (names.take i) := by
  induction j, h using Nat.le_induction with
  | base => exact le_rfl
  | succ j _ ih =>
    rcases lt_or_ge j names.length with hj | hj
    · rw [List.take_add_one, List.getElem?_eq_getElem hj]
      exact (sizeAfter_snoc _ _).trans ih
    · rw [List.take_of_length_le hj] at ih
      rw [List.take_of_length_le (by omega)]
      exact ih

/-- If every report is the size, then the reports do not grow and the last one is what is left. -/
theorem trueCounts_of_counts {names : List Bytes} {result : PubSubThread.Result} (hne : names ≠ [])
    (h : result = names.zipIdx.map fun p =>
      (p.1, sizeAfter r conn pattern (names.take (p.2 + 1)))) :
    TrueCounts r conn pattern names result (sizeAfter r conn pattern names) := by
  have hsnd : result.map Prod.snd = (List.range' 0 names.length).map fun i =>
      sizeAfter r conn pattern (names.take (i + 1)) := by
    rw [h, List.map_map, ← List.zipIdx_map_snd 0 names, List.map_map]
    rfl
  refine ⟨h, ?_, ?_⟩
  · rw [hsnd, List.pairwise_map]
    have hrange : (List.range' 0 names.length).Pairwise (· < ·) := List.pairwise_lt_range'
    exact hrange.imp fun hlt => sizeAfter_take names (by omega)
  · have hpos := List.length_pos_iff.mpr hne
    rw [hsnd, List.getLast?_map, List.getLast?_range', if_neg (by omega), Option.map_some,
      List.take_of_length_le (by omega)]

end Named

/-- **The counts that `UnSubscribe` reports are true exactly if nothing is left to the connection at
every name that is not in the map.** -/
theorem counts_iff (r : PubSubThread) (conn : PinkConn) (pattern : Bool) (names : List Bytes)
    (hne : names ≠ []) :
    ∃ r' result n, r.unSubscribe conn names pattern = some (r', result, n) ∧
      (TrueCounts r conn pattern names result n ↔ NothingLeft r conn pattern names) := by
  obtain ⟨hprocessed, -⟩ := @processed_eq r conn pattern names
  obtain ⟨r', hr'⟩ : ∃ r', r.unSubscribe conn names pattern =
      some (r', (processed r conn pattern names).2.2, sizeAfter r conn pattern names) := by
    unfold PubSubThread.unSubscribe
    rw [if_neg hne]
    dsimp only
    rw [← processed]
    split_ifs
    · obtain ⟨r', hr', -⟩ := PubSubThread.moveConnOut_owned conn (processed r conn pattern names).1
      exact ⟨r', by rw [hr']; rfl⟩
    · exact ⟨_, rfl⟩
  refine ⟨r', _, _, hr', ?_⟩
  rw [hprocessed]
  dsimp only
  constructor
  · intro h pre name post hnames hunknown
    have hmem : (name, pre.length) ∈ names.zipIdx := by
      rw [List.mk_mem_zipIdx_iff_getElem?, hnames]
      simp
    have hcount := List.map_inj_left.mp h.counts _ hmem
    rw [if_neg hunknown] at hcount
    have htake : names.take (pre.length + 1) = pre ++ [name] := by
      rw [hnames, List.take_append]
      simp
    rw [htake, sizeAfter_unknown hunknown] at hcount
    exact sizeAfter_eq_zero_iff.mp (Prod.mk.inj hcount).2.symm
  · intro h
    refine trueCounts_of_counts hne (List.map_congr_left fun p hp => ?_)
    obtain ⟨name, i⟩ := p
    dsimp only
    split_ifs with hknown
    · rfl
    · have hi := List.mk_mem_zipIdx_iff_getElem?.mp hp
      obtain ⟨hlt, hget⟩ := List.getElem?_eq_some_iff.mp hi
      have hsplit : names = names.take i ++ name :: names.drop (i + 1) := by
        rw [← hget, ← List.drop_eq_getElem_cons hlt, List.take_append_drop]
      have hzero := sizeAfter_eq_zero_iff.mpr (h _ _ _ hsplit hknown)
      rw [List.take_add_one, hi, Option.toList_some, sizeAfter_unknown hknown, hzero]

/-- A client with one pattern unsubscribes from a pattern that nobody has, while it still has its
own: 0 is reported and 1 returned. -/
theorem unknown_reported_zero :
    ∃ r' result n, ((PubSubThread.subscribe ⟨1, 7, []⟩ [bytes "a*"] true {}).1).unSubscribe
        ⟨1, 7, []⟩ [bytes "b*"] true = some (r', result, n) ∧
      ¬TrueCounts (PubSubThread.subscribe ⟨1, 7, []⟩ [bytes "a*"] true {}).1 ⟨1, 7, []⟩ true
        [bytes "b*"] result n := by
  have hcall : (((PubSubThread.subscribe ⟨1, 7, []⟩ [bytes "a*"] true {}).1).unSubscribe
      ⟨1, 7, []⟩ [bytes "b*"] true).map Prod.snd = some ([(bytes "b*", 0)], 1) := by rfl
  obtain ⟨⟨r', result, n⟩, hr', hsnd⟩ := Option.map_eq_some_iff.mp hcall
  obtain ⟨rfl, rfl⟩ := Prod.mk.inj hsnd
  refine ⟨r', _, _, hr', fun h => ?_⟩
  have hlast := h.last
  simp at hlast

/-- The same client leaves its pattern first. -/
theorem counts_iff_known :
    ∃ r' result n, ((PubSubThread.subscribe ⟨1, 7, []⟩ [bytes "a*"] true {}).1).unSubscribe
        ⟨1, 7, []⟩ [bytes "a*", bytes "b*"] true = some (r', result, n) ∧
      (TrueCounts (PubSubThread.subscribe ⟨1, 7, []⟩ [bytes "a*"] true {}).1 ⟨1, 7, []⟩ true
        [bytes "a*", bytes "b*"] result n ↔
        NothingLeft (PubSubThread.subscribe ⟨1, 7, []⟩ [bytes "a*"] true {}).1 ⟨1, 7, []⟩ true
          [bytes "a*", bytes "b*"]) :=
  counts_iff _ ⟨1, 7, []⟩ true [bytes "a*", bytes "b*"] (by simp)

end Pink.PubSub.Leaving
