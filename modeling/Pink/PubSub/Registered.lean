import Pink.PubSub.Relation
import Pink.PubSub.Sections

/-! # A subscribed connection is a registered one

A connection under some name should be the one that `conns_` holds under its descriptor, and should
not be closed, whenever no call on it is in progress (`AllRegistered`).

`Subscribe` registers the connection in one section, or decides from an earlier count that it is
registered, and inserts it in later ones, so that it can put a connection under a name that was
moved out and closed meanwhile (`not_registered_of_overlap`). It is as it should be in every run in
which calls of different kinds on one connection do not overlap, no `Subscribe` starts on a closed
connection and no `SendReply` of a publish fails (`registered_of_apart`). -/

namespace Pink.PubSub.Registered

open Pink.Redis.Wire Pink.Lib.Runs Pink.PubSub.Registry Pink.PubSub.Sections
open Pink.PubSub.Relation (mem_addConn nodup_addConn subscribers_moveConnIn subscribers_subscribeTurn
  subscribers_unSubscribeTurn)

/-- `conns_` holds a connection under its descriptor. -/
def Holds (r : PubSubThread) (c : PinkConn) : Prop := r.conns[c.fd]?.map ConnHandle.conn = some c

/-- No call on a connection is in progress. -/
def Quiet (s : State) (c : PinkConn) : Prop := ∀ p ∈ s.calls, s.registry.deref p.2.ref ≠ some c

def AllRegistered (s : State) : Prop :=
  ∀ c k n, Quiet s c → c ∈ s.registry.subscribers k n → Holds s.registry c ∧ c ∉ s.closed

/-- The calls on one connection that are in progress are of one kind, no `Subscribe` starts on a
closed connection, and no `SendReply` of a publish fails. -/
def Apart (s : State) : Label → Prop
  | .subscribe _ conn _ _ => conn ∉ s.closed ∧
      ∀ p ∈ s.calls, s.registry.deref p.2.ref = some conn → p.2.action = .subscribe
  | .unSubscribe _ conn _ _ =>
      ∀ p ∈ s.calls, s.registry.deref p.2.ref = some conn → p.2.action = .unSubscribe
  | .close fd => ∀ h ∈ s.registry.conns[fd]?, Quiet s h.conn
  | .publishError .. => False
  | .accept _ | .updateConnReadyState .. | .advance _ => True

/-- The same for a run that may have met an undefined reference. -/
def ApartOption (s : Option State) (l : Label) : Prop := ∀ s' ∈ s, Apart s' l

instance (s : State) (c : PinkConn) : Decidable (Quiet s c) :=
  inferInstanceAs (Decidable (∀ p ∈ s.calls, _))

instance (s : State) (l : Label) : Decidable (Apart s l) := by
  cases l <;> unfold Apart <;> infer_instance

instance : ∀ (s : Option State) (l : Label), Decidable (ApartOption s l)
  | none, _ => .isTrue fun _ h => absurd h (by simp)
  | some s, l => decidable_of_iff (Apart s l) (by simp [ApartOption])

/-! ### What a section does to the registry -/

/-- The section may put the connection under a name. -/
def Inserts : Pc → Prop
  | .insertName .. => True
  | _ => False

/-- The section takes the connection out of `conns_`. -/
def Erases : Pc → Prop
  | .eraseConn .. => True
  | _ => False

/-- The section enters the connection into `conns_`. -/
def Enters : Pc → Prop
  | .moveConnIn .. => True
  | _ => False

/-- Where the connection is not, when a call is in front of a section. -/
def Outside : Pc → Kind → Prop
  | .removeChannel .., .pattern | .eraseConn .., _ | .closeFd _, _ => True
  | _, _ => False

/-- A section of a call on `c`. -/
structure Effect (pc : Pc) (c : PinkConn) (r r' : PubSubThread) : Prop where
  nodup : ∀ k n, (r'.subscribers k n).Nodup
  subs : ∀ k n, ∀ b ∈ r'.subscribers k n, b ∈ r.subscribers k n ∨ b = c ∧ Inserts pc
  conns : r'.conns = r.conns ∧ ¬Enters pc ∧ ¬Erases pc ∨
    Enters pc ∧ r'.conns = r.conns.insert c.fd { conn := c } ∨
    Erases pc ∧ r'.conns = r.conns.erase c.fd

theorem effect_same {pc : Pc} {c : PinkConn} {r : PubSubThread}
    (hd : ∀ k n, (r.subscribers k n).Nodup) (h1 : ¬Enters pc) (h2 : ¬Erases pc) :
    Effect pc c r r :=
  ⟨hd, fun _ _ _ hb => .inl hb, .inl ⟨rfl, h1, h2⟩⟩

theorem conns_subscribeTurn (conn : PinkConn) (pattern : Bool)
    (st : PubSubThread × ℤ × PubSubThread.Result) (name : Bytes) :
    (PubSubThread.subscribeTurn conn pattern st name).1.conns = st.1.conns := by
  cases pattern <;> rfl

theorem conns_unSubscribeTurn (conn : PinkConn) (pattern : Bool)
    (st : PubSubThread × ℤ × PubSubThread.Result) (name : Bytes) :
    (PubSubThread.unSubscribeTurn conn pattern st name).1.conns = st.1.conns := by
  obtain ⟨r, subscribed, result⟩ := st
  unfold PubSubThread.unSubscribeTurn
  dsimp only
  split
  · split_ifs
    · exact PubSubThread.conns_put ..
    · rfl
  · rfl

theorem effect_remove (pc : Pc) {c : PinkConn} {r r' : PubSubThread} {k : Kind}
    (hd : ∀ k n, (r.subscribers k n).Nodup) (h1 : ¬Enters pc) (h2 : ¬Erases pc)
    (hr : r.removeFrom (.owned c) k = some r') :
    Effect pc c r r' ∧ ∀ n, c ∉ r'.subscribers k n := by
  obtain ⟨r₁, hr₁, hc, -, hs⟩ := PubSubThread.removeFrom_owned k c r
  obtain rfl : r₁ = r' := Option.some.inj (hr₁.symm.trans hr)
  refine ⟨⟨fun k' n => ?_, fun k' n b hb => .inl ?_, .inl ⟨hc, h1, h2⟩⟩, fun n hn => ?_⟩
  · rw [hs]
    split_ifs
    · exact (hd k' n).erase _
    · exact hd k' n
  · rw [hs] at hb
    split_ifs at hb
    · exact List.mem_of_mem_erase hb
    · exact hb
  · rw [hs, if_pos rfl] at hn
    exact (hd k n).not_mem_erase hn

/-- **One section.** -/
theorem execute_effect {pc : Pc} {c : PinkConn} {r r' : PubSubThread} {next : Next}
    (hd : ∀ k n, (r.subscribers k n).Nodup) (hc : pc.ref = .owned c)
    (h : execute r pc = some (r', next)) : Effect pc c r r' := by
  cases pc with
  | sizeChannel use =>
    obtain ⟨rfl, -⟩ := Prod.mk.inj (Option.some.inj h)
    exact effect_same hd not_false not_false
  | sizePattern use subscribed =>
    obtain ⟨rfl, -⟩ := Prod.mk.inj (Option.some.inj h)
    exact effect_same hd not_false not_false
  | moveConnIn conn names pattern =>
    obtain ⟨rfl, -⟩ := Prod.mk.inj (Option.some.inj h)
    obtain rfl : conn = c := Ref.owned.inj hc
    refine ⟨fun k n => ?_, fun k n b hb => .inl ?_, .inr (.inl ⟨trivial, rfl⟩)⟩
    · rw [subscribers_moveConnIn]; exact hd k n
    · rwa [subscribers_moveConnIn] at hb
  | insertName conn pattern name names subscribed result =>
    rw [execute_insertName] at h
    obtain ⟨rfl, -⟩ := Prod.mk.inj (Option.some.inj h)
    obtain rfl : conn = c := Ref.owned.inj hc
    refine ⟨fun k n => ?_, fun k n b hb => ?_,
      .inl ⟨conns_subscribeTurn .., not_false, not_false⟩⟩
    · rw [subscribers_subscribeTurn]
      split_ifs
      · exact nodup_addConn (hd k n)
      · exact hd k n
    · rw [subscribers_subscribeTurn] at hb
      split_ifs at hb
      · exact (mem_addConn.mp hb).imp id fun he => ⟨he, trivial⟩
      · exact .inl hb
  | report conn pattern subscribed =>
    obtain ⟨rfl, -⟩ := Prod.mk.inj (Option.some.inj h)
    exact effect_same hd not_false not_false
  | eraseName conn pattern exist name names subscribed result =>
    rw [execute_eraseName] at h
    obtain ⟨rfl, -⟩ := Prod.mk.inj (Option.some.inj h)
    refine ⟨fun k n => ?_, fun k n b hb => .inl ?_,
      .inl ⟨conns_unSubscribeTurn .., not_false, not_false⟩⟩
    · rw [subscribers_unSubscribeTurn]
      split_ifs
      · exact (hd k n).filter _
      · exact hd k n
    · rw [subscribers_unSubscribeTurn] at hb
      split_ifs at hb
      · exact (List.mem_filter.mp hb).1
      · exact hb
  | removePattern ref after =>
    obtain rfl : ref = .owned c := hc
    obtain ⟨r₁, hr, he⟩ := Option.map_eq_some_iff.mp h
    obtain ⟨rfl, -⟩ := Prod.mk.inj he
    exact (effect_remove (.removePattern (.owned c) after) hd not_false not_false hr).1
  | removeChannel ref after =>
    obtain rfl : ref = .owned c := hc
    obtain ⟨r₁, hr, he⟩ := Option.map_eq_some_iff.mp h
    obtain ⟨rfl, -⟩ := Prod.mk.inj he
    exact (effect_remove (.removeChannel (.owned c) after) hd not_false not_false hr).1
  | eraseConn ref after =>
    obtain rfl : ref = .owned c := hc
    obtain ⟨rfl, -⟩ := Prod.mk.inj (Option.some.inj h)
    refine ⟨fun k n => ?_, fun k n b hb => .inl ?_, .inr (.inr ⟨trivial, rfl⟩)⟩
    · cases k
      · exact hd .channel n
      · exact hd .pattern n
    · cases k <;> exact hb
  | closeFd ref =>
    obtain rfl : ref = .owned c := hc
    obtain ⟨rfl, -⟩ := Prod.mk.inj (Option.some.inj h)
    exact effect_same hd not_false not_false

/-- How a call goes on, and what the section found out about the connection. -/
inductive Goes (r : PubSubThread) : Pc → Pc → Prop
  | counted {use : SizeFor} {n : ℤ} (hn : n = PubSubThread.nameCount r.pubsubChannel use.conn) :
    Goes r (.sizeChannel use) (.sizePattern use n)
  | unknown {conn : PinkConn} {names : List Bytes} {pattern : Bool} {n : ℤ} :
    Goes r (.sizePattern (.subscribe conn names pattern) n) (.moveConnIn conn names pattern)
  | known {conn : PinkConn} {names names' : List Bytes} {pattern : Bool} {n n' : ℤ} {name : Bytes}
      {result : PubSubThread.Result} (hn : n + PubSubThread.nameCount r.pubsubPattern conn ≠ 0) :
    Goes r (.sizePattern (.subscribe conn names pattern) n)
      (.insertName conn pattern name names' n' result)
  | all {conn : PinkConn} {names : List Bytes} {pattern : Bool} {n : ℤ} :
    Goes r (.sizePattern (.unSubscribe conn names pattern) n)
      (.report conn pattern (n + PubSubThread.nameCount r.pubsubPattern conn))
  | named {conn : PinkConn} {names names' : List Bytes} {pattern : Bool} {n n' : ℤ} {name : Bytes}
      {result : PubSubThread.Result} :
    Goes r (.sizePattern (.unSubscribe conn names pattern) n)
      (.eraseName conn pattern (n + PubSubThread.nameCount r.pubsubPattern conn ≠ 0) name names'
        n' result)
  | gone {conn : PinkConn} {result result' : PubSubThread.Result} {n : ℤ} :
    Goes r (.sizePattern (.left conn true result) n) (.removePattern (.owned conn) (.ret result'))
  | entered {conn : PinkConn} {names names' : List Bytes} {pattern : Bool} {n : ℤ} {name : Bytes}
      {result : PubSubThread.Result} :
    Goes r (.moveConnIn conn names pattern) (.insertName conn pattern name names' n result)
  | inserted {conn : PinkConn} {names names' : List Bytes} {pattern : Bool} {n n' : ℤ}
      {name name' : Bytes} {result result' : PubSubThread.Result} :
    Goes r (.insertName conn pattern name names n result)
      (.insertName conn pattern name' names' n' result')
  | reported {conn : PinkConn} {pattern : Bool} {n : ℤ} {result : PubSubThread.Result}
      (hn : n ≠ 0) : Goes r (.report conn pattern n) (.removePattern (.owned conn) (.ret result))
  | erased {conn : PinkConn} {names names' : List Bytes} {pattern exist : Bool} {n n' : ℤ}
      {name name' : Bytes} {result result' : PubSubThread.Result} :
    Goes r (.eraseName conn pattern exist name names n result)
      (.eraseName conn pattern exist name' names' n' result')
  | erasedAll {conn : PinkConn} {names : List Bytes} {pattern exist : Bool} {n : ℤ} {name : Bytes}
      {result result' : PubSubThread.Result} :
    Goes r (.eraseName conn pattern exist name names n result)
      (.sizeChannel (.left conn exist result'))
  | pattern {ref : Ref} {after : After} :
    Goes r (.removePattern ref after) (.removeChannel ref after)
  | channel {ref : Ref} {after : After} : Goes r (.removeChannel ref after) (.eraseConn ref after)
  | out {ref : Ref} : Goes r (.eraseConn ref .closeFd) (.closeFd ref)

theorem insertNames_goto {conn : PinkConn} {pattern : Bool} {names : List Bytes} {n : ℤ}
    {result : PubSubThread.Result} {pc : Pc} (h : insertNames conn pattern names n result = .goto pc) :
    ∃ name names' result', pc = .insertName conn pattern name names' n result' := by
  cases names with
  | nil => simp [insertNames] at h
  | cons name names => exact ⟨name, names, result, (Next.goto.inj h).symm⟩

theorem goes_of_execute {pc pc' : Pc} {r r' : PubSubThread}
    (h : execute r pc = some (r', .goto pc')) : Goes r pc pc' := by
  cases pc with
  | sizeChannel use =>
    obtain ⟨-, he⟩ := Prod.mk.inj (Option.some.inj h)
    obtain rfl := Next.goto.inj he
    exact .counted rfl
  | sizePattern use subscribed =>
    obtain ⟨-, he⟩ := Prod.mk.inj (Option.some.inj h)
    rcases use with ⟨conn, names, pattern⟩ | ⟨conn, _ | ⟨name, names⟩, pattern⟩ |
      ⟨conn, exist, result⟩
    · dsimp only [sized] at he
      split_ifs at he with h0
      · obtain rfl := Next.goto.inj he
        exact .unknown
      · obtain ⟨name, names', result, rfl⟩ := insertNames_goto he
        exact .known h0
    · obtain rfl := Next.goto.inj he
      exact .all
    · obtain rfl := Next.goto.inj he
      exact .named
    · dsimp only [sized] at he
      split_ifs at he with h0
      obtain rfl := Next.goto.inj he
      obtain rfl : exist = true := h0.2
      exact .gone
  | moveConnIn conn names pattern =>
    obtain ⟨-, he⟩ := Prod.mk.inj (Option.some.inj h)
    obtain ⟨name, names', result, rfl⟩ := insertNames_goto he
    exact .entered
  | insertName conn pattern name names subscribed result =>
    rw [execute_insertName] at h
    obtain ⟨-, he⟩ := Prod.mk.inj (Option.some.inj h)
    obtain ⟨name, names', result, rfl⟩ := insertNames_goto he
    exact .inserted
  | report conn pattern subscribed =>
    obtain ⟨-, he⟩ := Prod.mk.inj (Option.some.inj h)
    split_ifs at he with h0
    obtain rfl := Next.goto.inj he
    exact .reported h0
  | eraseName conn pattern exist name names subscribed result =>
    rw [execute_eraseName] at h
    obtain ⟨-, he⟩ := Prod.mk.inj (Option.some.inj h)
    cases names with
    | nil =>
      obtain rfl := Next.goto.inj he
      exact .erasedAll
    | cons name' names =>
      obtain rfl := Next.goto.inj he
      exact .erased
  | removePattern ref after =>
    obtain ⟨r₁, -, he⟩ := Option.map_eq_some_iff.mp h
    obtain rfl := Next.goto.inj (Prod.mk.inj he).2
    exact .pattern
  | removeChannel ref after =>
    obtain ⟨r₁, -, he⟩ := Option.map_eq_some_iff.mp h
    obtain rfl := Next.goto.inj (Prod.mk.inj he).2
    exact .channel
  | eraseConn ref after =>
    obtain ⟨r₁, -, he⟩ := Option.map_eq_some_iff.mp h
    cases after with
    | ret result => simp [After.next] at he
    | closeFd =>
      obtain rfl := Next.goto.inj (Prod.mk.inj he).2
      exact .out
  | closeFd ref =>
    obtain ⟨r₁, -, he⟩ := Option.map_eq_some_iff.mp h
    simp at he

/-- With a connection the caller owns every section goes through. -/
theorem execute_isSome {pc : Pc} {c : PinkConn} (hc : pc.ref = .owned c) (r : PubSubThread) :
    ∃ x, execute r pc = some x := by
  cases pc with
  | removePattern ref after =>
    obtain rfl : ref = .owned c := hc
    obtain ⟨r₁, hr, -⟩ := PubSubThread.removeFrom_owned .pattern c r
    exact ⟨_, by rw [execute, hr]; rfl⟩
  | removeChannel ref after =>
    obtain rfl : ref = .owned c := hc
    obtain ⟨r₁, hr, -⟩ := PubSubThread.removeFrom_owned .channel c r
    exact ⟨_, by rw [execute, hr]; rfl⟩
  | eraseConn ref after =>
    obtain rfl : ref = .owned c := hc
    exact ⟨_, rfl⟩
  | closeFd ref =>
    obtain rfl : ref = .owned c := hc
    exact ⟨_, rfl⟩
  | _ => exact ⟨_, rfl⟩

/-- A call keeps its connection and its kind. -/
theorem Goes.same {r : PubSubThread} {pc pc' : Pc} (h : Goes r pc pc') :
    pc'.ref = pc.ref ∧ pc'.action = pc.action := by
  cases h <;> exact ⟨rfl, rfl⟩

theorem insertNames_ne_close {conn c : PinkConn} {pattern : Bool} {names : List Bytes} {n : ℤ}
    {result : PubSubThread.Result} : insertNames conn pattern names n result ≠ .ret (.close c) := by
  cases names <;> simp [insertNames]

/-- A descriptor is closed by the last section of a closing call. -/
theorem execute_close {pc : Pc} {r r' : PubSubThread} {c conn : PinkConn}
    (hc : pc.ref = .owned c) (h : execute r pc = some (r', .ret (.close conn))) :
    conn = c ∧ pc = .closeFd (.owned c) := by
  cases pc with
  | sizeChannel use => simp [execute] at h
  | sizePattern use subscribed =>
    exfalso
    obtain ⟨-, he⟩ := Prod.mk.inj (Option.some.inj h)
    rcases use with ⟨conn, names, pattern⟩ | ⟨conn, _ | ⟨name, names⟩, pattern⟩ |
      ⟨conn, exist, result⟩
    · dsimp only [sized] at he
      split_ifs at he
      exact insertNames_ne_close he
    · simp [sized] at he
    · simp [sized, eraseNames] at he
    · dsimp only [sized] at he
      split_ifs at he
      simp at he
  | moveConnIn conn names pattern => simp [execute, insertNames_ne_close] at h
  | insertName conn pattern name names subscribed result =>
    simp [execute_insertName, insertNames_ne_close] at h
  | report conn pattern subscribed =>
    obtain ⟨-, he⟩ := Prod.mk.inj (Option.some.inj h)
    split_ifs at he
    simp at he
  | eraseName conn pattern exist name names subscribed result =>
    rw [execute_eraseName] at h
    cases names <;> simp [eraseNames] at h
  | removePattern ref after => simp [execute] at h
  | removeChannel ref after => simp [execute] at h
  | eraseConn ref after => cases after <;> simp [execute, After.next] at h
  | closeFd ref =>
    obtain rfl : ref = .owned c := hc
    obtain ⟨-, he⟩ := Prod.mk.inj (Option.some.inj h)
    exact ⟨(Returned.close.inj (Next.ret.inj he)).symm, rfl⟩

/-! ### The invariant -/

/-- The calls that need the descriptor to be open. -/
def NeedsOpen : Pc → Prop
  | .sizeChannel (.unSubscribe ..) => False
  | .sizeChannel (.left _ exist _) => exist
  | .sizePattern (.unSubscribe ..) n => n ≠ 0
  | .sizePattern (.left _ exist _) _ => exist
  | .report _ _ n => n ≠ 0
  | .eraseName _ _ exist .. => exist
  | _ => True

/-- The calls that need the connection to be registered. -/
def NeedsHolds : Pc → Prop
  | .sizePattern (.subscribe ..) n => n ≠ 0
  | .insertName .. => True
  | _ => False

/-- What a call on `c` can rely on. -/
structure CallOk (s : State) (c : PinkConn) (pc : Pc) : Prop where
  isOpen : NeedsOpen pc → s.IsOpen c
  holds : NeedsHolds pc → Holds s.registry c
  outside : ∀ k, Outside pc k → ∀ n, c ∉ s.registry.subscribers k n
  notHolds : pc = .closeFd (.owned c) → ¬Holds s.registry c

structure Inv (s : State) : Prop where
  nodup : ∀ k n, (s.registry.subscribers k n).Nodup
  subs : ∀ k n, ∀ c ∈ s.registry.subscribers k n, Holds s.registry c
  conns : ∀ fd (h : ConnHandle), s.registry.conns[fd]? = some h → h.conn.fd = fd ∧ s.IsOpen h.conn
  fds : ∀ c c', s.IsOpen c → s.IsOpen c' → c.fd = c'.fd → c = c'
  calls : ∀ p ∈ s.calls, ∃ c, p.2.ref = .owned c ∧ CallOk s c p.2
  apart : ∀ p ∈ s.calls, ∀ q ∈ s.calls, p.1 ≠ q.1 → p.2.ref = q.2.ref →
    p.2.action = q.2.action ∧ p.2.action ≠ .close

theorem Inv.isOpen_of_holds {s : State} {c : PinkConn} (hi : Inv s) (h : Holds s.registry c) :
    s.IsOpen c := by
  obtain ⟨h', hh, rfl⟩ := Option.map_eq_some_iff.mp h
  exact (hi.conns _ _ hh).2

theorem allRegistered_of_inv {s : State} (hi : Inv s) : AllRegistered s := by
  intro c k n _ hc
  have h := hi.subs k n c hc
  exact ⟨h, (hi.isOpen_of_holds h).2⟩

/-! ### The kinds of calls -/

section Kinds
variable {pc : Pc} {k : Kind} {c : PinkConn}

theorem Inserts.action (h : Inserts pc) : pc.action = .subscribe := by
  cases pc <;> first | rfl | exact h.elim

theorem Enters.action (h : Enters pc) : pc.action = .subscribe := by
  cases pc <;> first | rfl | exact h.elim

theorem Erases.action (h : Erases pc) : pc.action ≠ .subscribe := by
  cases pc with
  | eraseConn ref after => cases after <;> simp [Pc.action, After.action]
  | _ => exact h.elim

theorem Outside.action (h : Outside pc k) : pc.action ≠ .subscribe := by
  cases pc with
  | removeChannel ref after => cases after <;> simp [Pc.action, After.action]
  | eraseConn ref after => cases after <;> simp [Pc.action, After.action]
  | closeFd ref => simp [Pc.action]
  | _ => exact h.elim

theorem NeedsHolds.action (h : NeedsHolds pc) : pc.action = .subscribe := by
  cases pc with
  | sizePattern use n =>
    cases use with
    | subscribe conn names pattern => rfl
    | _ => exact h.elim
  | insertName => rfl
  | _ => exact h.elim

theorem Erases.outside (h : Erases pc) : Outside pc k := by
  cases pc with
  | eraseConn ref after => cases k <;> exact trivial
  | _ => exact h.elim

theorem Inserts.needsHolds (h : Inserts pc) : NeedsHolds pc := by
  cases pc <;> first | exact trivial | exact h.elim

theorem Enters.needsOpen (h : Enters pc) : NeedsOpen pc := by
  cases pc <;> first | exact trivial | exact h.elim

theorem Erases.needsOpen (h : Erases pc) : NeedsOpen pc := by
  cases pc <;> first | exact trivial | exact h.elim

end Kinds

/-! ### One section keeps the invariant -/

section Advance
variable {s : State} {pc : Pc} {c : PinkConn} {r' : PubSubThread}

theorem holds_of_conns {r r' : PubSubThread} {b : PinkConn}
    (h : r'.conns[b.fd]? = r.conns[b.fd]?) : Holds r' b ↔ Holds r b := by
  unfold Holds; rw [h]

/-- Other connections are not touched: their descriptors are other ones. -/
theorem holds_other (hi : Inv s) (hok : CallOk s c pc) (he : Effect pc c s.registry r')
    {b : PinkConn} (hb : b ≠ c) : Holds r' b ↔ Holds s.registry b := by
  rcases he.conns with ⟨hr, -, -⟩ | ⟨hpc, hr⟩ | ⟨hpc, hr⟩
  · exact holds_of_conns (by rw [hr])
  · by_cases hfd : c.fd = b.fd
    · constructor
      · intro h
        unfold Holds at h
        rw [hr, hfd, Std.ExtTreeMap.getElem?_insert_self] at h
        exact absurd (Option.some.inj h).symm hb
      · intro h
        exact absurd (hi.fds _ _ (hi.isOpen_of_holds h) (hok.isOpen hpc.needsOpen) hfd.symm) hb
    · exact holds_of_conns (by simp [hr, Std.ExtTreeMap.getElem?_insert, hfd])
  · by_cases hfd : c.fd = b.fd
    · constructor
      · intro h
        unfold Holds at h
        rw [hr, hfd, Std.ExtTreeMap.getElem?_erase_self] at h
        exact absurd h (by simp)
      · intro h
        exact absurd (hi.fds _ _ (hi.isOpen_of_holds h) (hok.isOpen hpc.needsOpen) hfd.symm) hb
    · exact holds_of_conns (by simp [hr, Std.ExtTreeMap.getElem?_erase, hfd])

theorem holds_entered (he : Effect pc c s.registry r') (hpc : Enters pc) : Holds r' c := by
  rcases he.conns with ⟨-, h1, -⟩ | ⟨-, hr⟩ | ⟨h2, -⟩
  · exact absurd hpc h1
  · unfold Holds
    rw [hr, Std.ExtTreeMap.getElem?_insert_self]
    rfl
  · exact absurd hpc.action h2.action

theorem not_holds_erased (he : Effect pc c s.registry r') (hpc : Erases pc) : ¬Holds r' c := by
  rcases he.conns with ⟨-, -, h1⟩ | ⟨h2, -⟩ | ⟨-, hr⟩
  · exact absurd hpc h1
  · exact absurd h2.action hpc.action
  · unfold Holds
    rw [hr, Std.ExtTreeMap.getElem?_erase_self]
    simp

/-- A `Subscribe` does not take its own connection out. -/
theorem holds_subscribe (he : Effect pc c s.registry r') (ha : pc.action = .subscribe)
    (h : Holds s.registry c) : Holds r' c := by
  rcases he.conns with ⟨hr, -, -⟩ | ⟨hpc, -⟩ | ⟨hpc, -⟩
  · exact (holds_of_conns (by rw [hr])).mpr h
  · exact holds_entered he hpc
  · exact absurd ha hpc.action

theorem subs_keep (hi : Inv s) (hok : CallOk s c pc) (he : Effect pc c s.registry r') (k : Kind)
    (n : Bytes) (b : PinkConn) (hb : b ∈ r'.subscribers k n) : Holds r' b := by
  rcases he.subs k n b hb with hb | ⟨rfl, hpc⟩
  · have hold := hi.subs k n b hb
    by_cases hbc : b = c
    · subst hbc
      rcases he.conns with ⟨hr, -, -⟩ | ⟨hpc, -⟩ | ⟨hpc, -⟩
      · exact (holds_of_conns (by rw [hr])).mpr hold
      · exact holds_entered he hpc
      · exact absurd hb (hok.outside k hpc.outside n)
    · exact (holds_other hi hok he hbc).mpr hold
  · exact holds_subscribe he hpc.action (hok.holds hpc.needsHolds)

/-- What a section leaves of the state: the closed connections are more by the connection of the
last section of a closing call. -/
structure Settled (s s' : State) (pc : Pc) (c : PinkConn) (r' : PubSubThread) : Prop where
  registry : s'.registry = r'
  accepted : s'.accepted = s.accepted
  closed : ∀ b, b ∈ s'.closed ↔ b ∈ s.closed ∨ b = c ∧ pc = .closeFd (.owned c)

theorem settled (th : Thread) {next : Next} (hc : pc.ref = .owned c)
    (h : execute s.registry pc = some (r', next)) : Settled s (s.settle th r' next) pc c r' := by
  have hnot : (∀ conn, next ≠ .ret (.close conn)) → pc ≠ .closeFd (.owned c) := by
    rintro hn rfl
    exact hn c (Prod.mk.inj (Option.some.inj h)).2.symm
  cases next with
  | goto pc' => exact ⟨rfl, rfl, fun b => by simp [State.settle, hnot (by simp)]⟩
  | ret x =>
    cases x with
    | subscribe result =>
      exact ⟨rfl, rfl, fun b => by simp [State.settle, Returned.closes, hnot (by simp)]⟩
    | unSubscribe result n =>
      exact ⟨rfl, rfl, fun b => by simp [State.settle, Returned.closes, hnot (by simp)]⟩
    | close conn =>
      obtain ⟨rfl, rfl⟩ := execute_close hc h
      exact ⟨rfl, rfl, fun b => by simp [State.settle, Returned.closes, or_comm]⟩

variable {s' : State}

theorem Settled.isOpen (h : Settled s s' pc c r') {b : PinkConn} :
    s'.IsOpen b ↔ s.IsOpen b ∧ ¬(b = c ∧ pc = .closeFd (.owned c)) := by
  unfold State.IsOpen
  rw [h.accepted, h.closed]
  tauto

theorem conns_keep (hi : Inv s) (hok : CallOk s c pc) (he : Effect pc c s.registry r')
    (hs : Settled s s' pc c r') (fd : ℤ) (h : ConnHandle) (hh : r'.conns[fd]? = some h) :
    h.conn.fd = fd ∧ s'.IsOpen h.conn := by
  -- an entry that was there before is not the one of the connection being closed
  have hold : s.registry.conns[fd]? = some h → h.conn.fd = fd ∧ s'.IsOpen h.conn := by
    intro hh
    obtain ⟨hfd, ho⟩ := hi.conns fd h hh
    refine ⟨hfd, hs.isOpen.mpr ⟨ho, ?_⟩⟩
    rintro ⟨hb, hpc⟩
    refine hok.notHolds hpc ?_
    unfold Holds
    rw [← hb, hfd, hh]
    rfl
  rcases he.conns with ⟨hr, -, -⟩ | ⟨hpc, hr⟩ | ⟨-, hr⟩
  · exact hold (hr ▸ hh)
  · rw [hr, Std.ExtTreeMap.getElem?_insert] at hh
    split_ifs at hh with hfd
    · obtain rfl := Option.some.inj hh
      refine ⟨Std.compare_eq_iff_eq.mp hfd, hs.isOpen.mpr ⟨hok.isOpen hpc.needsOpen, ?_⟩⟩
      rintro ⟨-, rfl⟩
      exact hpc.elim
    · exact hold hh
  · rw [hr, Std.ExtTreeMap.getElem?_erase] at hh
    split_ifs at hh
    exact hold hh

/-- A call of another thread keeps what it relies on. -/
theorem callOk_other (hi : Inv s) (hok : CallOk s c pc) (he : Effect pc c s.registry r')
    (hs : Settled s s' pc c r') {b : PinkConn} {pc₁ : Pc} (hok₁ : CallOk s b pc₁)
    (hapart : b = c → pc.action = pc₁.action ∧ pc.action ≠ .close) : CallOk s' b pc₁ := by
  have hreg := hs.registry
  by_cases hb : b = c
  · subst hb
    obtain ⟨ha, hclose⟩ := hapart rfl
    refine ⟨fun h => hs.isOpen.mpr ⟨hok₁.isOpen h, ?_⟩, fun h => ?_, fun k h n hn => ?_, ?_⟩
    · rintro ⟨-, rfl⟩
      exact hclose rfl
    · rw [hreg]
      exact holds_subscribe he (ha.trans h.action) (hok₁.holds h)
    · rw [hreg] at hn
      rcases he.subs k n _ hn with hn | ⟨-, hpc⟩
      · exact hok₁.outside k h n hn
      · exact h.action (ha ▸ hpc.action)
    · rintro rfl
      exact absurd ha hclose
  · refine ⟨fun h => hs.isOpen.mpr ⟨hok₁.isOpen h, fun h => hb h.1⟩, fun h => ?_,
      fun k h n hn => ?_, fun h => ?_⟩
    · rw [hreg]
      exact (holds_other hi hok he hb).mpr (hok₁.holds h)
    · rw [hreg] at hn
      rcases he.subs k n _ hn with hn | ⟨hbc, -⟩
      · exact hok₁.outside k h n hn
      · exact hb hbc
    · rw [hreg, holds_other hi hok he hb]
      exact hok₁.notHolds h

theorem holds_of_nameCount (hi : Inv s) {k : Kind}
    (h : PubSubThread.nameCount (s.registry.subs k) c ≠ 0) : Holds s.registry c := by
  obtain ⟨p, hp, hc⟩ := List.countP_pos_iff.mp (Nat.pos_of_ne_zero h)
  refine hi.subs k p.1 c ?_
  rw [PubSubThread.subscribers, Std.ExtTreeMap.getD_eq_getD_getElem?,
    Std.ExtTreeMap.mem_toList_iff_getElem?_eq_some.mp hp]
  simpa using hc

/-- A count that is not zero, in two sections, is of a connection that was under a name in one of
them. -/
theorem holds_of_size (hi : Inv s) {n : ℤ} (hn : n ≠ 0 → Holds s.registry c)
    (h : n + PubSubThread.nameCount s.registry.pubsubPattern c ≠ 0) : Holds s.registry c := by
  by_cases h0 : n = 0
  · exact holds_of_nameCount hi (k := .pattern) fun h1 => h (by rw [h0, zero_add]; exact_mod_cast h1)
  · exact hn h0

/-- A section that removes the connection from one of the maps. -/
theorem outside_removed (hi : Inv s) {k : Kind} (hr : s.registry.removeFrom (.owned c) k = some r')
    (n : Bytes) : c ∉ r'.subscribers k n :=
  (effect_remove (.removePattern (.owned c) .closeFd) hi.nodup not_false not_false hr).2 n

theorem CallOk.of_isOpen {pc' : Pc} (ho : NeedsOpen pc' → s.IsOpen c) (h1 : ¬NeedsHolds pc')
    (h2 : ∀ k, ¬Outside pc' k) (h3 : pc' ≠ .closeFd (.owned c)) : CallOk s c pc' :=
  ⟨ho, fun h => absurd h h1, fun k h => absurd h (h2 k), fun h => absurd h h3⟩

/-- The call that made the step can rely on what it needs next. -/
theorem callOk_own {pc' : Pc} (hi : Inv s) (hc : pc.ref = .owned c) (hok : CallOk s c pc)
    (he : execute s.registry pc = some (r', .goto pc')) (hs : Settled s s' pc c r') :
    CallOk s' c pc' := by
  have heff := execute_effect hi.nodup hc he
  have hreg := hs.registry
  have hopen : pc ≠ .closeFd (.owned c) → s.IsOpen c → s'.IsOpen c := fun hne ho =>
    hs.isOpen.mpr ⟨ho, fun h => hne h.2⟩
  cases goes_of_execute he with
  | @counted use n hn =>
    obtain rfl : use.conn = c := Ref.owned.inj hc
    have hholds : n ≠ 0 → Holds s.registry use.conn := fun h0 =>
      holds_of_nameCount hi (k := .channel) fun h => h0 (by rw [hn]; exact_mod_cast h)
    refine ⟨fun h => hopen (by simp) ?_, fun h => ?_, fun k h => h.elim, by simp⟩
    · cases use with
      | subscribe => exact hok.isOpen trivial
      | unSubscribe => exact hi.isOpen_of_holds (hholds h)
      | left => exact hok.isOpen h
    · rw [hreg]
      refine holds_subscribe heff h.action (hholds ?_)
      cases use with
      | subscribe => exact h
      | _ => exact h.elim
  | unknown =>
    exact .of_isOpen (fun _ => hopen (by simp) (hok.isOpen trivial)) not_false (fun _ => not_false)
      (by simp)
  | @known conn _ _ _ n _ _ _ hn =>
    obtain rfl : conn = c := Ref.owned.inj hc
    have hholds := holds_of_size hi (fun h0 => hok.holds h0) hn
    refine ⟨fun _ => hopen (by simp) (hok.isOpen trivial), fun _ => ?_, fun k h => h.elim, by simp⟩
    rw [hreg]
    exact holds_subscribe heff rfl hholds
  | @all conn _ _ n =>
    obtain rfl : conn = c := Ref.owned.inj hc
    refine .of_isOpen (fun h => hopen (by simp) ?_) not_false (fun _ => not_false) (by simp)
    by_cases h0 : n = 0
    · exact hi.isOpen_of_holds (holds_of_size hi (fun h => absurd h0 h) h)
    · exact hok.isOpen h0
  | @named conn _ _ _ n _ _ _ =>
    obtain rfl : conn = c := Ref.owned.inj hc
    refine .of_isOpen (fun h => hopen (by simp) ?_) not_false (fun _ => not_false) (by simp)
    by_cases h0 : n = 0
    · exact hi.isOpen_of_holds (holds_of_size hi (fun h => absurd h0 h) (of_decide_eq_true h))
    · exact hok.isOpen h0
  | gone =>
    exact .of_isOpen (fun _ => hopen (by simp) (hok.isOpen rfl)) not_false (fun _ => not_false)
      (by simp)
  | entered =>
    refine ⟨fun _ => hopen (by simp) (hok.isOpen trivial), fun _ => ?_, fun k h => h.elim, by simp⟩
    rw [hreg]
    exact holds_entered heff trivial
  | inserted =>
    refine ⟨fun _ => hopen (by simp) (hok.isOpen trivial), fun _ => ?_, fun k h => h.elim, by simp⟩
    rw [hreg]
    exact holds_subscribe heff rfl (hok.holds trivial)
  | reported hn =>
    exact .of_isOpen (fun _ => hopen (by simp) (hok.isOpen hn)) not_false (fun _ => not_false)
      (by simp)
  | erased =>
    exact .of_isOpen (fun h => hopen (by simp) (hok.isOpen h)) not_false (fun _ => not_false)
      (by simp)
  | erasedAll =>
    exact .of_isOpen (fun h => hopen (by simp) (hok.isOpen h)) not_false (fun _ => not_false)
      (by simp)
  | @pattern ref after =>
    obtain rfl : ref = .owned c := hc
    obtain ⟨r₁, hr, heq⟩ := Option.map_eq_some_iff.mp he
    obtain ⟨rfl, -⟩ := Prod.mk.inj heq
    refine ⟨fun _ => hopen (by simp) (hok.isOpen trivial), fun h => h.elim, fun k h n => ?_,
      by simp⟩
    rw [hreg]
    cases k with
    | channel => exact h.elim
    | pattern => exact outside_removed hi hr n
  | @channel ref after =>
    obtain rfl : ref = .owned c := hc
    obtain ⟨r₁, hr, heq⟩ := Option.map_eq_some_iff.mp he
    obtain ⟨rfl, -⟩ := Prod.mk.inj heq
    refine ⟨fun _ => hopen (by simp) (hok.isOpen trivial), fun h => h.elim, fun k h n hn => ?_,
      by simp⟩
    rw [hreg] at hn
    cases k with
    | channel => exact outside_removed hi hr n hn
    | pattern =>
      rcases heff.subs _ n c hn with hn | ⟨-, h⟩
      · exact hok.outside .pattern trivial n hn
      · exact h.elim
  | @out ref =>
    obtain rfl : ref = .owned c := hc
    refine ⟨fun _ => hopen (by simp) (hok.isOpen trivial), fun h => h.elim, fun k h n hn => ?_,
      fun _ => ?_⟩
    · rw [hreg] at hn
      rcases heff.subs _ n c hn with hn | ⟨-, h⟩
      · exact hok.outside k (by cases k <;> exact trivial) n hn
      · exact h.elim
    · rw [hreg]
      exact not_holds_erased heff trivial

theorem inv_settle {th : Thread} {next : Next} (hi : Inv s) (hp : (th, pc) ∈ s.calls)
    (he : execute s.registry pc = some (r', next)) : Inv (s.settle th r' next) := by
  obtain ⟨c, hc, hok⟩ := hi.calls _ hp
  have heff := execute_effect hi.nodup hc he
  have hs := settled th hc he
  -- the calls afterwards: those of the other threads and the one that made the step
  have hcalls : ∀ p ∈ (s.settle th r' next).calls, p ∈ s.calls ∧ p.1 ≠ th ∨
      p.1 = th ∧ next = .goto p.2 := by
    intro p hp
    cases next with
    | goto pc' =>
      rcases List.mem_cons.mp hp with rfl | hp
      · exact .inr ⟨rfl, rfl⟩
      · exact .inl (by simpa using List.mem_filter.mp hp)
    | ret x => exact .inl (by simpa using List.mem_filter.mp hp)
  have hsame : ∀ pc', next = .goto pc' → pc'.ref = pc.ref ∧ pc'.action = pc.action := by
    rintro pc' rfl
    exact (goes_of_execute he).same
  refine ⟨?_, ?_, ?_, ?_, ?_, ?_⟩
  · rw [hs.registry]
    exact heff.nodup
  · rw [hs.registry]
    exact fun k n b hb => subs_keep hi hok heff k n b hb
  · rw [hs.registry]
    exact fun fd h hh => conns_keep hi hok heff hs fd h hh
  · exact fun b b' hb hb' => hi.fds b b' (hs.isOpen.mp hb).1 (hs.isOpen.mp hb').1
  · intro p hp'
    rcases hcalls p hp' with ⟨hp', hth⟩ | ⟨-, rfl⟩
    · obtain ⟨b, hb, hok₁⟩ := hi.calls p hp'
      refine ⟨b, hb, callOk_other hi hok heff hs hok₁ ?_⟩
      rintro rfl
      exact hi.apart _ hp _ hp' (Ne.symm hth) (hc.trans hb.symm)
    · exact ⟨c, (hsame _ rfl).1.trans hc, callOk_own hi hc hok he hs⟩
  · intro p hp' q hq' hpq href
    rcases hcalls p hp' with ⟨hp', hth⟩ | ⟨hth, hnext⟩ <;>
      rcases hcalls q hq' with ⟨hq', hth'⟩ | ⟨hth', hnext'⟩
    · exact hi.apart p hp' q hq' hpq href
    · obtain ⟨h1, h2⟩ := hsame _ hnext'
      rw [h2]
      exact hi.apart p hp' _ hp hth (href.trans h1)
    · obtain ⟨h1, h2⟩ := hsame _ hnext
      rw [h2]
      exact hi.apart _ hp q hq' (Ne.symm hth') (h1.symm.trans href)
    · exact absurd (hth.trans hth'.symm) hpq

end Advance

/-! ### Every step keeps the invariant -/

theorem CallOk.of_same {s s' : State} {c : PinkConn} {pc : Pc} (h : CallOk s c pc)
    (ho : s.IsOpen c → s'.IsOpen c) (hh : Holds s'.registry c ↔ Holds s.registry c)
    (hs : ∀ k n, s'.registry.subscribers k n = s.registry.subscribers k n) : CallOk s' c pc := by
  refine ⟨fun hn => ho (h.isOpen hn), fun hn => hh.mpr (h.holds hn), fun k hn n => ?_, fun hn => ?_⟩
  · rw [hs]
    exact h.outside k hn n
  · rw [hh]
    exact h.notHolds hn

/-- A new call on a connection no call of another kind is on. -/
theorem inv_start {s : State} {th : Thread} {pc : Pc} {c : PinkConn} (hi : Inv s)
    (hc : pc.ref = .owned c) (hok : CallOk s c pc)
    (hapart : ∀ p ∈ s.calls, s.registry.deref p.2.ref = some c →
      p.2.action = pc.action ∧ pc.action ≠ .close) : Inv (s.start th pc) := by
  have hapart' : ∀ p ∈ s.calls, p.2.ref = pc.ref →
      p.2.action = pc.action ∧ pc.action ≠ .close := by
    intro p hp href
    exact hapart p hp (by rw [href, hc]; rfl)
  refine ⟨hi.nodup, hi.subs, hi.conns, hi.fds, fun p hp => ?_, fun p hp q hq hpq href => ?_⟩
  · rcases List.mem_cons.mp hp with rfl | hp
    · exact ⟨c, hc, hok.of_same id Iff.rfl fun _ _ => rfl⟩
    · obtain ⟨b, hb, hok₁⟩ := hi.calls p hp
      exact ⟨b, hb, hok₁.of_same id Iff.rfl fun _ _ => rfl⟩
  · rcases List.mem_cons.mp hp with rfl | hp <;> rcases List.mem_cons.mp hq with rfl | hq
    · exact absurd rfl hpq
    · obtain ⟨h1, h2⟩ := hapart' q hq href.symm
      exact ⟨h1.symm, h2⟩
    · obtain ⟨h1, h2⟩ := hapart' p hp href
      exact ⟨h1, h1 ▸ h2⟩
    · exact hi.apart p hp q hq hpq href

theorem inv_accept {s : State} {conn : PinkConn} (hi : Inv s) (hf : s.Fresh conn) :
    Inv { s with accepted := conn :: s.accepted } := by
  have hopen : ∀ {b}, s.IsOpen b → State.IsOpen { s with accepted := conn :: s.accepted } b :=
    fun h => ⟨List.mem_cons_of_mem _ h.1, h.2⟩
  have hold : ∀ {b}, State.IsOpen { s with accepted := conn :: s.accepted } b →
      b = conn ∨ s.IsOpen b := fun h => (List.mem_cons.mp h.1).imp id fun hb => ⟨hb, h.2⟩
  refine ⟨hi.nodup, hi.subs, fun fd h hh => ?_, fun b b' hb hb' hfd => ?_, fun p hp => ?_, hi.apart⟩
  · obtain ⟨h1, h2⟩ := hi.conns fd h hh
    exact ⟨h1, hopen h2⟩
  · rcases hold hb with rfl | h <;> rcases hold hb' with rfl | h'
    · rfl
    · exact absurd hfd.symm (hf.2 b' h'.1 h'.2)
    · exact absurd hfd (hf.2 b h.1 h.2)
    · exact hi.fds b b' h h' hfd
  · obtain ⟨b, hb, hok⟩ := hi.calls p hp
    exact ⟨b, hb, hok.of_same hopen Iff.rfl fun _ _ => rfl⟩

theorem inv_of_registry {s : State} {r' : PubSubThread} (hi : Inv s)
    (hs : ∀ k n, r'.subscribers k n = s.registry.subscribers k n)
    (hc : ∀ fd : ℤ, r'.conns[fd]?.map ConnHandle.conn = s.registry.conns[fd]?.map ConnHandle.conn) :
    Inv { s with registry := r' } := by
  have hh : ∀ b, Holds r' b ↔ Holds s.registry b := fun b => by unfold Holds; rw [hc]
  refine ⟨fun k n => ?_, fun k n b hb => ?_, fun fd h hr => ?_, hi.fds, fun p hp => ?_, hi.apart⟩
  · exact (hs k n).symm ▸ hi.nodup k n
  · exact (hh b).mpr (hi.subs k n b (hs k n ▸ hb))
  · have hm : s.registry.conns[fd]?.map ConnHandle.conn = some h.conn := by
      rw [← hc]
      exact congrArg (Option.map ConnHandle.conn) hr
    obtain ⟨h', hr', he⟩ := Option.map_eq_some_iff.mp hm
    rw [← he]
    exact hi.conns fd h' hr'
  · obtain ⟨b, hb, hok⟩ := hi.calls p hp
    exact ⟨b, hb, hok.of_same id (hh b) hs⟩

theorem updateConnReadyState_same (r : PubSubThread) (fd : ℤ) (state : ReadyState) :
    (∀ k n, (r.updateConnReadyState fd state).subscribers k n = r.subscribers k n) ∧
      ∀ fd' : ℤ, (r.updateConnReadyState fd state).conns[fd']?.map ConnHandle.conn =
        r.conns[fd']?.map ConnHandle.conn := by
  unfold PubSubThread.updateConnReadyState
  split
  · exact ⟨fun _ _ => rfl, fun _ => rfl⟩
  case _ h hh =>
    refine ⟨fun k n => by cases k <;> rfl, fun fd' => ?_⟩
    by_cases hfd : fd = fd'
    · subst hfd
      rw [Std.ExtTreeMap.getElem?_insert_self, hh]
      rfl
    · simp [Std.ExtTreeMap.getElem?_insert, hfd]

theorem inv_apply {s : State} {l : Label} (hi : Inv s) (ha : Apart s l) :
    ∃ s', apply s l = some s' ∧ Inv s' := by
  cases l with
  | accept conn =>
    refine ⟨_, rfl, ?_⟩
    split_ifs with hf
    · exact inv_accept hi hf
    · exact hi
  | subscribe n conn names pattern =>
    refine ⟨_, rfl, ?_⟩
    split_ifs with h
    · refine inv_start hi rfl (.of_isOpen (fun _ => ⟨h.1, ha.1⟩) not_false (fun _ => not_false)
        (by simp)) fun p hp hd => ⟨ha.2 p hp hd, by simp [Pc.action, SizeFor.action]⟩
    · exact hi
  | unSubscribe n conn names pattern =>
    refine ⟨_, rfl, ?_⟩
    split_ifs with h
    · refine inv_start hi rfl (.of_isOpen (fun h => h.elim) not_false (fun _ => not_false)
        (by simp)) fun p hp hd => ⟨ha p hp hd, by simp [Pc.action, SizeFor.action]⟩
    · exact hi
  | updateConnReadyState fd state =>
    obtain ⟨h1, h2⟩ := updateConnReadyState_same s.registry fd state
    exact ⟨_, rfl, inv_of_registry hi h1 h2⟩
  | close fd =>
    refine ⟨_, rfl, ?_⟩
    split_ifs with h
    · split
      · exact inv_of_registry hi (fun k n => by cases k <;> rfl) fun _ => rfl
      case _ h hh =>
        refine inv_start hi rfl (.of_isOpen (fun _ => (hi.conns fd h hh).2) not_false
          (fun _ => not_false) (by simp)) fun p hp hd => ?_
        exact absurd hd (ha h hh p hp)
    · exact hi
  | publishError k name i => exact ha.elim
  | advance th =>
    show ∃ s', s.advance th = some s' ∧ Inv s'
    unfold State.advance
    split
    · exact ⟨s, rfl, hi⟩
    case _ p hp =>
      have hth : p.1 = th := by simpa using List.find?_some hp
      have hmem : (th, p.2) ∈ s.calls := hth ▸ List.mem_of_find?_eq_some hp
      obtain ⟨c, hc, -⟩ := hi.calls _ hmem
      obtain ⟨x, hx⟩ := execute_isSome hc s.registry
      rw [hx]
      exact ⟨_, rfl, inv_settle hi hmem hx⟩

theorem inv_empty : Inv {} := by
  have hs : ∀ k n, ({} : State).registry.subscribers k n = [] := by
    intro k n
    cases k <;> exact Std.ExtTreeMap.getD_empty
  refine ⟨fun k n => by rw [hs]; exact List.nodup_nil, fun k n c hc => ?_, fun fd h hh => ?_,
    fun c c' h => absurd h.1 List.not_mem_nil, fun p hp => absurd hp List.not_mem_nil,
    fun p hp => absurd hp List.not_mem_nil⟩
  · rw [hs] at hc
    exact absurd hc List.not_mem_nil
  · exact absurd (Std.ExtTreeMap.getElem?_empty.symm.trans hh) (by simp)

/-- **A subscribed connection is a registered one.** In every run whose steps are `Apart` no
reference is read behind the end of its vector, and a connection that is under some name while no
call on it is in progress is the one that `conns_` holds under its descriptor, and is not closed. -/
theorem registered_of_apart (ls : List Label) (h : Guarded step ApartOption (some {}) ls) :
    ∃ s, run step (some {}) ls = some s ∧ AllRegistered s := by
  have hinv := run_inv (fun s => ∃ s', s = some s' ∧ Inv s')
    (fun s l ⟨s', hs, hi⟩ hg => by
      subst hs
      exact inv_apply hi (hg s' rfl))
    ⟨{}, rfl, inv_empty⟩ h
  obtain ⟨s, hs, hi⟩ := hinv
  exact ⟨s, hs, allRegistered_of_inv hi⟩

/-- Two connections subscribe at the same time, section by section in turn; then one of them is
closed while the other one leaves a name. -/
def apartRun : List Label :=
  [.accept ⟨1, 7, []⟩, .accept ⟨2, 8, []⟩, .subscribe 0 ⟨1, 7, []⟩ [bytes "a"] true,
    .subscribe 1 ⟨2, 8, []⟩ [bytes "a", bytes "b"] true] ++
    (List.replicate 4 [.advance (.worker 0), .advance (.worker 1)]).flatten ++
    [.advance (.worker 1), .unSubscribe 1 ⟨2, 8, []⟩ [bytes "a"] true, .close 7] ++
    (List.replicate 5 [.advance .pubsub, .advance (.worker 1)]).flatten

theorem registered_apartRun :
    ∃ s, run step (some {}) apartRun = some s ∧ AllRegistered s :=
  registered_of_apart apartRun (by decide +kernel)

/-- `Subscribe` has registered the connection when the peer hangs up and it is closed. -/
def overlapRun : List Label :=
  [.accept ⟨1, 7, []⟩, .subscribe 0 ⟨1, 7, []⟩ [bytes "a"] true] ++
    List.replicate 3 (.advance (.worker 0)) ++ [.close 7] ++ List.replicate 4 (.advance .pubsub) ++
    [.advance (.worker 0)]

/-- The closed connection is a subscriber of `a`, and no call is in progress. -/
theorem not_registered_of_overlap :
    ∃ s, run step (some {}) overlapRun = some s ∧ ¬AllRegistered s := by
  have h : (run step (some {}) overlapRun).any (fun s => decide (Quiet s ⟨1, 7, []⟩ ∧
      ⟨1, 7, []⟩ ∈ s.registry.subscribers .pattern (bytes "a") ∧ ⟨1, 7, []⟩ ∈ s.closed)) = true := by
    decide +kernel
  obtain ⟨s, hs, hp⟩ := (Option.any_eq_true _ _).mp h
  obtain ⟨hq, hm, hc⟩ := of_decide_eq_true hp
  exact ⟨s, hs, fun hall => (hall _ .pattern _ hq hm).2 hc⟩

end Pink.PubSub.Registered
