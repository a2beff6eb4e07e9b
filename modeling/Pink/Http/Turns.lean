import Pink.Http.Counter

/-! # Runs, read by read

What is said of every read of a connection, in the state in which the loop of `ReadData` makes it, is
said of the reads of each call (`loopTurns`), and of the calls of a run. A read is followed by one
turn of the loop, so an invariant of the request that every turn keeps is enough to compare two such
statements: that is `guarded_turns_iff`. Between requests nothing is known of the request and nothing
is needed, as the next one begins with `Reset`. -/

namespace Pink.Http.Turns

open Pink.Redis.Wire Pink.Http.Request Pink.Http.Conn Pink.Http.Counter Pink.Lib.Runs
open Pink.Http.Handlers (Happens sendReply_calls)
open Pink.Server.Threads (ReadStatus)

variable (stringToLower : Bytes → Bytes)

/-- The reads that the loop of `ReadData` makes, each with the state before it. -/
def loopTurns (security : Bool) (e : Env) : List Recv → Reading → List (Reading × Recv)
  | [], _ => []
  | r :: rs, x =>
    (x, r) ::
      match turnOf stringToLower security e x r with
      | some (.next x) => loopTurns security e rs x
      | _ => []

/-- All reads of an event satisfy `P`. -/
def AllTurns (P : Env → Reading → Recv → Prop) (security : Bool) (c : HTTPConn) : Op → Prop
  | .getRequest e =>
    match entry c with
    | some x => ∀ t ∈ loopTurns stringToLower security e e.reads x, P e t.1 t.2
    | none => True
  | .sendReply _ => True

/-- **All reads of an event satisfy `P`**, if the event can happen. -/
def Throughout (P : Env → Reading → Recv → Prop) (security : Bool) (c : HTTPConn) (op : Op) : Prop :=
  Happens stringToLower security c op → AllTurns stringToLower P security c op

variable {stringToLower}

/-- A call that goes on leaves a request for the next one, or one with the invariant. -/
def Kept (Q : HTTPRequest → Prop) (x : Reading) (st : Option ReadStatus) : Prop :=
  goesOn st = true → x.request.reqStatus = .newRequest ∨ Q x.request

section Loop

variable {security : Bool} {e : Env} {Q : HTTPRequest → Prop} {A B : Reading → Recv → Prop}

/-- The loop of `ReadData`, by induction on its reads. -/
theorem loopTurns_iff
    (hiff : ∀ x r t, Q x.request → turnOf stringToLower security e x r = some t → (A x r ↔ B x r))
    (hkeep : ∀ x r t, Q x.request → B x r → turnOf stringToLower security e x r = some t →
      t.Holds (fun x' => Q x'.request) (Kept Q))
    {rs : List Recv} {x x' : Reading} {st : Option ReadStatus} (hx : Q x.request)
    (hl : readLoop stringToLower security e rs x = some (x', st)) :
    ((∀ t ∈ loopTurns stringToLower security e rs x, A t.1 t.2) ↔
        ∀ t ∈ loopTurns stringToLower security e rs x, B t.1 t.2) ∧
      ((∀ t ∈ loopTurns stringToLower security e rs x, B t.1 t.2) → Kept Q x' st) := by
  induction rs generalizing x with
  | nil =>
    have hst : x.request.reqStatus = .bodyReceived := by
      unfold readLoop at hl
      split at hl
      · assumption
      · simp at hl
    obtain ⟨-, hreq⟩ := readLoop_received hst hl
    refine ⟨by simp [loopTurns], fun _ _ => .inl ?_⟩
    rw [hreq]
  | cons r rs ih =>
    rw [readLoop_cons] at hl
    rw [loopTurns]
    cases hturn : turnOf stringToLower security e x r with
    | none => simp [hturn] at hl
    | some t =>
      have hone := hiff x r t hx hturn
      have hnext := fun hB => hkeep x r t hx hB hturn
      rw [hturn] at hl
      cases t with
      | ret y st' =>
        dsimp only at hl ⊢
        split_ifs at hl with hnil
        obtain ⟨rfl, rfl⟩ := Prod.mk.inj (Option.some.inj hl)
        simp only [List.forall_mem_singleton]
        exact ⟨hone, hnext⟩
      | next y =>
        dsimp only at hl ⊢
        simp only [List.forall_mem_cons]
        -- what follows is compared only if the invariant is kept by this turn
        by_cases hB : B x r
        · obtain ⟨hrest, hkept⟩ := ih (hnext hB) hl
          exact ⟨and_congr hone hrest, fun h => hkept h.2⟩
        · exact ⟨⟨fun h => absurd (hone.mp h.1) hB, fun h => absurd h.1 hB⟩, fun h => absurd h.1 hB⟩

end Loop

variable {security : Bool} {Q : HTTPRequest → Prop} {A B : Env → Reading → Recv → Prop}

/-- A connection whose request, if one is being received, satisfies `Q`. -/
def Receives (Q : HTTPRequest → Prop) (c : HTTPConn) : Prop :=
  c.alive = true → c.request.reqStatus = .newRequest ∨ Q c.request

theorem entry_receives {c : HTTPConn} (hstart : Q { reqStatus := .headerReceiving })
    (hinv : Receives Q c) (halive : c.alive = true) {x : Reading} (hx : entry c = some x) :
    Q x.request := by
  unfold entry at hx
  by_cases hnew : c.request.reqStatus = .newRequest
  · rw [if_pos hnew] at hx
    split_ifs at hx
    obtain rfl := Option.some.inj hx
    exact hstart
  · rw [if_neg hnew] at hx
    obtain rfl := Option.some.inj hx
    exact (hinv halive).resolve_left hnew

/-- A call of `GetRequest`. -/
theorem getRequest_turns (hstart : Q { reqStatus := .headerReceiving })
    (hiff : ∀ e x r t, Q x.request → turnOf stringToLower security e x r = some t →
      (A e x r ↔ B e x r))
    (hkeep : ∀ e x r t, Q x.request → B e x r → turnOf stringToLower security e x r = some t →
      t.Holds (fun x' => Q x'.request) (Kept Q))
    {c c' : HTTPConn} {e : Env} (hinv : Receives Q c)
    (hc' : stepOption stringToLower security c (.getRequest e) = some c') :
    (AllTurns stringToLower A security c (.getRequest e) ↔
        AllTurns stringToLower B security c (.getRequest e)) ∧
      (AllTurns stringToLower B security c (.getRequest e) → Receives Q c') := by
  obtain ⟨halive, hget⟩ := stepOption_getRequest.mp hc'
  obtain ⟨x', st, hread, hcalls, hreq, -⟩ := Handlers.getRequest_calls hget
  have hgo : c'.alive = true → goesOn st = true := by
    intro h
    have hmem : (st, x'.events) ∈ c'.calls := by simp [hcalls]
    exact HTTPConn.goesOn_of_alive h hmem
  unfold AllTurns
  dsimp only
  rcases readData_entry hread with ⟨x, hx, hl⟩ | ⟨hx, hnew, -, hreset⟩
  · rw [hx]
    have hQ := entry_receives hstart hinv halive hx
    obtain ⟨hall, hkept⟩ := loopTurns_iff (hiff e) (hkeep e) hQ hl
    refine ⟨hall, fun hB halive' => ?_⟩
    rw [hreq]
    exact hkept hB (hgo halive')
  · rw [hx]
    refine ⟨Iff.rfl, fun _ _ => .inl ?_⟩
    rw [hreq, hreset]
    exact hnew

/-- **The rule for runs read by read**: if what `A` and `B` say of a read is the same for a request
with the invariant `Q`, and a turn after a read with `B` keeps the invariant, then the runs in which
all reads satisfy `A` are those in which all reads satisfy `B`. -/
theorem guarded_turns_iff (hstart : Q { reqStatus := .headerReceiving })
    (hiff : ∀ e x r t, Q x.request → turnOf stringToLower security e x r = some t →
      (A e x r ↔ B e x r))
    (hkeep : ∀ e x r t, Q x.request → B e x r → turnOf stringToLower security e x r = some t →
      t.Holds (fun x' => Q x'.request) (Kept Q)) (ops : List Op) :
    Guarded (step stringToLower security) (Throughout stringToLower A security) {} ops ↔
      Guarded (step stringToLower security) (Throughout stringToLower B security) {} ops := by
  have hcall : ∀ {c c' : HTTPConn} {e : Env}, Receives Q c →
      stepOption stringToLower security c (.getRequest e) = some c' → _ :=
    fun hinv hc' => getRequest_turns hstart hiff hkeep hinv hc'
  refine guarded_iff_of_inv (Receives Q) (fun c op hinv hop => ?_) (fun c op hinv => ?_) ?_
  · unfold step
    cases hc' : stepOption stringToLower security c op with
    | none => exact hinv
    | some c' =>
      have hhappens : Happens stringToLower security c op := by rw [Happens, hc']; rfl
      rw [Option.getD_some]
      cases op with
      | getRequest e => exact (hcall hinv hc').2 (hop hhappens)
      | sendReply o =>
        obtain ⟨⟨halive, -⟩, hsend⟩ := stepOption_sendReply.mp hc'
        intro _
        rw [(sendReply_calls hsend).2]
        exact hinv halive
  · refine forall_congr' fun hhappens => ?_
    obtain ⟨c', hc'⟩ := Option.isSome_iff_exists.mp hhappens
    cases op with
    | getRequest e => exact (hcall hinv hc').1
    | sendReply o => exact Iff.rfl
  · exact fun _ => .inl rfl

end Pink.Http.Turns
