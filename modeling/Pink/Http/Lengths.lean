import Pink.Http.Turns

/-! # The value of Content-Length

`ParseHeader` hands the Content-Length header to `std::stoul` as the automaton has stored it. A decimal
number that fits in 64 bits is taken for what it is (`stoul_of_isLength`). Of everything else some is
refused with an exception, which nothing in the program catches, and some is accepted for another
number: a minus sign is a negation modulo `2 ^ 64`, and a number is read as far as it goes. There is no
third outcome, so the header is taken or refused as it should be only if it is a number, or if the
read is refused for its size and nothing is thrown before (`lengths_iff`). -/

namespace Pink.Http.Lengths

open Pink.Redis.Wire Pink.Http.Request Pink.Http.Conn Pink.Http.Heads Pink.Http.Delivery
open Pink.Http.Counter Pink.Http.Turns Pink.Lib.Runs
open Pink.Http.Handlers (asciiLower)

variable (stringToLower : Bytes → Bytes)

/-- The bytes contain a header block. -/
def HasBlock (got : Bytes) : Prop := (findSub separator (cstr got)).isSome

instance (got : Bytes) : Decidable (HasBlock got) := inferInstanceAs (Decidable (_ = true))

/-- The Content-Length header that the automaton stores of the header block; there is none in a block
of at most five bytes, which is not parsed. -/
def storedLength (got : Bytes) : Option Bytes :=
  match findSub separator (cstr got) with
  | none => none
  | some i =>
    if i + 4 ≤ 5 then none
    else
      lookup (parseLines stringToLower (i + 4) { reqStatus := .headerReceiving, rbuf := got }
        (got.take (i + 4))).headers (bytes "content-length")

/-- **A header block that a read completes is treated as it should be**: `ParseHeader` ends without an
exception and sets the counter to the value of the Content-Length header, and `ReadData` returns
`kReadError` if there is one that is not a decimal number of 64 bits. -/
def LengthTaken (security : Bool) (e : Env) (x : Reading) : Recv → Prop
  | .data bs =>
    x.request.reqStatus = .headerReceiving → HasBlock (x.request.rbuf ++ bs) →
      let got := x.request.rbuf ++ bs
      let p := parseHeader stringToLower { x.request with rbuf := got }
      p.2 ≠ .exception ∧
        match storedLength stringToLower got with
        | none => p.1.remainRecvLen = 0
        | some s =>
          if IsLength s then p.1.remainRecvLen = digitsValue s
          else ∃ x', turnOf stringToLower security e x (.data bs) = some (.ret x' (some .readError))
  | _ => True

/-- **The Content-Length header that a read completes is a decimal number of 64 bits**, or the read is
refused for its size. -/
def LengthSound (_ : Env) (x : Reading) : Recv → Prop
  | .data bs =>
    x.request.reqStatus = .headerReceiving → HasBlock (x.request.rbuf ++ bs) →
      ∀ s, storedLength stringToLower (x.request.rbuf ++ bs) = some s →
        IsLength s ∨
          (stoul s).isSome ∧ kHTTPMaxHeader < (x.request.rbuf ++ bs).length
  | _ => True

variable {stringToLower}

/-! ### The parser -/

section Parsed

variable {got : Bytes}

/-- What `ParseHeader` makes of a header block. -/
theorem parsed_eq {i : ℕ} (hi : findSub separator (cstr got) = some i) (hlong : ¬i + 4 ≤ 5) :
    ∃ r : HTTPRequest, r.rbuf = got ∧ parsed stringToLower got =
      match (storedLength stringToLower got).elim (some 0) stoul with
      | none => (r, .exception)
      | some n => (takeHeaders r n, .header (i + 4)) := by
  refine ⟨parseGetUrl (parseLines stringToLower (i + 4)
    { reqStatus := .headerReceiving, rbuf := got } (got.take (i + 4))), ?_, ?_⟩
  · exact ((parseLines_same _ _ _).trans (parseGetUrl_same _)).1
  · have hstored : storedLength stringToLower got = lookup (parseLines stringToLower (i + 4)
        { reqStatus := .headerReceiving, rbuf := got } (got.take (i + 4))).headers
          (bytes "content-length") := by
      rw [storedLength, hi]
      exact if_neg hlong
    rw [parsed, parseHeader]
    dsimp only
    rw [← separator, hi]
    dsimp only
    rw [parseGetUrl_headers, ← hstored]
    exact if_neg hlong

/-- Without a Content-Length header nothing is announced. -/
theorem parsed_of_none (hblock : HasBlock got) (h : storedLength stringToLower got = none) :
    (parsed stringToLower got).2 ≠ .exception ∧
      (parsed stringToLower got).1.remainRecvLen = 0 := by
  obtain ⟨i, hi⟩ := Option.isSome_iff_exists.mp hblock
  by_cases hlong : i + 4 ≤ 5
  · have hmal : parsed stringToLower got =
        ({ reqStatus := .headerReceiving, rbuf := got }, .malformed) := by
      rw [parsed, parseHeader]
      dsimp only
      rw [← separator, hi]
      exact if_pos hlong
    rw [hmal]
    exact ⟨by simp, rfl⟩
  · obtain ⟨r, -, heq⟩ := @parsed_eq stringToLower got i hi hlong
    rw [heq, h]
    exact ⟨by simp, rfl⟩

/-- With one, what `std::stoul` makes of it is announced. -/
theorem parsed_of_some {s : Bytes} (h : storedLength stringToLower got = some s) :
    ∃ i r, r.rbuf = got ∧ parsed stringToLower got =
      match stoul s with
      | none => (r, .exception)
      | some n => (takeHeaders r n, .header (i + 4)) := by
  have hlong : ∃ i, findSub separator (cstr got) = some i ∧ ¬i + 4 ≤ 5 := by
    unfold storedLength at h
    split at h
    · simp at h
    case _ i hi =>
      split_ifs at h with hshort
      exact ⟨i, hi, hshort⟩
  obtain ⟨i, hi, hlong⟩ := hlong
  obtain ⟨r, hr, heq⟩ := @parsed_eq stringToLower got i hi hlong
  refine ⟨i, r, hr, ?_⟩
  rw [heq, h]
  rfl

end Parsed

/-! ### One turn -/

/-- Before the end of the header, the request is all that has come. -/
def HeadOnly (r : HTTPRequest) : Prop :=
  r.reqStatus = .headerReceiving → r = { reqStatus := .headerReceiving, rbuf := r.rbuf }

theorem headerParsed_status (x : Reading) (needReply : Bool) (len : ℕ) :
    (headerParsed x needReply len).Holds (fun x' => x'.request.reqStatus ≠ .headerReceiving)
      fun x' st => st ≠ some .readError ∧ x'.request.reqStatus ≠ .headerReceiving := by
  unfold headerParsed
  dsimp only [Reading.emit]
  split_ifs <;> simp [Turn.Holds]

/-- A turn for a read in the header. -/
theorem turn_header {security : Bool} {e : Env} {x : Reading} {bs : Bytes} {t : Turn}
    (hfresh : HeadOnly x.request) (hst : x.request.reqStatus = .headerReceiving)
    (ht : turnOf stringToLower security e x (.data bs) = some t) :
    ∃ x' : Reading, x'.request = { reqStatus := .headerReceiving, rbuf := x.request.rbuf ++ bs } ∧
      t = headerTurn stringToLower x' e.needReply := by
  unfold turnOf at ht
  rw [hst] at ht
  rcases readThen_cases ht with ⟨hnone, -⟩ | ⟨bs', x', hbs, -, -, -, -, hreq, rfl⟩
  · simp [piece] at hnone
  · obtain rfl := Recv.data.inj hbs
    refine ⟨x', ?_, rfl⟩
    rw [hreq, hfresh hst]
    rfl

/-- A header block whose Content-Length header `std::stoul` accepts: `kReadError` is for the size of
the read only. -/
theorem headerTurn_error_iff {x : Reading} {needReply : Bool} {r : HTTPRequest} {len : ℕ}
    (h : parseHeader stringToLower x.request = (r, .header len)) :
    (∃ x', headerTurn stringToLower x needReply = .ret x' (some .readError)) ↔
      kHTTPMaxHeader < r.rbuf.length := by
  unfold headerTurn
  dsimp only
  rw [h]
  dsimp only
  by_cases hbig : kHTTPMaxHeader < r.rbuf.length
  · rw [if_pos hbig]
    exact ⟨fun _ => hbig, fun _ => ⟨_, rfl⟩⟩
  · rw [if_neg hbig]
    refine ⟨fun ⟨x', hx'⟩ => ?_, fun h => absurd h hbig⟩
    have hholds := headerParsed_status
      { x with overflow := x.overflow || decide (kHTTPMaxMessage ≤ x.request.rbuf.length)
               request := r } needReply len
    rw [hx'] at hholds
    exact absurd rfl hholds.1

theorem taken_iff {security : Bool} {e : Env} {x : Reading} {r : Recv} {t : Turn}
    (hfresh : HeadOnly x.request) (ht : turnOf stringToLower security e x r = some t) :
    LengthTaken stringToLower security e x r ↔ LengthSound stringToLower e x r := by
  cases r with
  | again => exact Iff.rfl
  | closed => exact Iff.rfl
  | data bs =>
    refine forall_congr' fun hst => forall_congr' fun hblock => ?_
    obtain ⟨x', hx', rfl⟩ := turn_header hfresh hst ht
    have hparsed : parseHeader stringToLower { x.request with rbuf := x.request.rbuf ++ bs } =
        parsed stringToLower (x.request.rbuf ++ bs) := by
      rw [hfresh hst]
      rfl
    rw [ht]
    dsimp only
    rw [hparsed]
    cases hs : storedLength stringToLower (x.request.rbuf ++ bs) with
    | none => exact ⟨fun _ s h => by simp at h, fun _ => parsed_of_none hblock hs⟩
    | some s =>
      obtain ⟨i, r, hr, heq⟩ := parsed_of_some hs
      simp only [Option.some.injEq, forall_eq']
      by_cases hlen : IsLength s
      · rw [stoul_of_isLength hlen] at heq
        rw [heq, if_pos hlen]
        exact ⟨fun _ => .inl hlen, fun _ => ⟨by simp, rfl⟩⟩
      · rw [if_neg hlen]
        cases hval : stoul s with
        | none =>
          rw [heq, hval]
          simp [hlen]
        | some n =>
          rw [hval] at heq
          have herror := @headerTurn_error_iff stringToLower x' e.needReply _ _
            (by rw [hx']; exact heq)
          have hrbuf : (takeHeaders r n).rbuf = x.request.rbuf ++ bs := hr
          rw [hrbuf] at herror
          rw [heq]
          simp only [herror, hlen, false_or, Option.isSome_some, true_and, ne_eq,
            reduceCtorEq, not_false_eq_true]

/-- A header is parsed from all that has come, whatever was in the headers before. -/
theorem turn_fresh {security : Bool} {e : Env} {x : Reading} {r : Recv} {t : Turn}
    (hfresh : HeadOnly x.request) (ht : turnOf stringToLower security e x r = some t) :
    t.Holds (fun x' => HeadOnly x'.request) (Kept HeadOnly) := by
  rcases turnOf_eq_some ht with ⟨hst, ht⟩ | ⟨hst, ht⟩
  · rcases readThen_cases ht with ⟨-, st, -, rfl⟩ | ⟨bs, x₁, -, -, -, -, -, hreq, rfl⟩
    · exact fun _ => .inr hfresh
    · have hx₁ : HeadOnly x₁.request := by
        rw [hreq, hfresh hst]
        exact fun _ => rfl
      refine headerTurn_rule (fun r _ h => ?_) (fun r _ h => ?_) (fun r _ _ hp => ?_)
        fun r len _ _ => ?_
      · simp [goesOn] at h
      · simp [goesOn] at h
      · obtain rfl := parseHeader_incomplete hp
        exact hx₁
      · refine (headerParsed_status _ _ len).imp (fun y hy => ?_) fun y st hy _ => .inr ?_
        · exact fun h => absurd h hy
        · exact fun h => absurd h hy.2
  · rcases readThen_cases ht with ⟨-, st, -, rfl⟩ | ⟨bs, x₁, -, -, -, -, -, hreq, rfl⟩
    · exact fun _ => .inr hfresh
    · obtain ⟨x₂, hturn, -, hbody⟩ := bodyTurn_remain x₁ (by rw [hreq, hst])
      rw [hturn]
      intro h
      rcases hbody with hbody | ⟨hbody, -⟩ <;> simp [hbody] at h

/-! ### The run -/

/-- **In a run, every Content-Length header is taken for its value or refused with `kReadError`,
precisely if each of them is a decimal number of 64 bits**, or comes with a read that is refused for
its size. -/
theorem lengths_iff (stringToLower : Bytes → Bytes) (security : Bool) (ops : List Op) :
    Guarded (step stringToLower security)
        (Throughout stringToLower (LengthTaken stringToLower security) security) {} ops ↔
      Guarded (step stringToLower security)
        (Throughout stringToLower (LengthSound stringToLower) security) {} ops :=
  guarded_turns_iff (Q := HeadOnly) (fun _ => rfl) (fun _ _ _ _ hQ ht => taken_iff hQ ht)
    (fun _ _ _ _ hQ _ ht => turn_fresh hQ ht) ops

/-- A call that reads a head with a given Content-Length header first. -/
def withLength (value : String) (rs : List Recv) : Op :=
  .getRequest ⟨.data (bytes "PUT /a HTTP/1.1\r\nContent-Length: " ++ bytes value ++ [CR, LF, CR, LF])
    :: rs, false, []⟩

/-- The process is terminated by the exception, or the connection waits for `2 ^ 64 - 1` bytes, or for
twelve. -/
theorem lengths_misread :
    (step asciiLower false {} (withLength "abc" [])).calls = [(none, [])] ∧
      (step asciiLower false {} (withLength "-1" [.again])).request.remainRecvLen = 2 ^ 64 - 1 ∧
      (step asciiLower false {} (withLength "12abc" [.again])).request.remainRecvLen = 12 ∧
      ¬Guarded (step asciiLower false)
        (Throughout asciiLower (LengthTaken asciiLower false) false) {} [withLength "abc" []] := by
  refine ⟨by decide +kernel, by decide +kernel, by decide +kernel, fun h => ?_⟩
  have hturns := h.1 (by decide +kernel)
  have hthrown := (hturns _ List.mem_cons_self rfl (by decide +kernel)).1
  exact absurd (by decide +kernel) hthrown

end Pink.Http.Lengths
