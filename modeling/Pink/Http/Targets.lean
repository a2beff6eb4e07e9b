import Pink.Http.Params

/-! # Request targets

`ParseGetUrl` is to remove scheme and host from a target of the form `http://` host path. It removes
the first `7 + host.size()` characters of any target that is longer than that and in which the host
occurs anywhere. So a target is treated rightly exactly if the host does not occur in it, it is not
longer, or it has the form for which the removal is meant (`target_iff`). `Request::ParseGetUrl`
takes a missing host for an empty one, which occurs everywhere. -/

namespace Pink.Http.Targets

open Pink.Redis.Wire Pink.Http.Request Pink.Http.Simple Pink.Http.Params

/-! ### What is meant -/

/-- The part of a target before the first question mark. -/
def before (target : Bytes) : Bytes := target.takeWhile (· ≠ ch '?')

/-- The part behind it. -/
def behind (target : Bytes) : Bytes := (target.dropWhile (· ≠ ch '?')).tail

/-- The target is of the form `http://` host path. -/
def Absolute (target host : Bytes) : Prop := bytes "http://" ++ host <+: target

instance (target host : Bytes) : Decidable (Absolute target host) :=
  inferInstanceAs (Decidable (_ <+: _))

/-- **A target is treated rightly**: `formatted`, what is left of it after the removal, is the target
itself if it starts with a slash, path and parameters are then its two parts, and what is removed from
a target is scheme and host. -/
structure Right (target host formatted path : Bytes) (old new : Params) : Prop where
  origin : target.head? = some (ch '/') →
    formatted = target ∧ path = before target ∧ new = parameters old (behind target)
  absolute : formatted ≠ target → target = bytes "http://" ++ host ++ formatted

/-- The host occurs in a target that is longer than `http://` and the host. -/
def Mentions (target host : Bytes) : Prop := host <:+: target ∧ 7 + host.length < target.length

instance (target host : Bytes) : Decidable (Mentions target host) :=
  inferInstanceAs (Decidable (_ ∧ _))

/-! ### What the code does -/

theorem findSub_isSome (pat s : Bytes) : (findSub pat s).isSome ↔ pat <:+: s := by
  induction s with
  | nil =>
    rw [findSub, List.infix_nil]
    split_ifs with h <;> simp [h]
  | cons b s ih =>
    rw [findSub, List.infix_cons_iff]
    by_cases h : pat.isPrefixOf (b :: s) = true
    · rw [if_pos h]
      exact ⟨fun _ => .inl (List.isPrefixOf_iff_prefix.1 h), fun _ => rfl⟩
    · rw [if_neg h, Option.isSome_map, ih]
      refine ⟨.inr, fun hor => hor.resolve_left fun hpre => h ?_⟩
      exact List.isPrefixOf_iff_prefix.2 hpre

/-- The cut is made in every target that mentions the host. -/
theorem cut_eq (target host : Bytes) :
    (if (findSub host target).isSome ∧ 7 + host.length < target.length then
      target.drop (7 + host.length) else target) =
      if Mentions target host then target.drop (7 + host.length) else target := by
  by_cases h : Mentions target host
  · rw [if_pos h, if_pos ⟨(findSub_isSome host target).2 h.1, h.2⟩]
  · rw [if_neg h, if_neg fun h' => h ⟨(findSub_isSome host target).1 h'.1, h'.2⟩]

theorem parameters_nil (m : Params) : parameters m [] = m := by
  rw [parameters, segments_nil]
  rfl

/-- Path and parameters are the two parts of what is left of the target. -/
theorem cut_parts (s : Bytes) :
    (findChar (ch '?') s = s.length → before s = s ∧ behind s = []) ∧
      (findChar (ch '?') s ≠ s.length →
        s.take (findChar (ch '?') s) = before s ∧ s.drop (findChar (ch '?') s + 1) = behind s) := by
  by_cases hmem : ch '?' ∈ s
  · obtain ⟨p, q, rfl, hp⟩ := List.eq_append_cons_of_mem hmem
    have hidx : findChar (ch '?') (p ++ ch '?' :: q) = p.length := by
      rw [findChar_append_of_notMem hp, findChar_cons_self, Nat.zero_add]
    obtain ⟨htake, hdrop⟩ := takeWhile_append_cons hp q
    rw [hidx, before, behind, htake, hdrop, List.tail_cons]
    refine ⟨fun h => absurd h (by simp), fun _ => ⟨List.take_left, ?_⟩⟩
    rw [← List.drop_drop, List.drop_left]
    rfl
  · obtain ⟨htake, hdrop⟩ := takeWhile_of_notMem hmem
    have hidx := findChar_of_notMem hmem
    exact ⟨fun _ => ⟨htake, by rw [behind, hdrop]; rfl⟩, fun h => absurd hidx h⟩

/-- `HTTPRequest::ParseGetUrl`. -/
theorem parseGetUrl_parts (r : HTTPRequest) :
    (Request.parseGetUrl r).path = before (Request.formatPath r) ∧
      (Request.parseGetUrl r).queryParams =
        parameters r.queryParams (behind (Request.formatPath r)) := by
  obtain ⟨hno, hyes⟩ := cut_parts (Request.formatPath r)
  unfold Request.parseGetUrl
  dsimp only
  by_cases hn : findChar (ch '?') (Request.formatPath r) = (Request.formatPath r).length
  · rw [if_pos hn, (hno hn).1, (hno hn).2, parameters_nil]
    exact ⟨rfl, rfl⟩
  · rw [if_neg hn, (hyes hn).1]
    refine ⟨rfl, ?_⟩
    show (Request.parseParameters r _ _).queryParams = _
    rw [Request.parseParameters, parseParametersLoop_eq _ _ le_rfl, (hyes hn).2]

/-- `Request::ParseGetUrl`. -/
theorem simple_parseGetUrl_parts (r : Simple.Request) : ∃ r',
    Simple.parseGetUrl r = some r' ∧
      r'.path = before (Simple.formatPath r.path (takeHost r.headers).1) ∧
      r'.queryParams =
        parameters r.queryParams (behind (Simple.formatPath r.path (takeHost r.headers).1)) := by
  obtain ⟨hno, hyes⟩ := cut_parts (Simple.formatPath r.path (takeHost r.headers).1)
  unfold Simple.parseGetUrl
  generalize takeHost r.headers = h at *
  obtain ⟨host, headers⟩ := h
  dsimp only at hno hyes ⊢
  by_cases hn : findChar (ch '?') (Simple.formatPath r.path host) =
      (Simple.formatPath r.path host).length
  · rw [if_pos hn, (hno hn).1, (hno hn).2, parameters_nil]
    exact ⟨_, rfl, rfl, rfl⟩
  · rw [if_neg hn, (simple_parseParameters _ _ _).1, (hyes hn).2]
    exact ⟨_, rfl, (hyes hn).1, rfl⟩

theorem absolute_head {target host : Bytes} (h : Absolute target host) :
    target.head? = some (ch 'h') := by
  obtain ⟨t, rfl⟩ := h
  rfl

theorem absolute_eq {target host : Bytes} (h : Absolute target host) :
    target = bytes "http://" ++ host ++ target.drop (7 + host.length) := by
  obtain ⟨t, rfl⟩ := h
  have hlen : 7 + host.length = (bytes "http://" ++ host).length := by
    rw [List.length_append]
    rfl
  rw [hlen, List.drop_left]

/-- **One target and one host.** -/
theorem right_iff {target host formatted path : Bytes} {old new : Params}
    (hformatted : formatted = if Mentions target host then target.drop (7 + host.length) else target)
    (hpath : path = before formatted) (hnew : new = parameters old (behind formatted)) :
    Right target host formatted path old new ↔
      (Mentions target host → Absolute target host) := by
  constructor
  · intro hright hmen
    rw [if_pos hmen] at hformatted
    have hne : formatted ≠ target := by
      intro heq
      have hlen := congrArg List.length (hformatted.symm.trans heq)
      have hlong := hmen.2
      rw [List.length_drop] at hlen
      omega
    exact ⟨formatted, (hright.absolute hne).symm⟩
  · intro hcond
    refine ⟨fun hslash => ?_, fun hne => ?_⟩
    · have hno : ¬Mentions target host := by
        intro hmen
        have hh := absolute_head (hcond hmen)
        rw [hslash] at hh
        exact absurd hh (by decide)
      rw [if_neg hno] at hformatted
      exact ⟨hformatted, hformatted ▸ hpath, hformatted ▸ hnew⟩
    · by_cases hmen : Mentions target host
      · rw [if_pos hmen] at hformatted
        rw [hformatted]
        exact absolute_eq (hcond hmen)
      · rw [if_neg hmen] at hformatted
        exact absurd hformatted hne

/-- The host of a request without a `Host` header is taken to be empty. -/
theorem takeHost_fst (headers : Params) :
    (takeHost headers).1 = (lookup headers (bytes "host")).getD [] := by
  rw [takeHost]
  cases lookup headers (bytes "host") with
  | none => rfl
  | some host => rfl

/-- **Both parsers treat a target rightly exactly if it does not mention the host or has the absolute
form.** In `HTTPRequest` a target without a `Host` header mentions none; in `Request` it mentions the
empty one. -/
theorem target_iff (r : HTTPRequest) (q : Simple.Request) :
    (Right r.url ((lookup r.headers (bytes "host")).getD []) (Request.formatPath r)
        (Request.parseGetUrl r).path r.queryParams (Request.parseGetUrl r).queryParams ↔
      ∀ host, lookup r.headers (bytes "host") = some host →
        Mentions r.url host → Absolute r.url host) ∧
      ∃ q', Simple.parseGetUrl q = some q' ∧
        (Right q.path ((lookup q.headers (bytes "host")).getD [])
            (Simple.formatPath q.path ((lookup q.headers (bytes "host")).getD []))
            q'.path q.queryParams q'.queryParams ↔
          (Mentions q.path ((lookup q.headers (bytes "host")).getD []) →
            Absolute q.path ((lookup q.headers (bytes "host")).getD []))) := by
  constructor
  · obtain ⟨hpath, hnew⟩ := parseGetUrl_parts r
    cases hhost : lookup r.headers (bytes "host") with
    | none =>
      have hformatted : Request.formatPath r = r.url := by rw [Request.formatPath, hhost]
      rw [hformatted] at hpath hnew
      rw [hformatted]
      refine ⟨fun _ host h => by simp at h, fun _ => ⟨fun _ => ⟨rfl, hpath, hnew⟩, ?_⟩⟩
      exact fun hne => absurd rfl hne
    | some host =>
      have hformatted : Request.formatPath r =
          if Mentions r.url host then r.url.drop (7 + host.length) else r.url := by
        rw [Request.formatPath, hhost, ← cut_eq]
      rw [Option.getD_some, right_iff hformatted hpath hnew]
      refine ⟨fun h host' heq => ?_, fun h => h host rfl⟩
      obtain rfl := Option.some.inj heq
      exact h
  · obtain ⟨q', hq', hpath, hnew⟩ := simple_parseGetUrl_parts q
    rw [takeHost_fst] at hpath hnew
    exact ⟨q', hq', right_iff (cut_eq _ _) hpath hnew⟩

/-- A query that contains the value of `Host`, and any path without a `Host`. -/
theorem origin_form_rewritten :
    (¬Right (bytes "/go?to=www.a.b/x") (bytes "www.a.b")
      (Request.formatPath
        { url := bytes "/go?to=www.a.b/x", headers := [(bytes "host", bytes "www.a.b")] })
      (Request.parseGetUrl
        { url := bytes "/go?to=www.a.b/x", headers := [(bytes "host", bytes "www.a.b")] }).path
      [] (Request.parseGetUrl
        { url := bytes "/go?to=www.a.b/x",
          headers := [(bytes "host", bytes "www.a.b")] }).queryParams) ∧
      (Simple.parseGetUrl { path := bytes "/index.html" }).map (·.path) = some (bytes "html") ∧
      bytes "html" ≠ before (bytes "/index.html") := by
  refine ⟨fun hright => ?_, by decide +kernel, by decide +kernel⟩
  exact absurd (hright.origin (by decide +kernel)).1 (by decide +kernel)

end Pink.Http.Targets
