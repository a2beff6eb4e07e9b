import Pink.Redis.Fragment

/-! # Feeding the parser

The parser fed with a sequence of chunks is a consumer of a divided stream: `feedCall` is one call
on the progress and the kept bytes, and `feed_ends` says that the parser does what `feedAll` of it
says. With `composes` the laws of divided streams apply: on a steady stream any two divisions give
the same commands, the same verdict and the same final status (`feed_congr`). -/

namespace Pink.Redis.Feed

open Pink.Redis.Wire Pink.Redis.Parser Pink.Redis.Scan Pink.Redis.Refine Pink.Redis.Fragment
open Pink.Redis.Parser.RedisParser Pink.Lib.Chunks

/-! ### Calls as a consumer -/

/-- One call, from the progress and the kept bytes `s`. -/
def feedCall (string2l : Bytes → ℕ → Option ℤ) (s : Req × Bytes) (c : Bytes) :
    List Argv × ((Req × Bytes) ⊕ (RedisParserError ⊕ Fault)) :=
  result (call string2l s.1 (s.2 ++ c))

/-- The rest of a steady stream of length `total`. -/
def Good (string2l : Bytes → ℕ → Option ℤ) (total : ℕ) (s : Req × Bytes) (c : Bytes) : Prop :=
  (s.2 ++ c).length ≤ total ∧ SteadyFrom string2l total ((s.2 ++ c).length + 1) s.1 (s.2 ++ c)

theorem good_fresh {string2l : Bytes → ℕ → Option ℤ} {s : Bytes} (h : Steady string2l s) :
    Good string2l s.length (.fresh, []) s := ⟨le_rfl, h⟩

/-- **On a steady stream the calls compose.** -/
theorem composes {string2l : Bytes → ℕ → Option ℤ} (hs : String2lSpec string2l) {total : ℕ}
    (htot : total < 2 ^ 31) : Composes (feedCall string2l) between (Good string2l total) := by
  have key : ∀ (s : Req × Bytes) (a b : Bytes), a ≠ [] → b ≠ [] → Good string2l total s (a ++ b) →
      seen between (feedCall string2l s (a ++ b)) =
        seen between (both string2l (call string2l s.1 (s.2 ++ a)) b) ∧
      ∀ q h, (call string2l s.1 (s.2 ++ a)).2 = .wait q h → h.length ≤ (s.2 ++ a).length ∧
        SteadyFrom string2l total ((h ++ b).length + 1) q (h ++ b) := by
    rintro ⟨q, h⟩ a b ha hb ⟨hle, hst⟩
    dsimp only at hle hst ⊢
    rw [← List.append_assoc] at hle hst
    have hlen : (h ++ a ++ b).length = (h ++ a).length + b.length := List.length_append
    have := scan_append hs htot hb (h ++ a).length (h ++ a ++ b).length
      (by omega) (by omega) ((h ++ a ++ b).length + 1) q (h ++ a) (lt_add_one _)
      (fun hnil => by simp [ha] at hnil) le_rfl le_rfl hst
    rw [scan_fuel (h ++ a).length ((h ++ a ++ b).length + 1) ((h ++ a).length + 1) q (h ++ a)
      (by omega) (by omega)] at this
    rw [feedCall, ← List.append_assoc]
    exact this
  refine ⟨fun s a b ha hb hg => (key s a b ha hb hg).1, fun s a b s' ha hb hg hw => ?_⟩
  obtain ⟨-, h2⟩ := key s a b ha hb hg
  obtain ⟨hle, -⟩ := hg
  rcases he : (call string2l s.1 (s.2 ++ a)).2 with ⟨q, h⟩ | e | f <;>
    rw [feedCall, result, he] at hw <;> simp only [outcome, Sum.inl.injEq, reduceCtorEq] at hw
  subst hw
  obtain ⟨h3, h4⟩ := h2 q h he
  refine ⟨?_, h4⟩
  simp only [List.length_append] at hle h3 ⊢
  omega

/-! ### The parser -/

/-- What has been delivered is in a batch, or waits for the next one. -/
def Balanced (p : RedisParser) : Prop :=
  (batches p.log).flatten ++ p.argvs.map lowerName = (dealt p.log).map lowerName

/-- The parser has returned from a call that waits with the progress `q`. -/
def Returned (p : RedisParser) (q : Req) : Prop :=
  p.statusCode = (if q = .fresh then .done else .half) ∧ (q = .fresh → p.argvs = [])

/-- How the parser stands at the end `x` of a feed. -/
def Standing (p : RedisParser) : (Req × Bytes) ⊕ (RedisParserError ⊕ Fault) → Prop
  | .inl (q, h) => Ready p q h ∧ Balanced p
  | .inr (.inl _) => p.fault = none ∧ p.statusCode = .error
  | .inr (.inr f) => p.fault = some f

variable {string2l : Bytes → ℕ → Option ℤ}

/-- A scan that waits keeps a part of what it was given, and nothing between two requests. -/
theorem scan_wait {l : ℤ} : ∀ {n : ℕ} {q q' : Req} {r h : Bytes},
    (scan string2l l n q r).2 = .wait q' h → h.length ≤ r.length ∧ (q' = .fresh → h = [])
  | 0, _, _, _, _, hw => by cases hw
  | n + 1, q, q', r, h, hw => by
    simp only [scan] at hw
    by_cases hfr : q = .fresh ∧ r = []
    · rw [if_pos hfr] at hw; cases hw; simp
    rw [if_neg hfr] at hw
    rcases hm : step string2l l q r with ⟨p, s⟩ | e | f | ⟨p, s⟩ | ⟨w, s⟩ <;> rw [hm] at hw <;>
      dsimp only at hw
    · cases hw
      exact ⟨step_wait_le hm, fun hq => absurd hq (step_wait_ne_fresh hm)⟩
    · cases hw
    · cases hw
    · have := step_next_shorter hm
      obtain ⟨h1, h2⟩ := scan_wait hw
      exact ⟨by omega, h2⟩
    · rw [deliver_snd] at hw
      have := step_emit_shorter hm
      obtain ⟨h1, h2⟩ := scan_wait hw
      exact ⟨by omega, h2⟩

theorem call_ends {p : RedisParser} {q q' : Req} {h c h' : Bytes} {em : List Argv}
    (hp : Ready p q h) (hbal : Balanced p) (hc : c ≠ []) (hlen : (h ++ c).length < 2 ^ 31)
    (hcall : call string2l q (h ++ c) = (em, .wait q' h')) :
    Ready (p.processInputBuffer string2l c) q' h' ∧ Balanced (p.processInputBuffer string2l c) ∧
      Returned (p.processInputBuffer string2l c) q' ∧
      dealt (p.processInputBuffer string2l c).log = dealt p.log ++ em := by
  have hE := processInputBuffer_ends string2l hp hc hlen
  rw [hcall] at hE
  have hfresh : q' = .fresh → h' = [] :=
    (scan_wait (n := (h ++ c).length + 1) (l := (h ++ c).length) (by rw [← call, hcall])).2
  have hready := hp.next hE hfresh
  obtain ⟨-, -, hd, hst⟩ := hE
  dsimp only at hd hst
  refine ⟨hready, ?_, ?_, hd⟩
  · unfold Balanced at hbal ⊢
    rw [hd, List.map_append, ← hbal]
    cases q' <;> obtain ⟨-, -, -, -, ha, hb⟩ := hst <;> rw [ha, hb] <;> simp
  · cases q' <;> obtain ⟨-, hs, -, -, ha, -⟩ := hst <;> exact ⟨by simp [hs], by simp [ha]⟩

theorem feed_cons (p : RedisParser) (c : Bytes) (cs : List Bytes) :
    p.feed string2l (c :: cs) = (p.processInputBuffer string2l c).feed string2l cs := rfl

/-- A parser with a fault is stuck. -/
theorem feed_fault {f : Fault} : ∀ {cs : List Bytes} {p : RedisParser}, p.fault = some f →
    p.feed string2l cs = p := by
  intro cs
  induction cs with
  | nil =>
    intro _ _
    rfl
  | cons c cs ih =>
    intro p h
    have hc : p.processInputBuffer string2l c = p := by
      rw [processInputBuffer, if_pos (by simp [h])]
    rw [feed_cons, hc]; exact ih h

variable (string2l) in
/-- After an error the parser rejects every chunk. -/
theorem feed_error : ∀ (cs : List Bytes) {p : RedisParser}, p.fault = none →
    p.statusCode = .error → (p.feed string2l cs).fault = none ∧
      (p.feed string2l cs).statusCode = .error ∧ (p.feed string2l cs).log = p.log := by
  intro cs
  induction cs with
  | nil =>
    intro _ hf hs
    exact ⟨hf, hs, rfl⟩
  | cons c cs ih =>
    intro p hf hs
    have hc : p.processInputBuffer string2l c = p.setParserStatus .error .initError := by
      rw [processInputBuffer, if_neg (by simp [hf]), if_neg (by simp [hs])]
    rw [feed_cons, hc]
    exact ih (p := p.setParserStatus .error .initError) hf rfl

variable (string2l) in
/-- **The parser does what the consumer does.** -/
theorem feed_ends : ∀ (cs : List Bytes) {p : RedisParser} {q : Req} {h : Bytes}, Ready p q h →
    Balanced p → (∀ c ∈ cs, c ≠ []) → (h ++ cs.flatten).length < 2 ^ 31 →
    dealt (p.feed string2l cs).log = dealt p.log ++ (feedAll (feedCall string2l) (q, h) cs).1 ∧
    Standing (p.feed string2l cs) (feedAll (feedCall string2l) (q, h) cs).2 ∧
    ∀ q' h', (feedAll (feedCall string2l) (q, h) cs).2 = .inl (q', h') →
      cs = [] ∨ Returned (p.feed string2l cs) q' := by
  intro cs
  induction cs with
  | nil =>
    intro p q h hp hb _ _
    refine ⟨?_, ⟨hp, hb⟩, fun _ _ _ => .inl rfl⟩
    simp [feedAll, RedisParser.feed]
  | cons c cs ih =>
    intro p q h hp hb hne hlen
    have hc := hne c (by simp)
    have hl : (h ++ c).length < 2 ^ 31 := by
      simp only [List.flatten_cons, List.length_append] at hlen ⊢; omega
    have hE := processInputBuffer_ends string2l hp hc hl
    rw [feed_cons, feedAll, feedCall]
    rcases hx : call string2l q (h ++ c) with ⟨em, ⟨q', h'⟩ | e | f⟩
    · obtain ⟨r1, r2, r3, r4⟩ := call_ends hp hb hc hl hx
      have hle := (scan_wait (n := (h ++ c).length + 1) (l := (h ++ c).length)
        (by rw [← call, hx])).1
      have hl' : (h' ++ cs.flatten).length < 2 ^ 31 := by
        simp only [List.flatten_cons, List.length_append] at hlen hle ⊢; omega
      obtain ⟨i1, i2, i3⟩ := ih r1 r2 (fun d hd => hne d (List.mem_cons_of_mem _ hd)) hl'
      refine ⟨by rw [i1, r4]; simp [result, outcome, andThen], i2, fun q'' h'' hq => .inr ?_⟩
      rcases i3 q'' h'' hq with rfl | h3
      · cases hq; exact r3
      · exact h3
    · rw [hx] at hE
      obtain ⟨-, -, hd, hf, hs, -, -⟩ := hE
      obtain ⟨i1, i2, i3⟩ := feed_error string2l cs hf hs
      refine ⟨by rw [i3, hd]; rfl, ⟨i1, i2⟩, fun q'' h'' hq => by cases hq⟩
    · rw [hx] at hE
      obtain ⟨-, -, hd, hf, -⟩ := hE
      rw [feed_fault hf]
      exact ⟨by rw [hd]; rfl, hf, fun q'' h'' hq => by cases hq⟩

/-! ### Fresh parsers -/

/-- A fresh parser with callbacks that return `0`, fed with the chunks. -/
def fed (string2l : Bytes → ℕ → Option ℤ) (cs : List Bytes) : RedisParser :=
  (freshRequest okSettings).feed string2l cs

variable (string2l) in
theorem fed_ends {cs : List Bytes} {s : Bytes} (h : Division cs s) (hlen : s.length < 2 ^ 31) :
    dealt (fed string2l cs).log = (feedAll (feedCall string2l) (.fresh, []) cs).1 ∧
    Standing (fed string2l cs) (feedAll (feedCall string2l) (.fresh, []) cs).2 ∧
    ∀ q h, (feedAll (feedCall string2l) (.fresh, []) cs).2 = .inl (q, h) →
      cs = [] ∨ Returned (fed string2l cs) q := by
  obtain ⟨h1, h2, h3⟩ := feed_ends string2l cs ready_fresh rfl h.nonempty
    (by rw [List.nil_append, h.flatten]; exact hlen)
  exact ⟨h1, h2, h3⟩

/-- A division of a steady stream shows what one call on the stream shows. -/
theorem seen_division (hs : String2lSpec string2l) {cs : List Bytes} {s : Bytes} (hne : s ≠ [])
    (hlen : s.length < 2 ^ 31) (hst : Steady string2l s) (h : Division cs s) :
    seen between (feedAll (feedCall string2l) (.fresh, []) cs) =
      seen between (result (call string2l .fresh s)) := by
  have := seen_feedAll (composes hs hlen) (h.ne_nil hne) h.nonempty
    (by rw [h.flatten]; exact good_fresh hst)
  rw [this, h.flatten]; rfl

/-- The parser has returned `kRedisParserError`. -/
def EndsInError (p : RedisParser) : Prop := p.fault = none ∧ p.statusCode = .error

instance (p : RedisParser) : Decidable (EndsInError p) := by unfold EndsInError; infer_instance

theorem Standing.endsInError {p : RedisParser}
    {x : (Req × Bytes) ⊕ (RedisParserError ⊕ Fault)} (h : Standing p x) :
    EndsInError p ↔ ∃ e, x = .inr (.inl e) := by
  obtain ⟨q, r⟩ | e | f := x
  · have hst := h.1.status
    simp only [EndsInError, reduceCtorEq, exists_false, iff_false, not_and]
    intro _ he
    rw [he] at hst; simp at hst
  · exact ⟨fun _ => ⟨e, rfl⟩, fun _ => h⟩
  · have hf : p.fault = some f := h
    simp [EndsInError, hf]

/-- Any two divisions of `s` pass the same commands to `DealMessage`, and the one ends in an error
if and only if the other does. -/
def Independent (string2l : Bytes → ℕ → Option ℤ) (s : Bytes) : Prop :=
  ∀ cs ds : List Bytes, Division cs s → Division ds s →
    dealt (fed string2l cs).log = dealt (fed string2l ds).log ∧
      (EndsInError (fed string2l cs) ↔ EndsInError (fed string2l ds))

/-- **A steady stream may be cut anywhere.** -/
theorem independent_of_steady (hs : String2lSpec string2l) (s : Bytes) (hlen : s.length < 2 ^ 31)
    (hst : Steady string2l s) : Independent string2l s := by
  intro cs ds hcs hds
  by_cases hne : s = []
  · subst hne
    have hnil : ∀ {es : List Bytes}, Division es [] → es = [] := fun {es} h => by
      rcases es with _ | ⟨e, es⟩
      · rfl
      · have := h.nonempty e (by simp)
        simpa [this] using h.flatten
    rw [hnil hcs, hnil hds]; exact ⟨rfl, Iff.rfl⟩
  have hseen := (seen_division hs hne hlen hst hcs).trans (seen_division hs hne hlen hst hds).symm
  obtain ⟨hc1, hc2, -⟩ := fed_ends string2l hcs hlen
  obtain ⟨hd1, hd2, -⟩ := fed_ends string2l hds hlen
  simp only [seen, Prod.mk.injEq] at hseen
  refine ⟨by rw [hc1, hd1, hseen.1], ?_⟩
  rw [hc2.endsInError, hd2.endsInError]
  have hmap : ∀ x : (Req × Bytes) ⊕ (RedisParserError ⊕ Fault),
      (∃ e, x = .inr (.inl e)) ↔ ∃ e, x.map between id = .inr (.inl e) := by
    rintro (x | x) <;> simp
  rw [hmap, hmap (feedAll (feedCall string2l) (.fresh, []) ds).2, hseen.2]

/-- A stream of an empty multibulk, a multibulk and an inline request. -/
theorem independent_mixed :
    Independent Wire.string2l (bytes "*0\r\n*1\r\n$4\r\nPING\r\nGET a\r\n") :=
  independent_of_steady string2l_spec _ (by decide +kernel) (by decide +kernel)

/-- An empty multibulk request in front of an inline one: cut between the two, the second is read
as a multibulk request. -/
theorem not_independent_empty : ¬ Independent Wire.string2l (bytes "*0\r\nPING\r\n") := by
  intro h
  have := h [bytes "*0\r\nPING\r\n"] [bytes "*0\r\n", bytes "PING\r\n"]
    ⟨by decide +kernel, by decide +kernel⟩ ⟨by decide +kernel, by decide +kernel⟩
  revert this
  decide +kernel

end Pink.Redis.Feed
