import Mathlib.Data.List.TakeWhile
import Pink.Http.Simple

/-! # Query and form parameters

What a parameter string stands for: one entry for every segment between ampersands, up to the
first equals sign the key and behind it the value, later entries overriding earlier ones
(`parameters`). The loops of `HTTPRequest::ParseParameters` and `Request::ParseParameters` compute
it, from any position of any string (`parameters_exact`). -/

namespace Pink.Http.Params

open Pink.Redis.Wire Pink.Http.Request Pink.Http.Simple

/-! ### The grammar -/

/-- The segments between ampersands, a trailing empty one excepted. -/
def segments (s : Bytes) : List Bytes :=
  let ss := s.splitOn (ch '&')
  if ss.getLast? = some [] then ss.dropLast else ss

/-- The key of a segment: up to its first equals sign. -/
def key (seg : Bytes) : Bytes := seg.takeWhile (· ≠ ch '=')

/-- The value of a segment: the rest behind the equals sign. -/
def value (seg : Bytes) : Bytes := (seg.dropWhile (· ≠ ch '=')).tail

/-- **The parameters of a string**, added to a map. -/
def parameters (m : Params) (s : Bytes) : Params :=
  (segments s).foldl (fun m seg => assign m (key seg) (value seg)) m

theorem segments_nil : segments [] = [] := by decide

theorem findChar_of_notMem {c : UInt8} {s : Bytes} (h : c ∉ s) : findChar c s = s.length := by
  refine List.findIdx_eq_length_of_false fun x hx => ?_
  rw [decide_eq_false_iff_not]
  rintro rfl
  exact h hx

theorem findChar_append_of_notMem {c : UInt8} {s : Bytes} (h : c ∉ s) (t : Bytes) :
    findChar c (s ++ t) = findChar c t + s.length := by
  have hlen := findChar_of_notMem h
  unfold findChar at hlen ⊢
  rw [List.findIdx_append, if_neg (by omega)]

theorem findChar_cons_self (c : UInt8) (s : Bytes) : findChar c (c :: s) = 0 := by
  rw [findChar, List.findIdx_cons, decide_eq_true rfl]
  rfl

theorem takeWhile_append_cons {c : UInt8} {s : Bytes} (h : c ∉ s) (t : Bytes) :
    (s ++ c :: t).takeWhile (· ≠ c) = s ∧ (s ++ c :: t).dropWhile (· ≠ c) = c :: t := by
  have hall : ∀ x ∈ s, decide (x ≠ c) = true := by
    intro x hx
    rw [decide_eq_true_iff]
    rintro rfl
    exact h hx
  constructor
  · rw [List.takeWhile_append_of_pos hall]
    simp
  · rw [List.dropWhile_append_of_pos hall]
    simp

theorem takeWhile_of_notMem {c : UInt8} {s : Bytes} (h : c ∉ s) :
    s.takeWhile (· ≠ c) = s ∧ s.dropWhile (· ≠ c) = [] := by
  have hall : ∀ x ∈ s, decide (x ≠ c) = true := by
    intro x hx
    rw [decide_eq_true_iff]
    rintro rfl
    exact h hx
  exact ⟨List.takeWhile_eq_self_iff.mpr hall, List.dropWhile_eq_nil_iff.mpr hall⟩

/-- **The first segment** ends at the first ampersand. -/
theorem first_segment {rest : Bytes} (h : rest ≠ []) :
    ∃ seg t, rest = seg ++ t ∧ findChar (ch '&') rest = seg.length ∧
      segments rest = seg :: segments (rest.drop (seg.length + 1)) := by
  by_cases hmem : ch '&' ∈ rest
  · obtain ⟨seg, t, rfl, hseg⟩ := List.eq_append_cons_of_mem hmem
    refine ⟨seg, ch '&' :: t, rfl, ?_, ?_⟩
    · rw [findChar_append_of_notMem hseg, findChar_cons_self, Nat.zero_add]
    · have hdrop : (seg ++ ch '&' :: t).drop (seg.length + 1) = t := by
        rw [← List.drop_drop, List.drop_left]
        rfl
      have hne : t.splitOn (ch '&') ≠ [] := List.splitOn_ne_nil _ _
      rw [hdrop, segments, segments, List.splitOn_append_cons_self_of_not_mem hseg]
      rw [List.getLast?_cons_of_ne_nil hne, List.dropLast_cons_of_ne_nil hne]
      split_ifs <;> rfl
  · refine ⟨rest, [], (List.append_nil _).symm, findChar_of_notMem hmem, ?_⟩
    rw [List.drop_eq_nil_of_le (Nat.le_succ _), segments_nil, segments,
      List.splitOn_eq_singleton hmem]
    simp [h]

/-- **One turn of the loop** adds the first segment. -/
theorem parameters_step {rest : Bytes} (h : rest ≠ []) (m : Params) :
    parameters m rest = parameters
      (if findChar (ch '&') rest ≤ findChar (ch '=') rest then
        assign m (rest.take (findChar (ch '&') rest)) []
      else assign m (rest.take (findChar (ch '=') rest))
        ((rest.drop (findChar (ch '=') rest + 1)).take
          (findChar (ch '&') rest - findChar (ch '=') rest - 1)))
      (rest.drop (findChar (ch '&') rest + 1)) := by
  obtain ⟨seg, t, rfl, hstop, hsegs⟩ := first_segment h
  rw [parameters, hsegs, List.foldl_cons, hstop, parameters]
  congr 1
  by_cases heq : ch '=' ∈ seg
  · obtain ⟨k, v, rfl, hk⟩ := List.eq_append_cons_of_mem heq
    have hmid : findChar (ch '=') ((k ++ ch '=' :: v) ++ t) = k.length := by
      rw [List.append_assoc, findChar_append_of_notMem hk, List.cons_append, findChar_cons_self,
        Nat.zero_add]
    obtain ⟨htake, hdrop⟩ := takeWhile_append_cons hk v
    have hval : (((k ++ ch '=' :: v) ++ t).drop (k.length + 1)).take
        ((k ++ ch '=' :: v).length - k.length - 1) = v := by
      rw [List.append_assoc, ← List.drop_drop, List.drop_left, List.cons_append, List.drop_one,
        List.tail_cons, show (k ++ ch '=' :: v).length - k.length - 1 = v.length by simp,
        List.take_left]
    have hkey : ((k ++ ch '=' :: v) ++ t).take k.length = k := by
      rw [List.append_assoc, List.take_left]
    rw [hmid, if_neg (by simp), hval, hkey, key, value, htake, hdrop, List.tail_cons]
  · obtain ⟨htake, hdrop⟩ := takeWhile_of_notMem heq
    have hmid := findChar_append_of_notMem heq t
    rw [if_pos (by omega), List.take_left, key, value, htake, hdrop, List.tail_nil]

/-! ### The loops -/

theorem parseParametersLoop_eq (fuel : ℕ) : ∀ (m : Params) {rest : Bytes}, rest.length ≤ fuel →
    parseParametersLoop fuel m rest = parameters m rest := by
  induction fuel with
  | zero =>
    intro m rest h
    obtain rfl : rest = [] := List.length_eq_zero_iff.mp (by omega)
    rfl
  | succ fuel ih =>
    intro m rest h
    rw [parseParametersLoop]
    by_cases hnil : rest = []
    · rw [if_pos hnil, hnil, parameters, segments_nil]
      rfl
    · rw [if_neg hnil, parameters_step hnil]
      dsimp only
      have hpos := List.length_pos_iff.mpr hnil
      exact ih _ (by rw [List.length_drop]; omega)

theorem parametersLoop_eq (data : Bytes) (fuel : ℕ) : ∀ (pre : ℕ) (m : Params),
    data.length - pre < fuel →
      parametersLoop data fuel pre m = some (parameters m (data.drop pre)) := by
  induction fuel with
  | zero => intro pre m h; omega
  | succ fuel ih =>
    intro pre m h
    rw [parametersLoop]
    by_cases hend : data.length ≤ pre
    · rw [if_pos hend, List.drop_eq_nil_of_le hend, parameters, segments_nil]
      rfl
    · rw [if_neg hend]
      have hnil : data.drop pre ≠ [] := by
        intro hnil
        exact hend (List.drop_eq_nil_iff.mp hnil)
      have hback : ∀ c, findFrom c data pre = pre + findChar c (data.drop pre) := fun _ => rfl
      have hnext : data.drop (pre + findChar (ch '&') (data.drop pre) + 1) =
          (data.drop pre).drop (findChar (ch '&') (data.drop pre) + 1) := by
        rw [List.drop_drop, Nat.add_assoc]
      rw [parameters_step hnil, ← hnext]
      dsimp only
      rw [hback, hback]
      by_cases hle : findChar (ch '&') (data.drop pre) ≤ findChar (ch '=') (data.drop pre)
      · rw [if_pos (by omega), if_pos hle, ih _ _ (by omega), substr, Nat.add_sub_cancel_left]
      · rw [if_neg (by omega), if_neg hle, ih _ _ (by omega), substr, substr,
          Nat.add_sub_cancel_left, List.drop_drop, Nat.add_assoc, Nat.add_sub_add_left]

theorem simple_parseParameters (r : Simple.Request) (data : Bytes) (lineStart : ℕ) :
    Simple.parseParameters r data lineStart true =
        some { r with queryParams := parameters r.queryParams (data.drop lineStart) } ∧
      Simple.parseParameters r data lineStart false =
        some { r with postParams := parameters r.postParams (data.drop lineStart) } := by
  have hloop := fun m => parametersLoop_eq data (data.length + 1) lineStart m (by omega)
  constructor
  · rw [Simple.parseParameters, if_pos rfl, hloop]
    rfl
  · rw [Simple.parseParameters, if_neg (by simp), hloop]
    rfl

/-- **The loops compute the parameters of the string**, from every position and into every map: the
loop ends, `HTTPRequest::ParseParameters` fills `query_params_` with its result, and
`Request::ParseParameters` the map that it is asked for. So both produce the same map. -/
theorem parameters_exact (data : Bytes) (lineStart : ℕ) :
    (∀ m fuel, data.length - lineStart < fuel →
      parametersLoop data fuel lineStart m = some (parameters m (data.drop lineStart))) ∧
    (∀ r : HTTPRequest, Request.parseParameters r data lineStart =
      { r with queryParams := parameters r.queryParams (data.drop lineStart) }) ∧
    ∀ r : Simple.Request,
      Simple.parseParameters r data lineStart true =
        some { r with queryParams := parameters r.queryParams (data.drop lineStart) } ∧
      Simple.parseParameters r data lineStart false =
        some { r with postParams := parameters r.postParams (data.drop lineStart) } := by
  refine ⟨fun m fuel => parametersLoop_eq data fuel lineStart m, fun r => ?_,
    fun r => simple_parseParameters r data lineStart⟩
  rw [Request.parseParameters, parseParametersLoop_eq _ _ le_rfl]

example : parameters [] (bytes "a=1&&b==2&a=3&") =
    [([], []), (bytes "a", bytes "3"), (bytes "b", bytes "=2")] := by decide +kernel

end Pink.Http.Params
