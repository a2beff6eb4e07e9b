import Mathlib.Data.List.DropRight
import Mathlib.Data.List.Sort
import Pink.Http.Heads

/-! # A form that comes in pieces

`ParseBodyFromArray` appends a piece of the body to the content and, for a form, parses all of the
content into the map of the parameters, which is not cleared before. What an earlier piece has put
there stays, unless the complete body has the same key. So the pieces lead to the same map as the
whole body exactly if every cut is harmless (`pieces_iff`): the segment that a cut leaves unfinished is
empty, or has its equals sign, or is a key of the body by itself. -/

namespace Pink.Http.Forms

open Pink.Redis.Wire Pink.Http.Request Pink.Http.Params Pink.Http.Heads
open Pink.Http.Simple (Params parseBodyFromArray parseHeadFromArray takeHeader)

/-! ### Maps as sorted lists -/

/-- The entries of a `std::map` are in the order of their keys. -/
def Ordered (m : Params) : Prop := m.Pairwise fun a b => a.1 < b.1

theorem mem_assign {m : Params} {k v : Bytes} {a : Bytes × Bytes} (h : a ∈ assign m k v) :
    a = (k, v) ∨ a ∈ m := by
  induction m with
  | nil => exact .inl (List.mem_singleton.mp h)
  | cons f m ih =>
    rw [assign] at h
    split_ifs at h with hk hlt
    · exact (List.mem_cons.mp h).imp id (List.mem_cons_of_mem _)
    · exact List.mem_cons.mp h
    · rcases List.mem_cons.mp h with rfl | h
      · exact .inr List.mem_cons_self
      · exact (ih h).imp id (List.mem_cons_of_mem _)

theorem Ordered.assign {m : Params} (h : Ordered m) (k v : Bytes) :
    Ordered (assign m k v) := by
  induction m with
  | nil => exact List.pairwise_singleton _ _
  | cons f m ih =>
    obtain ⟨hf, hm⟩ := List.pairwise_cons.mp h
    rw [Request.assign]
    split_ifs with hk hlt
    · exact List.pairwise_cons.mpr ⟨fun b hb => hk ▸ hf b hb, hm⟩
    · refine List.pairwise_cons.mpr ⟨fun b hb => ?_, h⟩
      rcases List.mem_cons.mp hb with rfl | hb
      · exact hlt
      · exact List.lt_trans hlt (hf b hb)
    · refine List.pairwise_cons.mpr ⟨fun b hb => ?_, ih hm⟩
      rcases mem_assign hb with rfl | hb
      · exact Std.lt_of_le_of_ne hlt (Ne.symm hk)
      · exact hf b hb

theorem Ordered.mem_iff {m : Params} (h : Ordered m) {k v : Bytes} :
    (k, v) ∈ m ↔ lookup m k = some v := by
  induction m with
  | nil => simp [lookup]
  | cons f m ih =>
    obtain ⟨hf, hm⟩ := List.pairwise_cons.mp h
    by_cases hk : f.1 = k
    · have hnot : (k, v) ∉ m := by
        intro hmem
        have hlt := hf (k, v) hmem
        rw [hk] at hlt
        exact List.lt_irrefl k hlt
      have hlook : lookup (f :: m) k = some f.2 := by simp [lookup, hk]
      rw [hlook, List.mem_cons, or_iff_left hnot, Option.some.injEq, ← hk]
      exact ⟨fun he => (congrArg Prod.snd he).symm, fun he => Prod.ext rfl he.symm⟩
    · have hne : (k, v) ≠ f := fun he => hk (congrArg Prod.fst he).symm
      have hlook : lookup (f :: m) k = lookup m k := by simp [lookup, hk]
      rw [hlook, List.mem_cons, or_iff_right hne, ih hm]

/-- Sorted lists with the same values are the same. -/
theorem Ordered.ext {m m' : Params} (h : Ordered m) (h' : Ordered m')
    (heq : ∀ k, lookup m k = lookup m' k) : m = m' := by
  have hnodup : ∀ {m : Params}, Ordered m → m.Nodup := by
    refine fun h => h.imp fun hlt he => ?_
    rw [he] at hlt
    exact List.lt_irrefl _ hlt
  have hperm : m.Perm m' := by
    refine (List.perm_ext_iff_of_nodup (hnodup h) (hnodup h')).mpr fun a => ?_
    obtain ⟨k, v⟩ := a
    rw [h.mem_iff, h'.mem_iff, heq]
  exact hperm.eq_of_pairwise (fun a b _ _ hab hba => absurd hab (List.lt_asymm hba)) h h'

/-! ### Segments -/

/-- What stands behind the last ampersand. -/
def unfinished (s : Bytes) : Bytes := s.rtakeWhile (· ≠ ch '&')

/-- The text of finished segments. -/
def finished (segs : List Bytes) : Bytes := segs.flatMap (· ++ [ch '&'])

theorem segments_of_notMem {t : Bytes} (h : ch '&' ∉ t) :
    segments t = if t = [] then [] else [t] := by
  rw [segments, List.splitOn_eq_singleton h]
  by_cases ht : t = [] <;> simp [ht]

theorem segments_finished {segs : List Bytes} (h : ∀ seg ∈ segs, ch '&' ∉ seg) (t : Bytes) :
    segments (finished segs ++ t) = segs ++ segments t := by
  induction segs with
  | nil => rfl
  | cons seg segs ih =>
    have hseg := h seg List.mem_cons_self
    have hrest := ih fun x hx => h x (List.mem_cons_of_mem _ hx)
    have hne : (finished segs ++ t).splitOn (ch '&') ≠ [] := List.splitOn_ne_nil _ _
    have htext : finished (seg :: segs) ++ t = seg ++ ch '&' :: (finished segs ++ t) := by
      simp [finished]
    rw [htext, List.cons_append, ← hrest, segments, segments,
      List.splitOn_append_cons_self_of_not_mem hseg, List.getLast?_cons_of_ne_nil hne,
      List.dropLast_cons_of_ne_nil hne]
    split_ifs <;> rfl

theorem exists_rdrop (s : Bytes) : ∃ segs, (∀ seg ∈ segs, ch '&' ∉ seg) ∧
    s.rdropWhile (· ≠ ch '&') = finished segs := by
  induction s using List.reverseRecOn with
  | nil => exact ⟨[], by simp, rfl⟩
  | append_singleton s b ih =>
    obtain ⟨segs, hsegs, heq⟩ := ih
    by_cases hb : b = ch '&'
    · -- the ampersand finishes the segment before it
      refine ⟨segs ++ [s.rtakeWhile (· ≠ ch '&')], fun seg hseg => ?_, ?_⟩
      · rcases List.mem_append.mp hseg with hseg | hseg
        · exact hsegs seg hseg
        · rw [List.mem_singleton.mp hseg]
          intro hmem
          have := List.mem_rtakeWhile_imp hmem
          simp at this
      · rw [List.rdropWhile_concat_neg _ _ _ (by simp [hb]), finished, List.flatMap_append,
          ← finished, ← heq, hb, List.flatMap_singleton, ← List.append_assoc,
          List.rdropWhile_append_rtakeWhile]
    · refine ⟨segs, hsegs, ?_⟩
      rw [List.rdropWhile_concat_pos _ _ _ (by simp [hb]), heq]

/-- Every text is some finished segments and an unfinished one. -/
theorem exists_finished (s : Bytes) : ∃ segs, (∀ seg ∈ segs, ch '&' ∉ seg) ∧
    s = finished segs ++ unfinished s ∧ ch '&' ∉ unfinished s := by
  have hlast : ch '&' ∉ unfinished s := by
    intro hmem
    have := List.mem_rtakeWhile_imp hmem
    simp at this
  obtain ⟨segs, hsegs, heq⟩ := exists_rdrop s
  refine ⟨segs, hsegs, ?_, hlast⟩
  rw [← heq, unfinished, List.rdropWhile_append_rtakeWhile]

theorem key_append {t : Bytes} (h : ch '=' ∈ t) (q : Bytes) : key (t ++ q) = key t := by
  obtain ⟨a, b, rfl, ha⟩ := List.eq_append_cons_of_mem h
  rw [key, key, List.append_assoc, List.cons_append, (takeWhile_append_cons ha _).1,
    (takeWhile_append_cons ha _).1]

theorem key_of_notMem {t : Bytes} (h : ch '=' ∉ t) : key t = t := (takeWhile_of_notMem h).1

/-! ### What the parameters are -/

/-- The keys of a text. -/
def keys (s : Bytes) : List Bytes := (segments s).map key

/-- The value that a text has for a key: that of the last segment with the key. -/
def last (segs : List Bytes) (k : Bytes) : Option Bytes :=
  (segs.filter fun seg => key seg = k).getLast?.map value

theorem last_isSome {segs : List Bytes} {k : Bytes} :
    (last segs k).isSome ↔ k ∈ segs.map key := by
  rw [last, Option.isSome_map, List.getLast?_isSome, ne_eq, List.filter_eq_nil_iff, List.mem_map]
  simp

theorem lookup_foldl (segs : List Bytes) (m : Params) (k : Bytes) :
    lookup (segs.foldl (fun m seg => assign m (key seg) (value seg)) m) k =
      (last segs k).or (lookup m k) := by
  induction segs using List.reverseRecOn with
  | nil => rfl
  | append_singleton segs seg ih =>
    rw [List.foldl_append, List.foldl_cons, List.foldl_nil, lookup_assign, last, List.filter_append]
    by_cases hk : key seg = k
    · simp [hk]
    · rw [if_neg hk, ih]
      simp [hk, last]

theorem lookup_parameters (m : Params) (s k : Bytes) :
    lookup (parameters m s) k = (last (segments s) k).or (lookup m k) := lookup_foldl _ m k

/-- Parsing a text into a map, a key is there if it was or if the text has it. -/
theorem lookup_parameters_isSome (m : Params) (s k : Bytes) :
    (lookup (parameters m s) k).isSome ↔ k ∈ keys s ∨ (lookup m k).isSome := by
  rw [lookup_parameters, Option.isSome_or, Bool.or_eq_true, last_isSome, keys]

theorem ordered_parameters {m : Params} (h : Ordered m) (s : Bytes) : Ordered (parameters m s) := by
  rw [parameters]
  generalize segments s = segs
  induction segs generalizing m with
  | nil => exact h
  | cons seg segs ih => exact ih (h.assign _ _)

/-- What has been there before makes no difference exactly if the text has all its keys. -/
theorem parameters_eq_iff {m : Params} (h : Ordered m) (s : Bytes) :
    parameters m s = parameters [] s ↔ ∀ k, (lookup m k).isSome → k ∈ keys s := by
  constructor
  · intro heq k hk
    have hsome := (lookup_parameters_isSome m s k).mpr (.inr hk)
    rw [heq] at hsome
    rcases (lookup_parameters_isSome [] s k).mp hsome with hmem | hnil
    · exact hmem
    · simp [lookup] at hnil
  · intro hall
    refine Ordered.ext (ordered_parameters h s) (ordered_parameters List.Pairwise.nil s) fun k => ?_
    rw [lookup_parameters, lookup_parameters]
    cases hlook : lookup m k with
    | none => rfl
    | some v =>
      have hmem := hall k (by rw [hlook]; rfl)
      obtain ⟨w, hw⟩ := Option.isSome_iff_exists.mp (last_isSome.mpr hmem)
      rw [keys] at hmem
      rw [hw]
      rfl

/-! ### Harmless cuts -/

/-- A body can be cut behind `s`: the segment left unfinished is empty, or has its equals sign, or is
a key of the body. -/
def Harmless (body s : Bytes) : Prop :=
  unfinished s = [] ∨ ch '=' ∈ unfinished s ∨ unfinished s ∈ keys body

/-- **A cut is harmless exactly if the part before it has no key of its own.** -/
theorem harmless_iff (s t : Bytes) : Harmless (s ++ t) s ↔ ∀ k ∈ keys s, k ∈ keys (s ++ t) := by
  obtain ⟨segs, hsegs, hs, hlast⟩ := exists_finished s
  have hown : segments s = segs ++ segments (unfinished s) := by
    conv_lhs => rw [hs]
    exact segments_finished hsegs _
  have hwhole : segments (s ++ t) = segs ++ segments (unfinished s ++ t) := by
    conv_lhs => rw [hs, List.append_assoc]
    exact segments_finished hsegs _
  have hunfinished := segments_of_notMem hlast
  constructor
  · rintro h k hk
    rw [keys, hown, List.map_append, List.mem_append] at hk
    rcases hk with hk | hk
    · rw [keys, hwhole, List.map_append]
      exact List.mem_append_left _ hk
    · rw [hunfinished] at hk
      split_ifs at hk with hnil
      · cases hk
      · obtain rfl := List.mem_singleton.mp hk
        by_cases heq : ch '=' ∈ unfinished s
        · -- the first segment of the rest begins with what has its equals sign
          have hne : unfinished s ++ t ≠ [] := List.append_ne_nil_of_left_ne_nil hnil t
          obtain ⟨seg, u, hseg, hfind, hrest⟩ := first_segment hne
          have hlen : (unfinished s).length ≤ seg.length := by
            rw [← hfind, findChar_append_of_notMem hlast]
            omega
          obtain ⟨q, rfl⟩ := List.prefix_of_prefix_length_le (List.prefix_append _ t)
            (hseg ▸ List.prefix_append seg u) hlen
          rw [keys, hwhole, hrest, List.map_append, List.map_cons, key_append heq]
          exact List.mem_append_right _ List.mem_cons_self
        · rw [key_of_notMem heq]
          exact (h.resolve_left hnil).resolve_left heq
  · intro h
    by_cases hnil : unfinished s = []
    · exact .inl hnil
    by_cases heq : ch '=' ∈ unfinished s
    · exact .inr (.inl heq)
    refine .inr (.inr (h _ ?_))
    rw [keys, hown, hunfinished, if_neg hnil, List.map_append, List.map_singleton,
      key_of_notMem heq]
    exact List.mem_append_right _ (List.mem_singleton.mpr rfl)

/-! ### The calls of `ParseBodyFromArray` -/

/-- A request with a form. -/
structure IsForm (r : Simple.Request) : Prop where
  method : r.method = bytes "POST"
  contentType : lookup r.headers (bytes "content-type") =
    some (bytes "application/x-www-form-urlencoded")

theorem parseBody_form {r : Simple.Request} (h : IsForm r) (data : Bytes) :
    parseBodyFromArray r data = some { r with
      content := r.content ++ data
      postParams := parameters r.postParams (r.content ++ data) } := by
  have hparse := (simple_parseParameters { r with content := r.content ++ data }
    (r.content ++ data) 0).2
  unfold parseBodyFromArray
  dsimp only
  rw [if_pos h.method, takeHeader, h.contentType]
  dsimp only
  rw [if_pos rfl]
  exact hparse

/-- What has come of a form after some pieces. -/
structure Filled (pieces : List Bytes) (r : Simple.Request) : Prop where
  form : IsForm r
  content : r.content = pieces.flatten
  ordered : Ordered r.postParams
  keys : ∀ k, (lookup r.postParams k).isSome ↔ ∃ i, k ∈ keys (pieces.take i).flatten

theorem Filled.snoc {pieces : List Bytes} {r : Simple.Request} (h : Filled pieces r)
    (piece : Bytes) :
    ∃ r', parseBodyFromArray r piece = some r' ∧ Filled (pieces ++ [piece]) r' ∧
      r'.postParams = parameters r.postParams (pieces ++ [piece]).flatten := by
  have hflat : r.content ++ piece = (pieces ++ [piece]).flatten := by
    rw [h.content, List.flatten_append, List.flatten_singleton]
  refine ⟨_, parseBody_form h.form piece, ⟨⟨h.form.method, h.form.contentType⟩, hflat,
    ordered_parameters h.ordered _, fun k => ?_⟩, by rw [hflat]⟩
  dsimp only
  rw [lookup_parameters_isSome, h.keys, hflat]
  constructor
  · rintro (hk | ⟨i, hi⟩)
    · refine ⟨pieces.length + 1, ?_⟩
      rwa [List.take_of_length_le (by simp)]
    · refine ⟨min i pieces.length, ?_⟩
      rw [List.take_append_of_le_length (by omega)]
      rwa [← List.take_eq_take_min]
  · rintro ⟨i, hi⟩
    rcases Nat.lt_or_ge pieces.length i with hlt | hle
    · rw [List.take_of_length_le (by simpa using hlt)] at hi
      exact .inl hi
    · rw [List.take_append_of_le_length hle] at hi
      exact .inr ⟨i, hi⟩

theorem filled_pieces {r : Simple.Request} (h : Filled [] r) (pieces : List Bytes) :
    ∃ r', pieces.foldlM parseBodyFromArray r = some r' ∧ Filled pieces r' := by
  induction pieces using List.reverseRecOn with
  | nil => exact ⟨r, rfl, h⟩
  | append_singleton pieces piece ih =>
    obtain ⟨r₁, hr₁, hfilled⟩ := ih
    obtain ⟨r', hr', hfilled', -⟩ := hfilled.snoc piece
    refine ⟨r', ?_, hfilled'⟩
    rw [List.foldlM_append, hr₁]
    simp [hr']

/-! ### The request after its head -/

/-- What the lines of a head do not touch. -/
theorem parseLines_body {stringToLower : Bytes → Bytes} (fuel : ℕ) (r : Simple.Request)
    (st : RequestParserStatus) (rest : Bytes) :
    (Simple.parseLines stringToLower fuel r st rest).content = r.content ∧
      (Simple.parseLines stringToLower fuel r st rest).postParams = r.postParams := by
  have hchar : ∀ (x : Simple.Line) (b : UInt8),
      (Simple.headChar stringToLower x b).req.content = x.req.content ∧
        (Simple.headChar stringToLower x b).req.postParams = x.req.postParams := by
    intro x b
    unfold Simple.headChar
    dsimp only
    split <;> split_ifs <;> exact ⟨rfl, rfl⟩
  have hline : ∀ (line : Bytes) (x : Simple.Line),
      (line.foldl (Simple.headChar stringToLower) x).req.content = x.req.content ∧
        (line.foldl (Simple.headChar stringToLower) x).req.postParams = x.req.postParams := by
    intro line
    induction line with
    | nil => exact fun x => ⟨rfl, rfl⟩
    | cons b line ih =>
      intro x
      obtain ⟨hc, hp⟩ := ih (Simple.headChar stringToLower x b)
      exact ⟨hc.trans (hchar x b).1, hp.trans (hchar x b).2⟩
  induction fuel generalizing r st rest with
  | zero => exact ⟨rfl, rfl⟩
  | succ fuel ih =>
    rw [Simple.parseLines]
    split_ifs
    · exact ⟨rfl, rfl⟩
    · dsimp only
      obtain ⟨hc, hp⟩ := ih (Simple.parseHeadLine stringToLower r st _).1 _ _
      obtain ⟨hc', hp'⟩ := hline (rest.take (findChar LF rest + 1)) { req := r, parseStatus := st }
      exact ⟨hc.trans hc', hp.trans hp'⟩

theorem parseGetUrl_body {r r' : Simple.Request} (h : Simple.parseGetUrl r = some r') :
    r'.content = r.content ∧ r'.postParams = r.postParams := by
  unfold Simple.parseGetUrl at h
  dsimp only at h
  split_ifs at h
  · obtain rfl := Option.some.inj h
    exact ⟨rfl, rfl⟩
  · rw [(simple_parseParameters _ _ _).1] at h
    obtain rfl := Option.some.inj h
    exact ⟨rfl, rfl⟩

theorem parseHead_body {stringToLower : Bytes → Bytes} {r r' : Simple.Request} {head : Bytes}
    (h : parseHeadFromArray stringToLower r head = some r') :
    r'.content = r.content ∧ r'.postParams = r.postParams := by
  unfold parseHeadFromArray at h
  split_ifs at h
  obtain ⟨hc, hp⟩ := parseGetUrl_body h
  obtain ⟨hc', hp'⟩ := @parseLines_body stringToLower head.length r .headerMethod head
  exact ⟨hc.trans hc', hp.trans hp'⟩

/-- The pieces lead to the same content and the same parameters as the whole body. -/
def SameForm (r : Simple.Request) (pieces : List Bytes) : Prop :=
  ∃ r' r'', pieces.foldlM parseBodyFromArray r = some r' ∧
    parseBodyFromArray r pieces.flatten = some r'' ∧
    r'.content = r''.content ∧ r'.postParams = r''.postParams

/-- **A form that comes in pieces is the form of the whole body exactly if every cut is
harmless.** -/
theorem pieces_iff (stringToLower : Bytes → Bytes) (r₀ r : Simple.Request) (head : Bytes)
    (hhead : parseHeadFromArray stringToLower r₀.clear head = some r) (hform : IsForm r)
    (pieces : List Bytes) :
    SameForm r pieces ↔ ∀ i, Harmless pieces.flatten (pieces.take i).flatten := by
  obtain ⟨hcontent, hpost⟩ := parseHead_body hhead
  have hstart : Filled [] r := by
    refine ⟨hform, hcontent, hpost ▸ List.Pairwise.nil, fun k => ?_⟩
    rw [hpost]
    simp [lookup, Simple.Request.clear, keys, segments_nil]
  obtain ⟨r', hr', hfilled⟩ := filled_pieces hstart pieces
  have hwhole := parseBody_form hform pieces.flatten
  have hcut : ∀ i, pieces.flatten = (pieces.take i).flatten ++ (pieces.drop i).flatten := by
    intro i
    rw [← List.flatten_append, List.take_append_drop]
  have hkeys : (∀ i, Harmless pieces.flatten (pieces.take i).flatten) ↔
      ∀ k, (lookup r'.postParams k).isSome → k ∈ keys pieces.flatten := by
    constructor
    · intro h k hk
      obtain ⟨i, hi⟩ := (hfilled.keys k).mp hk
      have hi' := h i
      rw [hcut i] at hi' ⊢
      exact (harmless_iff _ _).mp hi' k hi
    · intro h i
      rw [hcut i]
      refine (harmless_iff _ _).mpr fun k hk => ?_
      rw [← hcut i]
      exact h k ((hfilled.keys k).mpr ⟨i, hk⟩)
  have hpost' : r.postParams = [] := hpost
  have hsame : SameForm r pieces ↔ r'.postParams = parameters [] pieces.flatten := by
    rw [SameForm, hr', hwhole, hcontent, hpost']
    constructor
    · rintro ⟨r₁, r₂, h₁, h₂, -, heq⟩
      obtain rfl := Option.some.inj h₁
      obtain rfl := Option.some.inj h₂
      exact heq
    · intro heq
      exact ⟨r', _, rfl, rfl, hfilled.content, heq⟩
  rw [hsame, hkeys]
  constructor
  · intro heq k hk
    rw [heq] at hk
    rcases (lookup_parameters_isSome [] pieces.flatten k).mp hk with hmem | hnil
    · exact hmem
    · simp [lookup] at hnil
  · intro hall
    rcases List.eq_nil_or_concat pieces with rfl | ⟨pre, piece, rfl⟩
    · obtain rfl := Option.some.inj hr'
      rw [hpost', parameters, List.flatten_nil, segments_nil]
      rfl
    · -- the last call parses the whole body
      rw [List.concat_eq_append] at hr' hall ⊢
      obtain ⟨r₁, hr₁, hfilled₁⟩ := filled_pieces hstart pre
      obtain ⟨r₂, hr₂, -, hlast⟩ := hfilled₁.snoc piece
      have heq : r₂ = r' := by
        rw [List.foldlM_append, hr₁] at hr'
        simp only [Option.bind_eq_bind, Option.bind_some, List.foldlM_cons, List.foldlM_nil, hr₂]
          at hr'
        exact Option.some.inj hr'
      rw [← heq, hlast]
      refine (parameters_eq_iff hfilled₁.ordered _).mpr fun k hk => hall k ?_
      rw [← heq, hlast]
      exact (lookup_parameters_isSome _ _ _).mpr (.inr hk)

/-- The head of a form. -/
def formHead : Bytes :=
  bytes "POST /a HTTP/1.1\r\nContent-Type: application/x-www-form-urlencoded\r\n\r\n"

/-- The request with this head. -/
def formRequest : Simple.Request :=
  { method := bytes "POST", path := bytes "/a", version := bytes "HTTP/1.1"
    headers := [(bytes "content-type", bytes "application/x-www-form-urlencoded"),
      (bytes "host", [])] }

/-- Cut behind its first letter, the key `user` leaves an entry `u` behind. -/
theorem cut_key_stays :
    parseHeadFromArray Handlers.asciiLower (Simple.Request.clear {}) formHead = some formRequest ∧
      IsForm formRequest ∧ ¬SameForm formRequest [bytes "u", bytes "ser=1"] := by
  refine ⟨by decide +kernel, ⟨by decide +kernel, by decide +kernel⟩, ?_⟩
  rintro ⟨r', r'', hr', hr'', -, heq⟩
  have hne : ([bytes "u", bytes "ser=1"].foldlM parseBodyFromArray formRequest).map
      Simple.Request.postParams ≠
        (parseBodyFromArray formRequest [bytes "u", bytes "ser=1"].flatten).map
          Simple.Request.postParams := by decide +kernel
  rw [hr', hr''] at hne
  exact hne (congrArg some heq)

/-- Cut behind the equals sign. -/
theorem pieces_iff_value :
    SameForm formRequest [bytes "user=", bytes "1"] ↔
      ∀ i, Harmless [bytes "user=", bytes "1"].flatten ([bytes "user=", bytes "1"].take i).flatten :=
  pieces_iff Handlers.asciiLower {} formRequest formHead (by decide +kernel)
    ⟨by decide +kernel, by decide +kernel⟩ _

end Pink.Http.Forms
