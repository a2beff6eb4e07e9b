import Pink.Http.Handlers
import Pink.Http.Params

/-! # Heads of requests

A head is rendered as a line with method, target and version, a line for every field and an empty
line. However the rendering is cut into pieces, `ParseHeader` finds no header block in any proper
part of it, and at the piece that completes it, it finds the block and in it the head that was
rendered (`head_round_trip`).

The lines are non-empty and free of line ends, so the separator occurs first at the end of the
rendering. The state machine of `ParseHeadLine` is followed field by field: a stretch of characters
that it collects is one step (`foldl_collect`). -/

namespace Pink.Http.Heads

open Pink.Redis.Wire Pink.Http.Request Pink.Http.Params

/-! ### Heads and their renderings -/

/-- No byte of `s` is one of `bad`. -/
def Free (bad s : Bytes) : Prop := ∀ b ∈ s, b ∉ bad

instance (bad s : Bytes) : Decidable (Free bad s) :=
  decidable_of_iff (s.all (· ∉ bad) = true) (by simp [Free])

/-- A decimal number that fits in 64 bits. -/
structure IsLength (s : Bytes) : Prop where
  ne_nil : s ≠ []
  digits : ∀ b ∈ s, isDigit b = true
  fits : digitsValue s < 2 ^ 64

instance (s : Bytes) : Decidable (IsLength s) :=
  decidable_of_iff (s ≠ [] ∧ s.all isDigit = true ∧ digitsValue s < 2 ^ 64)
    ⟨fun h => ⟨h.1, List.all_eq_true.mp h.2.1, h.2.2⟩,
      fun h => ⟨h.ne_nil, List.all_eq_true.mpr h.digits, h.fits⟩⟩

/-- A head that can be rendered. Names are compared as `slash::StringToLower` leaves them. -/
structure Head (stringToLower : Bytes → Bytes) where
  method : Bytes
  url : Bytes
  version : Bytes
  fields : List (Bytes × Bytes)
  method_free : Free [ch ' ', CR, LF, 0] method
  url_free : Free [ch ' ', CR, LF, 0] url
  version_free : Free [CR, LF, 0] version
  name_free : ∀ f ∈ fields, Free [ch ':', ch ' ', CR, LF, 0] f.1
  value_free : ∀ f ∈ fields, Free [CR, LF, 0] f.2
  length_ok : ∀ f ∈ fields, stringToLower f.1 = bytes "content-length" → IsLength f.2

/-- The first line, without its end. -/
def startLine (method url version : Bytes) : Bytes :=
  method ++ ch ' ' :: (url ++ ch ' ' :: version)

/-- The line of a field, without its end. -/
def fieldLine (f : Bytes × Bytes) : Bytes := f.1 ++ ch ':' :: ch ' ' :: f.2

/-- Lines, each with its end, and the empty line. -/
def block (lines : List Bytes) : Bytes := lines.flatMap (· ++ [CR, LF]) ++ [CR, LF]

variable {stringToLower : Bytes → Bytes}

def Head.lines (h : Head stringToLower) : List Bytes :=
  startLine h.method h.url h.version :: h.fields.map fieldLine

def Head.render (h : Head stringToLower) : Bytes := block h.lines

/-- The value of the last field whose lower-cased name is `k`. -/
def Head.last (h : Head stringToLower) (k : Bytes) : Option Bytes :=
  ((h.fields.filter fun f => stringToLower f.1 = k).getLast?).map (·.2)

/-! ### Searching -/

theorem findSub_le {pat s : Bytes} {i : ℕ} (h : findSub pat s = some i) :
    i + pat.length ≤ s.length := by
  induction s generalizing i with
  | nil =>
    rw [findSub] at h
    split_ifs at h with hpat
    obtain rfl := Option.some.inj h
    rw [hpat]
    exact le_rfl
  | cons b s ih =>
    rw [findSub] at h
    split_ifs at h with hp
    · obtain rfl := Option.some.inj h
      rw [Nat.zero_add]
      exact (List.isPrefixOf_iff_prefix.1 hp).length_le
    · obtain ⟨j, hj, rfl⟩ := Option.map_eq_some_iff.mp h
      have hle := ih hj
      rw [List.length_cons]
      omega

theorem findSub_append {pat s : Bytes} {i : ℕ} (h : findSub pat s = some i) (t : Bytes) :
    findSub pat (s ++ t) = some i := by
  induction s generalizing i with
  | nil =>
    rw [findSub] at h
    split_ifs at h with hpat
    obtain rfl := Option.some.inj h
    subst hpat
    cases t with
    | nil => rfl
    | cons b t => rfl
  | cons b s ih =>
    rw [List.cons_append, findSub]
    rw [findSub] at h
    by_cases hp : pat.isPrefixOf (b :: s) = true
    · rw [if_pos hp] at h
      have hp' : pat <+: b :: (s ++ t) :=
        (List.isPrefixOf_iff_prefix.1 hp).trans (List.prefix_append (b :: s) t)
      rw [if_pos (List.isPrefixOf_iff_prefix.2 hp'), h]
    · rw [if_neg hp] at h
      obtain ⟨j, hj, rfl⟩ := Option.map_eq_some_iff.mp h
      have hj' := ih hj
      by_cases hp' : pat.isPrefixOf (b :: (s ++ t)) = true
      · -- the pattern fits into `s`, so it does not reach into `t`
        have hfits := findSub_le hj
        have hlen : pat.length ≤ (b :: s).length := by
          rw [List.length_cons]
          omega
        have hpre := List.prefix_of_prefix_length_le (List.isPrefixOf_iff_prefix.1 hp')
          (List.prefix_append (b :: s) t) hlen
        exact absurd (List.isPrefixOf_iff_prefix.2 hpre) hp
      · rw [if_neg hp', hj']
        rfl

theorem findSub_of_append {pat s t : Bytes} {i : ℕ} (h : findSub pat (s ++ t) = some i)
    (hle : i + pat.length ≤ s.length) : findSub pat s = some i := by
  induction s generalizing i with
  | nil =>
    rw [List.length_nil] at hle
    have hpat : pat = [] := List.length_eq_zero_iff.mp (by omega)
    have hi : i = 0 := by omega
    rw [hpat, hi]
    rfl
  | cons b s ih =>
    rw [List.cons_append, findSub] at h
    rw [findSub]
    by_cases hp : pat.isPrefixOf (b :: (s ++ t)) = true
    · rw [if_pos hp] at h
      have hlen : pat.length ≤ (b :: s).length := by omega
      have hpre := List.prefix_of_prefix_length_le (List.isPrefixOf_iff_prefix.1 hp)
        (List.prefix_append (b :: s) t) hlen
      rw [if_pos (List.isPrefixOf_iff_prefix.2 hpre), h]
    · rw [if_neg hp] at h
      have hp' : ¬pat.isPrefixOf (b :: s) = true := by
        intro hpre
        refine hp (List.isPrefixOf_iff_prefix.2 ?_)
        exact (List.isPrefixOf_iff_prefix.1 hpre).trans (List.prefix_append (b :: s) t)
      obtain ⟨j, hj, rfl⟩ := Option.map_eq_some_iff.mp h
      rw [if_neg hp', ih hj (by rw [List.length_cons] at hle; omega)]
      rfl

/-- What ends a header block. -/
def separator : Bytes := [CR, LF, CR, LF]

theorem findSub_separator_cons {b : UInt8} (h : b ≠ CR) (s : Bytes) :
    findSub separator (b :: s) = (findSub separator s).map (· + 1) := by
  have hno : ¬separator.isPrefixOf (b :: s) = true := by
    intro hpre
    obtain ⟨t, ht⟩ := List.isPrefixOf_iff_prefix.1 hpre
    exact h (List.cons.inj ht).1.symm
  rw [findSub, if_neg hno]

/-- Behind a line end that does not end the block the search goes on. -/
theorem findSub_separator_line {b : UInt8} (h : b ≠ CR) (s : Bytes) :
    findSub separator (CR :: LF :: b :: s) = (findSub separator (b :: s)).map (· + 2) := by
  have hno : ¬separator.isPrefixOf (CR :: LF :: b :: s) = true := by
    intro hpre
    obtain ⟨t, ht⟩ := List.isPrefixOf_iff_prefix.1 hpre
    have ht' := (List.cons.inj (List.cons.inj ht).2).2
    exact h (List.cons.inj ht').1.symm
  rw [findSub, if_neg hno, findSub_separator_cons (by decide), Option.map_map]
  rfl

theorem findSub_separator_append {l : Bytes} (h : CR ∉ l) (s : Bytes) :
    findSub separator (l ++ s) = (findSub separator s).map (l.length + ·) := by
  induction l with
  | nil => simp
  | cons b l ih =>
    obtain ⟨hb, hl⟩ := not_or.mp (mt List.mem_cons.mpr h)
    rw [List.cons_append, findSub_separator_cons (Ne.symm hb), ih hl, Option.map_map]
    congr 1
    funext i
    simp only [Function.comp_apply, List.length_cons]
    omega

/-- A line that can stand in a block. -/
structure IsLine (l : Bytes) : Prop where
  long : 2 ≤ l.length
  noCR : CR ∉ l
  noLF : LF ∉ l
  noNul : 0 ∉ l

theorem IsLine.eq_cons {l : Bytes} (h : IsLine l) : ∃ b t, l = b :: t ∧ b ≠ CR := by
  cases l with
  | nil => exact absurd h.long (by simp)
  | cons b t => exact ⟨b, t, rfl, fun hb => h.noCR (hb ▸ List.mem_cons_self)⟩

theorem block_cons (l : Bytes) (ls : List Bytes) : block (l :: ls) = l ++ CR :: LF :: block ls := by
  simp [block]

/-- **The separator occurs first at the end of a block.** -/
theorem findSub_block {l : Bytes} {ls : List Bytes} (h : ∀ x ∈ l :: ls, IsLine x) (t : Bytes) :
    ∃ i, findSub separator (block (l :: ls) ++ t) = some i ∧ i + 4 = (block (l :: ls)).length := by
  induction ls generalizing l with
  | nil =>
    have hl := h l List.mem_cons_self
    refine ⟨l.length, ?_, by simp [block]⟩
    rw [block_cons, List.append_assoc, findSub_separator_append hl.noCR]
    rfl
  | cons l' ls ih =>
    have hl := h l List.mem_cons_self
    obtain ⟨b, l₀, rfl, hb⟩ := (h l' (by simp)).eq_cons
    obtain ⟨i, hi, hlen⟩ := ih (fun x hx => h x (List.mem_cons_of_mem _ hx))
    refine ⟨l.length + (i + 2), ?_, ?_⟩
    · rw [block_cons, List.append_assoc, findSub_separator_append hl.noCR]
      rw [block_cons] at hi ⊢
      simp only [List.cons_append] at hi ⊢
      rw [findSub_separator_line hb, hi]
      rfl
    · rw [block_cons l, List.length_append, List.length_cons, List.length_cons]
      omega

/-! ### Lines -/

/-- A stretch of characters each of which is put at the end of what `g` holds. -/
theorem foldl_collect {σ : Type*} {f : σ → UInt8 → σ} (g : Bytes → σ) {s : Bytes}
    (h : ∀ acc, ∀ b ∈ s, f (g acc) b = g (acc ++ [b])) (acc : Bytes) :
    s.foldl f (g acc) = g (acc ++ s) := by
  induction s generalizing acc with
  | nil => rw [List.append_nil]; rfl
  | cons b s ih =>
    rw [List.foldl_cons, h acc b List.mem_cons_self, ih fun acc b hb => h acc b (by simp [hb])]
    rw [List.append_assoc]
    rfl

/-- The line with method, target and version. -/
theorem parseHeadLine_start (r : HTTPRequest) {method url version : Bytes}
    (hmethod : ch ' ' ∉ method) (hurl : ch ' ' ∉ url) (hCR : CR ∉ version) (hLF : LF ∉ version) :
    parseHeadLine stringToLower { r with parseStatus := .headerMethod }
        (startLine method url version ++ [CR, LF]) =
      { r with
        method := r.method ++ method
        url := r.url ++ url
        version := r.version ++ version
        parseStatus := .headerParamKey } := by
  have h1 := foldl_collect (s := method) (f := headChar stringToLower)
    (fun acc => { req := { r with parseStatus := .headerMethod, method := acc } })
    (fun acc b hb => if_pos (ne_of_mem_of_not_mem hb hmethod)) r.method
  have h2 := foldl_collect (s := url) (f := headChar stringToLower)
    (fun acc => { req := { r with
      parseStatus := .headerPath, method := r.method ++ method, url := acc } })
    (fun acc b hb => if_pos (ne_of_mem_of_not_mem hb hurl)) r.url
  have h3 := foldl_collect (s := version) (f := headChar stringToLower)
    (fun acc => { req := { r with
      parseStatus := .headerVersion, method := r.method ++ method, url := r.url ++ url
      version := acc } })
    (fun acc b hb => if_pos ⟨ne_of_mem_of_not_mem hb hCR, ne_of_mem_of_not_mem hb hLF⟩) r.version
  rw [parseHeadLine, startLine, List.append_assoc, List.foldl_append, h1, List.cons_append,
    List.foldl_cons, List.append_assoc, List.foldl_append]
  change (List.foldl (headChar stringToLower) (List.foldl (headChar stringToLower) { req := { r with
    parseStatus := .headerPath, method := r.method ++ method } } url) _).req = _
  rw [h2, List.cons_append, List.foldl_cons, List.foldl_append]
  change (List.foldl (headChar stringToLower) (List.foldl (headChar stringToLower) { req := { r with
    parseStatus := .headerVersion, method := r.method ++ method, url := r.url ++ url } }
      version) _).req = _
  rw [h3]
  rfl

/-- The line of a field. -/
theorem parseHeadLine_field (r : HTTPRequest) {f : Bytes × Bytes}
    (hcolon : ch ':' ∉ f.1) (hspace : ch ' ' ∉ f.1) (hCR : CR ∉ f.2) (hLF : LF ∉ f.2) :
    parseHeadLine stringToLower { r with parseStatus := .headerParamKey }
        (fieldLine f ++ [CR, LF]) =
      { r with
        headers := assign r.headers (stringToLower f.1) f.2
        parseStatus := .headerParamKey } := by
  have h1 := foldl_collect (s := f.1) (f := headChar stringToLower)
    (fun acc => { req := { r with parseStatus := .headerParamKey }, paramKey := acc })
    (fun acc b hb => if_pos ⟨ne_of_mem_of_not_mem hb hcolon, ne_of_mem_of_not_mem hb hspace⟩) []
  have h2 := foldl_collect (s := f.2) (f := headChar stringToLower)
    (fun acc => {
      req := { r with parseStatus := .headerParamValue }, paramKey := f.1, paramValue := acc })
    (fun acc b hb => if_pos ⟨ne_of_mem_of_not_mem hb hCR, ne_of_mem_of_not_mem hb hLF⟩) []
  rw [parseHeadLine, fieldLine, List.append_assoc, List.foldl_append, h1, List.cons_append,
    List.foldl_cons, List.cons_append, List.foldl_cons, List.foldl_append]
  change (List.foldl (headChar stringToLower) (List.foldl (headChar stringToLower) {
    req := { r with parseStatus := .headerParamValue }, paramKey := f.1 } f.2) _).req = _
  rw [h2]
  rfl

/-- One turn of the loop over the lines. -/
theorem parseLines_block {l : Bytes} (h : IsLine l) (fuel : ℕ) (r : HTTPRequest)
    (ls : List Bytes) :
    parseLines stringToLower (fuel + 1) r (block (l :: ls)) =
      parseLines stringToLower fuel (parseHeadLine stringToLower r (l ++ [CR, LF])) (block ls) := by
  have hlong : ¬(block (l :: ls)).length ≤ 4 := by
    have h2 : 2 ≤ (block ls).length := by simp [block]
    have hl := h.long
    rw [block_cons, List.length_append, List.length_cons, List.length_cons]
    omega
  have hlf : LF ∉ l ++ [CR] := by
    simp only [List.mem_append, List.mem_singleton, not_or]
    exact ⟨h.noLF, by decide⟩
  have heq : block (l :: ls) = (l ++ [CR]) ++ LF :: block ls := by
    rw [block_cons, List.append_assoc]
    rfl
  have hidx : findChar LF (block (l :: ls)) = (l ++ [CR]).length := by
    rw [heq, findChar_append_of_notMem hlf, findChar_cons_self, Nat.zero_add]
  have hsplit : block (l :: ls) = (l ++ [CR, LF]) ++ block ls := by
    rw [block_cons, List.append_assoc]
    rfl
  have hlen : (l ++ [CR]).length + 1 = (l ++ [CR, LF]).length := by simp
  rw [parseLines, if_neg hlong]
  dsimp only
  rw [hidx, hlen, hsplit, List.take_left, List.drop_left]

/-! ### The map of the fields -/

theorem lookup_assign (m : List (Bytes × Bytes)) (k v k' : Bytes) :
    lookup (assign m k v) k' = if k = k' then some v else lookup m k' := by
  induction m with
  | nil =>
    rw [assign]
    by_cases h : k = k' <;> simp [lookup, h]
  | cons f m ih =>
    rw [assign]
    by_cases hk : k = f.1
    · rw [if_pos hk]
      by_cases h : k = k'
      · simp [lookup, h]
      · have hf : ¬f.1 = k' := hk ▸ h
        simp [lookup, h, hf]
    · rw [if_neg hk]
      by_cases hlt : k < f.1
      · rw [if_pos hlt]
        by_cases h : k = k' <;> simp [lookup, h]
      · rw [if_neg hlt]
        by_cases hf : f.1 = k'
        · have h : ¬k = k' := fun h => hk (h.trans hf.symm)
          simp [lookup, h, hf]
        · have hcons : ∀ m', lookup (f :: m') k' = lookup m' k' := by
            intro m'
            simp [lookup, hf]
          rw [show ((f.1, f.2) : Bytes × Bytes) = f from rfl, hcons, hcons, ih]

variable (stringToLower) in
/-- The map after the fields of a list. -/
def collect (m : List (Bytes × Bytes)) (fields : List (Bytes × Bytes)) : List (Bytes × Bytes) :=
  fields.foldl (fun m f => assign m (stringToLower f.1) f.2) m

theorem lookup_collect (fields : List (Bytes × Bytes)) (k : Bytes) :
    lookup (collect stringToLower [] fields) k =
      ((fields.filter fun f => stringToLower f.1 = k).getLast?).map (·.2) := by
  induction fields using List.reverseRecOn with
  | nil => rfl
  | append_singleton fields f ih =>
    rw [collect, List.foldl_append, List.foldl_cons, List.foldl_nil, lookup_assign,
      List.filter_append]
    by_cases hf : stringToLower f.1 = k
    · simp [hf]
    · rw [if_neg hf]
      have hnil : [f].filter (fun f => stringToLower f.1 = k) = [] := by simp [hf]
      rw [hnil, List.append_nil]
      exact ih

theorem stoul_of_isLength {s : Bytes} (h : IsLength s) : stoul s = some (digitsValue s) := by
  have hnul : cstr s = s := by
    rw [cstr, List.takeWhile_eq_self_iff]
    intro b hb
    have hd := h.digits b hb
    simp only [isDigit, decide_eq_true_eq] at hd ⊢
    rintro rfl
    exact absurd hd.1 (by decide)
  have hall : s.takeWhile isDigit = s := List.takeWhile_eq_self_iff.mpr h.digits
  obtain ⟨b, t, rfl⟩ := List.exists_cons_of_ne_nil h.ne_nil
  have hb := h.digits b List.mem_cons_self
  simp only [isDigit, decide_eq_true_eq] at hb
  have hspace : isSpace b = false := by
    simp only [isSpace, decide_eq_false_iff_not]
    rintro (rfl | hlow)
    · exact absurd hb.1 (by decide)
    · exact absurd (UInt8.le_trans hb.1 hlow.2) (by decide)
  have hdrop : (b :: t).dropWhile isSpace = b :: t := by
    rw [List.dropWhile_cons_of_neg]
    simp [hspace]
  have hminus : ¬some b = some (ch '-') := by
    intro heq
    rw [Option.some.inj heq] at hb
    exact absurd hb (by decide)
  have hplus : ¬some b = some (ch '+') := by
    intro heq
    rw [Option.some.inj heq] at hb
    exact absurd hb (by decide)
  have hfits := h.fits
  rw [stoul, hnul, hdrop]
  simp only [List.head?_cons, hminus, hplus, or_self, if_false, hall]
  rw [if_neg (List.cons_ne_nil b t), if_neg (not_le.mpr hfits)]

/-! ### The head as a whole -/

theorem Free.notMem {bad s : Bytes} {b : UInt8} (h : Free bad s) (hb : b ∈ bad) : b ∉ s :=
  fun hs => h b hs hb

theorem isLine_of_free {l : Bytes} (hlong : 2 ≤ l.length) (h : Free [CR, LF, 0] l) : IsLine l :=
  ⟨hlong, h.notMem (by decide), h.notMem (by decide), h.notMem (by decide)⟩

theorem isLine_startLine (h : Head stringToLower) :
    IsLine (startLine h.method h.url h.version) := by
  have hlong : 2 ≤ (startLine h.method h.url h.version).length := by
    simp only [startLine, List.length_append, List.length_cons]
    omega
  have hspace : ch ' ' ∉ [CR, LF, 0] := by decide
  refine isLine_of_free hlong fun b hb hbad => ?_
  simp only [startLine, List.mem_append, List.mem_cons] at hb
  rcases hb with hb | rfl | hb | rfl | hb
  · exact h.method_free b hb (List.mem_cons_of_mem _ hbad)
  · exact hspace hbad
  · exact h.url_free b hb (List.mem_cons_of_mem _ hbad)
  · exact hspace hbad
  · exact h.version_free b hb hbad

theorem isLine_fieldLine (h : Head stringToLower) {f : Bytes × Bytes} (hf : f ∈ h.fields) :
    IsLine (fieldLine f) := by
  have hlong : 2 ≤ (fieldLine f).length := by
    simp only [fieldLine, List.length_append, List.length_cons]
    omega
  refine isLine_of_free hlong fun b hb hbad => ?_
  simp only [fieldLine, List.mem_append, List.mem_cons] at hb
  rcases hb with hb | rfl | rfl | hb
  · exact h.name_free f hf b hb (List.mem_cons_of_mem _ (List.mem_cons_of_mem _ hbad))
  · exact absurd hbad (by decide)
  · exact absurd hbad (by decide)
  · exact h.value_free f hf b hb hbad

theorem isLine_of_mem (h : Head stringToLower) : ∀ l ∈ h.lines, IsLine l := by
  intro l hl
  rcases List.mem_cons.mp hl with rfl | hl
  · exact isLine_startLine h
  · obtain ⟨f, hf, rfl⟩ := List.mem_map.mp hl
    exact isLine_fieldLine h hf

theorem notMem_block {ls : List Bytes} (h : ∀ l ∈ ls, IsLine l) : 0 ∉ block ls := by
  induction ls with
  | nil => decide
  | cons l ls ih =>
    rw [block_cons]
    simp only [List.mem_append, List.mem_cons, not_or]
    exact ⟨(h l List.mem_cons_self).noNul, by decide, by decide,
      ih fun x hx => h x (List.mem_cons_of_mem _ hx)⟩

theorem cstr_append {s : Bytes} (h : 0 ∉ s) (t : Bytes) : cstr (s ++ t) = s ++ cstr t := by
  refine List.takeWhile_append_of_pos fun b hb => ?_
  simpa using ne_of_mem_of_not_mem hb h

theorem cstr_eq_self {s : Bytes} (h : 0 ∉ s) : cstr s = s := by
  have happend := cstr_append h []
  rwa [List.append_nil, show cstr [] = [] from rfl, List.append_nil] at happend

theorem length_le_block (ls : List Bytes) : ls.length ≤ (block ls).length := by
  induction ls with
  | nil => simp
  | cons l ls ih =>
    rw [block_cons, List.length_append, List.length_cons, List.length_cons, List.length_cons]
    omega

theorem Head.render_pos (h : Head stringToLower) : 0 < h.render.length := by
  have hlen := length_le_block h.lines
  rw [Head.lines, List.length_cons] at hlen
  exact Nat.lt_of_lt_of_le (Nat.succ_pos _) hlen

theorem parseLines_fields (h : Head stringToLower) (fuel : ℕ) (r : HTTPRequest)
    (fields : List (Bytes × Bytes)) (hf : ∀ f ∈ fields, f ∈ h.fields)
    (hfuel : fields.length ≤ fuel) :
    parseLines stringToLower fuel { r with parseStatus := .headerParamKey }
        (block (fields.map fieldLine)) =
      { r with
        headers := collect stringToLower r.headers fields
        parseStatus := .headerParamKey } := by
  induction fields generalizing r fuel with
  | nil =>
    cases fuel with
    | zero => rfl
    | succ fuel => rfl
  | cons f fields ih =>
    cases fuel with
    | zero => simp at hfuel
    | succ fuel =>
      have hmem := hf f List.mem_cons_self
      have hn := h.name_free f hmem
      have hv := h.value_free f hmem
      rw [List.map_cons, parseLines_block (isLine_fieldLine h hmem),
        parseHeadLine_field r (hn.notMem (by decide)) (hn.notMem (by decide))
          (hv.notMem (by decide)) (hv.notMem (by decide))]
      exact ih fuel { r with headers := assign r.headers (stringToLower f.1) f.2 }
        (fun x hx => hf x (List.mem_cons_of_mem _ hx)) (Nat.le_of_succ_le_succ hfuel)

/-- The request in which the lines of a head have been parsed. -/
def Head.parsed (h : Head stringToLower) (r : HTTPRequest) : HTTPRequest :=
  { r with
    method := h.method
    url := h.url
    version := h.version
    headers := collect stringToLower [] h.fields
    parseStatus := .headerParamKey }

theorem parseLines_render (h : Head stringToLower) (r : HTTPRequest) (rbuf : Bytes) :
    parseLines stringToLower h.render.length { r.reset with rbuf := rbuf } h.render =
      h.parsed { r.reset with rbuf := rbuf } := by
  have hlen : h.fields.length + 1 ≤ h.render.length := by
    have := length_le_block h.lines
    rw [Head.lines, List.length_cons, List.length_map] at this
    exact this
  obtain ⟨fuel, hfuel⟩ := Nat.exists_eq_add_of_le' hlen
  have hm := h.method_free
  have hu := h.url_free
  have hv := h.version_free
  have hfields := parseLines_fields h (fuel + h.fields.length)
    { r.reset with
      rbuf := rbuf, method := h.method, url := h.url, version := h.version }
    h.fields (fun f hf => hf) (by omega)
  rw [hfuel, ← Nat.add_assoc, Head.render, Head.lines, parseLines_block (isLine_startLine h)]
  have hstart : parseHeadLine stringToLower { r.reset with rbuf := rbuf }
      (startLine h.method h.url h.version ++ [CR, LF]) =
        { r.reset with
          rbuf := rbuf, method := h.method, url := h.url, version := h.version
          parseStatus := .headerParamKey } :=
    parseHeadLine_start { r.reset with rbuf := rbuf } (hm.notMem (by decide))
      (hu.notMem (by decide)) (hv.notMem (by decide)) (hv.notMem (by decide))
  rw [hstart]
  exact hfields

theorem findSub_part (h : Head stringToLower) {s : Bytes} (hpre : s <+: h.render)
    (hlt : s.length < h.render.length) : findSub separator (cstr s) = none := by
  obtain ⟨t, ht⟩ := hpre
  have hnul : 0 ∉ s := by
    intro hmem
    refine notMem_block (isLine_of_mem h) (?_ : 0 ∈ h.render)
    rw [← ht]
    exact List.mem_append_left _ hmem
  rw [cstr_eq_self hnul]
  cases hfind : findSub separator s with
  | none => rfl
  | some i =>
    -- it would be the place of the separator in the whole rendering
    have hle := findSub_le hfind
    obtain ⟨j, hj, hlen⟩ := findSub_block (isLine_of_mem h) []
    have hwhole := findSub_append hfind t
    rw [List.append_nil, ← Head.lines, ← Head.render, ← ht, hwhole] at hj
    rw [← Head.lines, ← Head.render] at hlen
    have hij := Option.some.inj hj
    have hfour : separator.length = 4 := rfl
    omega

theorem findSub_whole (h : Head stringToLower) (t : Bytes) :
    ∃ i, findSub separator (cstr (h.render ++ t)) = some i ∧ i + 4 = h.render.length := by
  rw [Head.render, cstr_append (notMem_block (isLine_of_mem h))]
  exact findSub_block (isLine_of_mem h) (cstr t)

theorem Head.render_long (h : Head stringToLower) : 5 < h.render.length := by
  have hl := (isLine_startLine h).long
  rw [Head.render, Head.lines, block_cons, List.length_append, List.length_cons, List.length_cons,
    block, List.length_append]
  simp only [List.length_cons]
  omega

/-- **In a proper part of a head there is no header block.** -/
theorem parseHeader_part (h : Head stringToLower) {r : HTTPRequest} (hpre : r.rbuf <+: h.render)
    (hlt : r.rbuf.length < h.render.length) : parseHeader stringToLower r = (r, .incomplete) := by
  rw [parseHeader, ← separator, findSub_part h hpre hlt]

/-- The Content-Length of a head, 0 without one. -/
def Head.contentLength (h : Head stringToLower) : ℕ :=
  (h.last (bytes "content-length")).elim 0 digitsValue

theorem stoul_contentLength (h : Head stringToLower) :
    (h.last (bytes "content-length")).elim (some 0) stoul = some h.contentLength := by
  rw [Head.contentLength]
  cases hlast : h.last (bytes "content-length") with
  | none => rfl
  | some v =>
    obtain ⟨f, hf, rfl⟩ := Option.map_eq_some_iff.mp hlast
    have hmem := List.mem_filter.mp (List.mem_of_getLast? hf)
    exact stoul_of_isLength (h.length_ok f hmem.1 (of_decide_eq_true hmem.2))

theorem parseGetUrl_headers (r : HTTPRequest) : (parseGetUrl r).headers = r.headers := by
  unfold parseGetUrl
  dsimp only
  split_ifs <;> rfl

/-- **A whole head is parsed as it was rendered**, whatever bytes follow. -/
theorem parseHeader_whole (h : Head stringToLower) (r : HTTPRequest) (t : Bytes) :
    parseHeader stringToLower { r.reset with rbuf := h.render ++ t } =
      (takeHeaders (parseGetUrl (h.parsed { r.reset with rbuf := h.render ++ t })) h.contentLength,
        .header h.render.length) := by
  obtain ⟨i, hi, hlen⟩ := findSub_whole h t
  have hlookup : lookup (parseGetUrl (h.parsed { r.reset with rbuf := h.render ++ t })).headers
      (bytes "content-length") = h.last (bytes "content-length") := by
    rw [parseGetUrl_headers]
    exact lookup_collect h.fields _
  rw [parseHeader]
  dsimp only
  rw [← separator, hi]
  dsimp only
  rw [hlen, if_neg (not_le.mpr h.render_long), List.take_left, parseLines_render, hlookup,
    stoul_contentLength]

/-! ### Pieces -/

variable (stringToLower) in
/-- The calls of `ParseHeader` while the header is received: every read puts a piece at the end of
`rbuf_`, and the call that does not return 0 is the last one. -/
def headerCalls (r : HTTPRequest) : List Bytes → List Parsed × HTTPRequest
  | [] => ([], r)
  | piece :: pieces =>
    match parseHeader stringToLower { r with rbuf := r.rbuf ++ piece } with
    | (r, .incomplete) =>
      let (results, r) := headerCalls r pieces
      (.incomplete :: results, r)
    | (r, result) => ([result], r)

/-- The request holds what was rendered. -/
structure Holds (h : Head stringToLower) (r : HTTPRequest) : Prop where
  method : r.method = h.method
  url : r.url = h.url
  version : r.version = h.version
  headers : ∀ k, lookup r.headers k = h.last k

theorem holds_taken (h : Head stringToLower) (r : HTTPRequest) (n : ℕ) :
    Holds h (takeHeaders (parseGetUrl (h.parsed r)) n) := by
  have hurl : (parseGetUrl (h.parsed r)).method = h.method ∧
      (parseGetUrl (h.parsed r)).url = h.url ∧
      (parseGetUrl (h.parsed r)).version = h.version := by
    unfold parseGetUrl
    dsimp only
    split_ifs <;> exact ⟨rfl, rfl, rfl⟩
  refine ⟨hurl.1, hurl.2.1, hurl.2.2, fun k => ?_⟩
  show lookup (parseGetUrl (h.parsed r)).headers k = _
  rw [parseGetUrl_headers]
  exact lookup_collect h.fields k

/-- What has come before the pieces stands in `rbuf_`. -/
theorem headerCalls_from (h : Head stringToLower) (r : HTTPRequest) (pieces : List Bytes) :
    ∀ acc : Bytes, acc.length < h.render.length → h.render <+: acc ++ pieces.flatten →
      ∃ k r', (acc ++ (pieces.take k).flatten).length < h.render.length ∧
        h.render.length ≤ (acc ++ (pieces.take (k + 1)).flatten).length ∧
        headerCalls stringToLower { r.reset with rbuf := acc } pieces =
          (List.replicate k .incomplete ++ [.header h.render.length], r') ∧ Holds h r' := by
  induction pieces with
  | nil =>
    intro acc hlt hpre
    rw [List.flatten_nil, List.append_nil] at hpre
    exact absurd hpre.length_le (not_le.mpr hlt)
  | cons piece pieces ih =>
    intro acc hlt hpre
    rw [List.flatten_cons, ← List.append_assoc] at hpre
    have hcons : ∀ k, acc ++ ((piece :: pieces).take (k + 1)).flatten =
        acc ++ piece ++ (pieces.take k).flatten := by
      intro k
      rw [List.take_succ_cons, List.flatten_cons, List.append_assoc]
    by_cases hpart : (acc ++ piece).length < h.render.length
    · -- the head is not complete yet
      have hpre' : acc ++ piece <+: h.render :=
        List.prefix_of_prefix_length_le (List.prefix_append _ _) hpre hpart.le
      obtain ⟨k, r', hk, hk', hcalls, hr'⟩ := ih (acc ++ piece) hpart hpre
      refine ⟨k + 1, r', by rwa [hcons], by rwa [hcons], ?_, hr'⟩
      have hinc := parseHeader_part h (r := { r.reset with rbuf := acc ++ piece }) hpre' hpart
      rw [headerCalls]
      dsimp only
      rw [hinc]
      dsimp only
      rw [hcalls]
      rfl
    · -- it is, and some bytes of `rest` may have come with it
      obtain ⟨rest, hrest⟩ := List.prefix_of_prefix_length_le hpre (List.prefix_append _ _)
        (not_lt.mp hpart)
      refine ⟨0, takeHeaders (parseGetUrl (h.parsed { r.reset with rbuf := h.render ++ rest }))
        h.contentLength, by simpa using hlt, ?_, ?_, holds_taken h _ _⟩
      · rw [hcons, List.take_zero, List.flatten_nil, List.append_nil]
        exact not_lt.mp hpart
      · rw [headerCalls]
        dsimp only
        rw [← hrest, parseHeader_whole]
        rfl

/-- **Parsing undoes rendering, however the head is cut into pieces.** -/
theorem head_round_trip (stringToLower : Bytes → Bytes) (h : Head stringToLower) (r : HTTPRequest)
    (pieces : List Bytes) (hpieces : h.render <+: pieces.flatten) :
    ∃ k r', (pieces.take k).flatten.length < h.render.length ∧
      h.render.length ≤ (pieces.take (k + 1)).flatten.length ∧
      headerCalls stringToLower r.reset pieces =
        (List.replicate k .incomplete ++ [.header h.render.length], r') ∧
      r'.method = h.method ∧ r'.url = h.url ∧ r'.version = h.version ∧
      ∀ name, lookup r'.headers name = h.last name := by
  obtain ⟨k, r', hk, hk', hcalls, hr'⟩ := headerCalls_from h r pieces [] h.render_pos hpieces
  exact ⟨k, r', hk, hk', hcalls, hr'.method, hr'.url, hr'.version, hr'.headers⟩

/-- A head with a repeated field, values with colons and blanks, and an empty value. -/
def sampleHead : Head Handlers.asciiLower where
  method := bytes "PUT"
  url := bytes "/a?b=c"
  version := bytes "HTTP/1.1"
  fields := [(bytes "Host", bytes "a.b:80"), (bytes "Content-Length", bytes "12"),
    (bytes "X", []), (bytes "host", bytes " c d: e")]
  method_free := by decide +kernel
  url_free := by decide +kernel
  version_free := by decide +kernel
  name_free := by decide +kernel
  value_free := by decide +kernel
  length_ok := by decide +kernel

theorem head_round_trip_sample :
    ∃ k r', (([sampleHead.render.take 20, sampleHead.render.drop 20].take k).flatten).length <
        sampleHead.render.length ∧
      sampleHead.render.length ≤
        (([sampleHead.render.take 20, sampleHead.render.drop 20].take (k + 1)).flatten).length ∧
      headerCalls Handlers.asciiLower ({} : HTTPRequest).reset
          [sampleHead.render.take 20, sampleHead.render.drop 20] =
        (List.replicate k .incomplete ++ [.header sampleHead.render.length], r') ∧
      r'.method = bytes "PUT" ∧ r'.url = bytes "/a?b=c" ∧ r'.version = bytes "HTTP/1.1" ∧
      ∀ name, lookup r'.headers name = sampleHead.last name :=
  head_round_trip Handlers.asciiLower sampleHead {} _ (by decide +kernel)

end Pink.Http.Heads
