import Pink.Http.Heads
import Pink.Http.Replies
import Pink.Http.SimpleConn

/-! # Printing a head

Both `SerializeHeader` functions print a head line by line, each with the room that is left, and add
up the lengths of the lines whether there was room for them or not. They stop when the sum equals the
size. A line that goes beyond the size passes this test, and the room for the next print is a
difference below zero, which is no bound at all. `SerializeHeader` is safe precisely if no line does
that, as `Flush` tests the sum once more (`headerPrints_iff`); `SerializeHeaderToArray`, whose result
is not tested any more, is safe precisely if the head leaves a byte of the array for the terminating
zero, or has a line that cannot be printed at all (`serializeHeaderToArray_iff`). -/

namespace Pink.Http.Prints

open Pink.Redis.Wire Pink.Http.Request Pink.Http.Conn Pink.Http.Replies
open Pink.Http.SimpleConn (Print Printing Response printLines statusLine headerLine unprintable
  serializeHeaderToArray)
open Pink.Http.Heads (cstr_eq_self)
open Pink.Pb.Conn (store)

/-- **A print writes only inside the first `limit` bytes**: as many of the text as there is room for,
and a zero. -/
def Inside (limit : ℕ) (p : Print) : Prop :=
  p.size = 0 ∨ p.pos + (min p.text.length (p.size - 1) + 1) ≤ limit

instance (limit : ℕ) (p : Print) : Decidable (Inside limit p) :=
  inferInstanceAs (Decidable (_ ∨ _))

/-- The text of a line goes beyond the limit, `n` bytes being before the lines. -/
def PassedBy (limit n : ℕ) (lines : List Bytes) : Prop :=
  ∃ pre line, pre ++ [line] <+: lines ∧ n + pre.flatten.length < limit ∧
    limit < n + (pre ++ [line]).flatten.length ∧ line.length < 2 ^ 31

/-- A line that begins before the limit is too long for `snprintf`. -/
def StoppedBy (limit n : ℕ) (lines : List Bytes) : Prop :=
  ∃ pre line, pre ++ [line] <+: lines ∧ n + pre.flatten.length < limit ∧ 2 ^ 31 ≤ line.length

/-- A statement about some line, at the first line or behind it. -/
theorem exists_line_cons {P : List Bytes → Bytes → Prop} {line : Bytes} {lines : List Bytes} :
    (∃ pre l, pre ++ [l] <+: line :: lines ∧ P pre l) ↔
      P [] line ∨ ∃ pre l, pre ++ [l] <+: lines ∧ P (line :: pre) l := by
  constructor
  · rintro ⟨pre, l, hpre, h⟩
    cases pre with
    | nil =>
      obtain ⟨rfl, -⟩ := List.cons_prefix_cons.mp hpre
      exact .inl h
    | cons a pre =>
      obtain ⟨rfl, hpre'⟩ := List.cons_prefix_cons.mp hpre
      exact .inr ⟨pre, l, hpre', h⟩
  · rintro (h | ⟨pre, l, hpre, h⟩)
    · exact ⟨[], line, by simp, h⟩
    · exact ⟨line :: pre, l, List.cons_prefix_cons.mpr ⟨rfl, hpre⟩, h⟩

theorem passedBy_cons {limit n : ℕ} {line : Bytes} {lines : List Bytes} :
    PassedBy limit n (line :: lines) ↔
      (n < limit ∧ limit < n + line.length ∧ line.length < 2 ^ 31) ∨
        PassedBy limit (n + line.length) lines := by
  rw [PassedBy, exists_line_cons]
  simp [PassedBy, Nat.add_assoc]

theorem stoppedBy_cons {limit n : ℕ} {line : Bytes} {lines : List Bytes} :
    StoppedBy limit n (line :: lines) ↔
      (n < limit ∧ 2 ^ 31 ≤ line.length) ∨ StoppedBy limit (n + line.length) lines := by
  rw [StoppedBy, exists_line_cons]
  simp [StoppedBy, Nat.add_assoc]

theorem not_passedBy_of_le {limit n : ℕ} {lines : List Bytes} (h : limit ≤ n) :
    ¬PassedBy limit n lines := by
  rintro ⟨pre, line, -, hlt, -⟩
  omega

theorem not_stoppedBy_of_le {limit n : ℕ} {lines : List Bytes} (h : limit ≤ n) :
    ¬StoppedBy limit n lines := by
  rintro ⟨pre, line, -, hlt, -⟩
  omega

/-- A print with the room that is left is inside. -/
theorem inside_of_lt {limit n : ℕ} (h : n < limit) (text : Bytes) :
    Inside limit ⟨n, limit - n, text⟩ := by
  refine .inr ?_
  dsimp only
  omega

/-- A print behind the limit is outside. -/
theorem not_inside_of_lt {limit n size : ℕ} (h : limit < n) (hsize : 0 < size) (text : Bytes) :
    ¬Inside limit ⟨n, size, text⟩ := by
  rintro (hzero | hle)
  · dsimp only at hzero
    omega
  · dsimp only at hle
    omega

/-! ### `HTTPResponse::SerializeHeader` -/

/-- The prints of `serialize`. -/
def headerPrints : List Bytes → ℕ → List Print
  | [], _ => []
  | text :: texts, serialSize =>
    let size :=
      if serialSize ≤ kHTTPMaxHeader then kHTTPMaxHeader - serialSize
      else 2 ^ 32 - (serialSize - kHTTPMaxHeader)
    ⟨serialSize, size, text⟩ ::
      if 2 ^ 31 ≤ text.length ∨ serialSize + text.length = kHTTPMaxHeader then []
      else headerPrints texts (serialSize + text.length)

/-- They are what `serialize` does to `wbuf_`. -/
theorem serialize_prints {texts : List Bytes} {n m : ℕ} {w w' : Bytes}
    (h : serialize texts n w = some (m, w')) :
    w' = (headerPrints texts n).foldl (fun w p => snprintfAt w p.pos p.size p.text) w := by
  induction texts generalizing n w with
  | nil => exact (Prod.mk.inj (Option.some.inj h)).2.symm
  | cons text texts ih =>
    dsimp only [serialize] at h
    dsimp only [headerPrints]
    by_cases hend : 2 ^ 31 ≤ text.length ∨ n + text.length = kHTTPMaxHeader
    · rw [if_pos hend] at h
      simp at h
    · rw [if_neg hend] at h
      rw [if_neg hend, List.foldl_cons]
      exact ih h

/-- The lines of a head, without the empty line. -/
def headLines (r : HTTPResponse) : List Bytes := (headTexts r).dropLast

theorem headTexts_eq (r : HTTPResponse) : headTexts r = headLines r ++ [[CR, LF]] := by
  rw [headLines, headTexts, List.dropLast_concat]

/-- The prints are inside as long as no line goes beyond the limit; the empty line cannot, as it is
the last one. -/
theorem headerPrints_inside {lines : List Bytes} {n : ℕ} (hn : n < kHTTPMaxHeader) :
    (∀ p ∈ headerPrints (lines ++ [[CR, LF]]) n, Inside kHTTPMaxHeader p) ↔
      ¬PassedBy kHTTPMaxHeader n lines := by
  have hmax : kHTTPMaxHeader < 2 ^ 31 := by decide
  induction lines generalizing n with
  | nil =>
    have hno : ¬PassedBy kHTTPMaxHeader n [] := by
      rintro ⟨pre, line, hpre, -⟩
      simp at hpre
    refine ⟨fun _ => hno, fun _ p hp => ?_⟩
    rw [List.nil_append, headerPrints, if_pos hn.le] at hp
    simp only [headerPrints, ite_self, List.mem_singleton] at hp
    rw [hp]
    exact inside_of_lt hn _
  | cons line lines ih =>
    rw [List.cons_append, headerPrints, if_pos hn.le, List.forall_mem_cons,
      and_iff_right (inside_of_lt hn line), passedBy_cons]
    by_cases hend : 2 ^ 31 ≤ line.length ∨ n + line.length = kHTTPMaxHeader
    · -- the loop ends here
      rw [if_pos hend]
      refine ⟨fun _ => ?_, fun _ p hp => by simp at hp⟩
      rintro (⟨-, hlt, hlen⟩ | hpass)
      · omega
      · exact not_passedBy_of_le (by omega) hpass
    · rw [if_neg hend]
      obtain ⟨hlen, hne⟩ := not_or.mp hend
      rcases Nat.lt_or_gt_of_ne hne with hlt | hgt
      · refine (ih hlt).trans (not_congr ⟨.inr, fun h => h.resolve_left ?_⟩)
        omega
      · -- the next print is behind the limit, and there is one
        refine ⟨fun h => ?_, fun h => absurd (.inl ⟨hn, hgt, not_le.mp hlen⟩) h⟩
        obtain ⟨text, texts, htexts⟩ : ∃ text texts, lines ++ [[CR, LF]] = text :: texts := by
          cases lines with
          | nil => exact ⟨_, _, rfl⟩
          | cons l ls => exact ⟨_, _, rfl⟩
        rw [htexts, headerPrints, if_neg (not_le.mpr hgt)] at h
        exact absurd (h _ List.mem_cons_self) (not_inside_of_lt hgt (by omega) text)

/-- **`SerializeHeader` stays inside the first `kHTTPMaxHeader` bytes of `wbuf_`, and what `Flush`
sends is the whole head.** -/
def SafeHeader (r : HTTPResponse) : Prop :=
  (∀ p ∈ headerPrints (headTexts r) 0, Inside kHTTPMaxHeader p) ∧
    ∀ bs, serializeHeader r = some bs → bs = head r

theorem safeHeader_iff (r : HTTPResponse) :
    SafeHeader r ↔ ¬PassedBy kHTTPMaxHeader 0 (headLines r) := by
  rw [SafeHeader, headTexts_eq, headerPrints_inside (by decide)]
  exact and_iff_left fun bs h => serializeHeader_eq h

/-! ### `Response::SerializeHeaderToArray` -/

/-- The lines of the head that `SerializeHeaderToArray` prints, without the empty line. -/
def arrayLines (r : Response) : List Bytes :=
  statusLine r :: r.withLength.headers.map headerLine

/-- The whole head. -/
def arrayHead (r : Response) : Bytes := (arrayLines r).flatten ++ [CR, LF]

/-- What a call returns and has printed is right for a head: all prints are inside of the array, and
if the result is not negative it is the length of the head, which is in the array. -/
def Right (size : ℕ) (full : Bytes) (actual : ℤ) (x : Printing) : Prop :=
  (∀ p ∈ x.prints, Inside size p) ∧
    (0 ≤ actual → actual = full.length ∧ full.length ≤ size ∧ x.data.take full.length = full)

/-- **`SerializeHeaderToArray` stays inside of its array, and what `FillResponseBuf` goes on to send is
the whole head.** -/
def SafeArray (r : Response) (size : ℕ) : Prop :=
  Right size (arrayHead r) (serializeHeaderToArray r size).2.1 (serializeHeaderToArray r size).2.2

/-- **The head leaves a byte of the array**, or has a line that is too long for `snprintf`. -/
def FitsArray (r : Response) (size : ℕ) : Prop :=
  (arrayHead r).length < size ∨ StoppedBy size 0 (arrayLines r)

section Array

variable {size : ℕ}

/-- A head of which `done` is in the array. -/
structure Printed (size : ℕ) (done : Bytes) (x : Printing) : Prop where
  pos : x.serialSize = done.length
  lt : done.length < size
  le : done.length ≤ x.data.length
  data : x.data.take done.length = done
  inside : ∀ p ∈ x.prints, Inside size p

theorem print_inside {done : Bytes} {x : Printing} (h : Printed size done x) (text : Bytes) :
    ∀ p ∈ (x.print size text).prints, Inside size p := by
  intro p hp
  rw [Printing.print] at hp
  rcases List.mem_append.mp hp with hp | hp
  · exact h.inside p hp
  · obtain rfl := List.mem_singleton.mp hp
    have hlt : x.serialSize < size := by rw [h.pos]; exact h.lt
    rw [subSize_of_le hlt.le]
    exact inside_of_lt hlt text

/-- The array after a print. -/
theorem print_data {done : Bytes} {x : Printing} (h : Printed size done x) (text : Bytes) :
    (x.print size text).data =
      store x.data done.length (text.take (size - done.length - 1) ++ [0]) := by
  have hlt := h.lt
  rw [Printing.print]
  dsimp only [Print.store]
  rw [h.pos, subSize_of_le hlt.le, if_neg (by omega)]

/-- A text with room for the zero behind it is printed. -/
theorem print_printed {done : Bytes} {x : Printing} (h : Printed size done x) {text : Bytes}
    (hlt : done.length + text.length < size) : Printed size (done ++ text) (x.print size text) := by
  have hdata := print_data h text
  rw [List.take_of_length_le (by omega)] at hdata
  have htake := @Pb.Conn.take_store _ (text ++ [0]) _ h.le
  have hlen := @Pb.Conn.le_length_store _ (text ++ [0]) _ h.le
  rw [← hdata] at htake hlen
  rw [List.length_append, List.length_singleton] at htake hlen
  refine ⟨?_, by rwa [List.length_append], ?_, ?_, print_inside h text⟩
  · rw [Printing.print]
    dsimp only
    rw [h.pos, List.length_append]
  · rw [List.length_append]
    omega
  · have hcut := congrArg (List.take (done.length + text.length)) htake
    rw [List.take_take, h.data, ← List.append_assoc, Nat.min_eq_left (by omega)] at hcut
    rw [List.length_append, hcut, ← List.length_append, List.take_left]

/-- What has been printed stays recorded. -/
theorem prints_subset {lines : List Bytes} {x : Printing} :
    x.prints ⊆ (printLines size lines x).2.prints := by
  have hprint : ∀ (x : Printing) (text : Bytes), x.prints ⊆ (x.print size text).prints :=
    fun x text => List.subset_append_left _ _
  induction lines generalizing x with
  | nil => exact hprint x _
  | cons line lines ih =>
    rw [printLines]
    split_ifs
    · exact hprint x line
    · exact hprint x line
    · exact List.Subset.trans (hprint x line) ih

/-- The first of the prints. -/
theorem first_print (lines : List Bytes) (x : Printing) :
    ∃ text, (⟨x.serialSize, subSize size x.serialSize, text⟩ : Print) ∈
      (printLines size lines x).2.prints := by
  have hprint : ∀ text : Bytes, (⟨x.serialSize, subSize size x.serialSize, text⟩ : Print) ∈
      (x.print size text).prints := fun text => List.mem_append_right _ List.mem_cons_self
  cases lines with
  | nil => exact ⟨_, hprint _⟩
  | cons line lines =>
    refine ⟨line, ?_⟩
    rw [printLines]
    split_ifs
    · exact hprint line
    · exact hprint line
    · exact prints_subset (hprint line)

/-- An empty line that ends where the array does has the zero in the place of its last byte. -/
theorem printEnd_data {done : Bytes} {x : Printing} (h : Printed size done x)
    (hend : (done ++ [CR, LF]).length = size) :
    (printLines size [] x).2.data.take size = done ++ [CR, 0] ∧
      size ≤ (printLines size [] x).2.data.length := by
  rw [List.length_append, List.length_cons, List.length_singleton] at hend
  have hprint := print_data h [CR, LF]
  rw [show size - done.length - 1 = 1 by omega] at hprint
  have hstore : (printLines size [] x).2.data = store x.data done.length [CR, 0] := hprint
  have htake := @Pb.Conn.take_store _ [CR, 0] _ h.le
  have hle := @Pb.Conn.le_length_store _ [CR, 0] _ h.le
  rw [List.length_cons, List.length_singleton, hend, ← hstore] at htake hle
  rw [h.data] at htake
  exact ⟨htake, hle⟩

/-- The empty line at the end. -/
theorem printEnd_right {done : Bytes} {x : Printing} (h : Printed size done x) :
    Right size (done ++ [CR, LF]) (printLines size [] x).1 (printLines size [] x).2 ↔
      (done ++ [CR, LF]).length < size := by
  have hinside := print_inside h [CR, LF]
  have hret : (printLines size [] x).1 = (done ++ [CR, LF]).length := by
    rw [printLines, Printing.print, List.length_append, h.pos]
  constructor
  · rintro ⟨-, hsent⟩
    obtain ⟨-, hle, hdata⟩ := hsent (by rw [hret]; exact Int.natCast_nonneg _)
    by_contra hlt
    -- the zero stands in the place of the last byte
    have hlen : (done ++ [CR, LF]).length = size := le_antisymm hle (not_lt.mp hlt)
    rw [hlen, (printEnd_data h hlen).1] at hdata
    exact absurd (List.append_cancel_left hdata) (by decide)
  · intro hlt
    have hprinted := print_printed h (by rw [List.length_append] at hlt; exact hlt)
    exact ⟨hinside, fun _ => ⟨hret, hlt.le, hprinted.data⟩⟩

theorem printLines_right (hsize : size < 2 ^ 31) {lines : List Bytes} {done : Bytes} {x : Printing}
    (h : Printed size done x) :
    Right size (done ++ (lines.flatten ++ [CR, LF])) (printLines size lines x).1
        (printLines size lines x).2 ↔
      (done ++ (lines.flatten ++ [CR, LF])).length < size ∨ StoppedBy size done.length lines := by
  induction lines generalizing done x with
  | nil =>
    have hno : ¬StoppedBy size done.length [] := by
      rintro ⟨pre, line, hpre, -⟩
      simp at hpre
    rw [or_iff_left hno, List.flatten_nil, List.nil_append]
    exact printEnd_right h
  | cons line lines ih =>
    have hinside := print_inside h line
    have hpos : (x.print size line).serialSize = done.length + line.length := by
      rw [Printing.print, h.pos]
    have hfull : (done ++ ((line :: lines).flatten ++ [CR, LF])).length =
        done.length + line.length + lines.flatten.length + 2 := by
      simp [Nat.add_assoc]
    have hover : size ≤ done.length + line.length → ¬2 ^ 31 ≤ line.length →
        ¬((done ++ ((line :: lines).flatten ++ [CR, LF])).length < size ∨
          done.length < size ∧ 2 ^ 31 ≤ line.length ∨
            StoppedBy size (done.length + line.length) lines) := by
      rintro hle hline (hlt | ⟨-, hline'⟩ | hstop)
      · omega
      · exact hline hline'
      · exact not_stoppedBy_of_le hle hstop
    rw [stoppedBy_cons, printLines]
    by_cases hlong : unprintable line = true
    · rw [if_pos hlong]
      have hline : 2 ^ 31 ≤ line.length := of_decide_eq_true hlong
      refine ⟨fun _ => .inr (.inl ⟨h.lt, hline⟩), fun _ => ⟨hinside, fun hneg => ?_⟩⟩
      dsimp only at hneg
      omega
    · rw [if_neg hlong, toInt32_of_lt hsize, hpos]
      have hline : ¬2 ^ 31 ≤ line.length := fun h => hlong (decide_eq_true h)
      by_cases hend : ((done.length + line.length : ℕ) : ℤ) = size
      · rw [if_pos hend]
        have hend' : done.length + line.length = size := Int.ofNat.inj hend
        refine iff_of_false (fun hright => ?_) (hover hend'.ge hline)
        have hle := (hright.2 (Int.natCast_nonneg _)).2.1
        omega
      · rw [if_neg hend]
        have hne : done.length + line.length ≠ size := fun h => hend (congrArg Int.ofNat h)
        rcases Nat.lt_or_gt_of_ne hne with hlt | hgt
        · have hgo := ih (print_printed h hlt)
          rw [List.append_assoc, ← List.append_assoc line, ← List.flatten_cons,
            @List.length_append _ done line] at hgo
          rw [hgo]
          exact or_congr_right ⟨.inr, fun h => h.resolve_left fun h => hline h.2⟩
        · -- the next print is behind the end of the array
          obtain ⟨text, hmem⟩ := @first_print size lines (x.print size line)
          rw [hpos] at hmem
          have hroom : 0 < subSize size (done.length + line.length) := by
            have hlt := h.lt
            rw [subSize, if_neg (not_le.mpr hgt)]
            omega
          refine iff_of_false (fun hright => ?_) (hover hgt.le hline)
          exact not_inside_of_lt hgt hroom text (hright.1 _ hmem)

/-- Lines that leave room for a byte are printed one after the other. -/
theorem printLines_end (hsize : size < 2 ^ 31) {lines : List Bytes} {done : Bytes} {x : Printing}
    (h : Printed size done x) (hlt : (done ++ lines.flatten).length < size) :
    ∃ y, Printed size (done ++ lines.flatten) y ∧ printLines size lines x = printLines size [] y := by
  induction lines generalizing done x with
  | nil =>
    refine ⟨x, ?_, rfl⟩
    rwa [List.flatten_nil, List.append_nil]
  | cons line lines ih =>
    rw [List.flatten_cons, ← List.append_assoc] at hlt ⊢
    have hline : (done ++ line).length < size :=
      (List.prefix_append _ _).length_le.trans_lt hlt
    rw [List.length_append] at hline
    have hnext := print_printed h hline
    obtain ⟨y, hy, heq⟩ := ih hnext hlt
    refine ⟨y, hy, ?_⟩
    have hprintable : ¬unprintable line = true := by
      intro hlong
      have hle : 2 ^ 31 ≤ line.length := of_decide_eq_true hlong
      omega
    have hgo : ¬((x.print size line).serialSize : ℤ) = toInt32 size := by
      rw [toInt32_of_lt hsize, hnext.pos, List.length_append]
      omega
    rw [← heq, printLines, if_neg hprintable, if_neg hgo]

end Array

/-- Before the first print. -/
theorem printed_nil {size : ℕ} (hpos : 0 < size) : Printed size [] {} :=
  ⟨rfl, hpos, le_rfl, rfl, by simp⟩

theorem safeArray_iff (r : Response) {size : ℕ} (hpos : 0 < size)
    (hsize : size ≤ SimpleConn.kHTTPMaxMessage) : SafeArray r size ↔ FitsArray r size := by
  have hlt : size < 2 ^ 31 := hsize.trans_lt (by decide)
  -- but for the header that is added after the first test, the first line is printed as the others
  have hall := @printLines_right _ hlt (arrayLines r) _ _ (printed_nil hpos)
  rw [List.nil_append, List.length_nil, ← arrayHead] at hall
  rw [FitsArray, ← hall, SafeArray, arrayLines, printLines, serializeHeaderToArray]
  by_cases hlong : unprintable (statusLine r) = true
  · rw [if_pos hlong, if_pos hlong]
  · rw [if_neg hlong, if_neg hlong]
    by_cases hend : ((({} : Printing).print size (statusLine r)).serialSize : ℤ) = toInt32 size
    · rw [if_pos hend, if_pos hend]
    · rw [if_neg hend, if_neg hend]

/-- A head whose lines leave room for a byte: only the empty line is left to print. -/
theorem serializeHeaderToArray_end (r : Response) {size : ℕ} (hsize : size < 2 ^ 31)
    (hlt : (arrayLines r).flatten.length < size) :
    ∃ y, Printed size (arrayLines r).flatten y ∧
      serializeHeaderToArray r size = (r.withLength, printLines size [] y) := by
  have hflat : (arrayLines r).flatten =
      statusLine r ++ (r.withLength.headers.map headerLine).flatten := List.flatten_cons
  rw [hflat] at hlt ⊢
  have hline : (statusLine r).length < size :=
    (List.prefix_append _ _).length_le.trans_lt hlt
  have hpos : 0 < size := (Nat.zero_le _).trans_lt hline
  have hnext := @print_printed _ _ _ (printed_nil hpos) (statusLine r) (by simpa using hline)
  rw [List.nil_append] at hnext
  obtain ⟨y, hy, heq⟩ := printLines_end hsize hnext hlt
  refine ⟨y, hy, ?_⟩
  have hprintable : ¬unprintable (statusLine r) = true := by
    intro hlong
    have hle : 2 ^ 31 ≤ (statusLine r).length := of_decide_eq_true hlong
    omega
  have hgo : ¬((({} : Printing).print size (statusLine r)).serialSize : ℤ) = toInt32 size := by
    rw [toInt32_of_lt hsize, hnext.pos]
    omega
  rw [serializeHeaderToArray, if_neg hprintable, if_neg hgo, ← heq]

/-- **Printing a head is safe** for `HTTPResponse` precisely if no line goes beyond the limit, and for
`Response` precisely if the head is shorter than the array or has a line that cannot be printed. -/
theorem prints_iff (r : HTTPResponse) (resp : Response) {size : ℕ} (hpos : 0 < size)
    (hsize : size ≤ SimpleConn.kHTTPMaxMessage) :
    (SafeHeader r ↔ ¬PassedBy kHTTPMaxHeader 0 (headLines r)) ∧
      (SafeArray resp size ↔ FitsArray resp size) :=
  ⟨safeHeader_iff r, safeArray_iff resp hpos hsize⟩

/-- A response with a header. -/
def withHeader (value : Bytes) : HTTPResponse := { headers := [(bytes "k", value)] }

def simpleWithHeader (value : Bytes) : Response :=
  { headers := [(bytes "Content-Length", bytes "0"), (bytes "k", value)] }

theorem prints_iff_withHeader :
    (SafeHeader (withHeader (bytes "v")) ↔
      ¬PassedBy kHTTPMaxHeader 0 (headLines (withHeader (bytes "v")))) ∧
      (SafeArray (simpleWithHeader (bytes "v")) 40 ↔
        FitsArray (simpleWithHeader (bytes "v")) 40) :=
  prints_iff (withHeader (bytes "v")) (simpleWithHeader (bytes "v")) (by decide) (by decide)

theorem withHeader_passed {value : Bytes} (hzero : 0 ∉ value)
    (hlen : value.length = kHTTPMaxHeader) :
    PassedBy kHTTPMaxHeader 0 (headLines (withHeader value)) := by
  have hlines : headLines (withHeader value) = [bytes "HTTP/1.1 200 OK\r\n",
      bytes "k: " ++ value ++ [CR, LF]] := by
    rw [headLines, headTexts, List.dropLast_concat, withHeader, List.map_cons, cstr_eq_self hzero]
    rfl
  have hmax : kHTTPMaxHeader < 2 ^ 31 - 5 := by decide
  refine ⟨[bytes "HTTP/1.1 200 OK\r\n"], bytes "k: " ++ value ++ [CR, LF], ?_, by decide, ?_, ?_⟩
  · rw [hlines]
    exact List.prefix_rfl
  · have hpre : (bytes "HTTP/1.1 200 OK\r\n").length = 17 := by decide
    simp [hpre, hlen]
    omega
  · have hkey : (bytes "k: ").length = 3 := by decide
    simp only [List.length_append, List.length_cons, List.length_nil, hkey, hlen]
    omega

theorem simpleWithHeader_long {value : Bytes} (hzero : 0 ∉ value)
    (hlen : value.length = SimpleConn.kHTTPMaxMessage) :
    ¬FitsArray (simpleWithHeader value) SimpleConn.kHTTPMaxMessage := by
  have hlines : arrayLines (simpleWithHeader value) = [bytes "HTTP/1.1 0 \r\n",
      bytes "Content-Length: 0\r\n", bytes "k: " ++ value ++ [CR, LF]] := by
    have hkeep : (simpleWithHeader value).withLength = simpleWithHeader value := rfl
    rw [arrayLines, hkeep, simpleWithHeader, List.map_cons, List.map_cons, headerLine, headerLine,
      cstr_eq_self hzero]
    rfl
  have hmax : SimpleConn.kHTTPMaxMessage < 2 ^ 31 - 5 := by decide
  have hkey : (bytes "k: ").length = 3 := by decide
  rintro (hlt | ⟨pre, line, hpre, -, hlong⟩)
  · rw [arrayHead, hlines] at hlt
    simp [hkey, hlen] at hlt
    omega
  · have hmem : line ∈ arrayLines (simpleWithHeader value) :=
      hpre.subset (List.mem_append_right _ List.mem_cons_self)
    rw [hlines] at hmem
    simp only [List.mem_cons, List.not_mem_nil, or_false] at hmem
    rcases hmem with rfl | rfl | rfl
    · exact absurd hlong (by decide)
    · exact absurd hlong (by decide)
    · simp only [List.length_append, List.length_cons, List.length_nil, hkey, hlen] at hlong
      omega

/-- With a header as long as the limit, the empty line is printed behind it. -/
theorem prints_outside :
    ¬SafeHeader (withHeader (List.replicate kHTTPMaxHeader 97)) ∧
      ¬SafeArray (simpleWithHeader (List.replicate SimpleConn.kHTTPMaxMessage 97))
        SimpleConn.kHTTPMaxMessage := by
  have hzero : ∀ n : ℕ, (0 : UInt8) ∉ List.replicate n 97 := by
    intro n hmem
    exact absurd (List.eq_of_mem_replicate hmem) (by decide)
  constructor
  · rw [safeHeader_iff]
    exact not_not.mpr (withHeader_passed (hzero _) List.length_replicate)
  · rw [safeArray_iff _ (by decide) le_rfl]
    exact simpleWithHeader_long (hzero _) List.length_replicate

end Pink.Http.Prints
