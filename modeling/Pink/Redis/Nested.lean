import Pink.Redis.Recv

/-! # Nested replies

Replies whose elements are replies again, in one read. `GetReply` counts the elements that are still
to come in one number, which the header of an array sets, without regard to what it was. So the
reader forgets the elements behind an inner array, and stops at its end; it takes the whole reply
exactly if every inner array is the last element of the array around it (`consumes_iff`). -/

namespace Pink.Redis.Nested

open Pink.Redis.Wire Pink.Redis.Cli Pink.Redis.Cli.RedisCli Pink.Redis.Recv

inductive Reply
  | item (i : Item)
  | array (elems : List Reply)
  /-- `*-1` -/
  | nilArray

mutual

def Reply.encode : Reply → Bytes
  | .item i => i.encode
  | .array elems => arrayHeader elems.length ++ encodeAll elems
  | .nilArray => ch '*' :: (decimal (-1) ++ [CR, LF])

def encodeAll : List Reply → Bytes
  | [] => []
  | r :: rs => r.encode ++ encodeAll rs

end

mutual

/-- The leaves of a reply, in order. -/
def Reply.leaves : Reply → List Item
  | .item i => [i]
  | .array elems => leavesAll elems
  | .nilArray => []

def leavesAll : List Reply → List Item
  | [] => []
  | r :: rs => r.leaves ++ leavesAll rs

end

def Reply.payloads (r : Reply) : Argv := r.leaves.flatMap Item.payloads

/-- The text of a line holds no line end. -/
def Clean (leaves : List Item) : Prop :=
  ∀ i ∈ leaves, ∀ t text, i = .line t text → ¬ [CR, LF] <:+: text

def Reply.isArray : Reply → Bool
  | .item _ => false
  | _ => true

mutual

/-- **Every array that is an element of an array is its last element.** -/
def Reply.LastNested : Reply → Prop
  | .array elems => LastNestedAll elems
  | _ => True

def LastNestedAll : List Reply → Prop
  | [] => True
  | [r] => r.LastNested
  | r :: r' :: rs => r.isArray = false ∧ LastNestedAll (r' :: rs)

end

/-- **`Recv` consumes exactly the reply**: it returns its payloads, without another read, and what
is left in the buffer is `rest`. -/
def Consumes (c : RedisCli) (r : Reply) (rest : Bytes) (later : List ReadResult) : Prop :=
  ∃ c', c.recv = (c', .ok, some r.payloads) ∧ Holds c' rest ∧ c'.socket = later

/-! ### Lists of replies -/

theorem encodeAll_append (rs rs' : List Reply) :
    encodeAll (rs ++ rs') = encodeAll rs ++ encodeAll rs' := by
  induction rs with
  | nil => rfl
  | cons r rs ih => rw [List.cons_append, encodeAll, encodeAll, ih, List.append_assoc]

theorem leavesAll_append (rs rs' : List Reply) :
    leavesAll (rs ++ rs') = leavesAll rs ++ leavesAll rs' := by
  induction rs with
  | nil => rfl
  | cons r rs ih => rw [List.cons_append, leavesAll, leavesAll, ih, List.append_assoc]

theorem Reply.encode_ne_nil (r : Reply) : r.encode ≠ [] := by
  cases r with
  | item i => exact i.encode_ne_nil
  | array elems => simp [Reply.encode, arrayHeader]
  | nilArray => simp [Reply.encode]

theorem length_le_encodeAll (rs : List Reply) : rs.length ≤ (encodeAll rs).length := by
  induction rs with
  | nil => exact le_rfl
  | cons r rs ih =>
    have := List.length_pos_iff.mpr r.encode_ne_nil
    rw [encodeAll, List.length_cons, List.length_append]
    omega

theorem encodeAll_eq_nil_iff {rs : List Reply} : encodeAll rs = [] ↔ rs = [] := by
  refine ⟨fun h => ?_, fun h => by rw [h]; rfl⟩
  have := length_le_encodeAll rs
  rw [h, List.length_nil] at this
  exact List.length_eq_zero_iff.mp (by omega)

/-- An array is last only if nothing is behind it. -/
theorem lastNestedAll_cons_array {r : Reply} {rs : List Reply} (hr : r.isArray = true) :
    LastNestedAll (r :: rs) ↔ rs = [] ∧ r.LastNested := by
  cases rs with
  | nil => simp [LastNestedAll]
  | cons r' rs => simp [LastNestedAll, hr]

theorem lastNestedAll_cons_item {i : Item} {rs : List Reply} :
    LastNestedAll (.item i :: rs) ↔ LastNestedAll rs := by
  cases rs with
  | nil => simp [LastNestedAll, Reply.LastNested]
  | cons r' rs => simp [LastNestedAll, Reply.isArray]

/-- The replies `rs` are still to come and the counter is at `e`: it has lost none of them, and
will lose none. -/
def Synced (e : ℤ) (rs : List Reply) : Prop := ((rs.length : ℤ) ≤ e ∨ rs = []) ∧ LastNestedAll rs

theorem synced_of_le_zero {e : ℤ} (he : e ≤ 0) {rs : List Reply} : Synced e rs ↔ rs = [] := by
  constructor
  · rintro ⟨hlen | hnil, -⟩
    · exact List.length_eq_zero_iff.mp (by omega)
    · exact hnil
  · rintro rfl
    exact ⟨.inr rfl, by simp [LastNestedAll]⟩

theorem synced_item {e : ℤ} (he : 0 < e) {i : Item} {rs : List Reply} :
    Synced (e - 1) rs ↔ Synced e (.item i :: rs) := by
  unfold Synced
  rw [lastNestedAll_cons_item, List.length_cons]
  refine and_congr_left fun _ => ?_
  constructor
  · rintro (hlen | rfl)
    · left; push_cast; omega
    · left; simp; omega
  · rintro (hlen | hnil)
    · left; push_cast at hlen; omega
    · simp at hnil

/-- **The header of an array drops what is behind the array.** -/
theorem synced_array {e : ℤ} (he : 0 < e) {elems rs : List Reply} :
    Synced elems.length (elems ++ rs) ↔ Synced e (.array elems :: rs) := by
  unfold Synced
  rw [lastNestedAll_cons_array rfl, Reply.LastNested, List.length_cons, List.length_append]
  constructor
  · rintro ⟨hlen, hlast⟩
    have hnil : rs = [] := by
      rcases hlen with hlen | hnil
      · exact List.length_eq_zero_iff.mp (by push_cast at hlen; omega)
      · exact (List.append_eq_nil_iff.mp hnil).2
    subst hnil
    rw [List.append_nil] at hlast
    exact ⟨.inl (by simp; omega), rfl, hlast⟩
  · rintro ⟨-, rfl, hlast⟩
    rw [List.append_nil]
    exact ⟨.inl (by simp), hlast⟩

theorem synced_nilArray {e : ℤ} (he : 0 < e) {rs : List Reply} :
    Synced (-1) rs ↔ Synced e (.nilArray :: rs) := by
  rw [synced_of_le_zero (by omega), Synced, lastNestedAll_cons_array rfl, List.length_cons]
  constructor
  · rintro rfl
    exact ⟨.inl (by simp; omega), rfl, by simp [Reply.LastNested]⟩
  · rintro ⟨-, rfl, -⟩
    rfl

/-! ### The loop -/

section Loop
variable {c : RedisCli} {rest : Bytes}

/-- **A turn of the loop takes what stands at the front of the window.** -/
theorem turn {p w : Bytes} {payloads : Argv} {el : ℤ} {n : ℕ} (h : Holds c (p ++ w)) (hp : p ≠ [])
    (hel : c.elements > 0)
    (htook : ∃ c', c.getReplyFromReader = (c', .ok) ∧ Took c c' w payloads el) :
    ∃ c', getReplyLoop (n + 1) c .ok = getReplyLoop n c' .ok ∧ Took c c' w payloads el := by
  obtain ⟨c', hx, ht⟩ := htook
  have hoff : c.rbufOffset ≠ 0 := by
    have := List.length_pos_iff.mpr hp
    rw [h.offset, List.length_append]; push_cast; omega
  have hr : c.refill .ok = (c, none) := by rw [refill, if_neg (by simp [hoff])]
  exact ⟨c', getReplyLoop_turn hel hr h.fault hx ht.holds.fault, ht⟩

/-- The loop has stopped in `c'`: `left` is what it has left of the replies `rs`. -/
structure Stopped (c c' : RedisCli) (rs left : List Reply) (rest : Bytes) : Prop where
  holds : Holds c' (encodeAll left ++ rest)
  socket : c'.socket = c.socket
  argv : left = [] → c'.argv = c.argv ++ (leavesAll rs).flatMap Item.payloads
  /-- Nothing is left exactly if the counter was right, and stays right. -/
  iff : left = [] ↔ Synced c.elements rs

/-- The first reply of the list is off the window, and `rs'` is what is still to come. -/
theorem Stopped.cons {c1 c' : RedisCli} {w : Bytes} {payloads : Argv} {el : ℤ}
    {r : Reply} {rs rs' left : List Reply} (ht : Took c c1 w payloads el)
    (h : Stopped c1 c' rs' left rest)
    (hpay : payloads ++ (leavesAll rs').flatMap Item.payloads =
      (leavesAll (r :: rs)).flatMap Item.payloads)
    (hsync : Synced el rs' ↔ Synced c.elements (r :: rs)) :
    Stopped c c' (r :: rs) left rest := by
  refine ⟨h.holds, by rw [h.socket, ht.socket], fun hl => ?_, ?_⟩
  · rw [h.argv hl, ht.argv, List.append_assoc, hpay]
  · rw [h.iff, ht.elements, hsync]

/-- **The loop stops at the end of the replies, or before it if the counter has lost some.** The
induction is on the fuel; the list of replies still to come grows by the elements of an array when
its header is taken. -/
theorem getReplyLoop_stopped : ∀ (n : ℕ) {c : RedisCli} {rs : List Reply},
    (encodeAll rs).length < n → Holds c (encodeAll rs ++ rest) → Clean (leavesAll rs) →
    c.elements ≤ rs.length →
    ∃ c' left, getReplyLoop n c .ok = (c', .ok) ∧ Stopped c c' rs left rest := by
  intro n
  induction n with
  | zero => intro c rs hn; omega
  | succ n ih =>
    intro c rs hn h hv hle
    by_cases hel : c.elements > 0
    swap
    · refine ⟨c, rs, ?_, h, rfl, ?_, (synced_of_le_zero (by omega)).symm⟩
      · rw [getReplyLoop, if_neg hel]
      · rintro rfl; simp [leavesAll]
    cases rs with
    | nil => rw [List.length_nil] at hle; push_cast at hle; omega
    | cons r rs =>
      have hsize := h.le_size (by simp [encodeAll, r.encode_ne_nil])
      rw [encodeAll, List.append_assoc] at h hsize
      rw [encodeAll, List.length_append] at hn
      have hp := List.length_pos_iff.mpr r.encode_ne_nil
      rw [List.length_cons] at hle
      push_cast at hle
      have hv' : Clean (leavesAll rs) := fun j hj => hv j (by simp [leavesAll, hj])
      cases r with
      | item i =>
        obtain ⟨c1, hl, ht⟩ := turn (n := n) h (Reply.encode_ne_nil _) hel
          (item_took (hv i (by simp [leavesAll, Reply.leaves])) h)
        obtain ⟨c', left, hl', hstop⟩ := ih (by omega) ht.holds hv' (by rw [ht.elements]; omega)
        refine ⟨c', left, hl.trans hl', hstop.cons ht ?_ (synced_item hel)⟩
        simp [leavesAll, Reply.leaves]
      | array elems =>
        have hcount := length_le_encodeAll elems
        have hpos := h.pos
        unfold REDIS_IOBUF_LEN at hsize
        rw [Reply.encode, List.append_assoc, ← List.append_assoc (encodeAll elems),
          ← encodeAll_append] at h
        rw [Reply.encode, List.length_append] at hn
        simp only [Reply.encode, List.length_append] at hsize
        have hhead : 0 < (arrayHeader elems.length).length := by simp [arrayHeader]
        obtain ⟨c1, hl, ht⟩ := turn (n := n) h (List.length_pos_iff.mp hhead) hel
          (arrayHeader_took (by push_cast at hsize; omega) h)
        have hn' : (encodeAll (elems ++ rs)).length < n := by
          rw [encodeAll_append, List.length_append]; omega
        obtain ⟨c', left, hl', hstop⟩ := ih hn' ht.holds
          (by rw [leavesAll_append]; exact hv) (by rw [ht.elements, List.length_append]; simp)
        refine ⟨c', left, hl.trans hl', hstop.cons ht ?_ (synced_array hel)⟩
        simp [leavesAll, Reply.leaves, leavesAll_append]
      | nilArray =>
        have hint : toInt (-1) = -1 := by decide
        obtain ⟨c1, hl, ht⟩ := turn (n := n) h (Reply.encode_ne_nil _) hel
          (header_took (by decide +kernel) readLongLong_nil h)
        rw [hint] at ht
        obtain ⟨c', left, hl', hstop⟩ := ih (by omega) ht.holds hv' (by rw [ht.elements]; omega)
        refine ⟨c', left, hl.trans hl', hstop.cons ht ?_ (synced_nilArray hel)⟩
        simp [leavesAll, Reply.leaves]

/-- A read into an empty window. -/
theorem getReplyLoop_read {c1 : RedisCli} {n : ℕ} (hel : c.elements > 0) (h : c.rbufOffset = 0)
    (hread : c.bufferRead = (c1, none)) (h1 : c1.rbufOffset ≠ 0)
    (he : c1.elements = c.elements) :
    getReplyLoop (n + 1) c .ok = getReplyLoop (n + 1) c1 .ok := by
  rw [getReplyLoop, getReplyLoop, if_pos hel, if_pos (he ▸ hel), refill, refill,
    if_pos (.inl h), if_neg (by simp [h1]), hread]

end Loop

/-! ### `Recv` -/

/-- **`Recv` consumes exactly one reply, if and only if every inner array is the last element of the
array around it.** -/
theorem consumes_iff (c : RedisCli) (r : Reply) (rest : Bytes) (later : List ReadResult)
    (hv : Clean r.leaves) (h : Holds c [])
    (hs : c.socket = .data (r.encode ++ rest) :: later)
    (hlen : ((r.encode ++ rest).length : ℤ) ≤ REDIS_IOBUF_LEN) :
    Consumes c r rest later ↔ r.LastNested := by
  have hne : r.encode ++ rest ≠ [] := by simp [r.encode_ne_nil]
  have hone : encodeAll [r] = r.encode := by simp [encodeAll]
  have hleaves : leavesAll [r] = r.leaves := by simp [leavesAll]
  have h0 : Holds { c with argv := [], elements := 1 } [] :=
    ⟨h.fault, h.pos, h.size, h.offset, by simp⟩
  obtain ⟨c1, hread, h1, ha, he, hs1⟩ := bufferRead_holds h0 hs hne hlen
  have hoff : c1.rbufOffset ≠ 0 := by
    have := List.length_pos_iff.mpr hne
    rw [h1.offset]; omega
  have hpend : (r.encode ++ rest).length ≤ c.pending := by simp [pending, hs]
  rw [List.length_append] at hpend
  rw [← hone] at h1
  have hfuel : (encodeAll [r]).length < c.rbufOffset.toNat + c.pending + c.rbuf.length + 2 := by
    rw [hone]; omega
  obtain ⟨c', left, hl, hstop⟩ := getReplyLoop_stopped _ hfuel h1 (by rw [hleaves]; exact hv)
    (by rw [he]; rfl)
  have hrecv : c.recv = (c', .ok, some c'.argv) := by
    have hloop := getReplyLoop_read (n := c.rbufOffset.toNat + c.pending + c.rbuf.length + 1)
      one_pos (by simpa using h0.offset) hread hoff he
    have hreply : getReply { c with argv := [] } = (c', .ok) := hloop.trans hl
    rw [recv, hreply]
  have hsync : left = [] ↔ r.LastNested := by
    rw [hstop.iff, he, Synced, LastNestedAll]; simp
  rw [← hsync]
  constructor
  · rintro ⟨c2, hc2, hrest, -⟩
    rw [hrecv] at hc2
    obtain ⟨rfl, -⟩ := Prod.mk.inj hc2
    have hl1 := hstop.holds.offset
    rw [hrest.offset, List.length_append] at hl1
    rw [← encodeAll_eq_nil_iff]
    exact List.length_eq_zero_iff.mp (by push_cast at hl1; omega)
  · intro hleft
    have hargv := hstop.argv hleft
    have hholds := hstop.holds
    rw [ha, hleaves] at hargv
    rw [hleft] at hholds
    refine ⟨c', ?_, hholds, by rw [hstop.socket, hs1]⟩
    rw [hrecv, hargv]; rfl

/-- Arrays that are last elements, an empty one and a number among them. -/
def tail : Reply := .array [.item (.bulk (bytes "ab")),
  .array [.item .nil, .item (.line .integer (bytes "7")), .array []]]

theorem consumes_iff_tail :
    Consumes (fresh zeros [tail.encode ++ bytes "+OK\r\n"]) tail (bytes "+OK\r\n") [] := by
  refine (consumes_iff _ tail _ [] ?_ ⟨rfl, le_rfl, length_zeros, rfl, by simp⟩ rfl
    (by decide +kernel)).mpr ?_
  · intro i hi t text htext
    have hmem : i ∈ [.bulk (bytes "ab"), .nil, .line .integer (bytes "7")] := hi
    simp only [List.mem_cons, List.not_mem_nil, or_false] at hmem
    rcases hmem with rfl | rfl | rfl
    · cases htext
    · cases htext
    · cases htext; decide +kernel
  · exact ⟨rfl, rfl, rfl, trivial⟩

/-- An array before another element: the reader stops behind the array. -/
def inner : Reply := .array [.array [.item (.bulk (bytes "a"))], .item (.bulk (bytes "b"))]

theorem not_consumes_inner :
    inner.encode = bytes "*2\r\n*1\r\n$1\r\na\r\n$1\r\nb\r\n" ∧
    ¬Consumes (fresh zeros [inner.encode ++ []]) inner [] [] := by
  refine ⟨by decide +kernel, ?_⟩
  rintro ⟨c', hc, -⟩
  have h : ((fresh zeros [inner.encode ++ []]).recv).2 = (.ok, some inner.payloads) := by rw [hc]
  revert h
  decide +kernel

end Pink.Redis.Nested
