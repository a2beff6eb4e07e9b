import Pink.Lib.Runs

/-! # The cron task

The part of `ThreadMain` that is the same in the four threads with an event loop: the time at which
the cron task is due is kept in `when`, which is compared with the clock in every turn, and the time
to wait follows from the difference. Behind a run of the task the microseconds of `cron_interval_` are
added to those of the clock and not carried over, so that `when.tv_usec` may be a second or more. It
is only used up in the comparison if the seconds are equal: as soon as the clock has reached the next
second the task is run, up to a second early. A run of the loop is punctual exactly if this does not
happen (`punctual_iff`), and always if `cron_interval_` is a number of seconds
(`punctual_of_seconds`). The times to wait are right in every case (`waits_of_run`).

The seconds are integers; `cron_interval_` is an `int`, and the time to wait is converted to one. -/

namespace Pink.Server.Cron

open Pink.Lib.Runs

/-! ### Times -/

/-- `struct timeval`. -/
structure Timeval where
  sec : ℤ
  usec : ℤ
  deriving DecidableEq, Repr

namespace Timeval

def micros (t : Timeval) : ℤ := t.sec * 1000000 + t.usec

/-- What `gettimeofday` returns. -/
def Normal (t : Timeval) : Prop := 0 ≤ t.usec ∧ t.usec < 1000000

/-- The two additions. -/
def plus (t : Timeval) (interval : Int32) : Timeval :=
  ⟨t.sec + interval.toInt.tdiv 1000, t.usec + interval.toInt.tmod 1000 * 1000⟩

/-- The comparison of `when` with the clock. -/
def After (t now : Timeval) : Prop := t.sec > now.sec ∨ t.sec = now.sec ∧ t.usec > now.usec

/-- The milliseconds that are left. -/
def left (t now : Timeval) : ℤ := (t.sec - now.sec) * 1000 + (t.usec - now.usec).tdiv 1000

instance (t : Timeval) : Decidable t.Normal := inferInstanceAs (Decidable (_ ∧ _))

instance (t now : Timeval) : Decidable (t.After now) := inferInstanceAs (Decidable (_ ∨ _))

end Timeval

open Timeval

/-! ### The loop -/

inductive Task
  | doCronTask | cronHandle
  deriving DecidableEq, Repr

/-- The threads with an event loop. -/
inductive EventThread
  | serverThread | workerThread | clientThread | backendThread
  deriving DecidableEq, Repr

/-- What the thread does when the cron task is due. -/
def EventThread.cronTasks : EventThread → List Task
  | .serverThread => [.doCronTask, .cronHandle]
  | .workerThread => [.doCronTask]
  | .clientThread | .backendThread => [.cronHandle, .doCronTask]

/-- `PINK_CRON_INTERVAL`. -/
def pinkCronInterval : ℤ := 1000

/-- The variables of `ThreadMain`; what is kept of the past are the times at which the cron task was
run, the calls it made, and the arguments of `PinkPoll`. -/
structure Loop where
  when : Timeval
  timeout : ℤ
  runs : List Timeval := []
  calls : List Task := []
  timeouts : List ℤ := []
  deriving DecidableEq, Repr

/-- The lines in front of the loop; `t₀` is the first reading of the clock. -/
def start (interval : Int32) (t₀ : Timeval) : Loop where
  when := t₀.plus interval
  timeout := if interval ≤ 0 then pinkCronInterval else interval.toInt

/-- A turn of the loop, up to `PinkPoll`. -/
def turn (thread : EventThread) (interval : Int32) (s : Loop) (now : Timeval) : Loop :=
  let s :=
    if interval > 0 then
      if s.when.After now then { s with timeout := (s.when.left now).bmod (2 ^ 32) }
      else
        { s with
          when := now.plus interval
          timeout := interval.toInt
          runs := s.runs ++ [now]
          calls := s.calls ++ thread.cronTasks }
    else s
  { s with timeouts := s.timeouts ++ [s.timeout] }

/-- `ThreadMain` as long as `should_stop` has returned false. -/
def threadMain (thread : EventThread) (interval : Int32) (t₀ : Timeval) (readings : List Timeval) :
    Loop := run (turn thread interval) (start interval t₀) readings

/-! ### What should hold -/

/-- The runs are `interval` milliseconds apart. -/
def Spaced (interval : Int32) (s : Loop) : Prop :=
  s.runs.IsChain fun t t' => interval.toInt * 1000 ≤ t'.micros - t.micros

/-- The times to wait are between zero and `interval`. -/
def Waits (interval : Int32) (s : Loop) : Prop :=
  ∀ timeout ∈ s.timeouts, 0 ≤ timeout ∧ timeout ≤ interval.toInt

structure Punctual (interval : Int32) (s : Loop) : Prop where
  spaced : Spaced interval s
  waits : Waits interval s

/-- The clock is not in the second behind `when.tv_sec`, with fewer microseconds than `when.tv_usec`
has above a second. -/
def InTime (s : Loop) (now : Timeval) : Prop :=
  s.runs = [] ∨ now.sec ≠ s.when.sec + 1 ∨ s.when.usec - 1000000 ≤ now.usec

instance (s : Loop) (now : Timeval) : Decidable (InTime s now) := inferInstanceAs (Decidable (_ ∨ _))

/-- Readings of a clock that is not set back. -/
structure Clock (readings : List Timeval) : Prop where
  normal : ∀ t ∈ readings, t.Normal
  forward : readings.IsChain fun t t' => t.micros ≤ t'.micros

/-! ### The arithmetic of a turn -/

section Arithmetic
variable {interval : Int32} {t now : Timeval}

theorem tmod_interval (hi : 0 < interval.toInt) :
    0 ≤ interval.toInt.tmod 1000 ∧ interval.toInt.tmod 1000 < 1000 ∧
      interval.toInt.tdiv 1000 * 1000 + interval.toInt.tmod 1000 = interval.toInt := by
  refine ⟨Int.tmod_nonneg 1000 hi.le, Int.tmod_lt_of_pos _ (by norm_num), ?_⟩
  rw [mul_comm]
  exact Int.mul_tdiv_add_tmod _ _

/-- `plus` is right, but leaves the microseconds above a second where they are. -/
theorem micros_plus (hi : 0 < interval.toInt) (t : Timeval) :
    (t.plus interval).micros = t.micros + interval.toInt * 1000 := by
  obtain ⟨-, -, h⟩ := tmod_interval hi
  simp only [micros, plus]
  omega

theorem usec_plus (hi : 0 < interval.toInt) (ht : t.Normal) :
    0 ≤ (t.plus interval).usec ∧ (t.plus interval).usec < 1999000 := by
  obtain ⟨h0, h1, -⟩ := tmod_interval hi
  obtain ⟨ht0, ht1⟩ := ht
  simp only [plus]
  omega

/-- What is left lies between zero and the interval, in spite of the truncation. -/
theorem left_bounds (hi : 0 < interval.toInt) (ht : t.Normal) (hnow : now.Normal)
    (hle : t.micros ≤ now.micros) (ha : (t.plus interval).After now) :
    0 ≤ (t.plus interval).left now ∧ (t.plus interval).left now ≤ interval.toInt := by
  have hm := micros_plus hi t
  obtain ⟨hu0, -⟩ := usec_plus hi ht
  obtain ⟨hn0, hn1⟩ := hnow
  generalize t.plus interval = w at hm hu0 ha ⊢
  unfold micros at hm hle
  unfold left After at *
  have hq := Int.mul_tdiv_add_tmod (w.usec - now.usec) 1000
  have hlt := Int.tmod_lt_of_pos (w.usec - now.usec) (b := 1000) (by norm_num)
  have hgt := Int.lt_tmod_of_pos (w.usec - now.usec) (b := 1000) (by norm_num)
  omega

/-- Where the comparison finds that the task is due, it is, unless the clock is in the second behind
`when.tv_sec`. -/
theorem due_iff (hi : 0 < interval.toInt) (ht : t.Normal) (hnow : now.Normal)
    (ha : ¬(t.plus interval).After now) :
    interval.toInt * 1000 ≤ now.micros - t.micros ↔
      now.sec ≠ (t.plus interval).sec + 1 ∨ (t.plus interval).usec - 1000000 ≤ now.usec := by
  have hm := micros_plus hi t
  obtain ⟨-, hu1⟩ := usec_plus hi ht
  obtain ⟨hn0, hn1⟩ := hnow
  generalize t.plus interval = w at hm hu1 ha ⊢
  unfold micros at *
  unfold After at ha
  omega

/-- While the task is not due, the clock is not in that second. -/
theorem sec_ne_of_after (ha : t.After now) : now.sec ≠ t.sec + 1 := by
  unfold After at ha
  omega

end Arithmetic

/-! ### Turns and runs -/

/-- `when` has been computed from the last run of the task, or from the first reading. -/
structure Inv (interval : Int32) (s : Loop) (last : Timeval) : Prop where
  since : ∃ t : Timeval, t.Normal ∧ t.micros ≤ last.micros ∧ s.when = t.plus interval ∧
    (s.runs ≠ [] → s.runs.getLast? = some t)
  waits : Waits interval s

section Loop
variable {thread : EventThread} {interval : Int32} {s : Loop} {last now t₀ : Timeval}

theorem toInt_pos (hi : 0 < interval) : 0 < interval.toInt := by
  simpa using Int32.lt_iff_toInt_lt.mp hi

theorem inv_start (interval : Int32) (ht : t₀.Normal) : Inv interval (start interval t₀) t₀ :=
  ⟨⟨t₀, ht, le_rfl, rfl, fun h => absurd rfl h⟩, by simp [Waits, start]⟩

theorem waits_append {timeout : ℤ} {timeouts : List ℤ} (h : Waits interval s)
    (hs : timeouts = s.timeouts ++ [timeout]) (h0 : 0 ≤ timeout) (h1 : timeout ≤ interval.toInt) :
    ∀ timeout ∈ timeouts, 0 ≤ timeout ∧ timeout ≤ interval.toInt := by
  intro x hx
  rw [hs] at hx
  rcases List.mem_append.mp hx with hx | hx
  · exact h x hx
  · rw [List.mem_singleton.mp hx]
    exact ⟨h0, h1⟩

/-- **A turn**: the times to wait are right, and the runs stay apart exactly if the reading is in
time. -/
theorem inv_turn (thread : EventThread) (hi : 0 < interval) (h : Inv interval s last)
    (hnow : now.Normal) (hle : last.micros ≤ now.micros) :
    Inv interval (turn thread interval s now) now ∧
      (Spaced interval (turn thread interval s now) ↔ Spaced interval s ∧ InTime s now) := by
  have hi' := toInt_pos hi
  obtain ⟨⟨t, ht, htl, hwhen, hlast⟩, hw⟩ := h
  have hle' : t.micros ≤ now.micros := htl.trans hle
  unfold turn
  rw [if_pos hi]
  split_ifs with ha <;> rw [hwhen] at ha
  · have hleft := left_bounds hi' ht hnow hle' ha
    have hmod : (s.when.left now).bmod (2 ^ 32) = s.when.left now := by
      have hmax := interval.toInt_lt
      rw [hwhen]
      refine Int.bmod_eq_of_le ?_ ?_ <;> omega
    rw [← hwhen] at hleft
    rw [hmod]
    refine ⟨⟨⟨t, ht, hle', hwhen, hlast⟩, ?_⟩, ?_⟩
    · exact waits_append hw rfl hleft.1 hleft.2
    · have hin : InTime s now := Or.inr (Or.inl (hwhen ▸ sec_ne_of_after ha))
      exact (and_iff_left hin).symm
  · refine ⟨⟨⟨now, hnow, le_rfl, rfl, fun _ => List.getLast?_concat⟩, ?_⟩, ?_⟩
    · exact waits_append hw rfl hi'.le le_rfl
    · show (s.runs ++ [now]).IsChain _ ↔ _
      rw [List.isChain_append]
      unfold InTime
      rw [hwhen]
      rcases hr : s.runs with _ | ⟨r, rest⟩
      · simp [Spaced, hr]
      have hl : (r :: rest).getLast? = some t := by
        rw [← hr]
        exact hlast (by simp [hr])
      have hdue := due_iff hi' ht hnow ha
      simp [Spaced, hr, hl, hdue]

/-- **A run**, from any state in which `when` is right. -/
theorem inv_run (thread : EventThread) (hi : 0 < interval) : ∀ {readings : List Timeval} {s : Loop}
    {last : Timeval}, Inv interval s last → Clock (last :: readings) →
      Waits interval (run (turn thread interval) s readings) ∧
        (Spaced interval (run (turn thread interval) s readings) ↔
          Spaced interval s ∧ Guarded (turn thread interval) InTime s readings)
  | [], _, _, h, _ => ⟨h.waits, (and_iff_left trivial).symm⟩
  | now :: rest, s, last, h, hc => by
    have hnow : now.Normal := hc.normal now (by simp)
    have hle : last.micros ≤ now.micros := (List.isChain_cons_cons.mp hc.forward).1
    have hrest : Clock (now :: rest) :=
      ⟨fun t ht => hc.normal t (List.mem_cons_of_mem _ ht), (List.isChain_cons_cons.mp hc.forward).2⟩
    obtain ⟨hinv, hturn⟩ := inv_turn thread hi h hnow hle
    obtain ⟨hw, hs⟩ := inv_run thread hi hinv hrest
    refine ⟨hw, hs.trans ?_⟩
    rw [hturn, Guarded, and_assoc]

/-- The times to wait are right in every run. -/
theorem waits_of_run (thread : EventThread) (hi : 0 < interval) {readings : List Timeval}
    (hc : Clock (t₀ :: readings)) : Waits interval (threadMain thread interval t₀ readings) :=
  (inv_run thread hi (inv_start interval (hc.normal t₀ List.mem_cons_self)) hc).1

theorem spaced_start (interval : Int32) (t₀ : Timeval) : Spaced interval (start interval t₀) :=
  List.isChain_nil

/-- The runs of the task are apart exactly if no reading comes too early. -/
theorem spaced_iff (thread : EventThread) (hi : 0 < interval) {readings : List Timeval}
    (hc : Clock (t₀ :: readings)) : Spaced interval (threadMain thread interval t₀ readings) ↔
      Guarded (turn thread interval) InTime (start interval t₀) readings :=
  (inv_run thread hi (inv_start interval (hc.normal t₀ List.mem_cons_self)) hc).2.trans
    (and_iff_right (spaced_start interval t₀))

/-- **The cron task is never run early** exactly if no reading behind its first run is in the second
that follows `when.tv_sec`, before what `when.tv_usec` has above a second. -/
theorem punctual_iff (thread : EventThread) (hi : 0 < interval) {readings : List Timeval}
    (hc : Clock (t₀ :: readings)) : Punctual interval (threadMain thread interval t₀ readings) ↔
      Guarded (turn thread interval) InTime (start interval t₀) readings :=
  ⟨fun h => (spaced_iff thread hi hc).mp h.spaced,
    fun h => ⟨(spaced_iff thread hi hc).mpr h, waits_of_run thread hi hc⟩⟩

/-- If there are no microseconds to add, `when` is a time of the clock. -/
theorem inTime_of_seconds (hs : interval.toInt.tmod 1000 = 0) (h : Inv interval s last)
    (hnow : now.Normal) : InTime s now := by
  obtain ⟨⟨t, ht, -, hwhen, -⟩, -⟩ := h
  refine Or.inr (Or.inr ?_)
  have husec : s.when.usec = t.usec := by
    rw [hwhen, plus, hs]
    ring
  have hlt := ht.2
  have h0 := hnow.1
  omega

theorem guarded_of_seconds (thread : EventThread) (hi : 0 < interval)
    (hs : interval.toInt.tmod 1000 = 0) : ∀ {readings : List Timeval} {s : Loop} {last : Timeval},
      Inv interval s last → Clock (last :: readings) →
        Guarded (turn thread interval) InTime s readings
  | [], _, _, _, _ => trivial
  | now :: rest, s, last, h, hc => by
    have hnow : now.Normal := hc.normal now (by simp)
    obtain ⟨hle, hforward⟩ := List.isChain_cons_cons.mp hc.forward
    have hrest : Clock (now :: rest) := ⟨fun t ht => hc.normal t (List.mem_cons_of_mem _ ht), hforward⟩
    exact ⟨inTime_of_seconds hs h hnow,
      guarded_of_seconds thread hi hs (inv_turn thread hi h hnow hle).1 hrest⟩

/-- **With an interval of whole seconds** every run is punctual. -/
theorem punctual_of_seconds (thread : EventThread) (hi : 0 < interval)
    (hs : interval.toInt.tmod 1000 = 0) {readings : List Timeval} (hc : Clock (t₀ :: readings)) :
    Punctual interval (threadMain thread interval t₀ readings) :=
  ⟨(spaced_iff thread hi hc).mpr
      (guarded_of_seconds thread hi hs (inv_start interval (hc.normal t₀ List.mem_cons_self)) hc),
    waits_of_run thread hi hc⟩

end Loop

/-- The task runs at 0.9 s, and is next due at 1.4 s. -/
theorem punctual_half : Punctual 500 (threadMain .serverThread 500 ⟨0, 0⟩
      [⟨0, 100000⟩, ⟨0, 900000⟩, ⟨0, 950000⟩, ⟨1, 400000⟩]) ↔
    Guarded (turn .serverThread 500) InTime (start 500 ⟨0, 0⟩)
      [⟨0, 100000⟩, ⟨0, 900000⟩, ⟨0, 950000⟩, ⟨1, 400000⟩] :=
  punctual_iff .serverThread (by decide) ⟨by decide, by decide⟩

/-- It runs again as soon as the second is over, a tenth of a second later. -/
theorem not_punctual_half :
    ¬Punctual 500 (threadMain .serverThread 500 ⟨0, 0⟩ [⟨0, 900000⟩, ⟨1, 0⟩]) := by
  intro h
  have hs := h.spaced
  unfold Spaced at hs
  exact absurd hs (by decide)

end Pink.Server.Cron
