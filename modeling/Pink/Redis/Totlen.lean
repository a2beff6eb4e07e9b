import Pink.Redis.Serialize

/-! # The announced length of a command

`redisvFormatCommand` adds up `totlen` while it cuts the format into arguments, and asserts and
returns it; `redisFormatCommandArgv` adds it up over its arguments. Whatever the format, the variable
arguments and `vsnprintf` are, the sum goes over the arguments that are rendered (`counted_formatLoop`),
so that the length is announced rightly as long as the command is shorter than `2 ^ 31` bytes
(`announced_eq_length`). -/

namespace Pink.Redis.Totlen

open Pink.Redis.Wire Pink.Redis.Format Pink.Redis.Serialize

/-- What has been added to `totlen` is what is counted for the complete arguments. -/
def Counted (s : Builder) : Prop := s.totlen = (s.args.map fun a => bulklen a.length).sum % 2 ^ 64

section Loop
variable {vsnprintf : Bytes → VaArg → Option Bytes} {s s' : Builder}

theorem counted_push (h : Counted s) : Counted s.push := by
  unfold Counted at *
  rw [Builder.push, h, Nat.mod_add_mod, List.map_append, List.sum_append, List.map_singleton,
    List.sum_singleton]

theorem counted_finish (h : Counted s) : Counted s.finish := by
  unfold Builder.finish
  split_ifs
  · exact counted_push h
  · exact h

theorem counted_literal (h : Counted s) (b : UInt8) : Counted (s.literal b) := by
  unfold Builder.literal
  split_ifs
  · exact counted_push h
  · exact h
  · exact h

/-- A conversion only adds to the current argument. -/
theorem printf_frame {f : Bytes} {k : ℕ} (h : s.printf vsnprintf f = .ok (some (s', k))) :
    s'.args = s.args ∧ s'.totlen = s.totlen := by
  unfold Builder.printf at h
  split at h
  · cases h
  · cases h
  dsimp only at h
  split_ifs at h
  · split at h
    · cases h
    split_ifs at h
    cases h
    exact ⟨rfl, rfl⟩
  · cases h
    exact ⟨rfl, rfl⟩

theorem convert_frame {f : Bytes} {k : ℕ} (h : s.convert vsnprintf f = .ok (some (s', k))) :
    s'.args = s.args ∧ s'.totlen = s.totlen := by
  unfold Builder.convert at h
  split_ifs at h
  · split at h
    · split at h
      · cases h
      · cases h
        exact ⟨rfl, rfl⟩
    · cases h
  · split at h
    · split_ifs at h
      cases h
      exact ⟨rfl, rfl⟩
    · cases h
  · cases h
    exact ⟨rfl, rfl⟩
  · exact printf_frame h

theorem counted_convert (hs : Counted s) {f : Bytes} {k : ℕ}
    (h : s.convert vsnprintf f = .ok (some (s', k))) : Counted { s' with touched := true } := by
  obtain ⟨hargs, htotlen⟩ := convert_frame h
  unfold Counted
  rw [hargs, htotlen]
  exact hs

/-- **The loop counts the arguments it completes.** -/
theorem counted_formatLoop : ∀ {f : Bytes} {k : ℕ} {s : Builder}, Counted s →
    formatLoop vsnprintf k f s = .ok (some s') → Counted s'
  | [], 0, s, hs, h => by
    rw [formatLoop] at h
    cases h
    exact hs
  | [], k + 1, s, hs, h => by
    rw [formatLoop] at h
    cases h
  | _ :: f, k + 1, s, hs, h => by
    rw [formatLoop] at h
    exact counted_formatLoop hs h
  | b :: f, 0, s, hs, h => by
    rw [formatLoop] at h
    split_ifs at h
    · exact counted_formatLoop (counted_literal hs b) h
    · split at h
      · cases h
      · cases h
      · rename_i s₁ k hconv
        split_ifs at h
        · cases h
        · exact counted_formatLoop (counted_convert hs hconv) h

/-- What is announced for a format is what is announced for its arguments. -/
theorem announced_finish {format : Bytes} {ap : List VaArg}
    (h : formatLoop vsnprintf 0 format { ap } = .ok (some s)) :
    announced s.finish.totlen s.finish.args = total s.finish.args := by
  have hc : Counted s.finish := counted_finish (counted_formatLoop (s := { ap }) rfl h)
  rw [hc, total, announced, announced, Nat.mod_add_mod]

end Loop

/-- The command is built if its length is announced rightly, the assertion included. -/
theorem build_of_announced {s : Builder} (debug : Bool) (hlt : (commandBytes s.args).length < 2 ^ 31)
    (h : announced s.totlen s.args = (commandBytes s.args).length) :
    s.build debug = .ok ((commandBytes s.args).length, some (commandBytes s.args)) := by
  unfold Builder.build
  rw [h]
  dsimp only
  rw [if_neg (by omega), if_neg fun hd => hd.2 rfl, toInt32_of_lt hlt]

/-- **The announced length of a command is its length**: `intlen` counts decimal digits, and for
arguments whose encoding is shorter than `2 ^ 31` bytes both functions announce the length of what
they produce, whichever format the arguments come from. -/
theorem announced_eq_length {args : Argv} (h : (commandBytes args).length < 2 ^ 31) :
    (∀ n : ℕ, n < 2 ^ 31 → intlen n = (decimalNat n).length) ∧
      (totlen args = (commandBytes args).length ∧
        redisFormatCommandArgv args = some (commandBytes args)) ∧
      ∀ (debug : Bool) (vsnprintf : Bytes → VaArg → Option Bytes) (format : Bytes) (ap : List VaArg)
        (s : Builder), formatLoop vsnprintf 0 format { ap } = .ok (some s) → s.finish.args = args →
          announced s.finish.totlen args = (commandBytes args).length ∧
            redisvFormatCommand debug vsnprintf format ap =
              .ok ((commandBytes args).length, some (commandBytes args)) := by
  refine ⟨fun n hn => intlen_natCast hn, ⟨totlen_eq h, redisFormatCommandArgv_eq h⟩, ?_⟩
  rintro debug vsnprintf format ap s hs rfl
  have ha : announced s.finish.totlen s.finish.args = (commandBytes s.finish.args).length :=
    (announced_finish hs).trans (total_eq h)
  refine ⟨ha, ?_⟩
  rw [redisvFormatCommand, hs]
  exact build_of_announced debug h ha

/-- The command `SET k 10`, from the format `SET k %s`. -/
theorem announced_eq_length_set :
    totlen [bytes "SET", bytes "k", bytes "10"] =
        (commandBytes [bytes "SET", bytes "k", bytes "10"]).length ∧
      redisvFormatCommand true (fun _ _ => none) (bytes "SET k %s") [.ptr (bytes "10" ++ [0])] =
        .ok ((commandBytes [bytes "SET", bytes "k", bytes "10"]).length,
          some (commandBytes [bytes "SET", bytes "k", bytes "10"])) := by
  obtain ⟨-, ⟨htotlen, -⟩, hformat⟩ :=
    @announced_eq_length [bytes "SET", bytes "k", bytes "10"] (by decide +kernel)
  have hargs : (formatLoop (fun _ _ => none) 0 (bytes "SET k %s")
      { ap := [.ptr (bytes "10" ++ [0])] }).toOption.join.map (fun s => s.finish.args) =
        some [bytes "SET", bytes "k", bytes "10"] := by
    decide +kernel
  rcases hs : formatLoop (fun _ _ => none) 0 (bytes "SET k %s") { ap := [.ptr (bytes "10" ++ [0])] }
    with e | (_ | s) <;> rw [hs] at hargs
  · cases hargs
  · cases hargs
  · exact ⟨htotlen, (hformat true _ _ _ s hs (Option.some.inj hargs)).2⟩

end Pink.Redis.Totlen
