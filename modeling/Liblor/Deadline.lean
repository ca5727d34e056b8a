import Liblor.DeadlineModel

/-!
# Waiting until a deadline

A sleep looks at the monotonic clock again when a wait has ended, and so it never ends early,
however the realtime clock is set. A wait for a condition does not: that it times out after its
deadline only is owed to the realtime clock. Where that clock runs no faster than the monotonic one,
a wait that times out has passed its deadline, and a sleep ends with it.
-/

namespace Liblor.Deadline

open Channel

def Timespec.ns (value : Timespec) : ℤ := value.sec * 1000000000 + value.nsec

structure Timespec.Normal (value : Timespec) : Prop where
  sec : 0 ≤ value.sec
  nsec : 0 ≤ value.nsec
  nsec_lt : value.nsec < 1000000000

def Os.now (os : Os) (k : ℕ) : ℤ := (os.monotonic k).elim 0 Timespec.ns

/-- The monotonic clock can be read, it never goes back, and it has not run for too long. -/
structure Steady (os : Os) : Prop where
  reads : ∀ k, ∃ value, os.monotonic k = some value ∧ value.Normal ∧
    value.sec < Int.tdiv deadlineInfinite 1000
  forward : ∀ j k, j ≤ k → os.now j ≤ os.now k

/-- The realtime clock is not set forward against the monotonic one, and a wait does not time out
before it has come to the time that the wait was given. -/
structure InStep (os : Os) : Prop where
  normal : ∀ k, (os.realtime k).Normal
  pace : ∀ j k, j ≤ k →
    (os.realtime k).ns - (os.realtime j).ns ≤ os.now k - os.now j
  timed : ∀ k time, os.condTimedwait k time = .timedOut → time.ns ≤ (os.realtime k).ns

variable {os : Os} {deadline milliseconds : ℤ} {fuel k k' : ℕ}

/-- A system where one second passes at the moment `m`, which the realtime clock shows from `r` on.
-/
def stepping (m r : ℕ) : Os where
  mutexInit := true
  condInit := true
  monotonic k := some ⟨if m ≤ k then 1 else 0, 0⟩
  realtime k := ⟨if r ≤ k then 1001 else 1000, 0⟩
  condWait _ := .woken
  condTimedwait k time :=
    if time.ns ≤ (if r ≤ k then 1001 else 1000) * 1000000000 then .timedOut else .woken

theorem stepping_now (m r k : ℕ) : (stepping m r).now k = if m ≤ k then 1000000000 else 0 := by
  change (if m ≤ k then 1 else 0 : ℤ) * 1000000000 + 0 = _
  split_ifs <;> rfl

theorem stepping_realtime (m r k : ℕ) :
    ((stepping m r).realtime k).ns = (if r ≤ k then 1001 else 1000) * 1000000000 :=
  add_zero _

theorem stepping_steady (m r : ℕ) : Steady (stepping m r) where
  reads k := by
    by_cases hk : m ≤ k
    · exact ⟨⟨1, 0⟩, by simp only [stepping, if_pos hk], ⟨by decide, by decide, by decide⟩,
        by decide⟩
    · exact ⟨⟨0, 0⟩, by simp only [stepping, if_neg hk], ⟨by decide, by decide, by decide⟩,
        by decide⟩
  forward j k hle := by
    rw [stepping_now, stepping_now]
    split_ifs <;> omega

theorem stepping_inStep (m : ℕ) : InStep (stepping m m) where
  normal k := by
    change (⟨if m ≤ k then 1001 else 1000, 0⟩ : Timespec).Normal
    split_ifs
    · exact ⟨by decide, by decide, by decide⟩
    · exact ⟨by decide, by decide, by decide⟩
  pace j k hle := by
    rw [stepping_now, stepping_now, stepping_realtime, stepping_realtime]
    split_ifs <;> omega
  timed k time htimed := by
    rw [stepping_realtime]
    by_contra hlt
    exact absurd htimed (by rw [stepping]; dsimp only; rw [if_neg hlt]; decide)

/-- The clock that the functions read is the monotonic one in whole milliseconds. -/
theorem timeNowMs_eq (h : Steady os) (k : ℕ) :
    timeNowMs (os.monotonic k) = os.now k / 1000000 := by
  obtain ⟨value, hvalue, hnormal, hlt⟩ := h.reads k
  have hnsec := Int.tdiv_eq_ediv_of_nonneg hnormal.nsec (b := 1000000)
  rw [Os.now, hvalue, timeNowMs, if_neg (by omega), hnsec]
  change _ = (value.sec * 1000000000 + value.nsec) / 1000000
  omega

theorem le_timeNowMs_iff (h : Steady os) (k : ℕ) :
    deadline ≤ timeNowMs (os.monotonic k) ↔ deadline * 1000000 ≤ os.now k := by
  rw [timeNowMs_eq h k, Int.le_ediv_iff_mul_le (by decide)]

theorem realtimeAfterMs_ns {value : Timespec} (h : value.Normal) (hle : 0 ≤ milliseconds) :
    (realtimeAfterMs value milliseconds).Normal ∧
      (realtimeAfterMs value milliseconds).ns = value.ns + milliseconds * 1000000 := by
  obtain ⟨hsec, hnsec, hlt⟩ := h
  have hdiv := Int.tdiv_eq_ediv_of_nonneg hle (b := 1000)
  have hmod := Int.tmod_eq_emod_of_nonneg hle (b := 1000)
  unfold realtimeAfterMs Timespec.ns
  dsimp only
  rw [hdiv, hmod]
  split_ifs with hcarry
  · exact ⟨⟨by dsimp only; omega, by dsimp only; omega, by dsimp only; omega⟩, by dsimp only; omega⟩
  · exact ⟨⟨by dsimp only; omega, by dsimp only; omega, by dsimp only; omega⟩, by dsimp only; omega⟩

theorem timedOut_passed (h : Steady os) (hstep : InStep os)
    (hnow : timeNowMs (os.monotonic k) < deadline)
    (htimed : os.condTimedwait (k + 2) (wake os deadline k) = .timedOut) :
    deadline * 1000000 ≤ os.now (k + 2) := by
  have hreached := hstep.timed _ _ htimed
  have hle : 0 ≤ deadline - timeNowMs (os.monotonic k) := by omega
  rw [wake, (realtimeAfterMs_ns (hstep.normal (k + 1)) hle).2, timeNowMs_eq h k] at hreached
  have hpace := hstep.pace (k + 1) (k + 2) (Nat.le_succ _)
  have hforward := h.forward k (k + 1) (Nat.le_succ k)
  omega

/-! ## Sleeping -/

theorem sleepLoop_passed (h : sleepLoop os deadline fuel k = some (.passed, k')) :
    deadline ≠ deadlineInfinite ∧ k ≤ k' ∧ deadline ≤ timeNowMs (os.monotonic k') := by
  induction fuel generalizing k with
  | zero => cases h
  | succ fuel ih =>
    rw [sleepLoop] at h
    split_ifs at h with hinfinite hwait hnow herror
    · cases h
    · obtain ⟨hne, -, -⟩ := ih h
      exact absurd hinfinite hne
    · cases h
      exact ⟨hinfinite, le_rfl, hnow⟩
    · cases h
    · obtain ⟨hne, hle, hpassed⟩ := ih h
      exact ⟨hne, by omega, hpassed⟩

theorem sleepLoop_of_passed (hfinite : deadline ≠ deadlineInfinite)
    (hnow : deadline ≤ timeNowMs (os.monotonic k)) :
    sleepLoop os deadline (fuel + 1) k = some (.passed, k) := by
  rw [sleepLoop, if_neg hfinite, if_pos hnow]

theorem deadlineAfterMs_cases {now : ℤ} (hpos : 0 < milliseconds) :
    deadlineAfterMs now milliseconds = deadlineInfinite ∨
      deadlineAfterMs now milliseconds = now + milliseconds := by
  unfold deadlineAfterMs
  split_ifs with hle hlarge
  · omega
  · exact Or.inl rfl
  · exact Or.inr rfl

/-- Unless a call of the system fails, a sleep lasts until its deadline, and one for some
milliseconds for more than one less, whatever wakes it and however the realtime clock is set: the
millisecond in which it begins counts as a whole. -/
theorem sleep_never_early (h : Steady os) (deadline milliseconds : ℤ) (fuel k k' : ℕ) :
    (sleepUntil os deadline fuel k = some (.passed, k') → deadline * 1000000 ≤ os.now k') ∧
      (0 < milliseconds → sleepMs os milliseconds fuel k = some (.passed, k') →
        (milliseconds - 1) * 1000000 < os.now k' - os.now k) := by
  have huntil : ∀ {deadline k}, sleepUntil os deadline fuel k = some (.passed, k') →
      deadline ≠ deadlineInfinite ∧ deadline * 1000000 ≤ os.now k' := by
    intro deadline k hsleep
    unfold sleepUntil at hsleep
    split_ifs at hsleep with hfailed
    · cases hsleep
    · obtain ⟨hne, -, hpassed⟩ := sleepLoop_passed hsleep
      exact ⟨hne, (le_timeNowMs_iff h k').1 hpassed⟩
  refine ⟨fun hsleep => (huntil hsleep).2, fun hpos hsleep => ?_⟩
  unfold sleepMs at hsleep
  rw [if_neg (by omega)] at hsleep
  obtain ⟨hne, hpassed⟩ := huntil hsleep
  rcases deadlineAfterMs_cases hpos with hinfinite | hfinite
  · exact absurd hinfinite hne
  · rw [hfinite, timeNowMs_eq h k] at hpassed
    omega

theorem sleep_never_early_stepping :
    1000 * 1000000 ≤ (stepping 5 5).now 6 ∧
      (1000 - 1) * 1000000 < (stepping 6 6).now 7 - (stepping 6 6).now 0 :=
  ⟨(sleep_never_early (stepping_steady 5 5) 1000 0 3 0 6).1 (by decide),
    (sleep_never_early (stepping_steady 6 6) 0 1000 3 0 7).2 (by decide) (by decide)⟩

/-- A clock of which the first millisecond is over after one nanosecond. -/
def lateReading : Os where
  mutexInit := true
  condInit := true
  monotonic k := some ⟨0, if k = 0 then 999999 else 1000000⟩
  realtime _ := ⟨1000, 0⟩
  condWait _ := .woken
  condTimedwait _ _ := .woken

/-- The header's "at least" counts milliseconds of the clock: a sleep for one may take a nanosecond.
-/
example : sleepMs lateReading 1 1 0 = some (.passed, 1) ∧
    lateReading.now 1 - lateReading.now 0 = 1 := by
  decide

theorem sleepLoop_ends (h : Steady os) (hstep : InStep os)
    (hfinite : deadline ≠ deadlineInfinite) {i : ℕ}
    (hwoken : ∀ j < i, os.condTimedwait (k + 3 * j + 2) (wake os deadline (k + 3 * j)) = .woken)
    (htimed : os.condTimedwait (k + 3 * i + 2) (wake os deadline (k + 3 * i)) = .timedOut) :
    ∃ k' ≤ k + 3 * (i + 1), sleepLoop os deadline (i + 2) k = some (.passed, k') := by
  induction i generalizing k with
  | zero =>
    by_cases hnow : deadline ≤ timeNowMs (os.monotonic k)
    · exact ⟨k, by omega, sleepLoop_of_passed hfinite hnow⟩
    · change os.condTimedwait (k + 2) (wake os deadline k) = .timedOut at htimed
      have hpassed := timedOut_passed h hstep (not_le.1 hnow) htimed
      have hforward := h.forward (k + 2) (k + 3) (Nat.le_succ _)
      have hlater := (le_timeNowMs_iff h (k + 3)).2 (hpassed.trans hforward)
      rw [sleepLoop, if_neg hfinite, if_neg hnow, htimed, if_neg (by decide)]
      exact ⟨k + 3, by omega, sleepLoop_of_passed hfinite hlater⟩
  | succ i ih =>
    by_cases hnow : deadline ≤ timeNowMs (os.monotonic k)
    · exact ⟨k, by omega, sleepLoop_of_passed hfinite hnow⟩
    · -- the first wait was woken for no reason, and the rest of the loop begins with the next
      -- moment
      have hshift : ∀ j, k + 3 * (j + 1) = k + 3 + 3 * j := fun j => by omega
      have hfirst := hwoken 0 (Nat.succ_pos i)
      change os.condTimedwait (k + 2) (wake os deadline k) = .woken at hfirst
      have hrest : ∀ j < i,
          os.condTimedwait (k + 3 + 3 * j + 2) (wake os deadline (k + 3 + 3 * j)) = .woken := by
        intro j hj
        rw [← hshift]
        exact hwoken (j + 1) (Nat.succ_lt_succ hj)
      rw [hshift] at htimed
      rw [sleepLoop, if_neg hfinite, if_neg hnow, hfirst, if_neg (by decide)]
      obtain ⟨k', hle, hsleep⟩ := ih hrest htimed
      exact ⟨k', by omega, hsleep⟩

/-- Where the clocks keep in step, a sleep ends when a wait has timed out for the first time:
nothing keeps it asleep beyond that, however often it was woken for no reason before. -/
theorem sleep_ends (h : Steady os) (hstep : InStep os) (hmutex : os.mutexInit = true)
    (hcond : os.condInit = true) (hfinite : deadline ≠ deadlineInfinite) {i : ℕ}
    (hwoken : ∀ j < i, os.condTimedwait (k + 3 * j + 2) (wake os deadline (k + 3 * j)) = .woken)
    (htimed : os.condTimedwait (k + 3 * i + 2) (wake os deadline (k + 3 * i)) = .timedOut) :
    ∃ k' ≤ k + 3 * (i + 1), sleepUntil os deadline (i + 2) k = some (.passed, k') ∧
      deadline * 1000000 ≤ os.now k' := by
  obtain ⟨k', hle, hloop⟩ := sleepLoop_ends h hstep hfinite hwoken htimed
  have hsleep : sleepUntil os deadline (i + 2) k = some (.passed, k') := by
    rw [sleepUntil, hmutex, hcond, if_neg (by decide), hloop]
  exact ⟨k', hle, hsleep, (le_timeNowMs_iff h k').1 (sleepLoop_passed hloop).2.2⟩

theorem sleep_ends_stepping :
    ∃ k' ≤ 0 + 3 * (1 + 1), sleepUntil (stepping 5 5) 1000 (1 + 2) 0 = some (.passed, k') ∧
      1000 * 1000000 ≤ (stepping 5 5).now k' :=
  sleep_ends (stepping_steady 5 5) (stepping_inStep 5) (by decide) (by decide) (by decide)
    (fun j hj => by rw [Nat.lt_one_iff.1 hj]; decide) (by decide)

/-! ## Waiting for a condition -/

/-- Where the clocks keep in step, a wait for a condition reports that its deadline has passed only
when it has. -/
theorem condWaitUntil_timedOut (h : Steady os) (hstep : InStep os)
    (hfinite : deadline ≠ deadlineInfinite)
    (hwait : condWaitUntil os deadline k = (.timedOut, k')) :
    deadline * 1000000 ≤ os.now k' := by
  unfold condWaitUntil at hwait
  rw [if_neg hfinite] at hwait
  split_ifs at hwait with hnow
  · cases hwait
    exact (le_timeNowMs_iff h k).1 hnow
  · obtain ⟨hstatus, rfl⟩ := Prod.mk.inj hwait
    refine timedOut_passed h hstep (not_le.1 hnow) ?_
    cases hresult : os.condTimedwait (k + 2) (wake os deadline k) with
    | timedOut => rfl
    | woken => rw [hresult] at hstatus; cases hstatus
    | error => rw [hresult] at hstatus; cases hstatus

theorem condWaitUntil_timedOut_stepping : 1000 * 1000000 ≤ (stepping 2 2).now 2 :=
  condWaitUntil_timedOut (stepping_steady 2 2) (stepping_inStep 2) (by decide) (k := 0) (by decide)

/-- When the realtime clock is set forward, a wait for a condition times out before its deadline: a
sleep would look at the clock again, but the wait returns. -/
example : condWaitUntil (stepping 5 2) 1000 0 = (.timedOut, 2) ∧
    (stepping 5 2).now 2 = (stepping 5 2).now 0 := by
  decide

end Liblor.Deadline
