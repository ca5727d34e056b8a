import Liblor.ChannelWaits

/-!
# No waiter of a channel is stranded

While a call without a deadline is parked on a condition, the calls that notices have woken on it
are enough for all that the condition has to offer. Sections keep this: what a section adds it
signals, and a woken call uses up something or finds nothing. A woken call that reports its deadline
instead passes its notice on to nobody.
-/

namespace Liblor.Channel

open ConditionVariable Transition

/-- The notices of a section on a condition. -/
def Section.signals (after : Section) (on : Cond) : ℕ :=
  ConditionVariable.signals on (after.notices.map Notice.wakeup)

/-- The calls that can get as far as a wait. -/
def Call.MayWait : Call → Prop
  | .send (some _) _ => True
  | .receive _ _ => True
  | _ => False

/-- What a section does to the conditions, whoever runs it. -/
structure Announces (call : Call) (channel : LorChannel) (after : Section) : Prop where
  rise : ∀ on, available after.channel on ≤ available channel on + after.signals on
  closes : after.channel.closed → channel.closed ∨
    ∀ on, ConditionVariable.Notice.broadcast on ∈ after.notices.map Notice.wakeup
  parks : ∀ on, after.exit = .wait on → on = call.condition ∧ after.channel.closed = false ∧
    available after.channel on = 0 ∧ call.MayWait

variable {channel : LorChannel} {s : State} {w w' : Waits} {e : Event} {i : ℕ} {call : Call}
  {after : Section} {on : Cond} {os : Os} {elementSize capacity : ℕ}

section Sections

theorem Announces.idle (call : Call) (status : Status) (value : Option Bytes) :
    Announces call channel ⟨channel, [], .returns status value⟩ := by
  refine ⟨fun on => Nat.le_add_right _ _, Or.inl, ?_⟩
  intro on h
  cases h

theorem available_eq_zero (hzero : channel.capacity = 0)
    (h : channel.waitingReceivers = 0 ∨ channel.slotFull) : available channel .canSend = 0 := by
  simp only [available, if_pos hzero]
  rw [if_neg]
  rintro ⟨hpos, hempty⟩
  rcases h with hnone | hfull
  · omega
  · simp [hempty] at hfull

theorem available_leaving (channel : LorChannel) (on : Cond) :
    available { channel with waitingReceivers := channel.waitingReceivers - 1 } on ≤
      available channel on := by
  cases on with
  | canSend =>
      simp only [available]
      split_ifs with hzero hafter hbefore
      · exact Nat.le_refl _
      · exact absurd ⟨Nat.lt_of_lt_of_le hafter.1 (Nat.sub_le _ _), hafter.2⟩ hbefore
      · exact Nat.zero_le _
      · exact Nat.zero_le _
      · exact Nat.le_refl _
  | canReceive => exact Nat.le_refl _

theorem sendLoop_announces (value : Bytes) (deadline : ℤ) :
    Announces (.send (some value) deadline) channel (sendLoop channel value) := by
  unfold sendLoop
  split_ifs with hzero hwait hclosed hwait hclosed
  · refine ⟨fun on => Nat.le_add_right _ _, Or.inl, ?_⟩
    rintro on ⟨⟩
    exact ⟨rfl, hwait.1, available_eq_zero hzero hwait.2, trivial⟩
  · exact .idle _ _ _
  · refine ⟨?_, Or.inl, ?_⟩
    · intro on
      cases on <;> simp [available, hzero, Section.signals, signals, Notice.wakeup] 
    · intro on h
      cases h
  · refine ⟨fun on => Nat.le_add_right _ _, Or.inl, ?_⟩
    rintro on ⟨⟩
    refine ⟨rfl, hwait.1, ?_, trivial⟩
    simp only [available, if_neg hzero]
    omega
  · exact .idle _ _ _
  · refine ⟨?_, Or.inl, ?_⟩
    · intro on
      cases on <;> simp [available, hzero, Section.signals, signals, Notice.wakeup]
      omega
    · intro on h
      cases h

theorem receiveLoop_announces (size : Option ℕ) (deadline : ℤ) :
    Announces (.receive size deadline) channel (receiveLoop channel) := by
  unfold receiveLoop
  dsimp only
  split_ifs with hzero hwait hempty hwait hempty
  · refine ⟨fun on => Nat.le_add_right _ _, Or.inl, ?_⟩
    rintro on ⟨⟩
    refine ⟨rfl, hwait.2, ?_, trivial⟩
    simp [available, hzero, hwait.1]
  · refine ⟨fun on => available_leaving channel on, Or.inl, ?_⟩
    intro on h
    cases h
  · refine ⟨?_, Or.inl, ?_⟩
    · intro on
      cases on with
      | canSend =>
          simp only [available, if_pos hzero, Section.signals, signals]
          split_ifs <;> simp [Notice.wakeup]
      | canReceive => simp [available, hzero]
    · intro on h
      cases h
  · refine ⟨fun on => Nat.le_add_right _ _, Or.inl, ?_⟩
    rintro on ⟨⟩
    refine ⟨rfl, hwait.2, ?_, trivial⟩
    simp only [available, if_neg hzero]
    exact hwait.1
  · exact .idle _ _ _
  · refine ⟨?_, Or.inl, ?_⟩
    · intro on
      cases on <;> simp [available, hzero, Section.signals, signals, Notice.wakeup]
      omega
    · intro on h
      cases h

theorem signals_cons (on : Cond) (notice : ConditionVariable.Notice Cond)
    (notices : List (ConditionVariable.Notice Cond)) :
    signals on (notice :: notices) = signals on [notice] + signals on notices := by
  simp only [signals, List.count_cons, List.count_nil]
  omega

theorem available_waiting (channel : LorChannel) (on : Cond) :
    available { channel with waitingReceivers := channel.waitingReceivers + 1 } on ≤
      available channel on + signals on [.signal Cond.canSend] := by
  cases on with
  | canSend =>
      simp only [available, signals]
      split_ifs <;> simp
  | canReceive => exact Nat.le_add_right _ _

theorem enter_announces (call : Call) : Announces call channel (call.enter channel) := by
  cases call with
  | send value deadline =>
      cases value with
      | none => exact .idle _ _ _
      | some value =>
          change Announces _ _ (if value.length ≠ channel.elementSize then _ else _)
          split_ifs
          · exact .idle _ _ _
          · exact sendLoop_announces value deadline
  | receive size deadline =>
      cases size with
      | none => exact .idle _ _ _
      | some size =>
          change Announces _ _ (if size ≠ channel.elementSize then _
            else if channel.capacity = 0 then _ else _)
          split_ifs
          · exact .idle _ _ _
          · let counted := { channel with waitingReceivers := channel.waitingReceivers + 1 }
            have h : Announces (.receive (some size) deadline) counted (receiveLoop counted) :=
              receiveLoop_announces (some size) deadline
            refine ⟨?_, ?_, h.parks⟩
            · intro on
              have hcount := available_waiting channel on
              have hrise := h.rise on
              change _ ≤ _ + signals on (Notice.wakeup (.signal .canSend) :: _)
              rw [signals_cons]
              rw [← Nat.add_assoc]
              exact hrise.trans (Nat.add_le_add_right hcount _)
            · intro hclosed
              rcases h.closes hclosed with hbefore | hall
              · exact Or.inl hbefore
              · exact Or.inr fun on => List.mem_cons_of_mem _ (hall on)
          · exact receiveLoop_announces (some size) deadline
  | close =>
      refine ⟨fun on => by cases on <;> exact Nat.le_add_right _ _, ?_, ?_⟩
      · intro _
        right
        intro on
        cases on <;> simp [Call.enter, close, Notice.wakeup]
      · intro on h
        cases h

theorem resume_announces (call : Call) (status : Status) :
    Announces call channel (call.resume channel status) := by
  cases call with
  | send value deadline =>
      cases value with
      | none => exact .idle _ _ _
      | some value =>
          change Announces _ _ (if status ≠ .ok then _ else _)
          split_ifs
          · exact .idle _ _ _
          · exact sendLoop_announces value deadline
  | receive size deadline =>
      change Announces _ _ (if status ≠ .ok then _ else _)
      split_ifs with hstatus hzero
      · refine ⟨fun on => available_leaving channel on, Or.inl, ?_⟩
        intro on h
        cases h
      · exact .idle _ _ _
      · exact receiveLoop_announces size deadline
  | close => exact enter_announces .close

/-- A woken call uses up something that its condition has, or finds nothing there. -/
theorem resume_uses (hopen : channel.closed = false) (hok : ChannelOk channel)
    (hcall : call.MayWait) :
    available (call.resume channel .ok).channel call.condition = 0 ∨
      available (call.resume channel .ok).channel call.condition + 1 ≤
        available channel call.condition := by
  cases call with
  | send value deadline =>
      cases value with
      | none => exact hcall.elim
      | some value =>
          change available (sendLoop channel value).channel .canSend = 0 ∨
            available (sendLoop channel value).channel .canSend + 1 ≤ available channel .canSend
          have hcount := hok.count_le
          unfold sendLoop
          split_ifs with hzero hwait hclosed hwait hclosed
          · exact Or.inl (available_eq_zero hzero hwait.2)
          · simp [hopen] at hclosed
          · left
            simp [available, hzero]
          · left
            simp only [available, if_neg hzero]
            omega
          · simp [hopen] at hclosed
          · right
            have hne : channel.count ≠ channel.capacity := fun h => hwait ⟨hopen, h⟩
            simp only [available, if_neg hzero]
            omega
  | receive size deadline =>
      change available (receiveLoop channel).channel .canReceive = 0 ∨
        available (receiveLoop channel).channel .canReceive + 1 ≤ available channel .canReceive
      unfold receiveLoop
      dsimp only
      split_ifs with hzero hwait hempty hwait hempty
      · left
        simp [available, hzero, hwait.1]
      · left
        simp [available, hzero, hempty]
      · left
        simp [available, hzero]
      · left
        simp [available, hzero, hwait.1]
      · left
        simp [available, hzero, hempty]
      · right
        simp only [available, if_neg hzero]
        omega
  | close => exact hcall.elim

end Sections

section Runs

theorem mem_waiters : i ∈ s.waiters on ↔
    ∃ call, s.calls[i]? = some (.waiting call) ∧ call.condition = on := by
  rw [State.waiters, Finset.mem_filter, Finset.mem_range]
  constructor
  · rintro ⟨-, h⟩
    rcases hphase : s.calls[i]? with _ | phase
    · simp [hphase] at h
    · rw [hphase] at h
      cases phase with
      | waiting call => exact ⟨call, rfl, of_decide_eq_true h⟩
      | _ => cases h
  · rintro ⟨call, hcall, rfl⟩
    refine ⟨(List.getElem?_eq_some_iff.1 hcall).1, ?_⟩
    rw [hcall]
    exact decide_eq_true rfl

theorem Acts.waiting_or (h : Acts s e i call after) :
    s.calls[i]? = some (.started call) ∨ s.calls[i]? = some (.waiting call) := by
  cases h with
  | enter h => exact Or.inl h
  | wake h => exact Or.inr h
  | timeout h hdeadline => exact Or.inr h

theorem Acts.announces (h : Acts s e i call after) : Announces call s.channel after := by
  cases h with
  | enter h => exact enter_announces _
  | wake h => exact resume_announces _ _
  | timeout h hdeadline => exact resume_announces _ _

theorem Acts.lt (h : Acts s e i call after) : i < s.calls.length := by
  rcases h.waiting_or with h | h
  · exact (List.getElem?_eq_some_iff.1 h).1
  · exact (List.getElem?_eq_some_iff.1 h).1

theorem perform_self (hi : i < s.calls.length) :
    (s.perform i call after).calls[i]? = some (.after call after.exit) :=
  List.getElem?_set_self hi

theorem perform_other {j : ℕ} (hj : j ≠ i) : (s.perform i call after).calls[j]? = s.calls[j]? :=
  List.getElem?_set_ne hj.symm

/-- Nobody is parked on a closed channel, and otherwise the woken calls of a condition suffice for
what it has, as long as somebody without a deadline is parked there. -/
structure Attended (w : Waits) : Prop where
  parked : ∀ on, w.parked on ⊆ w.state.waiters on
  waits : ∀ (i : ℕ) (call : Call), w.state.calls[i]? = some (.waiting call) → call.MayWait
  closed : w.state.channel.closed → ∀ on, w.parked on = ∅
  enough : ∀ on, (∃ (j : ℕ) (other : Call), j ∈ w.parked on ∧
    w.state.calls[j]? = some (.waiting other) ∧ other.deadline = deadlineInfinite) →
      available w.state.channel on ≤ (w.woken on).card

/-- A call that is made is in no wait set. -/
theorem Attended.made (h : Attended w) (call : Call) : Attended
    ⟨{ w.state with calls := w.state.calls ++ [.started call] }, w.parked⟩ := by
  have hwaiting : ∀ (i : ℕ) (other : Call), (w.state.calls ++ [.started call])[i]? =
      some (.waiting other) ↔ w.state.calls[i]? = some (.waiting other) := by
    intro i other
    rcases Nat.lt_or_ge i w.state.calls.length with hi | hi
    · rw [List.getElem?_append_left hi]
    · rw [List.getElem?_append_right hi, List.getElem?_eq_none hi]
      cases i - w.state.calls.length <;> simp
  have hwaiters : ∀ on,
      State.waiters { w.state with calls := w.state.calls ++ [.started call] } on =
      w.state.waiters on := by
    intro on
    ext i
    simp only [mem_waiters, hwaiting]
  refine ⟨?_, ?_, h.closed, ?_⟩
  · intro on
    rw [hwaiters]
    exact h.parked on
  · intro i other hi
    exact h.waits i other ((hwaiting i other).1 hi)
  · rintro on ⟨j, other, hj, hother, hdeadline⟩
    rw [Waits.woken, hwaiters]
    exact h.enough on ⟨j, other, hj, (hwaiting j other).1 hother, hdeadline⟩

variable {parked : Cond → Finset ℕ}

theorem woken_perform (hi : i < s.calls.length) (h : Announces call s.channel after)
    (hself : ∀ on, i ∉ parked on) (on : Cond) :
    Waits.woken ⟨s.perform i call after, parkedAfter parked i after.exit⟩ on =
      (s.waiters on).erase i \ parked on := by
  ext j
  rw [Waits.woken, Finset.mem_sdiff, Finset.mem_sdiff, Finset.mem_erase]
  rcases eq_or_ne j i with rfl | hj
  · constructor
    · rintro ⟨hwaits, hparked⟩
      obtain ⟨other, hother, hon⟩ := mem_waiters.1 hwaits
      rw [perform_self hi] at hother
      rcases hexit : after.exit with on' | ⟨status, value⟩
      · rw [hexit] at hother hparked
        cases hother
        have hcond := (h.parks on' hexit).1
        rw [← hcond] at hon
        subst hon
        exact absurd (by simp [parkedAfter, park]) hparked
      · rw [hexit] at hother
        cases hother
    · rintro ⟨⟨hne, -⟩, -⟩
      exact absurd rfl hne
  · have hwaits : j ∈ (s.perform i call after).waiters on ↔ j ∈ s.waiters on := by
      rw [mem_waiters, mem_waiters, perform_other hj]
    have hparked : j ∈ parkedAfter parked i after.exit on ↔ j ∈ parked on := by
      rcases after.exit with on' | ⟨status, value⟩
      · simp only [parkedAfter, park, Function.update_apply]
        split_ifs with heq
        · subst heq
          rw [Finset.mem_insert]
          exact or_iff_right hj
        · exact Iff.rfl
      · exact Iff.rfl
    change j ∈ (s.perform i call after).waiters on ∧ j ∉ parkedAfter parked i after.exit on ↔ _
    rw [hwaits, hparked]
    tauto

theorem mem_parkedAfter {j : ℕ} (hj : j ∈ parkedAfter parked i after.exit on) :
    j ∈ parked on ∨ j = i ∧ after.exit = .wait on := by
  rcases hexit : after.exit with on' | ⟨status, value⟩
  · rw [hexit] at hj
    simp only [parkedAfter, park, Function.update_apply] at hj
    split_ifs at hj with heq
    · subst heq
      rcases Finset.mem_insert.1 hj with rfl | hj
      · exact Or.inr ⟨rfl, rfl⟩
      · exact Or.inl hj
    · exact Or.inl hj
  · rw [hexit] at hj
    exact Or.inl hj

theorem mem_leave {j : ℕ} (h : Delivers (leave w.parked i) (after.notices.map Notice.wakeup) parked)
    (hj : j ∈ parked on) : j ≠ i ∧ j ∈ w.parked on :=
  Finset.mem_erase.1 (h.subset on hj)

/-- What is left of what a condition has, when the calls woken on it lose the one that runs: it has
used something, or it drops no wake-up. -/
theorem available_acts (h : Attended w) (hok : ChannelOk w.state.channel)
    (hacts : Acts w.state e i call after) (hdrops : ¬ Waits.Drops w e) (hi : i ∈ w.woken on)
    (hparked : ∃ (j : ℕ) (other : Call), j ∈ w.parked on ∧
      w.state.calls[j]? = some (.waiting other) ∧ other.deadline = deadlineInfinite) :
    available after.channel on ≤ (w.woken on).card - 1 + after.signals on := by
  have henough := h.enough on hparked
  have hpos : 0 < (w.woken on).card := Finset.card_pos.2 ⟨i, hi⟩
  have hrise := hacts.announces.rise on
  obtain ⟨other, hother, rfl⟩ := mem_waiters.1 (Finset.mem_sdiff.1 hi).1
  obtain ⟨j, -, hj, -⟩ := id hparked
  have hopen : w.state.channel.closed = false := by
    by_contra hclosed
    have hnone := h.closed (by simpa using hclosed) other.condition
    rw [hnone] at hj
    exact absurd hj (Finset.notMem_empty j)
  cases hacts with
  | enter hcall =>
      rw [hcall] at hother
      cases hother
  | wake hcall =>
      rw [hcall] at hother
      cases hother
      rcases resume_uses hopen hok (h.waits i call hcall) with hnone | huses
      · omega
      · omega
  | timeout hcall hdeadline =>
      rw [hcall] at hother
      cases hother
      have hfew : ¬ (w.woken call.condition).card ≤ available w.state.channel call.condition :=
        fun hmany => hdrops ⟨i, call, rfl, hi, hcall, hparked, hmany⟩
      omega

theorem Attended.acts (h : Attended w) (hok : ChannelOk w.state.channel)
    (hacts : Acts w.state e i call after)
    (hnotices : Delivers (leave w.parked i) (after.notices.map Notice.wakeup) parked)
    (hdrops : ¬ Waits.Drops w e) :
    Attended ⟨w.state.perform i call after, parkedAfter parked i after.exit⟩ := by
  have hannounces := hacts.announces
  have hself : ∀ on, i ∉ parked on := fun on hi => (mem_leave hnotices hi).1 rfl
  refine ⟨?_, ?_, ?_, ?_⟩
  · intro on j hj
    rw [mem_waiters]
    rcases mem_parkedAfter hj with hj | ⟨rfl, hexit⟩
    · obtain ⟨hne, hj⟩ := mem_leave hnotices hj
      obtain ⟨other, hother, hon⟩ := mem_waiters.1 (h.parked on hj)
      exact ⟨other, (perform_other hne).trans hother, hon⟩
    · refine ⟨call, ?_, (hannounces.parks on hexit).1.symm⟩
      rw [perform_self hacts.lt, hexit]
      rfl
  · intro j other hother
    rcases eq_or_ne j i with rfl | hne
    · rw [perform_self hacts.lt] at hother
      rcases hexit : after.exit with on | ⟨status, value⟩
      · rw [hexit] at hother
        cases hother
        exact (hannounces.parks on hexit).2.2.2
      · rw [hexit] at hother
        cases hother
    · rw [perform_other hne] at hother
      exact h.waits j other hother
  · intro hclosed on
    apply Finset.eq_empty_of_forall_notMem
    intro j hj
    rcases mem_parkedAfter hj with hj | ⟨rfl, hexit⟩
    · rcases hannounces.closes hclosed with hbefore | hall
      · have hnone := h.closed hbefore on
        have hj := (mem_leave hnotices hj).2
        rw [hnone] at hj
        exact absurd hj (Finset.notMem_empty j)
      · rw [hnotices.broadcast_empty (hall on)] at hj
        exact absurd hj (Finset.notMem_empty j)
    · have hopen := (hannounces.parks on hexit).2.1
      exact absurd (hopen.symm.trans hclosed) Bool.false_ne_true
  · rintro on ⟨j, other, hj, hother, hdeadline⟩
    change available after.channel on ≤ _
    rcases mem_parkedAfter hj with hj | ⟨rfl, hexit⟩
    · obtain ⟨hne, hjw⟩ := mem_leave hnotices hj
      rw [perform_other hne] at hother
      have hwitness : ∃ (j : ℕ) (other : Call), j ∈ w.parked on ∧
          w.state.calls[j]? = some (.waiting other) ∧ other.deadline = deadlineInfinite :=
        ⟨j, other, hjw, hother, hdeadline⟩
      have hwoken := (hnotices.woken (h.parked on)).resolve_left (Finset.ne_empty_of_mem hj)
      rw [woken_perform hacts.lt hannounces hself]
      change ((w.woken on).erase i).card + after.signals on ≤ _ at hwoken
      refine Nat.le_trans ?_ hwoken
      by_cases hi : i ∈ w.woken on
      · rw [Finset.card_erase_of_mem hi]
        exact available_acts h hok hacts hdrops hi hwitness
      · rw [Finset.erase_eq_of_notMem hi]
        exact (hannounces.rise on).trans (Nat.add_le_add_right (h.enough on hwitness) _)
    · rw [(hannounces.parks on hexit).2.2.1]
      exact Nat.zero_le _

theorem attended_of_careful (hlegal : os.Legal)
    (h : Reachable (Waits.careful os elementSize capacity) w) : Attended w := by
  obtain ⟨es, hrun⟩ := h
  induction hrun with
  | start hstart =>
      obtain ⟨channel, hinit, rfl⟩ := hstart
      refine ⟨fun on => Finset.empty_subset _, ?_, fun _ _ => rfl, ?_⟩
      · intro i call hi
        cases hi
      · rintro on ⟨j, other, hj, -⟩
        exact absurd hj (Finset.notMem_empty j)
  | step hrun hstep ih =>
      have hsound := sound_of_reachable hlegal (Waits.forget (Waits.waits_of_careful ⟨_, hrun⟩))
      obtain ⟨hstep, hdrops⟩ := hstep
      cases hstep with
      | call call => exact ih.made call
      | act hacts hnotices => exact ih.acts hsound.ok hacts hnotices hdrops

theorem Attended.woken_eq_empty (h : Attended w) (hquiet : w.Quiet) (on : Cond) :
    w.woken on = ∅ := by
  apply Finset.eq_empty_of_forall_notMem
  intro i hi
  obtain ⟨hwaits, hnot⟩ := Finset.mem_sdiff.1 hi
  obtain ⟨call, hcall, hon⟩ := mem_waiters.1 hwaits
  rcases hquiet i _ hcall with ⟨_, _, _, hreturned⟩ | ⟨other, on', hother, -, hparked⟩
  · cases hreturned
  · cases hother
    obtain ⟨call', hcall', hon'⟩ := mem_waiters.1 (h.parked on' hparked)
    rw [hcall] at hcall'
    cases hcall'
    rw [← hon, hon'] at hnot
    exact hnot hparked

theorem not_canProceed (hopen : channel.closed = false)
    (hnone : available channel call.condition = 0) : ¬ call.CanProceed channel := by
  cases call with
  | send value deadline =>
      simp only [Call.condition, available, Call.CanProceed, hopen] at hnone ⊢
      split_ifs at hnone ⊢ with hzero hready
      · simpa using hready
      · simp
        omega
  | receive size deadline =>
      simp only [Call.condition, available, Call.CanProceed, hopen] at hnone ⊢
      split_ifs at hnone ⊢ with hzero hfull
      · simpa using hfull
      · simp
        omega
  | close => exact id

/-- In every run in which no wake-up is dropped, no call waits for what is already there once nobody
can run any more. -/
theorem careful_run_not_stranded (hlegal : os.Legal)
    (h : Reachable (Waits.careful os elementSize capacity) w) (hquiet : w.Quiet) :
    ¬ w.Stranded := by
  have hattended := attended_of_careful hlegal h
  rintro ⟨i, call, hcall, hproceed⟩
  rcases hquiet i _ hcall with ⟨_, _, _, hreturned⟩ | ⟨other, on, hother, hdeadline, hparked⟩
  · cases hreturned
  cases hother
  obtain ⟨call', hcall', hon⟩ := mem_waiters.1 (hattended.parked on hparked)
  rw [hcall] at hcall'
  cases hcall'
  have hopen : w.state.channel.closed = false := by
    by_contra hclosed
    have hnone := hattended.closed (by simpa using hclosed) on
    rw [hnone] at hparked
    exact absurd hparked (Finset.notMem_empty i)
  have henough := hattended.enough on ⟨i, call, hparked, hcall, hdeadline⟩
  rw [hattended.woken_eq_empty hquiet, Finset.card_empty, ← hon] at henough
  exact not_canProceed hopen (Nat.le_zero.1 henough) hproceed

end Runs

theorem quiet_of_parked (on : Cond) {c c' : Call} {r r' : Status} {v v' : Option Bytes}
    (hcalls : w.state.calls = [.returned c r v, .waiting call, .returned c' r' v'])
    (hdeadline : call.deadline = deadlineInfinite) (hparked : 1 ∈ w.parked on) : w.Quiet := by
  intro i phase hphase
  rw [hcalls] at hphase
  rcases i with _ | _ | _ | i
  · cases hphase
    exact Or.inl ⟨_, _, _, rfl⟩
  · cases hphase
    exact Or.inr ⟨_, on, rfl, hdeadline, hparked⟩
  · cases hphase
    exact Or.inl ⟨_, _, _, rfl⟩
  · cases hphase

/-- A channel with one place, its only value still in it, and a receive parked without a deadline: a
receive with a deadline was woken for the value and reported its deadline. -/
theorem receiver_stranded : ¬ ∀ w, Reachable (Waits.waits grantingOs 1 1) w → w.Quiet →
    ¬ w.Stranded := by
  intro hclaim
  let channel : LorChannel := ⟨1, 1, [[0]], 0, 0, false, 0, false⟩
  have h₀ : Run (Waits.waits grantingOs 1 1) [] ⟨⟨channel, [], [], []⟩, fun _ => ∅⟩ :=
    .start ⟨channel, rfl, rfl⟩
  have h₁ := h₀.step (.call (.receive (some 1) 10))
  have h₂ := h₁.step (.act (.enter (i := 0) rfl) (.nil _))
  have h₃ := h₂.step (.call (.receive (some 1) deadlineInfinite))
  have h₄ := h₃.step (.act (.enter (i := 1) rfl) (.nil _))
  have h₅ := h₄.step (.call (.send (some [7]) deadlineInfinite))
  have h₆ := h₅.step (.act (.enter (i := 2) rfl)
    (.signal {1} (by decide) (fun _ => by decide) (.nil _)))
  have h₇ := h₆.step (.act (.timeout (i := 0) rfl (by decide)) (.nil _))
  exact hclaim _ ⟨_, h₇⟩ (quiet_of_parked .canReceive rfl rfl (by decide))
    ⟨1, .receive (some 1) deadlineInfinite, rfl, Or.inl (by decide)⟩

/-- The same calls, but the woken receive runs before its deadline. -/
theorem careful_run_not_stranded_parked : ∃ w, Reachable (Waits.careful grantingOs 1 1) w ∧
    w.Quiet ∧ (w.parked .canReceive).Nonempty ∧ ¬ w.Stranded := by
  have hcalm : ∀ w e, (∀ i, e ≠ .timeout i) → ¬ Waits.Drops w e := by
    rintro w e hne ⟨i, call, heq, -⟩
    exact hne i heq
  let channel : LorChannel := ⟨1, 1, [[0]], 0, 0, false, 0, false⟩
  have h₀ : Run (Waits.careful grantingOs 1 1) [] ⟨⟨channel, [], [], []⟩, fun _ => ∅⟩ :=
    .start ⟨channel, rfl, rfl⟩
  have h₁ := h₀.step ⟨.call (.receive (some 1) 10), hcalm _ _ (by simp)⟩
  have h₂ := h₁.step ⟨.act (.enter (i := 0) rfl) (.nil _), hcalm _ _ (by simp)⟩
  have h₃ := h₂.step ⟨.call (.receive (some 1) deadlineInfinite), hcalm _ _ (by simp)⟩
  have h₄ := h₃.step ⟨.act (.enter (i := 1) rfl) (.nil _), hcalm _ _ (by simp)⟩
  have h₅ := h₄.step ⟨.call (.send (some [7]) deadlineInfinite), hcalm _ _ (by simp)⟩
  have h₆ := h₅.step ⟨.act (.enter (i := 2) rfl)
    (.signal {1} (by decide) (fun _ => by decide) (.nil _)), hcalm _ _ (by simp)⟩
  have h₇ := h₆.step ⟨.act (.wake (i := 0) rfl)
    (.signal ∅ (by decide) (fun h => absurd rfl h) (.nil _)), hcalm _ _ (by simp)⟩
  have hreachable : Reachable (Waits.careful grantingOs 1 1) _ := ⟨_, h₇⟩
  exact ⟨_, hreachable, quiet_of_parked .canReceive rfl rfl (by decide), ⟨1, by decide⟩,
    careful_run_not_stranded grantingOs_legal hreachable
      (quiet_of_parked .canReceive rfl rfl (by decide))⟩

end Liblor.Channel
