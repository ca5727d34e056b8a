import Liblor.ChannelOrder

/-!
# The hand-off of a channel without capacity

A send puts its value into the slot when a receiver is counted and returns at once. It relies on one
of the counted receivers to take the value; a receiver whose wait times out leaves without looking
at the slot.
-/

namespace Liblor.Channel

open Transition

namespace Phase

def isWaitingReceive : Phase → Bool
  | .waiting (.receive _ _) => true
  | _ => false

def isReturned : Phase → Bool
  | .returned _ _ _ => true
  | _ => false

/-- A send that has returned `LOR_STATUS_OK`. -/
def isOkSend : Phase → Bool
  | .returned (.send _ _) .ok _ => true
  | _ => false

/-- A receive that has returned `LOR_STATUS_OK`. -/
def isOkReceive : Phase → Bool
  | .returned (.receive _ _) .ok _ => true
  | _ => false

end Phase

namespace State

def allReturned (s : State) : Bool := s.calls.all Phase.isReturned

def waitingReceives (s : State) : ℕ := s.calls.countP Phase.isWaitingReceive

def okSends (s : State) : ℕ := s.calls.countP Phase.isOkSend

def okReceives (s : State) : ℕ := s.calls.countP Phase.isOkReceive

end State

/-- A value in the slot has a receiver that waits for it. -/
def HandOff (s : State) : Prop :=
  s.channel.slotFull → ∃ phase ∈ s.calls, phase.isWaitingReceive

/-- The only counted receiver times out although the slot is full. -/
def Withdraws (s : State) (e : Event) : Prop :=
  ∃ i size deadline, e = .timeout i ∧ s.calls[i]? = some (.waiting (.receive size deadline)) ∧
    s.channel.slotFull ∧ s.channel.waitingReceivers = 1

/-- The runs in which no receiver withdraws from a full slot. -/
def patient (os : Os) (elementSize : ℕ) : System State Event where
  start := (system os elementSize 0).start
  step s e s' := Step s e s' ∧ ¬ Withdraws s e

/-- The counters of the channel agree with what the calls are doing. -/
structure Counted (s : State) : Prop where
  sound : Sound 0 s
  waiting : s.channel.waitingReceivers = s.waitingReceives
  sends : s.okSends = s.accepted.length
  receives : s.okReceives = s.delivered.length

variable {channel : LorChannel} {s s' : State} {e : Event}

section Sections

theorem sendLoop_waiting (value : Bytes) :
    (sendLoop channel value).channel.waitingReceivers = channel.waitingReceivers := by
  unfold sendLoop
  dsimp only
  split_ifs <;> rfl

theorem receiveLoop_waiting (channel : LorChannel) (size : Option ℕ) (deadline : ℤ)
    (hzero : channel.capacity = 0) (hpos : 0 < channel.waitingReceivers) :
    (receiveLoop channel).channel.waitingReceivers + 1 = channel.waitingReceivers +
      (Phase.after (.receive size deadline) (receiveLoop channel).exit).isWaitingReceive.toNat := by
  unfold receiveLoop
  dsimp only
  rw [if_pos hzero]
  split_ifs
  · rfl
  · change channel.waitingReceivers - 1 + 1 = channel.waitingReceivers + 0
    omega
  · change channel.waitingReceivers - 1 + 1 = channel.waitingReceivers + 0
    omega

theorem after_send (value : Option Bytes) (deadline : ℤ) (exit : Exit) :
    (Phase.after (.send value deadline) exit).isWaitingReceive = false := by
  cases exit <;> rfl

theorem enter_waiting (call : Call) (hzero : channel.capacity = 0) :
    (call.enter channel).channel.waitingReceivers = channel.waitingReceivers +
      (Phase.after call (call.enter channel).exit).isWaitingReceive.toNat := by
  cases call with
  | send value deadline =>
      rw [after_send]
      cases value with
      | none => rfl
      | some value =>
          change (sendUntilRaw channel (some value)).channel.waitingReceivers = _
          unfold sendUntilRaw
          dsimp only
          split_ifs
          · rfl
          · exact sendLoop_waiting value
  | receive size deadline =>
      cases size with
      | none => rfl
      | some size =>
          change (receiveUntilRaw channel (some size)).channel.waitingReceivers = _ +
            (Phase.after _ (receiveUntilRaw channel (some size)).exit).isWaitingReceive.toNat
          unfold receiveUntilRaw
          dsimp only
          rw [if_pos hzero]
          split_ifs
          · rfl
          · have h := receiveLoop_waiting
              { channel with waitingReceivers := channel.waitingReceivers + 1 }
                (some size) deadline hzero (Nat.succ_pos _)
            dsimp only at h ⊢
            omega
  | close => rfl

theorem resume_waiting (call : Call) (status : Status) (hzero : channel.capacity = 0)
    (hpos : (Phase.waiting call).isWaitingReceive → 0 < channel.waitingReceivers) :
    (call.resume channel status).channel.waitingReceivers +
      (Phase.waiting call).isWaitingReceive.toNat = channel.waitingReceivers +
      (Phase.after call (call.resume channel status).exit).isWaitingReceive.toNat := by
  cases call with
  | send value deadline =>
      rw [after_send]
      cases value with
      | none => rfl
      | some value =>
          change (sendResumed channel value status).channel.waitingReceivers = _
          unfold sendResumed
          split_ifs
          · rfl
          · exact sendLoop_waiting value
  | receive size deadline =>
      have hpos := hpos rfl
      change (receiveResumed channel status).channel.waitingReceivers + 1 = _ +
        (Phase.after _ (receiveResumed channel status).exit).isWaitingReceive.toNat
      unfold receiveResumed
      rw [if_pos hzero]
      split_ifs
      · change channel.waitingReceivers - 1 + 1 = channel.waitingReceivers + 0
        omega
      · exact receiveLoop_waiting channel size deadline hzero hpos
  | close => rfl

theorem receiveLoop_exit_ne : (receiveLoop channel).exit ≠ .returns .ok none := by
  unfold receiveLoop
  dsimp only
  split_ifs
  all_goals simp

theorem enter_exit_ne (size : Option ℕ) (deadline : ℤ) :
    (Call.enter channel (.receive size deadline)).exit ≠ .returns .ok none := by
  cases size with
  | none => simp [Call.enter, receiveUntilRaw]
  | some size =>
      change (receiveUntilRaw channel (some size)).exit ≠ _
      unfold receiveUntilRaw
      dsimp only
      split_ifs
      · simp
      · exact receiveLoop_exit_ne
      · exact receiveLoop_exit_ne

theorem resume_exit_ne (status : Status) (size : Option ℕ) (deadline : ℤ) :
    (Call.resume channel status (.receive size deadline)).exit ≠ .returns .ok none := by
  change (receiveResumed channel status).exit ≠ _
  unfold receiveResumed
  split_ifs with hstatus
  · simp [hstatus]
  · simp [hstatus]
  · exact receiveLoop_exit_ne

/-- A call returns `ok` exactly when it hands over or takes a value. -/
structure Exact (call : Call) (exit : Exit) : Prop where
  sent : (Phase.after call exit).isOkSend.toNat = (call.sent exit).length
  received : (Phase.after call exit).isOkReceive.toNat = (call.received exit).length

theorem exact_of_exit {call : Call} {exit : Exit}
    (hsend : ∀ deadline, call = .send none deadline → exit = .returns .invalidArgument none)
    (hreceive : ∀ size deadline, call = .receive size deadline → exit ≠ .returns .ok none) :
    Exact call exit := by
  cases exit with
  | wait on => rcases call with ⟨_ | _, _⟩ | _ | _ <;> exact ⟨rfl, rfl⟩
  | returns status value =>
      rcases call with ⟨_ | sent, _⟩ | ⟨size, deadline⟩ | _
      · cases hsend _ rfl
        exact ⟨rfl, rfl⟩
      · cases status <;> exact ⟨rfl, rfl⟩
      · have hne := hreceive _ _ rfl
        cases value with
        | none =>
            cases status with
            | ok => exact absurd rfl hne
            | _ => exact ⟨rfl, rfl⟩
        | some value => cases status <;> exact ⟨rfl, rfl⟩
      · cases status <;> exact ⟨rfl, rfl⟩

theorem enter_exact (call : Call) : Exact call (call.enter channel).exit := by
  apply exact_of_exit
  · intro deadline heq
    subst heq
    rfl
  · intro size deadline heq
    subst heq
    exact enter_exit_ne size deadline

theorem resume_exact (call : Call) (status : Status) :
    Exact call (call.resume channel status).exit := by
  apply exact_of_exit
  · intro deadline heq
    subst heq
    rfl
  · intro size deadline heq
    subst heq
    exact resume_exit_ne status size deadline

end Sections

section Steps

theorem countP_perform {i : ℕ} {before : Phase} (hi : s.calls[i]? = some before) (call : Call)
    (after : Section) (p : Phase → Bool) :
    (s.perform i call after).calls.countP p + (p before).toNat =
      s.calls.countP p + (p (.after call after.exit)).toNat := by
  obtain ⟨hlt, heq⟩ := List.getElem?_eq_some_iff.1 hi
  have hset := List.countP_set (p := p) (a := .after call after.exit) hlt
  change (s.calls.set i _).countP p + _ = _
  rw [hset, heq]
  cases hp : p before with
  | false => cases p (.after call after.exit) <;> simp
  | true =>
      have hpos : 0 < s.calls.countP p :=
        List.countP_pos_iff.2 ⟨before, heq ▸ List.getElem_mem hlt, hp⟩
      cases p (.after call after.exit)
      · simp
        omega
      · simp
        omega

theorem Counted.perform (h : Counted s) {i : ℕ} {call : Call} {after : Section} {before : Phase}
    (hi : s.calls[i]? = some before) (hsound : Sound 0 (s.perform i call after))
    (hbefore : before.isOkSend = false ∧ before.isOkReceive = false)
    (hexact : Exact call after.exit)
    (hwaiting : after.channel.waitingReceivers + before.isWaitingReceive.toNat =
      s.channel.waitingReceivers + (Phase.after call after.exit).isWaitingReceive.toNat) :
    Counted (s.perform i call after) := by
  refine ⟨hsound, ?_, ?_, ?_⟩
  · have hcount := countP_perform hi call after Phase.isWaitingReceive
    have hcounter := h.waiting
    change after.channel.waitingReceivers = (s.perform i call after).calls.countP _
    unfold State.waitingReceives at hcounter
    omega
  · have hcount := countP_perform hi call after Phase.isOkSend
    have hsends := h.sends
    rw [hbefore.1, hexact.sent] at hcount
    change (s.perform i call after).calls.countP _ = (s.accepted ++ call.sent after.exit).length
    rw [List.length_append, ← hsends]
    exact hcount
  · have hcount := countP_perform hi call after Phase.isOkReceive
    have hreceives := h.receives
    rw [hbefore.2, hexact.received] at hcount
    change (s.perform i call after).calls.countP _ =
      (s.delivered ++ call.received after.exit).length
    rw [List.length_append, ← hreceives]
    exact hcount

theorem Counted.waiting_pos (h : Counted s) {i : ℕ} {call : Call}
    (hi : s.calls[i]? = some (.waiting call)) (hcall : (Phase.waiting call).isWaitingReceive) :
    0 < s.channel.waitingReceivers := by
  rw [h.waiting]
  exact List.countP_pos_iff.2 ⟨_, List.mem_of_getElem? hi, hcall⟩

theorem Counted.step (h : Counted s) (hstep : Step s e s') : Counted s' := by
  have hsound := h.sound.step hstep
  have hzero := h.sound.capacity
  cases hstep with
  | call call =>
      refine ⟨hsound, ?_, ?_, ?_⟩
      · change s.channel.waitingReceivers = (s.calls ++ [Phase.started call]).countP _
        rw [List.countP_append, h.waiting]
        rfl
      · change (s.calls ++ [Phase.started call]).countP _ = s.accepted.length
        rw [List.countP_append, ← h.sends]
        rfl
      · change (s.calls ++ [Phase.started call]).countP _ = s.delivered.length
        rw [List.countP_append, ← h.receives]
        rfl
  | enter hi => exact h.perform hi hsound ⟨rfl, rfl⟩ (enter_exact _) (enter_waiting _ hzero)
  | wake hi =>
      exact h.perform hi hsound ⟨rfl, rfl⟩ (resume_exact _ _)
        (resume_waiting _ _ hzero (h.waiting_pos hi))
  | timeout hi =>
      exact h.perform hi hsound ⟨rfl, rfl⟩ (resume_exact _ _)
        (resume_waiting _ _ hzero (h.waiting_pos hi))

end Steps

section HandOff

/-- A full slot has a counted receiver. -/
def Promised (channel : LorChannel) : Prop := channel.slotFull → 0 < channel.waitingReceivers

theorem Counted.handOff_iff (h : Counted s) : HandOff s ↔ Promised s.channel := by
  unfold HandOff Promised
  rw [h.waiting]
  exact imp_congr_right fun _ => List.countP_pos_iff.symm

theorem sendLoop_promised (h : Promised channel) (value : Bytes) :
    Promised (sendLoop channel value).channel := by
  unfold sendLoop
  dsimp only
  split_ifs with hzero hwait hclosed
  · exact h
  · exact h
  · -- The slot is only filled when a receiver is counted.
    intro _
    apply Nat.pos_of_ne_zero
    intro hnone
    exact hwait ⟨by simpa using hclosed, Or.inl hnone⟩
  · exact h
  · exact h
  · exact h

theorem receiveLoop_promised (h : Promised channel) (hzero : channel.capacity = 0) :
    Promised (receiveLoop channel).channel := by
  unfold receiveLoop
  dsimp only
  rw [if_pos hzero]
  split_ifs with hwait hempty
  · exact h
  · intro hfull
    simp [hempty] at hfull
  · intro hfull
    simp at hfull

theorem enter_promised (h : Promised channel) (hzero : channel.capacity = 0) (call : Call) :
    Promised (call.enter channel).channel := by
  cases call with
  | send value deadline =>
      cases value with
      | none => exact h
      | some value =>
          change Promised (sendUntilRaw channel (some value)).channel
          unfold sendUntilRaw
          dsimp only
          split_ifs
          · exact h
          · exact sendLoop_promised h value
  | receive size deadline =>
      cases size with
      | none => exact h
      | some size =>
          change Promised (receiveUntilRaw channel (some size)).channel
          unfold receiveUntilRaw
          dsimp only
          rw [if_pos hzero]
          split_ifs
          · exact h
          · exact receiveLoop_promised (fun _ => Nat.succ_pos _) hzero
  | close => exact h

theorem wake_promised (h : Promised channel) (hzero : channel.capacity = 0) (call : Call) :
    Promised (call.resume channel .ok).channel := by
  cases call with
  | send value deadline =>
      cases value with
      | none => exact h
      | some value => exact sendLoop_promised h value
  | receive size deadline => exact receiveLoop_promised h hzero
  | close => exact h

/-- A timeout gives up the promise exactly when the last counted receiver leaves a full slot. -/
theorem timeout_promised (h : Promised channel) (hzero : channel.capacity = 0) (call : Call)
    (hpos : (Phase.waiting call).isWaitingReceive → 0 < channel.waitingReceivers) :
    Promised (call.resume channel .timedOut).channel ↔
      ¬((Phase.waiting call).isWaitingReceive ∧ channel.slotFull ∧
        channel.waitingReceivers = 1) := by
  cases call with
  | send value deadline =>
      have hkeep : (Call.resume channel .timedOut (.send value deadline)).channel = channel := by
        cases value <;> rfl
      rw [hkeep]
      exact ⟨fun _ hbad => (nomatch hbad.1), fun _ => h⟩
  | receive size deadline =>
      have hpos := hpos rfl
      have heq : (Call.resume channel .timedOut (.receive size deadline)).channel =
          { channel with waitingReceivers := channel.waitingReceivers - 1 } := by
        change (receiveResumed channel .timedOut).channel = _
        unfold receiveResumed
        rw [if_pos (by simp), if_pos hzero]
      rw [heq]
      constructor
      · intro hpromised hbad
        have hleft : 0 < channel.waitingReceivers - 1 := hpromised hbad.2.1
        omega
      · intro hgood hfull
        change 0 < channel.waitingReceivers - 1
        have hne : channel.waitingReceivers ≠ 1 := fun hone => hgood ⟨rfl, hfull, hone⟩
        omega
  | close => exact ⟨fun _ hbad => (nomatch hbad.1), fun _ => h⟩

/-- A step loses the hand-off exactly when it withdraws the last receiver from a full slot. -/
theorem handOff_step_iff (hcounted : Counted s) (hhand : HandOff s) (hstep : Step s e s') :
    HandOff s' ↔ ¬ Withdraws s e := by
  have hcounted' := hcounted.step hstep
  have hzero := hcounted.sound.capacity
  have hpromised := hcounted.handOff_iff.1 hhand
  rw [hcounted'.handOff_iff]
  cases hstep with
  | call call => exact ⟨fun _ hbad => by simp [Withdraws] at hbad, fun _ => hpromised⟩
  | enter hi =>
      exact ⟨fun _ hbad => by simp [Withdraws] at hbad, fun _ => enter_promised hpromised hzero _⟩
  | wake hi =>
      exact ⟨fun _ hbad => by simp [Withdraws] at hbad, fun _ => wake_promised hpromised hzero _⟩
  | @timeout i call hi hdeadline =>
      refine (timeout_promised hpromised hzero call (hcounted.waiting_pos hi)).trans ?_
      apply not_congr
      constructor
      · intro hbad
        obtain ⟨hcall, hfull, hone⟩ := hbad
        cases call with
        | receive size deadline => exact ⟨i, size, deadline, rfl, hi, hfull, hone⟩
        | send => simp [Phase.isWaitingReceive] at hcall
        | close => simp [Phase.isWaitingReceive] at hcall
      · intro hbad
        obtain ⟨j, size, deadline, heq, hj, hfull, hone⟩ := hbad
        cases heq
        rw [hi] at hj
        cases hj
        exact ⟨rfl, hfull, hone⟩

end HandOff

section Runs

variable {os : Os} {elementSize : ℕ}

theorem counted_of_start (hlegal : os.Legal) (h : (system os elementSize 0).start s) :
    Counted s ∧ HandOff s := by
  obtain ⟨channel, hinit, rfl⟩ := h
  obtain ⟨hok, hcapacity, hstored⟩ := initRaw_ok hlegal hinit
  obtain ⟨-, bytes, -, rfl⟩ := initRaw_cases hinit
  refine ⟨⟨⟨hok, hcapacity, hstored⟩, rfl, rfl, rfl⟩, ?_⟩
  intro hfull
  simp [fresh] at hfull

theorem handOff_of_patient (hlegal : os.Legal) (h : Reachable (patient os elementSize) s) :
    Counted s ∧ HandOff s := by
  apply Reachable.invariant (P := fun s => Counted s ∧ HandOff s) ?_ ?_ h
  · intro s hstart
    exact counted_of_start hlegal hstart
  · intro s e s' hkept hstep
    obtain ⟨hcounted, hhand⟩ := hkept
    obtain ⟨hstep, hpatient⟩ := hstep
    exact ⟨hcounted.step hstep, (handOff_step_iff hcounted hhand hstep).2 hpatient⟩

/-- Where no value is in the slot, sends and receives are even. -/
theorem Counted.even (h : Counted s) (hhand : HandOff s) (hreturned : s.allReturned) :
    s.okSends = s.okReceives := by
  have hempty : s.channel.slotFull = false := by
    by_contra hfull
    obtain ⟨phase, hphase, hwaiting⟩ := hhand (by simpa using hfull)
    have hphase' := List.all_eq_true.1 hreturned phase hphase
    cases phase with
    | returned => simp [Phase.isWaitingReceive] at hwaiting
    | _ => simp [Phase.isReturned] at hphase'
  have hvalues := h.sound.values
  rw [stored_of_rendezvous h.sound.capacity, hempty, if_neg Bool.false_ne_true,
    List.append_nil] at hvalues
  rw [h.sends, h.receives, hvalues]

/-- As long as no receiver times out as the last counted one while the slot is full, a value in the
slot has a receiver waiting for it, and whenever every call has returned as many sends as receives
have returned `ok`. The first step that breaks this condition loses the receiver. -/
theorem rendezvous_hand_off (os : Os) (elementSize : ℕ) (hlegal : os.Legal) (s : State)
    (h : Reachable (patient os elementSize) s) :
    HandOff s ∧ s.channel.waitingReceivers = s.waitingReceives ∧
      (s.allReturned → s.okSends = s.okReceives) ∧
      ∀ e s', Step s e s' → (HandOff s' ↔ ¬ Withdraws s e) := by
  obtain ⟨hcounted, hhand⟩ := handOff_of_patient hlegal h
  exact ⟨hhand, hcounted.waiting, hcounted.even hhand,
    fun _ _ hstep => handOff_step_iff hcounted hhand hstep⟩

end Runs

/-- A receive with a deadline and a send meet, and both return. -/
theorem rendezvous_hand_off_met :
    ∃ s, Reachable (patient grantingOs 1) s ∧ s.allReturned ∧ s.okSends = 1 ∧
      s.okSends = s.okReceives := by
  let channel : LorChannel := ⟨1, 0, [[0]], 0, 0, false, 0, false⟩
  have h₀ : Run (patient grantingOs 1) [] ⟨channel, [], [], []⟩ := .start ⟨channel, rfl, rfl⟩
  have h₁ := h₀.step ⟨.call (.receive (some 1) 10), by simp [Withdraws]⟩
  have h₂ := h₁.step ⟨.enter (i := 0) rfl, by simp [Withdraws]⟩
  have h₃ := h₂.step ⟨.call (.send (some [7]) deadlineInfinite), by simp [Withdraws]⟩
  have h₄ := h₃.step ⟨.enter (i := 1) rfl, by simp [Withdraws]⟩
  have h₅ := h₄.step ⟨.wake (i := 0) rfl, by simp [Withdraws]⟩
  exact ⟨_, ⟨_, h₅⟩, by decide, by decide,
    (rendezvous_hand_off grantingOs 1 grantingOs_legal _ ⟨_, h₅⟩).2.2.1 (by decide)⟩

/-- The receiver times out after the send has filled the slot: the send has returned `ok` and no
receive will have. -/
theorem rendezvous_loses_value :
    ¬ ∀ s, Reachable (system grantingOs 1 0) s → s.allReturned → s.okSends = s.okReceives := by
  intro hclaim
  let channel : LorChannel := ⟨1, 0, [[0]], 0, 0, false, 0, false⟩
  have h₀ : Run (system grantingOs 1 0) [] ⟨channel, [], [], []⟩ := .start ⟨channel, rfl, rfl⟩
  have h₁ := h₀.step (.call (.receive (some 1) 10))
  have h₂ := h₁.step (.enter (i := 0) rfl)
  have h₃ := h₂.step (.call (.send (some [7]) deadlineInfinite))
  have h₄ := h₃.step (.enter (i := 1) rfl)
  have h₅ := h₄.step (.timeout (i := 0) rfl (by decide))
  have heven := hclaim _ ⟨_, h₅⟩ (by decide)
  revert heven
  decide

end Liblor.Channel
