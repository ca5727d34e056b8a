import Liblor.ChannelModel
import Liblor.RingBuffer
import Liblor.Transition

/-!
# Values leave a channel in the order in which they entered

Any number of calls is made on one channel. Their critical sections follow each other in any order;
a wait returns at any time, whether it was notified or not, and times out at any time when it has a
deadline. The values that sends have handed over and that receives have taken are recorded in the
order of the sections.
-/

namespace Liblor.Channel

open Transition

inductive Phase where
  | started (call : Call)
  | waiting (call : Call)
  | returned (call : Call) (status : Status) (value : Option Bytes)
  deriving DecidableEq, Repr

def Phase.after (call : Call) : Exit → Phase
  | .wait _ => .waiting call
  | .returns status value => .returned call status value

structure State where
  channel : LorChannel
  calls : List Phase
  accepted : List Bytes
  delivered : List Bytes
  deriving DecidableEq, Repr

/-- The state after a section of call `i`. -/
def State.perform (s : State) (i : ℕ) (call : Call) (section' : Section) : State where
  channel := section'.channel
  calls := s.calls.set i (.after call section'.exit)
  accepted := s.accepted ++ call.sent section'.exit
  delivered := s.delivered ++ call.received section'.exit

inductive Event where
  | call (call : Call)
  | enter (i : ℕ)
  | wake (i : ℕ)
  | timeout (i : ℕ)
  deriving DecidableEq, Repr

/-- The call whose section an event is. -/
def Event.actor : Event → Option ℕ
  | .call _ => none
  | .enter i => some i
  | .wake i => some i
  | .timeout i => some i

inductive Step : State → Event → State → Prop where
  | call {s : State} (call : Call) : Step s (.call call)
    { s with calls := s.calls ++ [.started call] }
  | enter {s : State} {i : ℕ} {call : Call} (h : s.calls[i]? = some (.started call)) :
      Step s (.enter i) (s.perform i call (call.enter s.channel))
  | wake {s : State} {i : ℕ} {call : Call} (h : s.calls[i]? = some (.waiting call)) :
      Step s (.wake i) (s.perform i call (call.resume s.channel .ok))
  | timeout {s : State} {i : ℕ} {call : Call} (h : s.calls[i]? = some (.waiting call))
      (hdeadline : call.deadline ≠ deadlineInfinite) :
      Step s (.timeout i) (s.perform i call (call.resume s.channel .timedOut))

/-- No allocation is larger than `PTRDIFF_MAX`. -/
def Os.Legal (os : Os) : Prop := ∀ size, os.malloc size ≠ none → size ≤ ptrdiffMax

def system (os : Os) (elementSize capacity : ℕ) : System State Event where
  start s := ∃ channel, initRaw os elementSize capacity = (.ok, some channel) ∧
    s = ⟨channel, [], [], []⟩
  step := Step

def ring (channel : LorChannel) : RingBuffer Bytes :=
  ⟨channel.buffer, channel.first, channel.count⟩

/-- The values that a channel holds, the oldest first. -/
def stored (channel : LorChannel) : List Bytes :=
  if channel.capacity = 0 then if channel.slotFull then [channel.buffer.getD 0 []] else []
  else (ring channel).contents

structure ChannelOk (channel : LorChannel) : Prop where
  length : channel.buffer.length = storageCount channel.capacity
  capacity_le : channel.capacity ≤ ptrdiffMax
  count_le : channel.count ≤ channel.capacity
  first_lt : 0 < channel.capacity → channel.first < channel.capacity

/-- What a section of a call does to the values of the channel. -/
structure Conserves (call : Call) (channel : LorChannel) (after : Section) : Prop where
  ok : ChannelOk after.channel
  capacity : after.channel.capacity = channel.capacity
  values : call.received after.exit ++ stored after.channel =
    stored channel ++ call.sent after.exit
  closed : channel.closed → after.channel.closed
  refused : channel.closed → call.sent after.exit = []

variable {channel : LorChannel} {call : Call}

section Sections

theorem stored_of_rendezvous (h : channel.capacity = 0) :
    stored channel = if channel.slotFull then [channel.buffer.getD 0 []] else [] := if_pos h

theorem stored_of_buffered (h : channel.capacity ≠ 0) : stored channel = (ring channel).contents :=
  if_neg h

theorem Conserves.idle (hok : ChannelOk channel) {notices : List Notice} {exit : Exit}
    (hsent : call.sent exit = []) (hreceived : call.received exit = []) :
    Conserves call channel ⟨channel, notices, exit⟩ := by
  refine ⟨hok, rfl, ?_, id, fun _ => hsent⟩
  change call.received exit ++ stored channel = stored channel ++ call.sent exit
  rw [hsent, hreceived, List.nil_append, List.append_nil]

theorem position_eq (hok : ChannelOk channel) (hne : channel.capacity ≠ 0)
    (hroom : channel.count < channel.capacity) :
    (channel.first + channel.count) % 2 ^ 64 % channel.capacity =
      ((ring channel).first + (ring channel).count) % (ring channel).slots.length := by
  have hlength := hok.length
  have hfirst := hok.first_lt (Nat.pos_of_ne_zero hne)
  have hcapacity := hok.capacity_le
  unfold storageCount at hlength
  rw [if_neg hne] at hlength
  unfold ptrdiffMax at hcapacity
  have hsmall : (channel.first + channel.count) % 2 ^ 64 = channel.first + channel.count :=
    Nat.mod_eq_of_lt (by omega)
  rw [hsmall]
  change _ = (channel.first + channel.count) % channel.buffer.length
  rw [hlength]

theorem sendLoop_conserves (hok : ChannelOk channel) (value : Bytes) (deadline : ℤ) :
    Conserves (.send (some value) deadline) channel (sendLoop channel value) := by
  unfold sendLoop
  split_ifs with hzero hwait hclosed hfull hclosed
  · exact .idle hok rfl rfl
  · exact .idle hok rfl rfl
  · have hopen : channel.closed = false := by simpa using hclosed
    have hempty : channel.slotFull = false := by
      by_contra hfull
      exact hwait ⟨hopen, Or.inr (by simpa using hfull)⟩
    have hlength : 0 < channel.buffer.length := by
      rw [hok.length, storageCount, if_pos hzero]
      exact Nat.one_pos
    refine ⟨⟨?_, hok.capacity_le, hok.count_le, hok.first_lt⟩, rfl, ?_, id, ?_⟩
    · simpa using hok.length
    · rw [stored_of_rendezvous hzero, stored_of_rendezvous (by exact hzero)]
      simp [hempty, Call.sent, Call.received, List.getD_eq_getElem?_getD, hlength]
    · intro hclosed'
      exact absurd hclosed' hclosed
  · exact .idle hok rfl rfl
  · exact .idle hok rfl rfl
  · have hopen : channel.closed = false := by simpa using hclosed
    have hroom : channel.count < channel.capacity := by
      have hle := hok.count_le
      have hne : channel.count ≠ channel.capacity := fun heq => hfull ⟨hopen, heq⟩
      omega
    have hlength := hok.length
    rw [storageCount, if_neg hzero] at hlength
    refine ⟨⟨?_, hok.capacity_le, hroom, hok.first_lt⟩, rfl, ?_, id, ?_⟩
    · simpa using hok.length
    · rw [stored_of_buffered hzero, stored_of_buffered (by exact hzero),
        position_eq hok hzero hroom]
      exact (ring channel).contents_push value (hlength.symm ▸ hroom)
    · intro hclosed'
      exact absurd hclosed' hclosed

theorem receiveLoop_conserves (hok : ChannelOk channel) (size : Option ℕ) (deadline : ℤ) :
    Conserves (.receive size deadline) channel (receiveLoop channel) := by
  unfold receiveLoop
  dsimp only
  split_ifs with hzero hwait hempty hwait hempty
  · exact .idle hok rfl rfl
  · refine ⟨⟨hok.length, hok.capacity_le, hok.count_le, hok.first_lt⟩, rfl, ?_, id, fun _ => rfl⟩
    rw [stored_of_rendezvous hzero, stored_of_rendezvous (by exact hzero)]
    simp [Call.sent, Call.received]
  · refine ⟨⟨hok.length, hok.capacity_le, hok.count_le, hok.first_lt⟩, rfl, ?_, id, fun _ => rfl⟩
    rw [stored_of_rendezvous hzero, stored_of_rendezvous (by exact hzero)]
    simp [hempty, Call.sent, Call.received]
  · exact .idle hok rfl rfl
  · exact .idle hok rfl rfl
  · have hpos : 0 < channel.count := Nat.pos_of_ne_zero hempty
    have hlength := hok.length
    rw [storageCount, if_neg hzero] at hlength
    have hfirst := hok.first_lt (Nat.pos_of_ne_zero hzero)
    refine ⟨⟨hok.length, hok.capacity_le, ?_, ?_⟩, rfl, ?_, id, fun _ => rfl⟩
    · exact Nat.le_trans (Nat.sub_le _ _) hok.count_le
    · exact fun hcapacity => Nat.mod_lt _ hcapacity
    · have hslot : (ring channel).slot 0 = channel.buffer.getD channel.first [] := by
        change channel.buffer.getD ((channel.first + 0) % channel.buffer.length) default = _
        rw [hlength, Nat.add_zero, Nat.mod_eq_of_lt hfirst]
        rfl
      rw [stored_of_buffered hzero, stored_of_buffered (by exact hzero),
        (ring channel).contents_pop hpos, hslot, ← hlength]
      exact (List.append_nil _).symm

/-- A receive finds the channel closed only when nothing is left in it. -/
theorem receiveLoop_closed (channel : LorChannel) {value : Option Bytes}
    (h : (receiveLoop channel).exit = .returns .closed value) :
    channel.closed ∧ stored channel = [] := by
  unfold receiveLoop at h
  dsimp only at h
  split_ifs at h with hzero hwait hempty hwait hempty
  all_goals simp only [reduceCtorEq, Exit.returns.injEq, false_and] at h
  · refine ⟨?_, ?_⟩
    · by_contra hopen
      exact hwait ⟨hempty, by simpa using hopen⟩
    · rw [stored_of_rendezvous hzero, hempty]
      rfl
  · refine ⟨?_, ?_⟩
    · by_contra hopen
      exact hwait ⟨hempty, by simpa using hopen⟩
    · rw [stored_of_buffered hzero, RingBuffer.contents_eq_nil]
      exact hempty

theorem ChannelOk.waiting (hok : ChannelOk channel) (waitingReceivers : ℕ) :
    ChannelOk { channel with waitingReceivers := waitingReceivers } :=
  ⟨hok.length, hok.capacity_le, hok.count_le, hok.first_lt⟩

theorem enter_conserves (hok : ChannelOk channel) (call : Call) :
    Conserves call channel (call.enter channel) := by
  cases call with
  | send value deadline =>
      cases value with
      | none => exact .idle hok rfl rfl
      | some value =>
          change Conserves _ _ (if value.length ≠ channel.elementSize then _ else _)
          split_ifs
          · exact .idle hok rfl rfl
          · exact sendLoop_conserves hok value deadline
  | receive size deadline =>
      cases size with
      | none => exact .idle hok rfl rfl
      | some size =>
          change Conserves _ _ (if size ≠ channel.elementSize then _
            else if channel.capacity = 0 then _ else _)
          split_ifs
          · exact .idle hok rfl rfl
          · have h := receiveLoop_conserves (hok.waiting (channel.waitingReceivers + 1))
              (some size) deadline
            exact ⟨h.ok, h.capacity, h.values, h.closed, h.refused⟩
          · exact receiveLoop_conserves hok (some size) deadline
  | close =>
      refine ⟨⟨hok.length, hok.capacity_le, hok.count_le, hok.first_lt⟩, rfl, ?_, fun _ => rfl,
        fun _ => rfl⟩
      exact (List.append_nil _).symm

theorem received_of_ne_ok {status : Status} (h : status ≠ .ok) (call : Call)
    (value : Option Bytes) : call.received (.returns status value) = [] := by
  cases status with
  | ok => exact absurd rfl h
  | _ => cases call <;> cases value <;> rfl

theorem received_none (call : Call) (status : Status) :
    call.received (.returns status none) = [] := by
  cases call <;> cases status <;> rfl

theorem sent_of_ne_ok {status : Status} (h : status ≠ .ok) (call : Call) (value : Option Bytes) :
    call.sent (.returns status value) = [] := by
  cases status with
  | ok => exact absurd rfl h
  | _ => rcases call with ⟨_ | _, _⟩ | _ | _ <;> rfl

theorem resume_conserves (hok : ChannelOk channel) (call : Call) (status : Status) :
    Conserves call channel (call.resume channel status) := by
  cases call with
  | send value deadline =>
      cases value with
      | none => exact .idle hok rfl rfl
      | some value =>
          change Conserves _ _ (if status ≠ .ok then _ else _)
          split_ifs with hstatus
          · exact .idle hok (sent_of_ne_ok hstatus _ _) rfl
          · exact sendLoop_conserves hok value deadline
  | receive size deadline =>
      change Conserves _ _ (if status ≠ .ok then _ else _)
      split_ifs with hstatus hzero
      · refine ⟨hok.waiting _, rfl, ?_, id, fun _ => sent_of_ne_ok hstatus _ _⟩
        rw [received_none, sent_of_ne_ok hstatus, List.nil_append, List.append_nil]
        rfl
      · exact .idle hok (sent_of_ne_ok hstatus _ _) (received_none _ _)
      · exact receiveLoop_conserves hok size deadline
  | close =>
      refine ⟨⟨hok.length, hok.capacity_le, hok.count_le, hok.first_lt⟩, rfl, ?_, fun _ => rfl,
        fun _ => rfl⟩
      exact (List.append_nil _).symm

theorem enter_closed {size : Option ℕ} {deadline : ℤ} {value : Option Bytes}
    (h : (Call.enter channel (.receive size deadline)).exit = .returns .closed value) :
    channel.closed ∧ stored channel = [] := by
  cases size with
  | none => simp [Call.enter, receiveUntilRaw] at h
  | some size =>
      change (receiveUntilRaw channel (some size)).exit = _ at h
      unfold receiveUntilRaw at h
      dsimp only at h
      split_ifs at h
      · simp at h
      · exact receiveLoop_closed { channel with
          waitingReceivers := channel.waitingReceivers + 1 } h
      · exact receiveLoop_closed channel h

theorem resume_closed {size : Option ℕ} {deadline : ℤ} {status : Status} {value : Option Bytes}
    (h : (Call.resume channel status (.receive size deadline)).exit = .returns .closed value)
    (hstatus : status ≠ .closed) : channel.closed ∧ stored channel = [] := by
  change (receiveResumed channel status).exit = _ at h
  unfold receiveResumed at h
  split_ifs at h
  · simp only [Exit.returns.injEq] at h
    exact absurd h.1 hstatus
  · simp only [Exit.returns.injEq] at h
    exact absurd h.1 hstatus
  · exact receiveLoop_closed channel h

end Sections

section Runs

variable {os : Os} {elementSize capacity : ℕ} {s s' : State} {e : Event}

structure Sound (capacity : ℕ) (s : State) : Prop where
  ok : ChannelOk s.channel
  capacity : s.channel.capacity = capacity
  values : s.delivered ++ stored s.channel = s.accepted

/-- Every event but a call itself is one section of a call that had not returned. -/
theorem step_cases (h : Step s e s') :
    (e.actor = none ∧ ∃ call, s' = { s with calls := s.calls ++ [.started call] }) ∨
    ∃ i call after, e.actor = some i ∧ s' = s.perform i call after ∧
      (s.calls[i]? = some (.started call) ∨ s.calls[i]? = some (.waiting call)) ∧
      (after = call.enter s.channel ∨
        ∃ status, (status = .ok ∨ status = .timedOut) ∧ after = call.resume s.channel status) := by
  cases h with
  | call call => exact Or.inl ⟨rfl, call, rfl⟩
  | enter h => exact Or.inr ⟨_, _, _, rfl, rfl, Or.inl h, Or.inl rfl⟩
  | wake h => exact Or.inr ⟨_, _, _, rfl, rfl, Or.inr h, Or.inr ⟨_, Or.inl rfl, rfl⟩⟩
  | timeout h => exact Or.inr ⟨_, _, _, rfl, rfl, Or.inr h, Or.inr ⟨_, Or.inr rfl, rfl⟩⟩

theorem step_conserves (hok : ChannelOk s.channel) (h : Step s e s') :
    (e.actor = none ∧ s'.channel = s.channel ∧ s'.accepted = s.accepted ∧
      s'.delivered = s.delivered) ∨
    ∃ i call after, e.actor = some i ∧ s' = s.perform i call after ∧ i < s.calls.length ∧
      Conserves call s.channel after := by
  rcases step_cases h with ⟨hactor, call, rfl⟩ | ⟨i, call, after, hactor, rfl, hcall, hafter⟩
  · exact Or.inl ⟨hactor, rfl, rfl, rfl⟩
  · refine Or.inr ⟨i, call, after, hactor, rfl, ?_, ?_⟩
    · rcases hcall with hcall | hcall
      · exact (List.getElem?_eq_some_iff.1 hcall).1
      · exact (List.getElem?_eq_some_iff.1 hcall).1
    · rcases hafter with rfl | ⟨status, -, rfl⟩
      · exact enter_conserves hok call
      · exact resume_conserves hok call status

theorem Sound.step (hsound : Sound capacity s) (h : Step s e s') : Sound capacity s' := by
  rcases step_conserves hsound.ok h with ⟨-, hchannel, haccepted, hdelivered⟩ |
    ⟨i, call, after, -, rfl, -, hconserves⟩
  · refine ⟨hchannel ▸ hsound.ok, hchannel ▸ hsound.capacity, ?_⟩
    rw [hchannel, haccepted, hdelivered]
    exact hsound.values
  · refine ⟨hconserves.ok, hconserves.capacity.trans hsound.capacity, ?_⟩
    change (s.delivered ++ call.received after.exit) ++ stored after.channel =
      s.accepted ++ call.sent after.exit
    rw [List.append_assoc, hconserves.values, ← List.append_assoc, hsound.values]

theorem initRaw_cases (h : initRaw os elementSize capacity = (.ok, some channel)) :
    elementSize ≠ 0 ∧ ∃ bytes, os.malloc (storageCount capacity * elementSize) = some bytes ∧
      channel = fresh elementSize capacity bytes := by
  unfold initRaw at h
  cases hmalloc : os.malloc (storageCount capacity * elementSize) with
  | none =>
      simp only [hmalloc] at h
      split_ifs at h
      all_goals simp at h
  | some bytes =>
      simp only [hmalloc] at h
      split_ifs at h with hsize
      · simp at h
      · simp at h
      · simp at h
      · simp at h
      · cases h
        exact ⟨hsize, bytes, rfl, rfl⟩

theorem initRaw_ok (hlegal : os.Legal)
    (h : initRaw os elementSize capacity = (.ok, some channel)) :
    ChannelOk channel ∧ channel.capacity = capacity ∧ stored channel = [] := by
  obtain ⟨hsize, bytes, hmalloc, rfl⟩ := initRaw_cases h
  have hle := hlegal _ (hmalloc ▸ Option.some_ne_none bytes)
  have hmul := Nat.le_mul_of_pos_right (storageCount capacity) (Nat.pos_of_ne_zero hsize)
  have hstorage : capacity ≤ storageCount capacity := by
    unfold storageCount
    split_ifs <;> omega
  refine ⟨⟨?_, Nat.le_trans hstorage (Nat.le_trans hmul hle), Nat.zero_le _, id⟩, rfl, ?_⟩
  · simp [fresh]
  · simp [stored, ring, RingBuffer.contents, fresh]

theorem sound_of_reachable (hlegal : os.Legal)
    (h : Reachable (system os elementSize capacity) s) : Sound capacity s := by
  refine h.invariant (P := Sound capacity) ?_ fun _ _ _ hsound hstep => hsound.step hstep
  intro s hstart
  obtain ⟨channel, hinit, rfl⟩ := hstart
  obtain ⟨hok, hcapacity, hstored⟩ := initRaw_ok hlegal hinit
  exact ⟨hok, hcapacity, hstored⟩

theorem returned_stays {i : ℕ} {call : Call} {status : Status} {value : Option Bytes}
    (hreturned : s.calls[i]? = some (.returned call status value)) (h : Step s e s') :
    s'.calls[i]? = some (.returned call status value) := by
  have hlt := (List.getElem?_eq_some_iff.1 hreturned).1
  rcases step_cases h with ⟨-, call', rfl⟩ | ⟨j, call', after, -, rfl, hcall, -⟩
  · change (s.calls ++ [.started call'])[i]? = _
    rw [List.getElem?_append_left hlt, hreturned]
  · have hne : j ≠ i := by
      intro heq
      subst heq
      rcases hcall with hcall | hcall
      all_goals simp [hreturned] at hcall
    change (s.calls.set j _)[i]? = _
    rw [List.getElem?_set_ne hne, hreturned]

/-- A section that changes the stored values ends with its call returning `ok`. -/
theorem returns_ok_of_stored_ne (hok : ChannelOk s.channel) (h : Step s e s')
    (hne : stored s'.channel ≠ stored s.channel) :
    ∃ i call value, e.actor = some i ∧ s'.calls[i]? = some (.returned call .ok value) := by
  rcases step_conserves hok h with ⟨-, hchannel, -, -⟩ |
    ⟨i, call, after, hactor, rfl, hlt, hconserves⟩
  · exact absurd (congrArg stored hchannel) hne
  · have hcalls : (s.perform i call after).calls[i]? = some (.after call after.exit) := by
      change (s.calls.set i _)[i]? = _
      rw [List.getElem?_set_self hlt]
    have hvalues := hconserves.values
    cases hexit : after.exit with
    | wait on =>
        have hreceived : call.received (.wait on) = [] := by cases call <;> rfl
        have hsent : call.sent (.wait on) = [] := by
          rcases call with ⟨_ | _, _⟩ | _ | _ <;> rfl
        rw [hexit, hreceived, hsent, List.nil_append, List.append_nil] at hvalues
        exact absurd hvalues hne
    | returns status value =>
        rw [hexit] at hcalls hvalues
        by_cases hstatus : status = .ok
        · subst hstatus
          exact ⟨i, call, value, hactor, hcalls⟩
        · rw [received_of_ne_ok hstatus, sent_of_ne_ok hstatus, List.nil_append, List.append_nil]
            at hvalues
          exact absurd hvalues hne

theorem closed_step (hok : ChannelOk s.channel) (hclosed : s.channel.closed) (h : Step s e s') :
    s'.channel.closed ∧ s'.accepted = s.accepted := by
  rcases step_conserves hok h with ⟨-, hchannel, haccepted, -⟩ |
    ⟨i, call, after, -, rfl, -, hconserves⟩
  · exact ⟨hchannel ▸ hclosed, haccepted⟩
  · refine ⟨hconserves.closed hclosed, ?_⟩
    change s.accepted ++ call.sent after.exit = s.accepted
    rw [hconserves.refused hclosed, List.append_nil]

/-- A receive that returns `closed` in this step found the channel closed and empty. -/
theorem closed_of_returned {i : ℕ} {size : Option ℕ} {deadline : ℤ} {value : Option Bytes}
    (h : Step s e s') (hactor : e.actor = some i)
    (hreturned : s'.calls[i]? = some (.returned (.receive size deadline) .closed value)) :
    s.channel.closed ∧ stored s.channel = [] := by
  rcases step_cases h with ⟨hnone, -⟩ | ⟨j, call, after, hj, rfl, hcall, hafter⟩
  · simp [hnone] at hactor
  · rw [hj] at hactor
    cases hactor
    have hlt : i < s.calls.length := by
      rcases hcall with hcall | hcall
      · exact (List.getElem?_eq_some_iff.1 hcall).1
      · exact (List.getElem?_eq_some_iff.1 hcall).1
    change (s.calls.set i _)[i]? = _ at hreturned
    rw [List.getElem?_set_self hlt, Option.some_inj] at hreturned
    cases hexit : after.exit with
    | wait on => simp [hexit, Phase.after] at hreturned
    | returns status' value' =>
        rw [hexit] at hreturned
        cases hreturned
        rcases hafter with rfl | ⟨status, hstatus, rfl⟩
        · exact enter_closed hexit
        · refine resume_closed hexit ?_
          rcases hstatus with rfl | rfl <;> simp

/-- Values are delivered in the order in which they were accepted and none is lost or duplicated;
the buffer never holds more than its capacity; a call that times out or finds the channel closed has
changed no stored value; nothing is accepted after a close; and a receive returns `closed` only from
a closed and empty channel. -/
theorem channel_order (os : Os) (elementSize capacity : ℕ) (hlegal : os.Legal) (s : State)
    (h : Reachable (system os elementSize capacity) s) :
    s.delivered ++ stored s.channel = s.accepted ∧
    s.channel.count ≤ capacity ∧
    (∀ e s₁ es s₂ i call status value, Step s e s₁ → e.actor = some i →
      Steps (system os elementSize capacity) s₁ es s₂ →
      s₂.calls[i]? = some (.returned call status value) → status = .timedOut ∨ status = .closed →
      stored s₁.channel = stored s.channel) ∧
    (∀ es s', s.channel.closed → Steps (system os elementSize capacity) s es s' →
      s'.accepted = s.accepted) ∧
    ∀ e s' i size deadline value, Step s e s' → e.actor = some i →
      s'.calls[i]? = some (.returned (.receive size deadline) .closed value) →
      s.channel.closed ∧ stored s.channel = [] := by
  have hsound := sound_of_reachable hlegal h
  refine ⟨hsound.values, hsound.capacity ▸ hsound.ok.count_le, ?_, ?_, ?_⟩
  · intro e s₁ es s₂ i call status value hstep hactor hsteps hreturned hstatus
    by_contra hne
    obtain ⟨j, call', value', hj, hok⟩ := returns_ok_of_stored_ne hsound.ok hstep hne
    rw [hj] at hactor
    cases hactor
    have hstays := hsteps.invariant
      (P := fun s => s.calls[i]? = some (.returned call' .ok value'))
      (fun _ _ _ hreturned hstep => returned_stays hreturned hstep) hok
    rw [hstays] at hreturned
    cases hreturned
    simp at hstatus
  · intro es s' hclosed hsteps
    have hall := hsteps.invariant
      (P := fun s' => Sound capacity s' ∧ s'.channel.closed ∧ s'.accepted = s.accepted) ?_
      ⟨hsound, hclosed, rfl⟩
    · exact hall.2.2
    · intro s₁ e s₂ hkept hstep
      obtain ⟨hsound₁, hclosed₁, haccepted⟩ := hkept
      obtain ⟨hclosed₂, heq⟩ := closed_step hsound₁.ok hclosed₁ hstep
      exact ⟨hsound₁.step hstep, hclosed₂, heq.trans haccepted⟩
  · intro e s' i size deadline value hstep hactor hreturned
    exact closed_of_returned hstep hactor hreturned

end Runs

/-- A system that grants every allocation that an address space can hold. -/
def grantingOs : Os where
  calloc := true
  malloc size := if size ≤ ptrdiffMax then some (List.replicate size 0) else none
  mutexInit := .ok
  canSendInit := .ok
  canReceiveInit := .ok

theorem grantingOs_legal : grantingOs.Legal := by
  intro size hmalloc
  by_contra hle
  exact hmalloc (if_neg hle)

/-- Two sends into a buffer of two and one receive. -/
theorem channel_order_buffered :
    ∃ s, Reachable (system grantingOs 1 2) s ∧ s.accepted = [[7], [9]] ∧ s.delivered = [[7]] ∧
      s.delivered ++ stored s.channel = s.accepted := by
  let channel : LorChannel := ⟨1, 2, [[0], [0]], 0, 0, false, 0, false⟩
  have h₀ : Run (system grantingOs 1 2) [] ⟨channel, [], [], []⟩ := .start ⟨channel, rfl, rfl⟩
  have h₁ := h₀.step (.call (.send (some [7]) 0))
  have h₂ := h₁.step (.enter (i := 0) rfl)
  have h₃ := h₂.step (.call (.send (some [9]) deadlineInfinite))
  have h₄ := h₃.step (.enter (i := 1) rfl)
  have h₅ := h₄.step (.call (.receive (some 1) 0))
  have h₆ := h₅.step (.enter (i := 2) rfl)
  exact ⟨_, ⟨_, h₆⟩, by decide, by decide,
    (channel_order grantingOs 1 2 grantingOs_legal _ ⟨_, h₆⟩).1⟩

end Liblor.Channel
