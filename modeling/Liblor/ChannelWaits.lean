import Liblor.ChannelOrder
import Liblor.ConditionVariable

/-!
# The waits of a channel

The calls of a channel with the wait sets of its two conditions. A wait that a notice has ended is
in no wait set any more; the call runs on when it gets the mutex. A parked wait may also return
without a notice, and either may report that its deadline has passed: a wait that a notice has ended
reports it when the deadline passes before the call runs. Forgetting the wait sets gives the calls
back.
-/

namespace Liblor.Channel

open ConditionVariable Transition

def Notice.wakeup : Notice → ConditionVariable.Notice Cond
  | .signal on => .signal on
  | .broadcast on => .broadcast on

namespace Call

def condition : Call → Cond
  | .send _ _ => .canSend
  | .receive _ _ => .canReceive
  | .close => .canSend

/-- A call in a loop of waits would not wait again. -/
def CanProceed (channel : LorChannel) : Call → Prop
  | .send _ _ =>
    if channel.capacity = 0 then
      channel.closed ∨ (0 < channel.waitingReceivers ∧ channel.slotFull = false)
    else channel.count < channel.capacity ∨ channel.closed
  | .receive _ _ =>
    if channel.capacity = 0 then channel.slotFull ∨ channel.closed
    else 0 < channel.count ∨ channel.closed
  | .close => False

end Call

structure Waits where
  state : State
  parked : Cond → Finset ℕ

/-- The sections that can run next. -/
inductive Acts (s : State) : Event → ℕ → Call → Section → Prop where
  | enter {i : ℕ} {call : Call} (h : s.calls[i]? = some (.started call)) :
      Acts s (.enter i) i call (call.enter s.channel)
  | wake {i : ℕ} {call : Call} (h : s.calls[i]? = some (.waiting call)) :
      Acts s (.wake i) i call (call.resume s.channel .ok)
  | timeout {i : ℕ} {call : Call} (h : s.calls[i]? = some (.waiting call))
      (hdeadline : call.deadline ≠ deadlineInfinite) :
      Acts s (.timeout i) i call (call.resume s.channel .timedOut)

/-- A call parks where its section ends with a wait. -/
def parkedAfter (parked : Cond → Finset ℕ) (i : ℕ) : Exit → Cond → Finset ℕ
  | .wait on => park parked on i
  | .returns _ _ => parked

namespace Waits

inductive Step : Waits → Event → Waits → Prop where
  | call {w : Waits} (call : Call) : Step w (.call call)
      ⟨{ w.state with calls := w.state.calls ++ [.started call] }, w.parked⟩
  | act {w : Waits} {e : Event} {i : ℕ} {call : Call} {after : Section} {parked : Cond → Finset ℕ}
      (h : Acts w.state e i call after)
      (hnotices : Delivers (leave w.parked i) (after.notices.map Notice.wakeup) parked) :
      Step w e ⟨w.state.perform i call after, parkedAfter parked i after.exit⟩

def start (os : Os) (elementSize capacity : ℕ) (w : Waits) : Prop :=
  ∃ channel, initRaw os elementSize capacity = (.ok, some channel) ∧
    w = ⟨⟨channel, [], [], []⟩, fun _ => ∅⟩

/-- Every call has returned, or is parked without a deadline. -/
def Quiet (w : Waits) : Prop :=
  ∀ (i : ℕ) phase, w.state.calls[i]? = some phase →
    (∃ call status value, phase = .returned call status value) ∨
      ∃ call on, phase = .waiting call ∧ call.deadline = deadlineInfinite ∧ i ∈ w.parked on

/-- A call waits although it could proceed. -/
def Stranded (w : Waits) : Prop :=
  ∃ (i : ℕ) (call : Call), w.state.calls[i]? = some (.waiting call) ∧
    call.CanProceed w.state.channel

end Waits

/-- How many calls a condition has something for: the values to receive, the room to send. -/
def available (channel : LorChannel) : Cond → ℕ
  | .canSend =>
    if channel.capacity = 0 then
      if 0 < channel.waitingReceivers ∧ channel.slotFull = false then 1 else 0
    else channel.capacity - channel.count
  | .canReceive =>
    if channel.capacity = 0 then if channel.slotFull then 1 else 0 else channel.count

def Phase.waitsOn (on : Cond) : Phase → Bool
  | .waiting call => call.condition = on
  | _ => false

def State.waiters (s : State) (on : Cond) : Finset ℕ :=
  (Finset.range s.calls.length).filter fun i => s.calls[i]?.elim false (Phase.waitsOn on)

namespace Waits

/-- The calls whose wait on a condition a notice has ended, and that have not run since. -/
def woken (w : Waits) (on : Cond) : Finset ℕ := w.state.waiters on \ w.parked on

/-- A call that a notice has woken gives up although a call without a deadline stays parked on the
condition, and the woken ones without it are fewer than what there is for them. -/
def Drops (w : Waits) (e : Event) : Prop :=
  ∃ (i : ℕ) (call : Call), e = .timeout i ∧ i ∈ w.woken call.condition ∧
    w.state.calls[i]? = some (.waiting call) ∧
    (∃ (j : ℕ) (other : Call), j ∈ w.parked call.condition ∧
      w.state.calls[j]? = some (.waiting other) ∧ other.deadline = deadlineInfinite) ∧
    (w.woken call.condition).card ≤ available w.state.channel call.condition

/-- Any order of the sections, any waits ended by the notices. -/
def waits (os : Os) (elementSize capacity : ℕ) : System Waits Event where
  start := start os elementSize capacity
  step := Step

/-- The runs in which no wake-up is dropped. -/
def careful (os : Os) (elementSize capacity : ℕ) : System Waits Event where
  start := start os elementSize capacity
  step w e w' := Step w e w' ∧ ¬ Drops w e

end Waits

variable {w w' : Waits} {s : State} {e : Event} {i : ℕ} {call : Call} {after : Section} {on : Cond}
  {os : Os} {elementSize capacity : ℕ}

theorem Acts.step (h : Acts s e i call after) : Step s e (s.perform i call after) := by
  cases h with
  | enter h => exact .enter h
  | wake h => exact .wake h
  | timeout h hdeadline => exact .timeout h hdeadline

theorem Waits.Step.forget (h : Waits.Step w e w') : Channel.Step w.state e w'.state := by
  cases h with
  | call call => exact .call call
  | act h hnotices => exact h.step

/-- Without the wait sets a run is a run of the calls. -/
theorem Waits.forget (h : Reachable (waits os elementSize capacity) w) :
    Reachable (system os elementSize capacity) w.state := by
  apply h.invariant (P := fun w => Reachable (system os elementSize capacity) w.state)
  · rintro w ⟨channel, hinit, rfl⟩
    exact ⟨[], .start ⟨channel, hinit, rfl⟩⟩
  · rintro w e w' ⟨es, hrun⟩ hstep
    exact ⟨es ++ [e], hrun.step hstep.forget⟩

theorem Waits.waits_of_careful (h : Reachable (careful os elementSize capacity) w) :
    Reachable (waits os elementSize capacity) w := by
  apply h.invariant (P := Reachable (waits os elementSize capacity))
  · intro w hstart
    exact ⟨[], .start hstart⟩
  · rintro w e w' ⟨es, hrun⟩ hstep
    exact ⟨es ++ [e], hrun.step hstep.1⟩

end Liblor.Channel
