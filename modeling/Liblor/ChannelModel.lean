import Liblor.Machine

/-!
# The channel of `concurrency.c`

A call runs in critical sections under the mutex of the channel. A section starts where the call
gets the mutex, at its beginning or when a wait returns, and ends where the call waits on a
condition or returns. What one section does is a function of the channel; the order of the sections
of different calls is left open.
-/

namespace Liblor.Channel

def deadlineInfinite : ℤ := 2 ^ 63 - 1

def ptrdiffMax : ℕ := 2 ^ 63 - 1

/-- `LorConcurrencyChannelImpl` without its mutex and conditions. The buffer is given slot by
slot. -/
structure LorChannel where
  elementSize : ℕ
  capacity : ℕ
  buffer : List Bytes
  first : ℕ
  count : ℕ
  closed : Bool
  waitingReceivers : ℕ
  slotFull : Bool
  deriving DecidableEq, Repr

/-- What the system answers while a channel is initialized: whether `calloc` succeeds, the bytes
that `malloc` returns and the results for the mutex and the two conditions. -/
structure Os where
  calloc : Bool
  malloc : ℕ → Option Bytes
  mutexInit : Status
  canSendInit : Status
  canReceiveInit : Status

def storageCount (capacity : ℕ) : ℕ := if capacity = 0 then 1 else capacity

def initStatus (os : Os) : Status :=
  let status := os.mutexInit
  let status := if status = .ok then os.canSendInit else status
  if status = .ok then os.canReceiveInit else status

def fresh (elementSize capacity : ℕ) (bytes : Bytes) : LorChannel where
  elementSize := elementSize
  capacity := capacity
  buffer := (List.range (storageCount capacity)).map fun i =>
    (bytes.drop (i * elementSize)).take elementSize
  first := 0
  count := 0
  closed := false
  waitingReceivers := 0
  slotFull := false

def initRaw (os : Os) (elementSize capacity : ℕ) : Status × Option LorChannel :=
  if elementSize = 0 then (.invalidArgument, none)
  else if capacity > 0 ∧ elementSize > sizeMax / capacity then (.overflow, none)
  else if os.calloc = false then (.outOfMemory, none)
  else
    match os.malloc (storageCount capacity * elementSize) with
    | none => (.outOfMemory, none)
    | some bytes =>
      if initStatus os ≠ .ok then (initStatus os, none)
      else
        (.ok, some (fresh elementSize capacity bytes))

inductive Cond where
  | canSend
  | canReceive
  deriving DecidableEq, Repr

inductive Notice where
  | signal (on : Cond)
  | broadcast (on : Cond)
  deriving DecidableEq, Repr

/-- How a section ends. A receive that returns `ok` has copied a value out. -/
inductive Exit where
  | wait (on : Cond)
  | returns (status : Status) (value : Option Bytes)
  deriving DecidableEq, Repr

structure Section where
  channel : LorChannel
  notices : List Notice
  exit : Exit

def close (channel : LorChannel) : Section :=
  ⟨{ channel with closed := true }, [.broadcast .canSend, .broadcast .canReceive],
    .returns .ok none⟩

/-- `lor_channel_send_until_raw` from the test of its loop on. -/
def sendLoop (channel : LorChannel) (value : Bytes) : Section :=
  if channel.capacity = 0 then
    if channel.closed = false ∧ (channel.waitingReceivers = 0 ∨ channel.slotFull) then
      ⟨channel, [], .wait .canSend⟩
    else if channel.closed then ⟨channel, [], .returns .closed none⟩
    else
      ⟨{ channel with buffer := channel.buffer.set 0 value, slotFull := true },
        [.signal .canReceive], .returns .ok none⟩
  else if channel.closed = false ∧ channel.count = channel.capacity then
    ⟨channel, [], .wait .canSend⟩
  else if channel.closed then ⟨channel, [], .returns .closed none⟩
  else
    let position := (channel.first + channel.count) % 2 ^ 64 % channel.capacity
    ⟨{ channel with buffer := channel.buffer.set position value, count := channel.count + 1 },
      [.signal .canReceive], .returns .ok none⟩

/-- The section in which a wait of a send returns with this status. -/
def sendResumed (channel : LorChannel) (value : Bytes) (status : Status) : Section :=
  if status ≠ .ok then ⟨channel, [], .returns status none⟩ else sendLoop channel value

/-- The first section of `lor_channel_send_until_raw`; `none` is a `NULL` value. -/
def sendUntilRaw (channel : LorChannel) (value : Option Bytes) : Section :=
  match value with
  | none => ⟨channel, [], .returns .invalidArgument none⟩
  | some value =>
    if value.length ≠ channel.elementSize then ⟨channel, [], .returns .invalidArgument none⟩
    else sendLoop channel value

/-- `lor_channel_receive_until_raw` from the test of its loop on. -/
def receiveLoop (channel : LorChannel) : Section :=
  if channel.capacity = 0 then
    if channel.slotFull = false ∧ channel.closed = false then ⟨channel, [], .wait .canReceive⟩
    else
      let channel := { channel with waitingReceivers := channel.waitingReceivers - 1 }
      if channel.slotFull = false then ⟨channel, [], .returns .closed none⟩
      else
        ⟨{ channel with slotFull := false }, [.signal .canSend],
          .returns .ok (some (channel.buffer.getD 0 []))⟩
  else if channel.count = 0 ∧ channel.closed = false then ⟨channel, [], .wait .canReceive⟩
  else if channel.count = 0 then ⟨channel, [], .returns .closed none⟩
  else
    ⟨{ channel with
        first := (channel.first + 1) % channel.capacity, count := channel.count - 1 },
      [.signal .canSend], .returns .ok (some (channel.buffer.getD channel.first []))⟩

/-- The section in which a wait of a receive returns with this status. -/
def receiveResumed (channel : LorChannel) (status : Status) : Section :=
  if status ≠ .ok then
    if channel.capacity = 0 then
      ⟨{ channel with waitingReceivers := channel.waitingReceivers - 1 }, [],
        .returns status none⟩
    else ⟨channel, [], .returns status none⟩
  else receiveLoop channel

/-- The first section of `lor_channel_receive_until_raw`; `none` is a `NULL` destination. -/
def receiveUntilRaw (channel : LorChannel) (size : Option ℕ) : Section :=
  match size with
  | none => ⟨channel, [], .returns .invalidArgument none⟩
  | some size =>
    if size ≠ channel.elementSize then ⟨channel, [], .returns .invalidArgument none⟩
    else if channel.capacity = 0 then
      let next := receiveLoop { channel with waitingReceivers := channel.waitingReceivers + 1 }
      { next with notices := .signal .canSend :: next.notices }
    else receiveLoop channel

/-- A call with its arguments; `lor_channel_send_raw` and `lor_channel_receive_raw` pass an infinite
deadline. -/
inductive Call where
  | send (value : Option Bytes) (deadline : ℤ)
  | receive (size : Option ℕ) (deadline : ℤ)
  | close
  deriving DecidableEq, Repr

namespace Call

def enter (channel : LorChannel) : Call → Section
  | .send value _ => sendUntilRaw channel value
  | .receive size _ => receiveUntilRaw channel size
  | .close => Channel.close channel

/-- The section in which a wait of the call returns with this status. A send of `NULL` and a close
never wait. -/
def resume (channel : LorChannel) (status : Status) : Call → Section
  | .send (some value) _ => sendResumed channel value status
  | .send none _ => sendUntilRaw channel none
  | .receive _ _ => receiveResumed channel status
  | .close => Channel.close channel

def deadline : Call → ℤ
  | .send _ deadline => deadline
  | .receive _ deadline => deadline
  | .close => deadlineInfinite

def sent : Call → Exit → List Bytes
  | .send (some value) _, .returns .ok _ => [value]
  | _, _ => []

def received : Call → Exit → List Bytes
  | .receive _ _, .returns .ok (some value) => [value]
  | _, _ => []

end Call

end Liblor.Channel
