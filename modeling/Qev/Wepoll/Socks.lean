/-
# The sockets of a wepoll port

A `port_state` has a `sock_state` for each socket in its epoll set. `sock_update` asks the AFD driver to poll the
socket, and as long as the driver has not completed the poll, it writes to the `sock_state`; what it
completed, `sock_feed_event` turns into an epoll event. `EPOLL_CTL_DEL` can come in between, or another mask of
events.

Addresses of `sock_state`s are numbers, and `malloc` gives any that is free. The order of the nodes in
`sock_tree` is left out, and so are the poll groups. What the kernel answers is an argument. A step is what a
thread does under the lock of the port, except that `port__feed_events` is a step for each completion. `fault`
says that memory was used that is not a `sock_state`, `failed` that an assertion failed.
-/
import Qev.Lib.Run

namespace Qev
namespace Wepoll
namespace Socks

/-! ### Events -/

def epollIn : BitVec 32 := 0x1
def epollPri : BitVec 32 := 0x2
def epollOut : BitVec 32 := 0x4
def epollErr : BitVec 32 := 0x8
def epollHup : BitVec 32 := 0x10
def epollRdnorm : BitVec 32 := 0x40
def epollRdband : BitVec 32 := 0x80
def epollWrnorm : BitVec 32 := 0x100
def epollWrband : BitVec 32 := 0x200
def epollMsg : BitVec 32 := 0x400
def epollRdhup : BitVec 32 := 0x2000
def epollOneshot : BitVec 32 := 0x80000000

/-- `SOCK__KNOWN_events`. -/
def sockKnownEvents : BitVec 32 :=
  epollIn ||| epollPri ||| epollOut ||| epollErr ||| epollHup ||| epollRdnorm ||| epollRdband ||| epollWrnorm |||
    epollWrband ||| epollMsg ||| epollRdhup

def afdPollReceive : BitVec 32 := 0x1
def afdPollReceiveExpedited : BitVec 32 := 0x2
def afdPollSend : BitVec 32 := 0x4
def afdPollDisconnect : BitVec 32 := 0x8
def afdPollAbort : BitVec 32 := 0x10
def afdPollLocalClose : BitVec 32 := 0x20
def afdPollAccept : BitVec 32 := 0x80
def afdPollConnectFail : BitVec 32 := 0x100

/-- `sock__events_to_afd_events`. -/
def sockEventsToAfdEvents (events : BitVec 32) : BitVec 32 :=
  afdPollLocalClose |||
    (if events &&& (epollIn ||| epollRdnorm) ≠ 0 then afdPollReceive ||| afdPollAccept else 0) |||
    (if events &&& (epollPri ||| epollRdband) ≠ 0 then afdPollReceiveExpedited else 0) |||
    (if events &&& (epollOut ||| epollWrnorm ||| epollWrband) ≠ 0 then afdPollSend else 0) |||
    (if events &&& (epollIn ||| epollRdnorm ||| epollRdhup) ≠ 0 then afdPollDisconnect else 0) |||
    (if events &&& epollHup ≠ 0 then afdPollAbort else 0) |||
    (if events &&& epollErr ≠ 0 then afdPollConnectFail else 0)

/-- `sock__afd_events_to_events`. -/
def sockAfdEventsToEvents (afdEvents : BitVec 32) : BitVec 32 :=
  (if afdEvents &&& (afdPollReceive ||| afdPollAccept) ≠ 0 then epollIn ||| epollRdnorm else 0) |||
    (if afdEvents &&& afdPollReceiveExpedited ≠ 0 then epollPri ||| epollRdband else 0) |||
    (if afdEvents &&& afdPollSend ≠ 0 then epollOut ||| epollWrnorm ||| epollWrband else 0) |||
    (if afdEvents &&& afdPollDisconnect ≠ 0 then epollIn ||| epollRdnorm ||| epollRdhup else 0) |||
    (if afdEvents &&& afdPollAbort ≠ 0 then epollHup else 0) |||
    (if afdEvents &&& afdPollConnectFail ≠ 0 then
      epollIn ||| epollOut ||| epollErr ||| epollRdnorm ||| epollWrnorm ||| epollRdhup else 0)

/-! ### The state -/

/-- `sock__poll_status_t`. -/
inductive PollStatus
  | idle
  | pending
  | cancelled
  deriving DecidableEq

/-- A `sock_state`. `socket` is the key of its node, `pollEvents` what `poll_info` asks for. -/
structure Sock where
  socket : ℕ
  userData : ℕ
  userEvents : BitVec 32
  pendingEvents : BitVec 32
  pollEvents : BitVec 32
  pollStatus : PollStatus
  deletePending : Bool

/-- How a poll ends: `STATUS_CANCELLED`, another failure, no socket reported, or what is reported of the socket. -/
inductive Completion
  | cancelled
  | failed
  | nothing
  | events (afdEvents : BitVec 32)

/-- What `afd_poll` answers. -/
inductive Submitted
  | ok
  | invalidHandle
  | error
  deriving DecidableEq

/-- What the kernel answers about a socket: `afd_poll`, and whether `afd_cancel_poll` succeeds. -/
structure Answer where
  poll : Submitted
  cancelled : Bool

/-- `polls` are the `sock_state`s the driver polls for, `completions` the polls it completed and that are still to
be fed. `afdPolls` is history: the calls of `afd_poll` with what it answered, newest first. -/
structure State where
  heap : ℕ → Option Sock
  sockTree : List ℕ
  sockUpdateQueue : List ℕ
  sockDeletedQueue : List ℕ
  activePollCount : ℕ
  polls : List ℕ
  completions : List (ℕ × Completion)
  afdPolls : List (ℕ × Submitted)
  fault : Bool
  failed : Bool

namespace State

variable (s : State)

def init : State := ⟨fun _ => none, [], [], [], 0, [], [], [], false, false⟩

def crash : State := { s with fault := true }

def check (b : Bool) : State := { s with failed := s.failed || !b }

def put (a : ℕ) (k : Sock) : State := { s with heap := Function.update s.heap a (some k) }

/-! ### The queues -/

/-- `queue_is_enqueued`: the node is in one of the queues. -/
def isEnqueued (a : ℕ) : Bool := s.sockUpdateQueue.contains a || s.sockDeletedQueue.contains a

/-- `queue_remove`. -/
def queueRemove (a : ℕ) : State :=
  { s with sockUpdateQueue := s.sockUpdateQueue.erase a, sockDeletedQueue := s.sockDeletedQueue.erase a }

def portRequestSocketUpdate (a : ℕ) : State :=
  if s.isEnqueued a then s else { s with sockUpdateQueue := s.sockUpdateQueue ++ [a] }

/-- What `port_cancel_socket_update` and `port_remove_deleted_socket` do. -/
def dequeue (a : ℕ) : State := if !s.isEnqueued a then s else s.queueRemove a

def portCancelSocketUpdate (a : ℕ) : State := s.dequeue a

def portAddDeletedSocket (a : ℕ) : State :=
  if s.isEnqueued a then s else { s with sockDeletedQueue := s.sockDeletedQueue ++ [a] }

def portRemoveDeletedSocket (a : ℕ) : State := s.dequeue a

def portUnregisterSocket (a : ℕ) : State := { s with sockTree := s.sockTree.erase a }

/-- `port_find_socket`. -/
def portFindSocket (socket : ℕ) : Option ℕ := s.sockTree.find? fun a => (s.heap a).any fun k => k.socket = socket

/-! ### The sockets -/

/-- `sock__cancel_poll`, and whether it succeeds. The driver completes a cancelled poll some time later. -/
def sockCancelPoll (a : ℕ) (cancelled : Bool) : State × Bool :=
  match s.heap a with
  | none => (s.crash, false)
  | some k =>
    let s := s.check (k.pollStatus = .pending)
    if cancelled then (s.put a { k with pollStatus := .cancelled, pendingEvents := 0 }, true) else (s, false)

/-- The first half of `sock__delete`. -/
def sockUnregister (a : ℕ) (k : Sock) (cancelled : Bool) : State :=
  let s := if k.pollStatus = .pending then (s.sockCancelPoll a cancelled).1 else s
  let s := (s.portCancelSocketUpdate a).portUnregisterSocket a
  match s.heap a with
  | none => s.crash
  | some k => s.put a { k with deletePending := true }

/-- The second half of `sock__delete`. -/
def sockRelease (a : ℕ) (force : Bool) : State :=
  match s.heap a with
  | none => s.crash
  | some k =>
    if force ∨ k.pollStatus = .idle then
      let s := s.portRemoveDeletedSocket a
      { s with heap := Function.update s.heap a none }
    else s.portAddDeletedSocket a

/-- `sock__delete`. -/
def sockDelete (a : ℕ) (force cancelled : Bool) : State :=
  match s.heap a with
  | none => s.crash
  | some k => if !k.deletePending then (s.sockUnregister a k cancelled).sockRelease a force else s.sockRelease a force

/-- The events that are of interest and not polled for. -/
def unpolled (k : Sock) : BitVec 32 := k.userEvents &&& sockKnownEvents &&& ~~~k.pendingEvents

def sockSetEvent (a : ℕ) (events : BitVec 32) (data : ℕ) : State :=
  match s.heap a with
  | none => s.crash
  | some k =>
    let k := { k with userEvents := events ||| epollErr ||| epollHup, userData := data }
    if unpolled k ≠ 0 then (s.put a k).portRequestSocketUpdate a else s.put a k

/-- `sock_update`, and whether it succeeds. -/
def sockUpdate (a : ℕ) (answer : Answer) : State × Bool :=
  match s.heap a with
  | none => (s.crash, false)
  | some k =>
    let s := s.check !k.deletePending
    match k.pollStatus with
    | .pending =>
      if unpolled k = 0 then (s.portCancelSocketUpdate a, true)
      else
        let r := s.sockCancelPoll a answer.cancelled
        if r.2 then (r.1.portCancelSocketUpdate a, true) else (r.1, false)
    | .cancelled => (s.portCancelSocketUpdate a, true)
    | .idle =>
      let k := { k with pollEvents := sockEventsToAfdEvents k.userEvents }
      let s := { s with afdPolls := (a, answer.poll) :: s.afdPolls }
      match answer.poll with
      | .ok =>
        let s := s.put a { k with pollStatus := .pending, pendingEvents := k.userEvents }
        ({ s with polls := a :: s.polls }.portCancelSocketUpdate a, true)
      | .invalidHandle => ((s.put a k).sockDelete a false answer.cancelled, true)
      | .error => (s.put a k, false)

/-- The end of `sock_feed_event`, with the events that it reports, and the data. -/
def sockReport (a : ℕ) (events : BitVec 32) : State × Option (BitVec 32 × ℕ) :=
  let s := s.portRequestSocketUpdate a
  match s.heap a with
  | none => (s.crash, none)
  | some k =>
    let events := events &&& k.userEvents
    if events = 0 then (s, none)
    else
      (if k.userEvents &&& epollOneshot ≠ 0 then s.put a { k with userEvents := 0 } else s, some (events, k.userData))

/-- `sock_feed_event`. -/
def sockFeedEvent (a : ℕ) (c : Completion) : State × Option (BitVec 32 × ℕ) :=
  match s.heap a with
  | none => (s.crash, none)
  | some k =>
    let s := s.put a { k with pollStatus := .idle, pendingEvents := 0 }
    if k.deletePending then (s.sockDelete a false true, none)
    else
      match c with
      | .cancelled => s.sockReport a 0
      | .failed => s.sockReport a epollErr
      | .nothing => s.sockReport a 0
      | .events e =>
        if e &&& afdPollLocalClose ≠ 0 then (s.sockDelete a false true, none)
        else s.sockReport a (sockAfdEventsToEvents e)

/-! ### The port -/

/-- `port__update_events`, and whether it succeeds; none if there are more than `n` sockets in the queue. -/
def portUpdateEvents (answers : ℕ → Answer) : ℕ → State → Option (State × Bool)
  | n, s =>
    match s.sockUpdateQueue, n with
    | [], _ => some (s, true)
    | _ :: _, 0 => none
    | a :: _, n + 1 =>
      let r := s.sockUpdate a (answers a)
      if r.2 then portUpdateEvents answers n r.1 else some (r.1, false)

/-- `port__update_events_if_polling`. -/
def portUpdateEventsIfPolling (answers : ℕ → Answer) : Option State :=
  if 0 < s.activePollCount then
    (portUpdateEvents answers s.sockUpdateQueue.length s).map Prod.fst
  else some s

/-- `port__ctl_add`, with the memory that `sock_new` gets; none if it fails, as it does for a handle that is no
socket's. -/
def portCtlAdd (memory : Option ℕ) (socket : ℕ) (events : BitVec 32) (data : ℕ) (answers : ℕ → Answer) :
    Option State :=
  match memory with
  | none => some s
  | some a =>
    if s.heap a ≠ none then none
    else
      match s.portFindSocket socket with
      | some _ => some s
      | none =>
        let s := { s.put a ⟨socket, 0, 0, 0, 0, .idle, false⟩ with sockTree := a :: s.sockTree }
        (s.sockSetEvent a events data).portUpdateEventsIfPolling answers

/-- `port__ctl_mod`. -/
def portCtlMod (socket : ℕ) (events : BitVec 32) (data : ℕ) (answers : ℕ → Answer) : Option State :=
  match s.portFindSocket socket with
  | none => some s
  | some a => (s.sockSetEvent a events data).portUpdateEventsIfPolling answers

/-- `port__ctl_del`. -/
def portCtlDel (socket : ℕ) (cancelled : Bool) : State :=
  match s.portFindSocket socket with
  | none => s
  | some a => s.sockDelete a false cancelled

/-- `port__poll`, up to the wait. -/
def portPoll (answers : ℕ → Answer) : Option State :=
  (portUpdateEvents answers s.sockUpdateQueue.length s).map fun r =>
    if r.2 then { r.1 with activePollCount := r.1.activePollCount + 1 } else r.1

/-- The driver completes a poll. -/
def complete (a : ℕ) (c : Completion) : Option State :=
  if a ∈ s.polls then some { s with polls := s.polls.erase a, completions := s.completions ++ [(a, c)] } else none

/-- `port__feed_events` for one completion. -/
def feed (i : ℕ) : Option State :=
  match s.completions[i]? with
  | none => none
  | some (a, c) => some ({ s with completions := s.completions.eraseIdx i }.sockFeedEvent a c).1

/-- `port_delete` frees the sockets in a queue, or in the tree. -/
def forceDelete (l : State → List ℕ) (cancelled : ℕ → Bool) : ℕ → State → State
  | 0, s => s
  | n + 1, s =>
    match l s with
    | [] => s
    | a :: _ => forceDelete l cancelled n (s.sockDelete a true (cancelled a))

/-- `port_delete`. -/
def portDelete (cancelled : ℕ → Bool) : State :=
  let s := forceDelete sockTree cancelled s.sockTree.length s
  let s := forceDelete sockDeletedQueue cancelled s.sockDeletedQueue.length s
  s.check s.sockUpdateQueue.isEmpty

end State

/-- What happens at a port. -/
inductive Act
  | ctlAdd (memory : Option ℕ) (socket : ℕ) (events : BitVec 32) (data : ℕ) (answers : ℕ → Answer)
  | ctlMod (socket : ℕ) (events : BitVec 32) (data : ℕ) (answers : ℕ → Answer)
  | ctlDel (socket : ℕ) (cancelled : Bool)
  /-- A thread begins to wait. -/
  | poll (answers : ℕ → Answer)
  | complete (a : ℕ) (c : Completion)
  /-- A thread has waited. -/
  | leave
  | feed (i : ℕ)
  /-- The end of `port_wait`. -/
  | update (answers : ℕ → Answer)

namespace State

/-- None if this cannot happen. -/
def step (s : State) : Act → Option State
  | .ctlAdd memory socket events data answers => s.portCtlAdd memory socket events data answers
  | .ctlMod socket events data answers => s.portCtlMod socket events data answers
  | .ctlDel socket cancelled => some (s.portCtlDel socket cancelled)
  | .poll answers => s.portPoll answers
  | .complete a c => s.complete a c
  | .leave => if 0 < s.activePollCount then some { s with activePollCount := s.activePollCount - 1 } else none
  | .feed i => s.feed i
  | .update answers => s.portUpdateEventsIfPolling answers

end State

/-- A run of a port. -/
def Runs : State → List Act → State → Prop := Lib.Run fun s a t => s.step a = some t

end Socks
end Wepoll
end Qev
