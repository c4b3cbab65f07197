import Ycnt.Net.EpollPoller.Mapped
import Ycnt.Base.Logger
/-!
# Acceptors on one event loop

`Acceptor.cpp` with `Socket.cpp` under it, called from the loop thread, after
`Logger::init` has set `logLevel`. An `Acceptor` is named by its `acceptChannel_`,
and `γ` stands for the callbacks. A failed `assert` is `none`.

The system calls that must not fail are followed by a FATAL statement, which stops
the thread only if the logger emits it: at any other level the call's caller goes
on, `::socket` having returned -1. The records here are those of these statements.
-/

namespace Ycnt.Net

open Function Linux

/-! ## Addresses and sockets -/

/-- What the union of `InetAddress` holds, `sockaddr_in` or `sockaddr_in6`, in host byte order. -/
inductive InetAddress where
  | inet (port : BitVec 16) (addr : BitVec 32)
  | inet6 (port : BitVec 16) (flowinfo : BitVec 32) (addr : BitVec 128) (scope : BitVec 32)
  deriving DecidableEq, Repr

def INADDR_ANY : BitVec 32 := 0x00000000

def INADDR_LOOPBACK : BitVec 32 := 0x7f000001

def in6addr_any : BitVec 128 := 0

def in6addr_loopback : BitVec 128 := 1

/-- The constructor from a port; for IPv4 the two addresses stand the other way round. -/
def InetAddress.create (port : BitVec 16) (loopback ipv6 : Bool) : InetAddress :=
  if ipv6 then .inet6 port 0 (if loopback then in6addr_loopback else in6addr_any) 0
  else .inet port (if loopback then INADDR_ANY else INADDR_LOOPBACK)

/-- The errors of `accept4` that `sockets::accept` names, and the others. -/
inductive AcceptErrno where
  | EAGAIN
  | ECONNABORTED
  | EINTR
  | EPROTO
  | EPERM
  | EMFILE
  | other
  deriving DecidableEq, Repr

/-- What `accept4` returns: a descriptor and the peer's address, or an error. -/
abbrev AcceptResult := Except AcceptErrno (Nat × InetAddress)

/-- What the FATAL statements of `Socket.cpp` say. -/
inductive SocketRecord where
  | socketError (e : Errno)
  | bindError (e : Errno)
  | listenError (e : Errno)
  | accept4Error (e : AcceptErrno)
  | closeError (e : Errno)

/-- The logger of the loop thread. -/
abbrev SocketLogger := LoggerState Unit SocketRecord

namespace sockets

variable (logLevel : LogLevel) (logger : SocketLogger)

/-- The FATAL statement after a system call, made where the call fails. -/
def orDie (record : Errno → SocketRecord) : Option Errno → SocketLogger
  | none => logger
  | some e => logger.fatal logLevel () (record e)

def createNonblockingOrDir : Option Errno → SocketLogger := orDie logLevel logger .socketError

def bindOrDir : Option Errno → SocketLogger := orDie logLevel logger .bindError

def listenOrDie : Option Errno → SocketLogger := orDie logLevel logger .listenError

def closeOrDie : Option Errno → SocketLogger := orDie logLevel logger .closeError

/-- `addr` is what the caller's structure holds, `none` where it is zeroed. -/
def accept (addr : Option InetAddress) : AcceptResult → SocketLogger × Int × Option InetAddress
  | .ok (connfd, peer) => (logger, connfd, some peer)
  | .error .other => (logger.fatal logLevel () (.accept4Error .other), -1, addr)
  | .error _ => (logger, -1, addr)

end sockets

/-- The structure that `sockets::accept` fills is a local one. -/
def Socket.accept (logLevel : LogLevel) (logger : SocketLogger) (remoteAddress : InetAddress) (result : AcceptResult) :
    SocketLogger × Int × InetAddress :=
  let (logger, connfd, _) := sockets.accept logLevel logger none result
  (logger, connfd, remoteAddress)

/-! ## Acceptors -/

/-- The fields of an `Acceptor` beside its socket and its channel; its constructor makes this. -/
structure Acceptor (γ : Type*) where
  newConnectionCallback : Option γ := none
  listening : Bool := false
  paused : Bool := false

/-- What became of an accepted descriptor. -/
inductive Handled (γ : Type*) where
  | passed (newConnectionCallback : γ) (connfd : Int) (remoteAddress : InetAddress)
  | closed (connfd : Int)
  deriving DecidableEq, Repr

/-- One `EventLoop`, the Acceptors that exist on it and the logger. -/
structure Acceptors (κ γ : Type*) extends LoopState κ where
  acceptors : List κ
  acceptor : κ → Acceptor γ
  handled : List (Handled γ)
  logger : SocketLogger

/-- An Acceptor to be destroyed, with the kernel's answers to the two calls of
`epoll_ctl` and to `close`. -/
structure Destruction (κ : Type*) where
  acceptor : κ
  disableFault : Option Errno
  removeFault : Option Errno
  closeFault : Option Errno

/-- With the failures of the system calls, where they fail. -/
inductive AcceptorOp (κ γ : Type*) where
  | construct (c : κ) (socketFault bindFault : Option Errno)
  | destroy (d : Destruction κ)
  | setNewConnectionCallback (c : κ) (cb : Option γ)
  | listen (c : κ) (socketFault fault : Option Errno)
  | pause (c : κ)
  | resume (c : κ)
  | handleRead (c : κ) (result : AcceptResult)
  | poll (result : Option (List (Int × BitVec 32)))
  /-- The end of a FATAL statement that has stopped the thread. -/
  | abort

/-- The assertions of `~Channel`. -/
def Channel.Destructible (ch : Channel) : Prop := ch.eventHandling = false ∧ ch.addedToLoop = false

instance (ch : Channel) : Decidable ch.Destructible := inferInstanceAs (Decidable (_ ∧ _))

variable {κ γ : Type*} [DecidableEq κ] (logLevel : LogLevel) (fd : κ → Int) (wakeupChannel : κ)
variable (s : Acceptors κ γ) (c : κ)

namespace Acceptors

def Running : Prop := s.logger.Running ()

omit [DecidableEq κ] in
instance : Decidable s.Running := inferInstanceAs (Decidable (s.logger.Running ()))

/-- What follows in a function, unless a FATAL statement has stopped the thread. -/
def andThen (rest : Acceptors κ γ → Option (Acceptors κ γ)) : Option (Acceptors κ γ) :=
  if s.Running then rest s else some s

/-- `::socket` returns -1 where it fails, and else a descriptor that is not open. -/
def Opens (c : κ) : Option Errno → Prop
  | some _ => fd c = -1
  | none => 0 ≤ fd c ∧ fd c ≠ fd wakeupChannel ∧ ∀ d ∈ s.acceptors, fd c ≠ fd d

omit [DecidableEq κ] in
instance (socketFault : Option Errno) : Decidable (s.Opens fd wakeupChannel c socketFault) :=
  match socketFault with
  | some _ => inferInstanceAs (Decidable (_ = _))
  | none => inferInstanceAs (Decidable (_ ∧ _ ∧ _))

end Acceptors

namespace Acceptor

def construct (socketFault bindFault : Option Errno) : Option (Acceptors κ γ) :=
  if (c ≠ wakeupChannel ∧ c ∉ s.acceptors) ∧ s.Opens fd wakeupChannel c socketFault then
    let s := { s with logger := sockets.createNonblockingOrDir logLevel s.logger socketFault }
    s.andThen fun s =>
      let s := { s with
        channel := update s.channel c {}
        logger := sockets.bindOrDir logLevel s.logger bindFault }
      s.andThen fun s => some { s with
        acceptors := c :: s.acceptors
        acceptor := update s.acceptor c {} }
  else none

/-- `~Acceptor`, `~Channel` and `~Socket`; `close` takes the descriptor out of the kernel's set. -/
def destroy (d : Destruction κ) : Option (Acceptors κ γ) :=
  let c := d.acceptor
  (Channel.disableAll fd d.disableFault s.toLoopState c).bind fun l =>
    (Channel.remove fd d.removeFault l c).bind fun l =>
      if (l.channel c).Destructible then
        some { s with
          toLoopState := { l with kernel := update l.kernel (fd c) none }
          acceptors := s.acceptors.erase c
          logger := sockets.closeOrDie logLevel s.logger d.closeFault }
      else none

def setNewConnectionCallback (cb : Option γ) : Acceptors κ γ :=
  { s with acceptor := update s.acceptor c { s.acceptor c with newConnectionCallback := cb } }

def listen (socketFault fault : Option Errno) : Option (Acceptors κ γ) :=
  let s := { s with
    acceptor := update s.acceptor c { s.acceptor c with listening := true }
    logger := sockets.listenOrDie logLevel s.logger socketFault }
  s.andThen fun s => (Channel.enableReading fd fault s.toLoopState c).map fun l => { s with toLoopState := l }

def setPause (paused : Bool) : Acceptors κ γ :=
  { s with acceptor := update s.acceptor c { s.acceptor c with paused := paused } }

def pause : Acceptors κ γ := setPause s c true

def resume : Acceptors κ γ := setPause s c false

omit [DecidableEq κ] in
/-- A FATAL statement leaves `connfd` at -1, so whether it stops the thread or not nothing else is done. -/
def handleRead (result : AcceptResult) : Acceptors κ γ :=
  let (logger, connfd, remoteAddress) := Socket.accept logLevel s.logger (.create 0 false false) result
  let s := { s with logger := logger }
  if connfd ≥ 0 then
    match (s.acceptor c).newConnectionCallback, (s.acceptor c).paused with
    | some cb, false => { s with handled := s.handled ++ [.passed cb connfd remoteAddress] }
    | _, _ => { s with handled := s.handled ++ [.closed connfd] }
  else s

end Acceptor

omit [DecidableEq κ] in
/-- A system call on a negative descriptor fails. -/
def AcceptorOp.Answers : AcceptorOp κ γ → Prop
  | .construct c _ bindFault => fd c < 0 → bindFault.isSome
  | .destroy d => fd d.acceptor < 0 → d.disableFault.isSome ∧ d.removeFault.isSome ∧ d.closeFault.isSome
  | .listen c socketFault fault => fd c < 0 → socketFault.isSome ∧ fault.isSome
  | .handleRead c result => fd c < 0 → result = .error .other
  | _ => True

omit [DecidableEq κ] in
instance (a : AcceptorOp κ γ) : Decidable (a.Answers fd) := by
  cases a <;> unfold AcceptorOp.Answers <;> infer_instance

namespace Acceptors

/-- An operation on an Acceptor that exists, the construction of another, or a poll. -/
def operate : AcceptorOp κ γ → Option (Acceptors κ γ)
  | .construct c socketFault bindFault => Acceptor.construct logLevel fd wakeupChannel s c socketFault bindFault
  | .destroy d => if d.acceptor ∈ s.acceptors then Acceptor.destroy logLevel fd s d else none
  | .setNewConnectionCallback c cb => if c ∈ s.acceptors then some (Acceptor.setNewConnectionCallback s c cb) else none
  | .listen c socketFault fault => if c ∈ s.acceptors then Acceptor.listen logLevel fd s c socketFault fault else none
  | .pause c => if c ∈ s.acceptors then some (Acceptor.pause s c) else none
  | .resume c => if c ∈ s.acceptors then some (Acceptor.resume s c) else none
  | .handleRead c result => if c ∈ s.acceptors then some (Acceptor.handleRead logLevel s c result) else none
  | .poll result => (s.toLoopState.step fd none (.poll result)).map fun l => { s with toLoopState := l }
  | .abort => (s.logger.step logLevel (.abort ())).map fun l => { s with logger := l }

/-- While the thread runs it operates on the Acceptors; once stopped it aborts. -/
def step (a : AcceptorOp κ γ) : Option (Acceptors κ γ) :=
  if (s.Running ∨ a matches .abort) ∧ a.Answers fd then s.operate logLevel fd wakeupChannel a else none

end Acceptors

/-- The histories of one `EventLoop` with Acceptors on its thread, once it is
constructed: `eventfd` may have failed too. -/
def AcceptorLoop (γ : Type*) (logLevel : LogLevel) (fd : κ → Int) (wakeupChannel : κ) :
    Lts.System (Acceptors κ γ) (AcceptorOp κ γ) where
  init s := (∃ fault, (fd wakeupChannel < 0 → fault.isSome) ∧
      Channel.enableReading fd fault .init wakeupChannel = some s.toLoopState) ∧
    s.acceptors = [] ∧ s.handled = [] ∧ s.Running
  step s a := s.step logLevel fd wakeupChannel a

variable {logLevel fd wakeupChannel} {s : Acceptors κ γ} {c}

/-- A failed system call stops the thread at the level FATAL, and only there. -/
@[simp] theorem orDie_running_iff {logger : SocketLogger} {record : Errno → SocketRecord} {fault : Option Errno} :
    (sockets.orDie logLevel logger record fault).Running () ↔
      logger.Running () ∧ ¬ (logLevel = .FATAL ∧ fault.isSome) := by
  cases fault <;> simp [sockets.orDie]

omit [DecidableEq κ] in
/-- A function stops after its FATAL statement, or goes on. -/
theorem andThen_cases {rest : Acceptors κ γ → Option (Acceptors κ γ)} {s' : Acceptors κ γ}
    (h : s.andThen rest = some s') : (¬ s.Running ∧ s' = s) ∨ (s.Running ∧ rest s = some s') := by
  unfold Acceptors.andThen at h
  split at h
  · rename_i hr
    exact .inr ⟨hr, h⟩
  · rename_i hr
    exact .inl ⟨hr, (Option.some.inj h).symm⟩

theorem step_operate {s' : Acceptors κ γ} {a : AcceptorOp κ γ} (h : s.step logLevel fd wakeupChannel a = some s') :
    (s.Running ∨ a = .abort) ∧ s.operate logLevel fd wakeupChannel a = some s' := by
  simp only [Acceptors.step, Option.ite_none_right_eq_some] at h
  refine ⟨h.1.1.imp_right fun ha => ?_, h.2⟩
  cases a <;> first | rfl | cases ha

/-! ## What becomes of an accepted descriptor -/

/-- What an Acceptor owes a descriptor accepted from the peer `address`. -/
def Acceptor.owes (a : Acceptor γ) (connfd : Nat) (address : InetAddress) : Handled γ :=
  match a.newConnectionCallback, a.paused with
  | some cb, false => .passed cb connfd address
  | _, _ => .closed connfd

omit [DecidableEq κ] in
/-- Each descriptor is passed on or closed, once. The address that goes with it is
the one that the local `InetAddress` of `handleRead` was constructed with. -/
theorem handleRead_ok (s : Acceptors κ γ) (c : κ) (connfd : Nat) (peer : InetAddress) :
    Acceptor.handleRead logLevel s c (.ok (connfd, peer)) =
      { s with handled := s.handled ++ [(s.acceptor c).owes connfd (.create 0 false false)] } := by
  simp only [Acceptor.handleRead, Socket.accept, sockets.accept, Acceptor.owes, ge_iff_le,
    if_pos (Int.natCast_nonneg connfd)]
  cases (s.acceptor c).newConnectionCallback <;> cases (s.acceptor c).paused <;> rfl

omit [DecidableEq κ] in
/-- An error does nothing but the FATAL statement, if it is one that is not named. -/
theorem handleRead_error (s : Acceptors κ γ) (c : κ) (e : AcceptErrno) :
    Acceptor.handleRead logLevel s c (.error e) =
      { s with logger := if e = .other then s.logger.fatal logLevel () (.accept4Error .other) else s.logger } := by
  cases e <;> rfl

/-- What the Acceptors owe after a step. -/
def owed (s : Acceptors κ γ) : AcceptorOp κ γ → List (Handled γ)
  | .handleRead c (.ok (connfd, peer)) => [(s.acceptor c).owes connfd peer]
  | _ => []

/-- The descriptor that a step accepts. -/
def accepted : AcceptorOp κ γ → List Int
  | .handleRead _ (.ok (connfd, _)) => [(connfd : Int)]
  | _ => []

def Handled.connfd : Handled γ → Int
  | .passed _ connfd _ => connfd
  | .closed connfd => connfd

/-- What the step accepts is handled as owed, and nothing else is. -/
def Accounted (s : Acceptors κ γ) (a : AcceptorOp κ γ) (s' : Acceptors κ γ) : Prop :=
  s'.handled = s.handled ++ owed s a

/-- If the step passes a connection on, its peer has the address that an
`InetAddress` without arguments has, the IPv4 loopback address with port 0. -/
def PeerIsDefault (s : Acceptors κ γ) (a : AcceptorOp κ γ) : Prop :=
  ∀ c connfd peer, a = .handleRead c (.ok (connfd, peer)) →
    ((s.acceptor c).newConnectionCallback).isSome → (s.acceptor c).paused = false → peer = .create 0 false false

omit [DecidableEq κ] in
theorem owes_eq_iff (a : Acceptor γ) (connfd : Nat) (address peer : InetAddress) :
    a.owes connfd address = a.owes connfd peer ↔
      (a.newConnectionCallback.isSome → a.paused = false → peer = address) := by
  unfold Acceptor.owes
  cases a.newConnectionCallback with
  | none => simp
  | some cb =>
    cases a.paused with
    | true => simp
    | false => simp [eq_comm]

/-- Only a read event handles descriptors. -/
theorem operate_handled {s s' : Acceptors κ γ} {a : AcceptorOp κ γ}
    (h : s.operate logLevel fd wakeupChannel a = some s') :
    (∃ c connfd peer, a = .handleRead c (.ok (connfd, peer)) ∧
      s'.handled = s.handled ++ [(s.acceptor c).owes connfd (.create 0 false false)]) ∨
    (∀ c r, a ≠ .handleRead c (.ok r)) ∧ s'.handled = s.handled := by
  cases a with
  | handleRead c result =>
    simp only [Acceptors.operate, Option.ite_none_right_eq_some, Option.some.injEq] at h
    obtain ⟨-, rfl⟩ := h
    cases result with
    | ok r =>
      obtain ⟨connfd, peer⟩ := r
      exact .inl ⟨c, connfd, peer, rfl, by rw [handleRead_ok]⟩
    | error e => exact .inr ⟨nofun, by rw [handleRead_error]⟩
  | construct c socketFault bindFault =>
    simp only [Acceptors.operate, Acceptor.construct, Option.ite_none_right_eq_some] at h
    rcases andThen_cases h.2 with ⟨-, rfl⟩ | ⟨-, h⟩
    · exact .inr ⟨nofun, rfl⟩
    · rcases andThen_cases h with ⟨-, rfl⟩ | ⟨-, h⟩
      · exact .inr ⟨nofun, rfl⟩
      · exact .inr ⟨nofun, Option.some.inj h ▸ rfl⟩
  | destroy d =>
    simp only [Acceptors.operate, Acceptor.destroy, Option.ite_none_right_eq_some, Option.bind_eq_some_iff,
      Option.some.injEq] at h
    obtain ⟨-, _, -, _, -, -, rfl⟩ := h
    exact .inr ⟨nofun, rfl⟩
  | listen c socketFault fault =>
    simp only [Acceptors.operate, Acceptor.listen, Option.ite_none_right_eq_some] at h
    rcases andThen_cases h.2 with ⟨-, rfl⟩ | ⟨-, h⟩
    · exact .inr ⟨nofun, rfl⟩
    · obtain ⟨l, -, rfl⟩ := Option.map_eq_some_iff.1 h
      exact .inr ⟨nofun, rfl⟩
  | setNewConnectionCallback c cb | pause c | resume c =>
    simp only [Acceptors.operate, Option.ite_none_right_eq_some, Option.some.injEq] at h
    obtain ⟨-, rfl⟩ := h
    exact .inr ⟨nofun, rfl⟩
  | poll result | abort =>
    obtain ⟨l, -, rfl⟩ := Option.map_eq_some_iff.1 h
    exact .inr ⟨nofun, rfl⟩

theorem accounted_iff {s s' : Acceptors κ γ} {a : AcceptorOp κ γ} (h : s.operate logLevel fd wakeupChannel a = some s') :
    Accounted s a s' ↔ PeerIsDefault s a := by
  rcases operate_handled h with ⟨c, connfd, peer, rfl, hh⟩ | ⟨ha, hh⟩
  · rw [Accounted, hh, owed, List.append_cancel_left_eq, List.singleton_inj, owes_eq_iff]
    constructor
    · rintro h c' connfd' peer' heq hcb hpause
      cases heq
      exact h hcb hpause
    · exact fun h => h c connfd peer rfl
  · refine iff_of_true ?_ fun c connfd peer heq => absurd heq (ha c _)
    have howed : owed s a = [] := by
      unfold owed
      split
      · rename_i c connfd peer
        exact absurd rfl (ha c _)
      · rfl
    rw [Accounted, hh, howed, List.append_nil]

theorem operate_connfd {s s' : Acceptors κ γ} {a : AcceptorOp κ γ}
    (h : s.operate logLevel fd wakeupChannel a = some s') :
    s'.handled.map Handled.connfd = s.handled.map Handled.connfd ++ accepted a := by
  have howes : ∀ (b : Acceptor γ) connfd address, (b.owes connfd address).connfd = connfd := by
    intro b connfd address
    unfold Acceptor.owes
    split <;> rfl
  rcases operate_handled h with ⟨c, connfd, peer, rfl, hh⟩ | ⟨ha, hh⟩
  · rw [hh, List.map_append, List.map_singleton, howes]
    rfl
  · have hacc : accepted a = [] := by
      unfold accepted
      split
      · exact absurd rfl (ha _ _)
      · rfl
    rw [hh, hacc, List.append_nil]

/-- Every accepted descriptor is handled once, passed on or closed, in the order of
acceptance. A run hands all of them over as owed, each with its own peer, exactly
when every connection it passes on comes from the address that an `InetAddress`
without arguments has: `Socket::accept` does not write the one it is given. -/
theorem accepted_handled {s t : Acceptors κ γ} {as : List (AcceptorOp κ γ)}
    (hr : (AcceptorLoop γ logLevel fd wakeupChannel).run s as = some t) :
    t.handled.map Handled.connfd = s.handled.map Handled.connfd ++ as.flatMap accepted ∧
      ((AcceptorLoop γ logLevel fd wakeupChannel).Steps Accounted s as ↔
        (AcceptorLoop γ logLevel fd wakeupChannel).Guarded PeerIsDefault s as) := by
  constructor
  · induction as generalizing s with
    | nil =>
      obtain rfl := Option.some.inj hr
      simp
    | cons a as ih =>
      obtain ⟨s', h1, h2⟩ := Lts.System.run_cons.1 hr
      rw [ih h2, operate_connfd (step_operate h1).2, List.flatMap_cons, List.append_assoc]
  · refine Lts.System.steps_iff_guarded (J := fun _ => True) (fun _ _ _ _ _ _ => trivial) (fun s a s' _ h => ?_) hr trivial
    have h' : s.step logLevel fd wakeupChannel a = some s' := h
    exact accounted_iff (step_operate h').2

/-- The loop of the witnesses below: its wakeup channel `true` has descriptor 7, an
Acceptor `false` descriptor 5. -/
def fdOf (c : Bool) : Int := if c then 7 else 5

/-- An Acceptor with a callback closes what it accepts while it is paused. An error
that `sockets::accept` does not name changes nothing for the level INFO. -/
theorem accepted_handled_paused : ∃ s, (AcceptorLoop Nat .INFO fdOf true).init s ∧
    (∃ t, (AcceptorLoop Nat .INFO fdOf true).run s [.construct false none none,
      .setNewConnectionCallback false (some 1), .listen false none none, .handleRead false (.error .other),
      .pause false, .handleRead false (.ok (9, .inet 4242 0x0a000001))] = some t ∧ t.handled = [.closed 9]) ∧
    (AcceptorLoop Nat .INFO fdOf true).Steps Accounted s [.construct false none none,
      .setNewConnectionCallback false (some 1), .listen false none none, .handleRead false (.error .other),
      .pause false, .handleRead false (.ok (9, .inet 4242 0x0a000001))] := by
  refine ⟨⟨_, [], fun _ => {}, [], .empty⟩, ⟨⟨none, nofun, rfl⟩, rfl, rfl, rfl, rfl⟩, ⟨_, rfl, rfl⟩,
    (accepted_handled rfl).2.2 ?_⟩
  refine .of_step rfl nofun (.of_step rfl nofun (.of_step rfl nofun (.of_step rfl nofun (.of_step rfl nofun
    (.of_step rfl ?_ trivial)))))
  intro c connfd peer heq hcb hpaused
  cases heq
  cases hpaused

/-- A connection from port 4242 of 10.0.0.1 is passed on as one from port 0 of 127.0.0.1. -/
theorem accepted_without_peer : ∃ s t, (AcceptorLoop Nat .INFO fdOf true).init s ∧
    (AcceptorLoop Nat .INFO fdOf true).run s [.construct false none none, .setNewConnectionCallback false (some 1),
      .listen false none none, .handleRead false (.ok (9, .inet 4242 0x0a000001))] = some t ∧
    t.handled = [.passed 1 9 (.inet 0 0x7f000001)] ∧
    ¬ (AcceptorLoop Nat .INFO fdOf true).Steps Accounted s [.construct false none none,
      .setNewConnectionCallback false (some 1), .listen false none none,
      .handleRead false (.ok (9, .inet 4242 0x0a000001))] := by
  refine ⟨⟨_, [], fun _ => {}, [], .empty⟩, _, ⟨⟨none, nofun, rfl⟩, rfl, rfl, rfl, rfl⟩, rfl, rfl, fun h => ?_⟩
  have hlast : [Handled.passed 1 9 (.inet 0 0x7f000001)] = [.passed 1 9 (.inet 4242 0x0a000001)] :=
    ((((h _ rfl).2 _ rfl).2 _ rfl).2 _ rfl).1
  exact absurd hlast (by decide)

end Ycnt.Net
