import Mathlib.Algebra.Group.Nat.Defs
import Mathlib.Logic.Function.Basic
/-!
# The kernel's side

The two kernel objects an event loop rests on, as their manual pages describe
them: the interest set of an epoll instance, which keeps for each registered
descriptor the event mask and the user data of the last `epoll_ctl`, and the
counter of a non-blocking eventfd.
-/

namespace Linux

open Function

inductive Errno where
  | EEXIST
  | ENOENT
  | EAGAIN
  | EINVAL
  | ENOMEM
  | ENOSPC
  | EPERM
  | EINTR
  | EBADF
  | EADDRINUSE
  deriving DecidableEq, Repr

/-! ## epoll -/

inductive EpollOp where
  | ADD
  | MOD
  | DEL
  deriving DecidableEq, Repr

/-- `struct epoll_event`: the mask and `data.ptr`. -/
structure EpollEvent (ρ : Type*) where
  events : BitVec 32
  ptr : ρ
  deriving DecidableEq

/-- The registered descriptors of one epoll instance. -/
abbrev InterestSet (ρ : Type*) := Int → Option (EpollEvent ρ)

variable {ρ : Type*}

/-- `epoll_ctl` on an open descriptor. -/
def epollCtl (k : InterestSet ρ) (op : EpollOp) (fd : Int) (event : EpollEvent ρ) : Except Errno (InterestSet ρ) :=
  match op, k fd with
  | .ADD, none => .ok (update k fd (some event))
  | .ADD, some _ => .error .EEXIST
  | .MOD, some _ => .ok (update k fd (some event))
  | .MOD, none => .error .ENOENT
  | .DEL, some _ => .ok (update k fd none)
  | .DEL, none => .error .ENOENT

theorem epollCtl_add {k : InterestSet ρ} {fd : Int} (event : EpollEvent ρ) (h : k fd = none) :
    epollCtl k .ADD fd event = .ok (update k fd (some event)) := by
  simp [epollCtl, h]

theorem epollCtl_mod {k : InterestSet ρ} {fd : Int} {old : EpollEvent ρ} (event : EpollEvent ρ) (h : k fd = some old) :
    epollCtl k .MOD fd event = .ok (update k fd (some event)) := by
  simp [epollCtl, h]

theorem epollCtl_del {k : InterestSet ρ} {fd : Int} {old : EpollEvent ρ} (event : EpollEvent ρ) (h : k fd = some old) :
    epollCtl k .DEL fd event = .ok (update k fd none) := by
  simp [epollCtl, h]

/-- What a call that succeeds does, and what it says of the set before it. -/
theorem epollCtl_ok {k k' : InterestSet ρ} {op : EpollOp} {fd : Int} {event : EpollEvent ρ}
    (h : epollCtl k op fd event = .ok k') :
    k' = update k fd (if op = .DEL then none else some event) ∧ (op = .ADD ↔ k fd = none) := by
  cases op <;> cases hk : k fd <;> simp only [epollCtl, hk, Except.ok.injEq, reduceCtorEq] at h <;> simp [← h]

/-! ## eventfd -/

/-- `write` of the 8-byte value `v` to an eventfd with counter `c`. -/
def eventfdWrite (c v : Nat) : Except Errno Nat :=
  if v = 2 ^ 64 - 1 then .error .EINVAL
  else if c + v ≤ 2 ^ 64 - 2 then .ok (c + v)
  else .error .EAGAIN

/-- `read`: the counter's value, and the counter after it. -/
def eventfdRead (c : Nat) : Except Errno (Nat × Nat) :=
  if c = 0 then .error .EAGAIN else .ok (c, 0)

/-- `epoll_wait` reports the eventfd for reading. -/
def eventfdReadable (c : Nat) : Prop := 0 < c

end Linux
