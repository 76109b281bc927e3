import LowLevelCpp.Foundations.Ledger
import Mathlib.Algebra.Group.Nat.Defs
import Mathlib.Data.Finset.Card
import Mathlib.Data.Int.Notation
import Mathlib.Data.Nat.Notation

/-!
What the port scanners use of the operating system: sockets, connection attempts, `epoll` and
`getsockopt(SO_ERROR)`. The kernel chooses the descriptors, how an attempt starts and which
registered descriptors a wait delivers; what an attempt ends with is a function of the port.
-/
namespace Knocker
open Foundations

def MAX_EVENTS : ℕ := 1024

def MAX_IN_FLIGHT : ℕ := 500

/-- A range of ports that passes the argument check. -/
structure PortRange where
  start_port : ℕ
  end_port : ℕ
  start_pos : 1 ≤ start_port
  end_le : end_port ≤ 65535
  ordered : start_port ≤ end_port

/-- The argument check that all scanners make. -/
def checkRange (start_port end_port : ℤ) : Option PortRange :=
  if h : start_port < 1 ∨ end_port > 65535 ∨ start_port > end_port then none
  else some ⟨start_port.toNat, end_port.toNat, by omega, by omega, by omega⟩

/-- `((uint64_t)sock << 32) | (uint32_t)port` -/
def pack (sock port : ℕ) : BitVec 64 :=
  BitVec.ofNat 64 sock <<< 32 ||| BitVec.ofNat 64 (port % 2 ^ 32)

def unpackFd (data : BitVec 64) : ℕ := (data >>> 32).toNat

def unpackPort (data : BitVec 64) : ℕ := (data &&& 0xFFFFFFFF#64).toNat

theorem pack_toNat {sock port : ℕ} (hs : sock < 2 ^ 32) (hp : port < 2 ^ 32) :
    (pack sock port).toNat = sock <<< 32 + port := by
  have hshift : sock <<< 32 < 2 ^ 64 := by
    rw [Nat.shiftLeft_eq]
    omega
  rw [pack, BitVec.toNat_or, BitVec.toNat_shiftLeft, BitVec.toNat_ofNat, BitVec.toNat_ofNat,
    Nat.mod_eq_of_lt (show sock < 2 ^ 64 by omega), Nat.mod_eq_of_lt hshift,
    Nat.mod_eq_of_lt hp, Nat.mod_eq_of_lt (show port < 2 ^ 64 by omega),
    Nat.shiftLeft_add_eq_or_of_lt hp]

@[simp] theorem unpackFd_pack {sock port : ℕ} (hs : sock < 2 ^ 32) (hp : port < 2 ^ 32) :
    unpackFd (pack sock port) = sock := by
  rw [unpackFd, BitVec.toNat_ushiftRight, pack_toNat hs hp, Nat.shiftRight_eq_div_pow,
    Nat.shiftLeft_eq]
  omega

@[simp] theorem unpackPort_pack {sock port : ℕ} (hs : sock < 2 ^ 32) (hp : port < 2 ^ 32) :
    unpackPort (pack sock port) = port := by
  have hmask : (0xFFFFFFFF#64).toNat = 2 ^ 32 - 1 := rfl
  rw [unpackPort, BitVec.toNat_and, pack_toNat hs hp, hmask, Nat.and_two_pow_sub_one_eq_mod,
    Nat.shiftLeft_eq]
  omega

/-- What a scanner is run on. `outcome` is the error code that connecting to a port ends with,
`0` for success; `reserved` are the descriptors in use before the scan. -/
structure Env where
  range : PortRange
  outcome : ℕ → ℕ
  /-- whether `inet_pton` accepts the target -/
  validAddress : Bool
  reserved : Finset ℕ
  reserved_lt : ∀ fd ∈ reserved, fd < 2 ^ 31

/-- The scanners with timeouts also hold a timer descriptor. -/
structure TimerEnv extends Env where
  timer_fd : ℕ
  timer_reserved : timer_fd ∈ reserved

theorem TimerEnv.timers (env : TimerEnv) : {env.timer_fd} ⊆ env.reserved :=
  Finset.singleton_subset_iff.mpr env.timer_reserved

/-- The answer of `connect` on a non-blocking socket: `0`, `EINPROGRESS` or another error. -/
inductive ConnectResult where
  | connected
  | inProgress
  | failed
  deriving DecidableEq

/-- An attempt that ends at once ends with its outcome. -/
def ConnectResult.Admits : ConnectResult → ℕ → Prop
  | .connected, err => err = 0
  | .inProgress, _ => True
  | .failed, err => err ≠ 0

instance (res : ConnectResult) (err : ℕ) : Decidable (res.Admits err) := by
  cases res <;> unfold ConnectResult.Admits <;> infer_instance

/-- What a scanner does, as its log tells it: `answered` is the printed report, `closed` the
closing of a socket that was not registered, and `retired` that of one that was. -/
inductive Event where
  | opened (fd : ℕ)
  | attempted (port : ℕ)
  | answered (port : ℕ)
  | registered (fd : ℕ)
  | closed (fd : ℕ)
  | retired (fd : ℕ)
  deriving DecidableEq

def Event.answered? : Event → Option ℕ
  | .answered port => some port
  | _ => none

/-- The ports reported, in order. -/
def answers (log : List Event) : List ℕ := log.filterMap Event.answered?

def Event.attempted? : Event → Option ℕ
  | .attempted port => some port
  | _ => none

/-- The ports connected to, in order. -/
def attempts (log : List Event) : List ℕ := log.filterMap Event.attempted?

@[simp] theorem answers_append (log evs : List Event) :
    answers (log ++ evs) = answers log ++ answers evs := List.filterMap_append

@[simp] theorem attempts_append (log evs : List Event) :
    attempts (log ++ evs) = attempts log ++ attempts evs := List.filterMap_append

/-- Sockets are acquired by `socket` and released by `close`. -/
def Event.socketMove : Event → Move ℕ
  | .opened fd => .acquire fd
  | .closed fd | .retired fd => .release fd
  | .attempted _ | .answered _ | .registered _ => .other

/-- Connections are acquired by their registration and released when they are retired. -/
def Event.flightMove : Event → Move ℕ
  | .registered fd => .acquire fd
  | .retired fd => .release fd
  | .opened _ | .attempted _ | .answered _ | .closed _ => .other

/-- The open sockets, the ports they were connected to, the descriptors registered with
`epoll` and the data they were registered with. -/
structure Kernel where
  sockets : Finset ℕ
  peer : ℕ → ℕ
  registered : Finset ℕ
  data : ℕ → BitVec 64

namespace Kernel

/-- Before the scan only timers are registered, with port `0`. -/
def init (timers : Finset ℕ) : Kernel := ⟨∅, fun _ => 0, timers, fun fd => pack fd 0⟩

def socket (k : Kernel) (fd : ℕ) : Kernel := { k with sockets := insert fd k.sockets }

def connect (k : Kernel) (fd port : ℕ) : Kernel :=
  { k with peer := Function.update k.peer fd port }

def epollAdd (k : Kernel) (fd : ℕ) (data : BitVec 64) : Kernel :=
  { k with registered := insert fd k.registered, data := Function.update k.data fd data }

def epollDel (k : Kernel) (fd : ℕ) : Kernel := { k with registered := k.registered.erase fd }

/-- Closing a descriptor that is not open changes nothing. -/
def close (k : Kernel) (fd : ℕ) : Kernel :=
  { k with sockets := k.sockets.erase fd, registered := k.registered.erase fd }

/-- `getsockopt(fd, SOL_SOCKET, SO_ERROR, &err, &len)`, which fails and leaves `err` alone when
the descriptor is not open. -/
def getsockopt (env : Env) (k : Kernel) (fd err : ℕ) : ℕ :=
  if fd ∈ k.sockets then env.outcome (k.peer fd) else err

/-- `epoll_wait` delivers distinct registered descriptors, in any order. -/
def epollWait (k : Kernel) (fds : List ℕ) : Option (List (BitVec 64)) :=
  if fds.Nodup ∧ (∀ fd ∈ fds, fd ∈ k.registered) ∧ fds.length ≤ MAX_EVENTS then
    some (fds.map k.data)
  else none

theorem epollWait_eq_some {k : Kernel} {fds : List ℕ} {events : List (BitVec 64)}
    (h : k.epollWait fds = some events) :
    fds.Nodup ∧ (∀ fd ∈ fds, fd ∈ k.registered) ∧ events = fds.map k.data := by
  unfold epollWait at h
  split at h
  · rename_i hbatch
    exact ⟨hbatch.1, hbatch.2.1, (Option.some.inj h).symm⟩
  · cases h

/-- `socket` returns a descriptor that is not in use. -/
def Fresh (env : Env) (k : Kernel) (fd : ℕ) : Prop :=
  fd ∉ k.sockets ∧ fd ∉ env.reserved ∧ fd < 2 ^ 31

instance (env : Env) (k : Kernel) (fd : ℕ) : Decidable (Fresh env k fd) :=
  inferInstanceAs (Decidable (_ ∧ _))

end Kernel

/-- One attempt: the socket is opened and connected; when the connection is pending it is
registered with its descriptor and port as data, otherwise the socket is closed. -/
def attempt (env : Env) (k : Kernel) (port fd : ℕ) (res : ConnectResult) :
    Option (Kernel × List Event) :=
  if k.Fresh env fd ∧ res.Admits (env.outcome port) then
    let k := (k.socket fd).connect fd port
    match res with
    | .connected =>
      some (k.close fd, [.opened fd, .attempted port, .answered port, .closed fd])
    | .inProgress =>
      some (k.epollAdd fd (pack fd port), [.opened fd, .attempted port, .registered fd])
    | .failed => some (k.close fd, [.opened fd, .attempted port, .closed fd])
  else none

theorem attempt_eq_some {env : Env} {k k' : Kernel} {port fd : ℕ} {res : ConnectResult}
    {evs : List Event} (h : attempt env k port fd res = some (k', evs)) :
    k.Fresh env fd ∧
      (res = .connected ∧ env.outcome port = 0 ∧
          k' = ((k.socket fd).connect fd port).close fd ∧
          evs = [.opened fd, .attempted port, .answered port, .closed fd] ∨
        res = .inProgress ∧ k' = ((k.socket fd).connect fd port).epollAdd fd (pack fd port) ∧
          evs = [.opened fd, .attempted port, .registered fd] ∨
        res = .failed ∧ env.outcome port ≠ 0 ∧
          k' = ((k.socket fd).connect fd port).close fd ∧
          evs = [.opened fd, .attempted port, .closed fd]) := by
  unfold attempt at h
  split at h
  · rename_i hguard
    refine ⟨hguard.1, ?_⟩
    cases res with
    | connected =>
      obtain ⟨rfl, rfl⟩ := Prod.mk.inj (Option.some.inj h)
      exact .inl ⟨rfl, hguard.2, rfl, rfl⟩
    | inProgress =>
      obtain ⟨rfl, rfl⟩ := Prod.mk.inj (Option.some.inj h)
      exact .inr (.inl ⟨rfl, rfl, rfl⟩)
    | failed =>
      obtain ⟨rfl, rfl⟩ := Prod.mk.inj (Option.some.inj h)
      exact .inr (.inr ⟨rfl, hguard.2, rfl, rfl⟩)
  · cases h

/-- Only a pending connection leaves a socket open. -/
theorem attempt_sockets {env : Env} {k k' : Kernel} {port fd : ℕ} {res : ConnectResult}
    {evs : List Event} (h : attempt env k port fd res = some (k', evs)) :
    k'.sockets = if res = .inProgress then insert fd k.sockets else k.sockets := by
  obtain ⟨hfresh, ⟨rfl, -, rfl, -⟩ | ⟨rfl, rfl, -⟩ | ⟨rfl, -, rfl, -⟩⟩ := attempt_eq_some h
  · exact Finset.erase_insert hfresh.1
  · rfl
  · exact Finset.erase_insert hfresh.1

theorem attempt_card {env : Env} {k k' : Kernel} {port fd : ℕ} {res : ConnectResult}
    {evs : List Event} (h : attempt env k port fd res = some (k', evs)) :
    k'.sockets.card = k.sockets.card + if res = .inProgress then 1 else 0 := by
  rw [attempt_sockets h]
  split
  · exact Finset.card_insert_of_notMem (attempt_eq_some h).1.1
  · rfl

/-- The report on a socket event: `err` starts at `0`. -/
def report (env : Env) (k : Kernel) (fd p : ℕ) : List Event :=
  if k.getsockopt env fd 0 = 0 then [.answered p] else []

/-- The kernel's side of a cleanup. -/
def cleanup (k : Kernel) (fd : ℕ) : Kernel := (k.epollDel fd).close fd

end Knocker
