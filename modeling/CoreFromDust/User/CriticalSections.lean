import CoreFromDust.Lib.Locks
import CoreFromDust.Os.SyncCalls
import CoreFromDust.Os.Proofs.Moves

/-!
# Programs with critical sections

Embedding of the threads of `user/src/bin/eisenberg.rs`, `peterson.rs`, `adder_peterson_spin.rs`,
`adder_peterson_yield.rs`, `adder_atomic.rs`, `adder_mutex_spin.rs` and `adder_mutex_blocking.rs`.
A turn of a thread is one access to a static variable or one system call. What is printed and how
long a thread sleeps or yields are left out: it may lose the processor at any moment anyway.
-/

namespace CoreFromDust.User

open CoreFromDust.Lib CoreFromDust.Os

/-! ## Critical sections -/

/-- The call of `critical_test_enter`, one of the three of `critical_test_claim`, or the one of
`critical_test_exit`. -/
inductive CriticalTest where
  | enter
  | claim (round : Nat)
  | exit
  deriving DecidableEq, Repr

/-- `critical_test_enter`, `critical_test_claim` and `critical_test_exit`, which assert what `GUARD`
was. -/
def criticalTest (Id : Type) : CriticalSection Id UInt64 CriticalTest where
  enter := .enter
  step _ guard
    | .enter => if guard = 0 then some (guard + 1, some (.claim 0)) else none
    | .claim round =>
        if guard = 1 then some (guard, some (if round + 1 < 3 then .claim (round + 1) else .exit))
        else none
    | .exit => if guard = 1 then some (guard - 1, none) else none

/-- `critical_section` loads `A`, or it stores `cur + 1`. -/
inductive Adding where
  | load
  | store (cur : UInt64)
  deriving DecidableEq, Repr

/-- `critical_section` of the adders, without what it does with `t`. -/
def adding (Id : Type) : CriticalSection Id UInt64 Adding where
  enter := .load
  step _ a
    | .load => some (a, some (.store a))
    | .store cur => some (cur + 1, none)

/-! ## Peterson's algorithm -/

namespace Peterson

/-- The static variables. -/
structure Shared where
  flag : Fin 2 → Bool
  turn : Fin 2
  deriving DecidableEq

/-- Where a thread is in `peterson_enter_critical` or `lock`. -/
inductive Enter where
  | storeFlag
  | storeTurn
  | loadFlag
  | loadTurn
  deriving DecidableEq, Repr

/-- `peer_id`. -/
def peer (id : Fin 2) : Fin 2 := 1 - id

/-- `peterson_enter_critical` and `peterson_exit_critical`, which stores one flag. -/
def code : LockCode (Fin 2) Shared Enter Unit where
  lock := .storeFlag
  unlock := ()
  lockStep id s
    | .storeFlag => some ({ s with flag := Function.update s.flag id true }, some .storeTurn)
    | .storeTurn => some ({ s with turn := peer id }, some .loadFlag)
    | .loadFlag => some (s, if s.flag (peer id) then some .loadTurn else none)
    | .loadTurn => some (s, if s.turn = peer id then some .loadFlag else none)
  unlockStep id s _ := some ({ s with flag := Function.update s.flag id false }, none)

/-- `FLAG` and `TURN` at first. -/
def start : Shared := ⟨fun _ => false, 0⟩

end Peterson

/-! ## The algorithm of Eisenberg and McGuire -/

namespace Eisenberg

/-- `THREAD_NUM`. -/
def threadNum : Nat := 10

/-- `FlagState`; `inside` is `In`. -/
inductive FlagState where
  | out
  | want
  | inside
  deriving DecidableEq, Repr

/-- The static variables. -/
structure Shared where
  turn : Nat
  flag : Nat → FlagState

/-- Where a thread is in `eisenberg_enter_critical`. -/
inductive Enter where
  /-- it stores `Want` -/
  | want
  | loadTurn
  /-- it loads `FLAG[i % THREAD_NUM]` in the loop over `turn..ring_id` -/
  | prior (i ringId : Nat)
  /-- it stores `In` -/
  | claim
  /-- it loads `FLAG[i]` in the loop over `0..THREAD_NUM` -/
  | conflicts (i : Nat) (conflict : Bool)
  /-- it stores its id in `TURN` -/
  | takeTurn
  deriving DecidableEq, Repr

/-- Where a thread is in `eisenberg_exit_critical`. -/
inductive Leave where
  /-- it loads `FLAG[i % THREAD_NUM]` in the loop over `(id + 1)..ring_id`, after `passed` of the
  indices -/
  | next (passed : Nat)
  /-- it stores `next` in `TURN` -/
  | giveTurn (next : Nat)
  /-- it stores `Out` -/
  | out
  deriving DecidableEq, Repr

/-- `vstore!` to `FLAG[id]`. -/
def Shared.store (s : Shared) (id : Nat) (state : FlagState) : Shared :=
  { s with flag := Function.update s.flag id state }

/-- The next access of `eisenberg_enter_critical`. -/
def enterStep (id : Nat) (s : Shared) : Enter → Shared × Option Enter
  | .want => (s.store id .want, some .loadTurn)
  | .loadTurn => (s, some (.prior s.turn (if id < s.turn then id + threadNum else id)))
  | .prior i ringId =>
      if i < ringId then
        -- a thread with a higher priority makes this one sleep and try again
        (s, some (if s.flag (i % threadNum) ≠ .out then .loadTurn else .prior (i + 1) ringId))
      else (s, some .claim)
  | .claim => (s.store id .inside, some (.conflicts 0 false))
  | .conflicts i conflict =>
      if i < threadNum then
        (s, some (.conflicts (i + 1) (conflict || (i ≠ id ∧ s.flag i = .inside))))
      else (s, some (if conflict then .want else .takeTurn))
  | .takeTurn => ({ s with turn := id }, none)

/-- The next access of `eisenberg_exit_critical`. -/
def exitStep (id : Nat) (s : Shared) : Leave → Shared × Option Leave
  | .next passed =>
      let i := id + 1 + passed
      if i < id + threadNum then
        (s, some (if s.flag (i % threadNum) = .want then .giveTurn (i % threadNum)
          else .next (passed + 1)))
      else (s, some (.giveTurn id))
  | .giveTurn next => ({ s with turn := next }, some .out)
  | .out => (s.store id .out, none)

/-- `eisenberg_enter_critical` and `eisenberg_exit_critical`. -/
def code : LockCode (Fin threadNum) Shared Enter Leave where
  lock := .want
  unlock := .next 0
  lockStep id s place := some (enterStep id s place)
  unlockStep id s place := some (exitStep id s place)

/-- `FLAG` and `TURN` at first. -/
def start : Shared := ⟨0, fun _ => .out⟩

end Eisenberg

/-! ## Other locks -/

/-- `lock` and `unlock` of `adder_atomic.rs`, each with one access to `OCCUPIED`. -/
def occupied (Id : Type) : LockCode Id Bool Unit Unit where
  lock := ()
  unlock := ()
  lockStep _ occupied _ := some (true, if occupied then some () else none)
  unlockStep _ _ _ := some (false, none)

/-- Where a thread is in `mutex_lock`: it makes the call, or it has been blocked. -/
inductive MutexEnter where
  | call
  | queued
  deriving DecidableEq, Repr

/-- `mutex_lock` and `mutex_unlock` on the mutex with the index 0. A thread whose call finds a
spin mutex locked tries again; the assertion in `unlock` ends everything. -/
def kernelMutex (n : Nat) : LockCode (Fin n) Mutex MutexEnter Unit where
  lock := .call
  unlock := ()
  lockStep id mutex
    | .call => some (mutex.after (.lock id), match mutex with
        | .blocking true _ => some .queued
        | .blocking false _ => none
        | .spin true => some .call
        | .spin false => none)
    | .queued => if id.val ∈ mutex.waitQueue then none else some (mutex, none)
  unlockStep id mutex _ := match mutex with
    | .blocking true _ | .spin true => some (mutex.after (.unlock id), none)
    | _ => none

end CoreFromDust.User
