import CoreFromDust.Lib.OrderedLocks
import CoreFromDust.User.MutualExclusion

/-!
# The dining philosophers

Embedding of `philosopher_dining_problem` of `user/src/bin/phil_din_mutex.rs`, for any number of
philosophers and rounds, from the moment on at which `main` has created all mutexes and threads. A
fork is a mutex of the kernel. A turn is a system call or an access to `THINK` or `EAT`, whose times
nothing but the picture at the end depends on.
-/

namespace CoreFromDust.User

open CoreFromDust.Lib CoreFromDust.Os

namespace Philosophers

/-- `left`. -/
def left {n : Nat} (id : Fin n) : Nat := id

/-- `right`. -/
def right {n : Nat} (id : Fin n) : Nat := if id.val = n - 1 then 0 else id + 1

/-- `min`. -/
def min {n : Nat} (id : Fin n) : Nat := if left id < right id then left id else right id

/-- `max`. -/
def max {n : Nat} (id : Fin n) : Nat := left id + right id - min id

/-- What the philosophers do: before the forks a round has two stores to `THINK` with a call of
`sleep` between them, and with both forks two stores to `EAT` with a call of `sleep` between
them. -/
def dinner (n rounds : Nat) : Nest Nat (Fin n) where
  needs id k := if k = 0 then min id else max id
  last := 1
  outside := 3
  inside := 3
  rounds := rounds

/-- `main` has created the mutexes, and no fork is taken. -/
def start (n rounds : Nat) : World (Fin n) (Nat → Mutex) (Nester MutexEnter Unit) :=
  (dinner n rounds).start fun _ => .blocking false []

/-- The threads of `phil_din_mutex.rs`. -/
def threads (n rounds : Nat) : Threads (Fin n) (Nat → Mutex) (Nester MutexEnter Unit) :=
  (dinner n rounds).threads (kernelMutex n)

/-- A philosopher has both forks. -/
def Eats (t : Nester MutexEnter Unit) : Prop := ∃ turns, t.pc = .inside turns

variable {n : Nat}

/-- The two forks of a philosopher. -/
theorem forks (id : Fin n) :
    (min id = left id ∧ max id = right id) ∨ (min id = right id ∧ max id = left id) := by
  unfold max min
  split_ifs
  · exact .inl ⟨rfl, Nat.add_sub_cancel_left ..⟩
  · exact .inr ⟨rfl, Nat.add_sub_cancel ..⟩

/-- Where there are two philosophers or more, the two forks of one are not the same. -/
theorem min_lt_max (id : Fin (n + 2)) : min id < max id := by
  have small := id.isLt
  unfold max min left right
  split_ifs <;> omega

theorem ordered (n rounds : Nat) : (dinner (n + 2) rounds).Ordered := by
  intro i j k less le
  have last : (dinner (n + 2) rounds).last = 1 := rfl
  obtain ⟨rfl, rfl⟩ : j = 0 ∧ k = 1 := by omega
  exact min_lt_max i

/-- A fork of a philosopher is one of the two mutexes that it locks. -/
theorem needs_fork (rounds : Nat) (id : Fin n) {fork : Nat}
    (isFork : fork = left id ∨ fork = right id) :
    ∃ k ≤ 1, (dinner n rounds).needs id k = fork := by
  rcases forks id with ⟨first, second⟩ | ⟨first, second⟩
  · rcases isFork with rfl | rfl
    · exact ⟨0, Nat.zero_le _, first⟩
    · exact ⟨1, le_rfl, second⟩
  · rcases isFork with rfl | rfl
    · exact ⟨1, le_rfl, second⟩
    · exact ⟨0, Nat.zero_le _, first⟩

end Philosophers

open Philosophers in
/-- In every schedule of two philosophers or more: no `unlock` of the kernel finds its mutex
unlocked, and philosophers who share a fork do not eat at the same time. -/
theorem philosophers_eat_alone (n rounds : Nat) (schedule : List (Fin (n + 2))) :
    let w := (threads (n + 2) rounds).run (start (n + 2) rounds) schedule
    (∀ i, (w.locals i).pc ≠ .panicked) ∧
      ∀ i j fork, Eats (w.locals i) → Eats (w.locals j) → (fork = left i ∨ fork = right i) →
        (fork = left j ∨ fork = right j) → i = j := by
  have ok := Nest.ok_run (KernelMutex.lively (n + 2) true) (ordered n rounds) schedule
  refine ⟨ok.calm, ?_⟩
  rintro i j fork ⟨turns, here⟩ ⟨turns', there⟩ mine theirs
  obtain ⟨a, ha, needs⟩ := needs_fork rounds i mine
  obtain ⟨b, hb, needs'⟩ := needs_fork rounds j theirs
  exact ok.alone here there ha hb (needs.trans needs'.symm)

open Philosophers in
/-- Once all mutexes are there, in every schedule in which all threads have turns again and again,
all philosophers finish. -/
theorem philosophers_finish (n rounds : Nat) {schedule : Nat → Fin (n + 2)} (fair : Fair schedule) :
    ∃ k, ∀ i, (((threads (n + 2) rounds).runTo (start (n + 2) rounds) schedule k).locals i).pc =
      .done :=
  Nest.all_done (KernelMutex.lively (n + 2) true) (ordered n rounds) fair

open Philosophers in
/-- The five philosophers with four rounds, one turn after the other. -/
theorem philosophers_finish_five :
    ∃ k, ∀ i, (((threads 5 4).runTo (start 5 4) (fun k => Fin.ofNat 5 k) k).locals i).pc = .done :=
  philosophers_finish 3 4 (fair_ofNat 4)

end CoreFromDust.User
