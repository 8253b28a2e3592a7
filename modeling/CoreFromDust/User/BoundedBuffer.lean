import CoreFromDust.User.SemaphoreTokens

/-!
# Producers and a consumer

Embedding of `user/src/bin/mpsc_sem.rs`. A turn of a thread is one access to a static variable, one
system call or one `print!`. However the threads are interleaved, the consumer prints what the
producers have stored, in that order, and the threads never wait for each other for ever.
-/

namespace CoreFromDust.User.Mpsc

open CoreFromDust.Lib CoreFromDust.Os

/-- `BUFFER_SIZE`. -/
def bufferSize : Nat := 8

/-- `PRODUCER_COUNT`. -/
def producerCount : Nat := 4

/-- `NUMBER_PER_PRODUCER`. -/
def numberPerProducer : Nat := 100

/-- The threads in the order in which `main` creates them: the last one is the consumer. -/
abbrev Id := Fin (producerCount + 1)

/-- The thread runs `producer`. -/
def isProducer (i : Id) : Bool := i.val < producerCount

/-- `SEM_MUTEX`, `SEM_EMPTY` and `SEM_AVAIL`. -/
inductive Sem where
  | mutex
  | empty
  | avail
  deriving DecidableEq, Repr

/-- The semaphores, the static variables and the output. `stored` is what has been stored to
`BUFFER`, which is no data of the program. -/
structure Shared where
  sem : Sem → Semaphore
  buffer : Nat → Nat
  front : Nat
  tail : Nat
  stored : List Nat
  printed : List Nat

/-- Where a thread is in `semaphore_down`: it makes the call, or it has been blocked. -/
inductive Down where
  | call
  | queued
  deriving DecidableEq, Repr

/-- `semaphore_down`, and whether it has returned. -/
def Shared.down (s : Shared) (x : Sem) (i : Id) : Down → Option (Shared × Bool)
  | .call => some ({ s with sem := Function.update s.sem x ((s.sem x).after (.down i)) },
      decide (¬ (s.sem x).count - 1 < 0))
  | .queued => if i.val ∈ (s.sem x).waitQueue then none else some (s, true)

/-- `semaphore_up`. -/
def Shared.up (s : Shared) (x : Sem) (i : Id) : Shared :=
  { s with sem := Function.update s.sem x ((s.sem x).after (.up i)) }

/-- The index that the thread uses: `TAIL` or `FRONT`. -/
def Shared.index (s : Shared) (i : Id) : Nat := if isProducer i then s.tail else s.front

/-- Where a thread is in a round of `producer` or `consumer`. -/
inductive Pc where
  /-- the first `semaphore_down` -/
  | first (place : Down)
  /-- `semaphore_down(SEM_MUTEX)` -/
  | mutex (place : Down)
  /-- it loads `TAIL` or `FRONT` -/
  | loadIndex
  /-- it stores to `BUFFER[index]`, or loads it -/
  | access (index : Nat)
  /-- the consumer prints -/
  | print (value : Nat)
  /-- it loads `TAIL` or `FRONT` again -/
  | reloadIndex
  /-- it stores `TAIL` or `FRONT` -/
  | storeIndex (index : Nat)
  /-- `semaphore_up(SEM_MUTEX)` -/
  | upMutex
  /-- the last `semaphore_up` -/
  | upLast
  | done
  /-- the index is out of bounds -/
  | panicked
  deriving DecidableEq, Repr

/-- A thread, with the rounds that it has finished. -/
structure Worker where
  finished : Nat
  pc : Pc
  deriving DecidableEq, Repr

/-- The semaphore of the first `semaphore_down`. -/
def first (i : Id) : Sem := if isProducer i then .empty else .avail

/-- The semaphore of the last `semaphore_up`. -/
def last (i : Id) : Sem := if isProducer i then .avail else .empty

/-- The number of rounds. -/
def rounds (i : Id) : Nat :=
  if isProducer i then numberPerProducer else producerCount * numberPerProducer

/-- A thread before a round, if there is one. -/
def nextRound (i : Id) (finished : Nat) : Worker :=
  ⟨finished, if finished < rounds i then .first .call else .done⟩

/-- The next turn of a thread of `producer` or `consumer`. -/
def step (i : Id) (s : Shared) (t : Worker) : Option (Shared × Worker) :=
  match t.pc with
  | .first place => (s.down (first i) i place).map fun (s, returns) =>
      (s, { t with pc := if returns then .mutex .call else .first .queued })
  | .mutex place => (s.down .mutex i place).map fun (s, returns) =>
      (s, { t with pc := if returns then .loadIndex else .mutex .queued })
  | .loadIndex => some (s, { t with pc := .access (s.index i) })
  | .access index =>
      if index < bufferSize then
        if isProducer i then
          some ({ s with
            buffer := Function.update s.buffer index i
            stored := s.stored ++ [i.val] }, { t with pc := .reloadIndex })
        else some (s, { t with pc := .print (s.buffer index) })
      else some (s, { t with pc := .panicked })
  | .print value => some ({ s with printed := s.printed ++ [value] }, { t with pc := .reloadIndex })
  | .reloadIndex => some (s, { t with pc := .storeIndex ((s.index i + 1) % bufferSize) })
  | .storeIndex index =>
      some (if isProducer i then { s with tail := index } else { s with front := index },
        { t with pc := .upMutex })
  | .upMutex => some (s.up .mutex i, { t with pc := .upLast })
  | .upLast => some (s.up (last i) i, nextRound i (t.finished + 1))
  | .done => none
  | .panicked => none

/-- The threads of `mpsc_sem.rs`. -/
def threads : Threads Id Shared Worker := ⟨step⟩

/-- When `main` has created the semaphores and the threads. -/
def start : World Id Shared Worker where
  shared :=
    { sem := fun
        | .mutex => ⟨1, []⟩
        | .empty => ⟨8, []⟩
        | .avail => ⟨0, []⟩
      buffer := fun _ => 0
      front := 0
      tail := 0
      stored := []
      printed := [] }
  locals i := nextRound i 0

/-! ## The invariant -/

/-- What a thread has to do with a semaphore. -/
def use (x : Sem) (i : Id) : Pc → Use
  | .first .queued => if x = first i then .waits else .free
  | .mutex .call => if x = first i then .holds else .free
  | .mutex .queued => if x = first i then .holds else if x = .mutex then .waits else .free
  | .loadIndex | .access _ | .print _ | .reloadIndex | .storeIndex _ =>
      if x = first i ∨ x = .mutex then .holds else .free
  | .upMutex => if x = last i ∨ x = .mutex then .holds else .free
  | .upLast => if x = last i then .holds else .free
  | _ => .free

/-- The tokens of a semaphore when `put` numbers have been put into the buffer and `taken` have been
taken from it. -/
def supply (put taken : Nat) : Sem → Nat
  | .mutex => 1
  | .empty => bufferSize + taken - put
  | .avail => put - taken

/-- The buffer, when so many numbers have been stored and printed. -/
structure Data (put taken stores prints : Nat) (s : Shared) : Prop where
  tail : s.tail = put % bufferSize
  front : s.front = taken % bufferSize
  stored : s.stored.length = stores
  printed : s.printed.length = prints
  contents : ∀ k, taken ≤ k → k < stores → s.stored[k]? = some (s.buffer (k % bufferSize))
  order : s.printed <+: s.stored

/-- The number of those whose index the thread uses. -/
def own (put taken : Nat) (i : Id) : Nat := if isProducer i then put else taken

/-- What a thread between `semaphore_down(SEM_MUTEX)` and `semaphore_up(SEM_MUTEX)` knows; nothing
is said of the other threads. -/
def Within (put taken : Nat) (s : Shared) (i : Id) : Pc → Prop
  | .loadIndex => Data put taken put taken s
  | .access index => Data put taken put taken s ∧ index = own put taken i % bufferSize
  | .print value => Data put taken put taken s ∧ isProducer i = false ∧
      s.stored[taken]? = some value
  | .reloadIndex => Data put taken (put + own 1 0 i) (taken + own 0 1 i) s
  | .storeIndex index => Data put taken (put + own 1 0 i) (taken + own 0 1 i) s ∧
      index = (own put taken i + 1) % bufferSize
  | _ => True

/-- The thread is between its first access to a static variable and its last one. -/
def Pc.InBody : Pc → Prop
  | .loadIndex | .access _ | .print _ | .reloadIndex | .storeIndex _ => True
  | _ => False

/-- The numbers that a thread has stored or printed. -/
def accesses (t : Worker) : Nat :=
  match t.pc with
  | .reloadIndex | .storeIndex _ | .upMutex | .upLast => t.finished + 1
  | _ => t.finished

/-- What holds in all schedules. -/
structure Inv (put taken : Nat) (w : World Id Shared Worker) : Prop where
  tokens : ∀ x, Tokens (w.shared.sem x) (fun i => use x i (w.locals i).pc) (supply put taken x)
  bounds : taken ≤ put ∧ put ≤ taken + bufferSize
  outside : (∀ i, ¬ (w.locals i).pc.InBody) → Data put taken put taken w.shared
  within : ∀ i, Within put taken w.shared i (w.locals i).pc
  producers : ∀ i, isProducer i = true → w.shared.stored.count i.val = accesses (w.locals i)
  values : ∀ v ∈ w.shared.stored, v < producerCount
  consumer : ∀ i, isProducer i = false → w.shared.printed.length = accesses (w.locals i)
  counted : ∀ i, (w.locals i).finished ≤ rounds i ∧
    ((w.locals i).pc = .done ↔ (w.locals i).finished = rounds i)
  calm : ∀ i, (w.locals i).pc ≠ .panicked

section Steps

variable {put taken : Nat} {w : World Id Shared Worker} {s : Shared} {i j : Id} {t : Worker}
  {x : Sem}

theorem within_of_outside {pc : Pc} (outside : ¬ pc.InBody) : Within put taken s i pc := by
  unfold Pc.InBody at outside
  unfold Within
  split <;> simp_all

/-- The semaphores are no matter of the buffer. -/
theorem Data.withSem {stores prints : Nat} (data : Data put taken stores prints s)
    (sem : Sem → Semaphore) : Data put taken stores prints { s with sem := sem } :=
  ⟨data.tail, data.front, data.stored, data.printed, data.contents, data.order⟩

theorem within_withSem {pc : Pc} (within : Within put taken s i pc) (sem : Sem → Semaphore) :
    Within put taken { s with sem := sem } i pc := by
  cases pc with
  | loadIndex => exact within.withSem sem
  | access index => exact ⟨within.1.withSem sem, within.2⟩
  | print value => exact ⟨within.1.withSem sem, within.2⟩
  | reloadIndex => exact within.withSem sem
  | storeIndex index => exact ⟨within.1.withSem sem, within.2⟩
  | _ => trivial

theorem use_body {pc : Pc} (body : pc.InBody) : use .mutex i pc = .holds := by
  unfold Pc.InBody at body
  split at body
  · simp [use]
  · simp [use]
  · simp [use]
  · simp [use]
  · simp [use]
  · exact absurd body id

theorem uses_update (locals : Id → Worker) (i : Id) (t : Worker) :
    (fun j => use x j (Function.update locals i t j).pc) =
      Function.update (fun j => use x j (locals j).pc) i (use x i t.pc) := by
  funext j
  by_cases same : j = i
  · subst same
    rw [Function.update_self, Function.update_self]
  · rw [Function.update_of_ne same, Function.update_of_ne same]

/-- What holds of a thread that changes and of the others. -/
theorem each_update (property : Id → Worker → Prop) (others : ∀ j, j ≠ i → property j (w.locals j))
    (mine : property i t) (j : Id) : property j (Function.update w.locals i t j) := by
  by_cases same : j = i
  · subst same
    rwa [Function.update_self]
  · rw [Function.update_of_ne same]
    exact others j same

/-- One thread at most is between its accesses. -/
theorem Inv.alone (inv : Inv put taken w) (mine : (w.locals i).pc.InBody)
    (other : (w.locals j).pc.InBody) : i = j :=
  (inv.tokens .mutex).alone (.inl (use_body mine)) (.inl (use_body other))

/-- A turn that is a system call. -/
theorem Inv.call (inv : Inv put taken w) {sem : Sem → Semaphore}
    (tokens : ∀ x,
      Tokens (sem x) (Function.update (fun j => use x j (w.locals j).pc) i (use x i t.pc))
      (supply put taken x))
    (wasOutside : ¬ (w.locals i).pc.InBody) (enters : t.pc.InBody → t.pc = .loadIndex)
    (same : accesses t = accesses (w.locals i))
    (counted : t.finished ≤ rounds i ∧ (t.pc = .done ↔ t.finished = rounds i))
    (calm : t.pc ≠ .panicked) :
    Inv put taken ⟨{ w.shared with sem := sem }, Function.update w.locals i t⟩ := by
  have othersOutside : t.pc.InBody → ∀ j, ¬ (w.locals j).pc.InBody := by
    intro body j other
    by_cases mine : j = i
    · exact wasOutside (mine ▸ other)
    · refine mine ((tokens .mutex).alone (.inl ?_) (.inl ?_))
      · rw [Function.update_of_ne mine]
        exact use_body other
      · rw [Function.update_self]
        exact use_body body
  refine ⟨?_, inv.bounds, ?_, ?_, ?_, inv.values, ?_, ?_, ?_⟩
  · intro x
    rw [uses_update]
    exact tokens x
  · intro nobody
    refine (inv.outside fun j body => ?_).withSem sem
    by_cases mine : j = i
    · exact wasOutside (mine ▸ body)
    · have other := nobody j
      dsimp only at other
      rw [Function.update_of_ne mine] at other
      exact other body
  · refine each_update (fun j t => Within put taken { w.shared with sem := sem } j t.pc)
      (fun j _ => within_withSem (inv.within j) sem) ?_
    by_cases body : t.pc.InBody
    · rw [enters body]
      exact (inv.outside (othersOutside body)).withSem sem
    · exact within_of_outside body
  · refine each_update (fun j t => isProducer j = true → w.shared.stored.count j.val = accesses t)
      (fun j _ => inv.producers j) fun producer => ?_
    rw [same]
    exact inv.producers i producer
  · refine each_update (fun j t => isProducer j = false → w.shared.printed.length = accesses t)
      (fun j _ => inv.consumer j) fun consumer => ?_
    rw [same]
    exact inv.consumer i consumer
  · exact each_update (fun j t => t.finished ≤ rounds j ∧ (t.pc = .done ↔ t.finished = rounds j))
      (fun j _ => inv.counted j) counted
  · exact each_update (fun _ t => t.pc ≠ .panicked) (fun j _ => inv.calm j) calm

/-- A turn between the accesses. -/
theorem Inv.access (inv : Inv put taken w) {put' taken' : Nat} (body : (w.locals i).pc.InBody)
    (tokens : ∀ x, Tokens (w.shared.sem x)
      (Function.update (fun j => use x j (w.locals j).pc) i (use x i t.pc)) (supply put' taken' x))
    (sem : s.sem = w.shared.sem) (bounds : taken' ≤ put' ∧ put' ≤ taken' + bufferSize)
    (outside : ¬ t.pc.InBody → Data put' taken' put' taken' s)
    (within : Within put' taken' s i t.pc)
    (producers : ∀ j, isProducer j = true →
      s.stored.count j.val = accesses (Function.update w.locals i t j))
    (values : ∀ v ∈ s.stored, v < producerCount)
    (consumer : ∀ j, isProducer j = false →
      s.printed.length = accesses (Function.update w.locals i t j))
    (notDone : t.pc ≠ .done) (finished : t.finished = (w.locals i).finished)
    (calm : t.pc ≠ .panicked) : Inv put' taken' ⟨s, Function.update w.locals i t⟩ := by
  refine ⟨?_, bounds, ?_, ?_, producers, values, consumer, ?_, ?_⟩
  · intro x
    rw [uses_update]
    dsimp only
    rw [sem]
    exact tokens x
  · intro nobody
    have mine := nobody i
    dsimp only at mine
    rw [Function.update_self] at mine
    exact outside mine
  · refine each_update (fun j t => Within put' taken' s j t.pc)
      (fun j differ => within_of_outside fun other => ?_) within
    exact differ (inv.alone other body)
  · refine each_update (fun j t => t.finished ≤ rounds j ∧ (t.pc = .done ↔ t.finished = rounds j))
      (fun j _ => inv.counted j) ?_
    have before := inv.counted i
    have notDone' : (w.locals i).pc ≠ .done := by
      intro here
      rw [here] at body
      exact body
    rw [finished]
    exact ⟨before.1, iff_of_false notDone fun all => notDone' (before.2.mpr all)⟩
  · exact each_update (fun _ t => t.pc ≠ .panicked) (fun j _ => inv.calm j) calm

/-- A thread changes and has the same to do with a semaphore. -/
theorem Inv.sameUse (inv : Inv put taken w) (same : use x i t.pc = use x i (w.locals i).pc) :
    Tokens (w.shared.sem x) (Function.update (fun j => use x j (w.locals j).pc) i (use x i t.pc))
      (supply put taken x) := by
  rw [same, Function.update_eq_self i fun j => use x j (w.locals j).pc]
  exact inv.tokens x

theorem supply_small (put taken : Nat) (bounds : taken ≤ put ∧ put ≤ taken + bufferSize) (x : Sem) :
    supply put taken x < 2 ^ 32 := by
  have size : bufferSize = 8 := rfl
  cases x with
  | mutex => simp [supply]
  | empty =>
      simp only [supply]
      omega
  | avail =>
      simp only [supply]
      omega

/-- `semaphore_down`: what the other semaphores are for the thread stays. -/
theorem Inv.down (inv : Inv put taken w) {place : Down} {returns : Bool} (queued returned : Worker)
    (call : w.shared.down x i place = some (s, returns))
    (here : use x i (w.locals i).pc = if place = .call then .free else .waits)
    (waits : use x i queued.pc = .waits) (holds : use x i returned.pc = .holds)
    (others : ∀ y, y ≠ x → use y i queued.pc = use y i (w.locals i).pc ∧
      use y i returned.pc = use y i (w.locals i).pc) :
    s = { w.shared with sem := s.sem } ∧ ∀ y, Tokens (s.sem y)
      (Function.update (fun j => use y j (w.locals j).pc) i
        (use y i (if returns then returned else queued).pc)) (supply put taken y) := by
  have sameUse : ∀ y, y ≠ x → use y i (if returns then returned else queued).pc =
      use y i (w.locals i).pc := by
    intro y differ
    split
    · exact (others y differ).2
    · exact (others y differ).1
  cases place with
  | call =>
      simp only [Shared.down, Option.some.injEq, Prod.mk.injEq] at call
      obtain ⟨rfl, rfl⟩ := call
      refine ⟨rfl, fun y => ?_⟩
      by_cases same : y = x
      · subst same
        dsimp only
        rw [Function.update_self]
        have down := (inv.tokens y).down (i := i) (by decide) here
        by_cases blocks : (w.shared.sem y).count - 1 < 0
        · simpa [blocks, waits] using down
        · simpa [blocks, holds] using down
      · dsimp only
        rw [Function.update_of_ne same]
        exact inv.sameUse (sameUse y same)
  | queued =>
      simp only [Shared.down] at call
      split at call
      · simp at call
      · next absent =>
        simp only [Option.some.injEq, Prod.mk.injEq] at call
        obtain ⟨rfl, rfl⟩ := call
        refine ⟨rfl, fun y => ?_⟩
        by_cases same : y = x
        · subst same
          apply (inv.tokens y).change absent
          rw [here, if_pos rfl, holds]
          rfl
        · exact inv.sameUse (sameUse y same)

/-- `semaphore_up`. -/
theorem Inv.up (inv : Inv put taken w) (here : use x i (w.locals i).pc = .holds)
    (free : use x i t.pc = .free) (others : ∀ y, y ≠ x → use y i t.pc = use y i (w.locals i).pc)
    (y : Sem) : Tokens ((w.shared.up x i).sem y)
      (Function.update (fun j => use y j (w.locals j).pc) i (use y i t.pc))
      (supply put taken y) := by
  by_cases same : y = x
  · subst same
    dsimp only [Shared.up]
    rw [Function.update_self, free]
    exact (inv.tokens y).up (supply_small put taken inv.bounds y) here
  · dsimp only [Shared.up]
    rw [Function.update_of_ne same]
    exact inv.sameUse (others y same)

/-! ## Each turn keeps it -/

theorem first_ne_mutex (i : Id) : first i ≠ .mutex := by
  unfold first
  split <;> simp

theorem last_ne_mutex (i : Id) : last i ≠ .mutex := by
  unfold last
  split <;> simp

theorem producer_val (producer : isProducer i = true) : i.val < producerCount :=
  of_decide_eq_true producer

/-- There is one consumer. -/
theorem consumer_unique (first : isProducer i = false) (second : isProducer j = false) : i = j := by
  have small := i.isLt
  have small' := j.isLt
  have last : ¬ i.val < producerCount := of_decide_eq_false first
  have last' : ¬ j.val < producerCount := of_decide_eq_false second
  apply Fin.ext
  omega

/-- Between its accesses a thread has a token of its first semaphore. -/
theorem Inv.supply_first (inv : Inv put taken w) (body : (w.locals i).pc.InBody) :
    0 < supply put taken (first i) := by
  apply (inv.tokens (first i)).supply_pos (i := i)
  refine .inl ?_
  dsimp only
  unfold Pc.InBody at body
  split at body
  · next here => simp [here, use]
  · next here => simp [here, use]
  · next here => simp [here, use]
  · next here => simp [here, use]
  · next here => simp [here, use]
  · exact absurd body id

theorem Data.index {stores prints : Nat} (data : Data put taken stores prints s) :
    s.index i = own put taken i % bufferSize := by
  unfold Shared.index own
  split
  · exact data.tail
  · exact data.front

/-- A producer stores its number. -/
theorem Data.store (data : Data put taken put taken s) (free : put < taken + bufferSize) (v : Nat) :
    Data put taken (put + 1) taken { s with
      buffer := Function.update s.buffer (put % bufferSize) v
      stored := s.stored ++ [v] } := by
  have size : bufferSize = 8 := rfl
  refine ⟨data.tail, data.front, ?_, data.printed, ?_, data.order.trans (List.prefix_append _ _)⟩
  · rw [List.length_append, data.stored]
    rfl
  · intro k above below
    dsimp only
    by_cases last : k = put
    · rw [last, Function.update_self, List.getElem?_append_right (Nat.le_of_eq data.stored),
        data.stored, Nat.sub_self]
      rfl
    · have old : k < put := by omega
      have differ : k % bufferSize ≠ put % bufferSize := by
        rw [size] at free ⊢
        omega
      rw [Function.update_of_ne differ, List.getElem?_append_left (data.stored ▸ old)]
      exact data.contents k above old

/-- The consumer prints what comes next. -/
theorem Data.print {v : Nat} (data : Data put taken put taken s)
    (next : s.stored[taken]? = some v) :
    Data put taken put (taken + 1) { s with printed := s.printed ++ [v] } := by
  refine ⟨data.tail, data.front, data.stored, ?_, data.contents, ?_⟩
  · rw [List.length_append, data.printed]
    rfl
  · obtain ⟨rest, eq⟩ := data.order
    rw [← eq, List.getElem?_append_right (Nat.le_of_eq data.printed), data.printed,
      Nat.sub_self] at next
    cases rest with
    | nil => simp at next
    | cons value rest =>
        obtain rfl : value = v := by simpa using next
        exact ⟨rest, by rw [← eq, List.append_assoc]; rfl⟩

/-- The index is stored. -/
theorem Data.storeIndex {index : Nat}
    (data : Data put taken (put + own 1 0 i) (taken + own 0 1 i) s)
    (next : index = (own put taken i + 1) % bufferSize) :
    Data (put + own 1 0 i) (taken + own 0 1 i) (put + own 1 0 i) (taken + own 0 1 i)
      (if isProducer i then { s with tail := index } else { s with front := index }) := by
  cases producer : isProducer i with
  | true =>
      simp only [own, producer, if_true] at *
      exact ⟨next, data.front, data.stored, data.printed, data.contents, data.order⟩
  | false =>
      simp only [own, producer] at *
      exact ⟨data.tail, next, data.stored, data.printed,
        fun k above => data.contents k (Nat.le_of_succ_le above), data.order⟩

theorem Inv.firstDown (inv : Inv put taken w) {place : Down} (here : (w.locals i).pc = .first place)
    (takes : step i w.shared (w.locals i) = some (s, t)) :
    Inv put taken ⟨s, Function.update w.locals i t⟩ := by
  simp only [step, here] at takes
  obtain ⟨⟨s₁, returns⟩, call, eq⟩ := Option.map_eq_some_iff.mp takes
  simp only [Prod.mk.injEq] at eq
  obtain ⟨rfl, rfl⟩ := eq
  obtain ⟨same, tokens⟩ := inv.down { w.locals i with pc := .first .queued }
    { w.locals i with pc := .mutex .call } call (by rw [here]; cases place <;> simp [use])
    (by simp [use]) (by simp [use]) (by
      intro y differ
      rw [here]
      cases place <;> simp [use, differ])
  rw [same]
  have counted := inv.counted i
  rw [here] at counted
  cases returns with
  | true =>
      exact inv.call tokens
        (by simp [here, Pc.InBody]) (by simp [Pc.InBody]) (by simp [accesses, here])
        (by simpa using counted) (by simp)
  | false =>
      exact inv.call tokens
        (by simp [here, Pc.InBody]) (by simp [Pc.InBody]) (by simp [accesses, here])
        (by simpa using counted) (by simp)

theorem Inv.mutexDown (inv : Inv put taken w) {place : Down} (here : (w.locals i).pc = .mutex place)
    (takes : step i w.shared (w.locals i) = some (s, t)) :
    Inv put taken ⟨s, Function.update w.locals i t⟩ := by
  simp only [step, here] at takes
  obtain ⟨⟨s₁, returns⟩, call, eq⟩ := Option.map_eq_some_iff.mp takes
  simp only [Prod.mk.injEq] at eq
  obtain ⟨rfl, rfl⟩ := eq
  have differs := (first_ne_mutex i).symm
  obtain ⟨same, tokens⟩ := inv.down { w.locals i with pc := .mutex .queued }
    { w.locals i with pc := .loadIndex } call (by rw [here]; cases place <;> simp [use, differs])
    (by simp [use, differs]) (by simp [use]) (by
      intro y differ
      rw [here]
      cases place <;> simp [use, differ])
  rw [same]
  have counted := inv.counted i
  rw [here] at counted
  cases returns with
  | true =>
      exact inv.call tokens (by simp [here, Pc.InBody]) (by simp) (by simp [accesses, here])
        (by simpa using counted) (by simp)
  | false =>
      exact inv.call tokens
        (by simp [here, Pc.InBody]) (by simp [Pc.InBody]) (by simp [accesses, here])
        (by simpa using counted) (by simp)

/-- A turn between the accesses that neither stores to the buffer nor prints nor moves an index. -/
theorem Inv.quiet (inv : Inv put taken w) (body : (w.locals i).pc.InBody)
    (same : ∀ x, use x i t.pc = use x i (w.locals i).pc) (isIn : t.pc.InBody)
    (within : Within put taken w.shared i t.pc) (accessed : accesses t = accesses (w.locals i))
    (finished : t.finished = (w.locals i).finished) :
    Inv put taken ⟨w.shared, Function.update w.locals i t⟩ := by
  refine inv.access body (fun x => inv.sameUse (same x)) rfl inv.bounds
    (fun outside => absurd isIn outside) within ?_ inv.values ?_ ?_ finished ?_
  · refine each_update (fun j t => isProducer j = true → w.shared.stored.count j.val = accesses t)
      (fun j _ => inv.producers j) fun producer => ?_
    rw [accessed]
    exact inv.producers i producer
  · refine each_update (fun j t => isProducer j = false → w.shared.printed.length = accesses t)
      (fun j _ => inv.consumer j) fun consumer => ?_
    rw [accessed]
    exact inv.consumer i consumer
  · intro done
    rw [done] at isIn
    exact isIn
  · intro panicked
    rw [panicked] at isIn
    exact isIn

theorem Inv.load (inv : Inv put taken w) (here : (w.locals i).pc = .loadIndex)
    (takes : step i w.shared (w.locals i) = some (s, t)) :
    Inv put taken ⟨s, Function.update w.locals i t⟩ := by
  have within := inv.within i
  rw [here] at within
  simp only [step, here, Option.some.injEq, Prod.mk.injEq] at takes
  obtain ⟨rfl, rfl⟩ := takes
  apply inv.quiet
  · simp [here, Pc.InBody]
  · intro x
    simp [here, use]
  · trivial
  · exact ⟨within, Data.index within⟩
  · simp [accesses, here]
  · rfl

theorem Inv.reload (inv : Inv put taken w) (here : (w.locals i).pc = .reloadIndex)
    (takes : step i w.shared (w.locals i) = some (s, t)) :
    Inv put taken ⟨s, Function.update w.locals i t⟩ := by
  have within := inv.within i
  rw [here] at within
  simp only [step, here, Option.some.injEq, Prod.mk.injEq] at takes
  obtain ⟨rfl, rfl⟩ := takes
  apply inv.quiet
  · simp [here, Pc.InBody]
  · intro x
    simp [here, use]
  · trivial
  · refine ⟨within, ?_⟩
    rw [Data.index within, Nat.mod_add_mod]
  · simp [accesses, here]
  · rfl

theorem Inv.accessBuffer (inv : Inv put taken w) {index : Nat}
    (here : (w.locals i).pc = .access index)
    (takes : step i w.shared (w.locals i) = some (s, t)) :
    Inv put taken ⟨s, Function.update w.locals i t⟩ := by
  have within := inv.within i
  rw [here] at within
  obtain ⟨data, rfl⟩ := within
  have body : (w.locals i).pc.InBody := by
    rw [here]
    trivial
  have inside : own put taken i % bufferSize < bufferSize := Nat.mod_lt _ (by decide)
  have token := inv.supply_first body
  simp only [step, here, inside, if_true] at takes
  cases producer : isProducer i with
  | true =>
      have mine : own put taken i = put := if_pos producer
      simp only [producer, if_true, Option.some.injEq, Prod.mk.injEq, mine] at takes
      obtain ⟨rfl, rfl⟩ := takes
      have free : put < taken + bufferSize := by
        simp only [first, producer, if_true, supply] at token
        omega
      refine inv.access body (fun x => inv.sameUse (by simp [here, use])) rfl inv.bounds
        (fun outside => absurd trivial outside) ?_ ?_ ?_ ?_ (by simp) rfl (by simp)
      · simp only [Within, own, producer, if_true]
        exact data.store free i.val
      · refine each_update (fun j t => isProducer j = true →
          (w.shared.stored ++ [i.val]).count j.val = accesses t) ?_ ?_
        · intro j differ producer'
          have other : i.val ≠ j.val := fun same => differ (Fin.ext same.symm)
          rw [List.count_append, List.count_singleton, inv.producers j producer']
          simp [other]
        · intro _
          rw [List.count_append, inv.producers i producer]
          simp [accesses, here]
      · intro v mem
        rcases List.mem_append.mp mem with old | new
        · exact inv.values v old
        · rw [List.mem_singleton.mp new]
          exact producer_val producer
      · refine each_update (fun j t => isProducer j = false →
          w.shared.printed.length = accesses t) (fun j _ => inv.consumer j) fun consumer => ?_
        rw [producer] at consumer
        simp at consumer
  | false =>
      have mine : own put taken i = taken := by simp [own, producer]
      simp only [producer, mine] at takes
      obtain ⟨rfl, rfl⟩ := takes
      have some : taken < put := by
        simp only [first, producer, supply] at token
        exact Nat.lt_of_sub_pos token
      apply inv.quiet body
      · intro x
        simp [here, use]
      · trivial
      · exact ⟨data, producer, data.contents taken (Nat.le_refl _) some⟩
      · simp [accesses, here]
      · rfl

theorem Inv.printValue (inv : Inv put taken w) {value : Nat}
    (here : (w.locals i).pc = .print value)
    (takes : step i w.shared (w.locals i) = some (s, t)) :
    Inv put taken ⟨s, Function.update w.locals i t⟩ := by
  have within := inv.within i
  rw [here] at within
  obtain ⟨data, consumer, next⟩ := within
  simp only [step, here, Option.some.injEq, Prod.mk.injEq] at takes
  obtain ⟨rfl, rfl⟩ := takes
  refine inv.access (by rw [here]; trivial) (fun x => inv.sameUse (by simp [here, use])) rfl
    inv.bounds (fun outside => absurd trivial outside) ?_ ?_ inv.values ?_ (by simp) rfl (by simp)
  · simp only [Within, own, consumer]
    exact data.print next
  · refine each_update (fun j t => isProducer j = true → w.shared.stored.count j.val = accesses t)
      (fun j _ => inv.producers j) fun producer => ?_
    rw [consumer] at producer
    simp at producer
  · refine each_update (fun j t => isProducer j = false →
      (w.shared.printed ++ [value]).length = accesses t) ?_ ?_
    · intro j differ consumer'
      exact absurd (consumer_unique consumer' consumer) differ
    · intro _
      rw [List.length_append, inv.consumer i consumer]
      simp [accesses, here]

/-- A number that has been put or taken is a token of the other semaphore. -/
theorem supply_store {index : Nat} (bounds : taken ≤ put ∧ put ≤ taken + bufferSize)
    (token : 0 < supply put taken (first i)) (x : Sem) :
    supply (put + own 1 0 i) (taken + own 0 1 i) x + (use x i (.storeIndex index)).engaged =
      supply put taken x + (use x i .upMutex).engaged := by
  cases producer : isProducer i with
  | true =>
      simp only [first, producer, if_true, supply] at token
      cases x with
      | mutex => simp [supply, use]
      | empty =>
          simp [supply, use, first, last, own, producer, Use.engaged]
          omega
      | avail =>
          simp [supply, use, first, last, own, producer, Use.engaged]
          omega
  | false =>
      simp only [first, producer, supply] at token
      cases x with
      | mutex => simp [supply, use]
      | empty =>
          simp [supply, use, first, last, own, producer, Use.engaged]
          omega
      | avail =>
          have some : taken < put := Nat.lt_of_sub_pos token
          simp [supply, use, first, last, own, producer, Use.engaged]
          omega

theorem bounds_store (bounds : taken ≤ put ∧ put ≤ taken + bufferSize)
    (token : 0 < supply put taken (first i)) : taken + own 0 1 i ≤ put + own 1 0 i ∧
      put + own 1 0 i ≤ taken + own 0 1 i + bufferSize := by
  cases producer : isProducer i with
  | true =>
      simp only [first, producer, if_true, supply] at token
      simp only [own, producer, if_true]
      omega
  | false =>
      simp only [first, producer, supply] at token
      have some : taken < put := Nat.lt_of_sub_pos token
      simp [own, producer]
      omega

theorem Inv.storeIndex (inv : Inv put taken w) {index : Nat}
    (here : (w.locals i).pc = .storeIndex index)
    (takes : step i w.shared (w.locals i) = some (s, t)) :
    Inv (put + own 1 0 i) (taken + own 0 1 i) ⟨s, Function.update w.locals i t⟩ := by
  have within := inv.within i
  rw [here] at within
  obtain ⟨data, next⟩ := within
  have body : (w.locals i).pc.InBody := by
    rw [here]
    trivial
  have token := inv.supply_first body
  simp only [step, here, Option.some.injEq, Prod.mk.injEq] at takes
  obtain ⟨rfl, rfl⟩ := takes
  have stored : (if isProducer i then { w.shared with tail := index }
      else { w.shared with front := index }).stored = w.shared.stored := by split <;> rfl
  have printed : (if isProducer i then { w.shared with tail := index }
      else { w.shared with front := index }).printed = w.shared.printed := by split <;> rfl
  have bounds := inv.bounds
  refine inv.access body ?_ ?_ ?_ (fun _ => data.storeIndex next) trivial ?_ ?_ ?_ (by simp) rfl
    (by simp)
  · intro x
    have absent : i.val ∉ (w.shared.sem x).waitQueue := by
      apply (inv.tokens x).notQueued
      simp only [here, use]
      split <;> simp
    apply (inv.tokens x).change absent
    dsimp only
    rw [here]
    exact supply_store bounds token x
  · split <;> rfl
  · exact bounds_store bounds token
  · rw [stored]
    refine each_update (fun j t => isProducer j = true → w.shared.stored.count j.val = accesses t)
      (fun j _ => inv.producers j) fun producer => ?_
    rw [inv.producers i producer]
    simp [accesses, here]
  · rw [stored]
    exact inv.values
  · rw [printed]
    refine each_update (fun j t => isProducer j = false → w.shared.printed.length = accesses t)
      (fun j _ => inv.consumer j) fun consumer => ?_
    rw [inv.consumer i consumer]
    simp [accesses, here]

theorem Inv.mutexUp (inv : Inv put taken w) (here : (w.locals i).pc = .upMutex)
    (takes : step i w.shared (w.locals i) = some (s, t)) :
    Inv put taken ⟨s, Function.update w.locals i t⟩ := by
  simp only [step, here, Option.some.injEq, Prod.mk.injEq] at takes
  obtain ⟨rfl, rfl⟩ := takes
  have differs := (last_ne_mutex i).symm
  have counted := inv.counted i
  rw [here] at counted
  apply inv.call
  · apply inv.up
    · simp [here, use]
    · simp [use, differs]
    · intro y differ
      simp [here, use, differ]
  · simp [here, Pc.InBody]
  · simp [Pc.InBody]
  · simp [accesses, here]
  · simpa using counted
  · simp

theorem accesses_nextRound (i : Id) (finished : Nat) :
    accesses (nextRound i finished) = finished := by
  unfold nextRound accesses
  by_cases more : finished < rounds i <;> simp [more]

theorem Inv.lastUp (inv : Inv put taken w) (here : (w.locals i).pc = .upLast)
    (takes : step i w.shared (w.locals i) = some (s, t)) :
    Inv put taken ⟨s, Function.update w.locals i t⟩ := by
  simp only [step, here, Option.some.injEq, Prod.mk.injEq] at takes
  obtain ⟨rfl, rfl⟩ := takes
  obtain ⟨le, done⟩ := inv.counted i
  have more : (w.locals i).finished ≠ rounds i := by
    intro all
    rw [here] at done
    simpa using done.mpr all
  have idle : ∀ x, use x i (nextRound i ((w.locals i).finished + 1)).pc = .free := by
    intro x
    unfold nextRound
    split <;> rfl
  apply inv.call
  · apply inv.up
    · simp [here, use]
    · exact idle _
    · intro y differ
      rw [idle]
      simp [here, use, differ]
  · simp [here, Pc.InBody]
  · intro body
    unfold nextRound at body
    split at body <;> exact absurd body id
  · rw [accesses_nextRound, accesses, here]
  · refine ⟨Nat.lt_of_le_of_ne le more, ?_⟩
    unfold nextRound
    dsimp only
    split
    · next less => exact iff_of_false (by simp) (Nat.ne_of_lt less)
    · next all =>
      exact iff_of_true rfl (Nat.le_antisymm (Nat.lt_of_le_of_ne le more) (Nat.le_of_not_lt all))
  · unfold nextRound
    split <;> simp

/-- Every turn keeps the invariant. -/
theorem Inv.turn (inv : Inv put taken w) (takes : step i w.shared (w.locals i) = some (s, t)) :
    ∃ put' taken', Inv put' taken' ⟨s, Function.update w.locals i t⟩ := by
  cases here : (w.locals i).pc with
  | first place => exact ⟨_, _, inv.firstDown here takes⟩
  | mutex place => exact ⟨_, _, inv.mutexDown here takes⟩
  | loadIndex => exact ⟨_, _, inv.load here takes⟩
  | access index => exact ⟨_, _, inv.accessBuffer here takes⟩
  | print value => exact ⟨_, _, inv.printValue here takes⟩
  | reloadIndex => exact ⟨_, _, inv.reload here takes⟩
  | storeIndex index => exact ⟨_, _, inv.storeIndex here takes⟩
  | upMutex => exact ⟨_, _, inv.mutexUp here takes⟩
  | upLast => exact ⟨_, _, inv.lastUp here takes⟩
  | done => simp [step, here] at takes
  | panicked => simp [step, here] at takes

end Steps

/-! ## Runs -/

theorem inv_start : Inv 0 0 start := by
  have idle : ∀ i, (start.locals i).pc = .first .call := by decide
  have free : ∀ x i, use x i (start.locals i).pc = .free := by
    intro x i
    rw [idle]
    rfl
  refine ⟨?_, by decide, ?_, ?_, ?_, by simp [start], ?_, by decide, ?_⟩
  · intro x
    cases x with
    | mutex => exact .first rfl (free .mutex)
    | empty => exact .first rfl (free .empty)
    | avail => exact .first rfl (free .avail)
  · intro _
    exact ⟨rfl, rfl, rfl, rfl, fun k _ none => absurd none (Nat.not_lt_zero k), List.nil_prefix⟩
  · intro i
    rw [idle]
    trivial
  · intro i _
    rw [accesses, idle]
    rfl
  · intro i _
    rw [accesses, idle]
    rfl
  · intro i
    rw [idle]
    simp

/-- The invariant holds in all schedules. -/
theorem inv_run (schedule : List Id) : ∃ put taken, Inv put taken (threads.run start schedule) := by
  refine Threads.run_keeps (fun w => ∃ put taken, Inv put taken w) ⟨0, 0, inv_start⟩ ?_ schedule
  rintro w i s t ⟨put, taken, inv⟩ takes
  exact inv.turn takes

section Results

variable {put taken : Nat} {w : World Id Shared Worker} {i : Id}

/-- The buffer at any moment. -/
theorem Inv.data (inv : Inv put taken w) : ∃ stores prints, Data put taken stores prints w.shared ∧
    stores ≤ prints + bufferSize := by
  by_cases nobody : ∀ i, ¬ (w.locals i).pc.InBody
  · exact ⟨put, taken, inv.outside nobody, inv.bounds.2⟩
  · simp only [not_forall, not_not] at nobody
    obtain ⟨i, body⟩ := nobody
    have within := inv.within i
    have token := bounds_store inv.bounds (inv.supply_first body)
    have after : put + own 1 0 i ≤ taken + own 0 1 i + bufferSize := token.2
    cases here : (w.locals i).pc with
    | loadIndex =>
        rw [here] at within
        exact ⟨_, _, within, inv.bounds.2⟩
    | access index =>
        rw [here] at within
        exact ⟨_, _, within.1, inv.bounds.2⟩
    | print value =>
        rw [here] at within
        exact ⟨_, _, within.1, inv.bounds.2⟩
    | reloadIndex =>
        rw [here] at within
        exact ⟨_, _, within, after⟩
    | storeIndex index =>
        rw [here] at within
        exact ⟨_, _, within.1, after⟩
    | _ =>
        rw [here] at body
        exact absurd body id

/-- Every stored number is the one of a producer. -/
theorem Inv.stored_length (inv : Inv put taken w) : w.shared.stored.length =
    ∑ v ∈ Finset.range producerCount, w.shared.stored.count v := by
  have total := Multiset.sum_count_eq_card (m := (w.shared.stored : Multiset Nat)) fun v mem =>
    Finset.mem_range.mpr (inv.values v mem)
  simpa using total.symm

/-- What the consumer has printed when all threads are done. -/
theorem Inv.all_done (inv : Inv put taken w) (done : ∀ i, (w.locals i).pc = .done) :
    w.shared.printed = w.shared.stored ∧
      ∀ i, isProducer i = true → w.shared.printed.count i.val = numberPerProducer := by
  have counted : ∀ i, accesses (w.locals i) = rounds i := by
    intro i
    rw [accesses, done i]
    exact (inv.counted i).2.mp (done i)
  have data := inv.outside fun i body => by
    rw [done i] at body
    exact body
  have producers : ∀ i, isProducer i = true → w.shared.stored.count i.val = numberPerProducer := by
    intro i producer
    rw [inv.producers i producer, counted, rounds, if_pos producer]
  have each : ∀ v ∈ Finset.range producerCount, w.shared.stored.count v = numberPerProducer := by
    intro v mem
    have small := Finset.mem_range.mp mem
    exact producers ⟨v, Nat.lt_succ_of_lt small⟩ (decide_eq_true small)
  have consumer := inv.consumer (Fin.last producerCount) (by decide)
  have lengths : w.shared.printed.length = w.shared.stored.length := by
    rw [inv.stored_length, Finset.sum_congr rfl each, consumer, counted]
    decide
  have same := data.order.eq_of_length lengths
  exact ⟨same, fun i producer => same ▸ producers i producer⟩

/-! ## Nobody waits for ever -/

/-- A thread that has no turn is done or waits in the queue of a semaphore. -/
theorem step_none {s : Shared} {t : Worker} (none : step i s t = none) :
    t.pc = .done ∨ t.pc = .panicked ∨
      (t.pc = .first .queued ∧ i.val ∈ (s.sem (first i)).waitQueue) ∨
      (t.pc = .mutex .queued ∧ i.val ∈ (s.sem .mutex).waitQueue) := by
  cases here : t.pc with
  | first place =>
      cases place with
      | call => simp [step, here, Shared.down] at none
      | queued => simpa [step, here, Shared.down] using none
  | mutex place =>
      cases place with
      | call => simp [step, here, Shared.down] at none
      | queued => simpa [step, here, Shared.down] using none
  | access index =>
      simp only [step, here] at none
      split at none
      · split at none <;> simp at none
      · simp at none
  | done => exact .inl rfl
  | panicked => exact .inr (.inl rfl)
  | _ => simp [step, here] at none

/-- When no thread has a turn, each is done or waits in the queue of its first semaphore, of which
there is no token. -/
theorem Inv.waiting (inv : Inv put taken w) (stuck : ∀ i, step i w.shared (w.locals i) = none)
    (i : Id) : (w.locals i).pc = .done ∨
      (w.locals i).pc = .first .queued ∧ supply put taken (first i) = 0 := by
  -- whoever has the mutex has a turn
  have noMutex :
      ∀ j, ¬ Granted (w.shared.sem .mutex) (fun i => use .mutex i (w.locals i).pc) j := by
    intro j has
    have differs := (first_ne_mutex j).symm
    rcases step_none (stuck j) with here | here | ⟨here, -⟩ | ⟨here, queued⟩
    · simp [Granted, here, use] at has
    · simp [Granted, here, use] at has
    · simp [Granted, here, use, differs] at has
    · simp [Granted, here, use, differs, queued] at has
  have places : ∀ j, (w.locals j).pc = .done ∨
      (w.locals j).pc = .first .queued ∧ j.val ∈ (w.shared.sem (first j)).waitQueue := by
    intro j
    rcases step_none (stuck j) with here | here | here | ⟨here, queued⟩
    · exact .inl here
    · exact absurd here (inv.calm j)
    · exact .inr here
    · obtain ⟨l, has⟩ :=
        (inv.tokens .mutex).taken queued (Nat.one_pos : 0 < supply put taken .mutex)
      exact absurd has (noMutex l)
  have noToken : ∀ x j, ¬ Granted (w.shared.sem x) (fun i => use x i (w.locals i).pc) j := by
    intro x j has
    rcases places j with here | ⟨here, queued⟩
    · simp [Granted, here, use] at has
    · by_cases same : x = first j
      · subst same
        simp [Granted, here, use, queued] at has
      · simp [Granted, here, use, same] at has
  rcases places i with here | ⟨here, queued⟩
  · exact .inl here
  · refine .inr ⟨here, ?_⟩
    by_contra some
    obtain ⟨j, has⟩ := (inv.tokens (first i)).taken queued (Nat.pos_of_ne_zero some)
    exact noToken _ j has

/-- When no thread has a turn, all are done. -/
theorem Inv.stuck (inv : Inv put taken w) (stuck : ∀ i, step i w.shared (w.locals i) = none)
    (i : Id) : (w.locals i).pc = .done := by
  have waiting := inv.waiting stuck
  have size : bufferSize = 8 := rfl
  have data := inv.outside fun j body => by
    rcases waiting j with here | ⟨here, -⟩ <;> rw [here] at body <;> exact body
  have accessed : ∀ j, accesses (w.locals j) = (w.locals j).finished := by
    intro j
    rcases waiting j with here | ⟨here, -⟩ <;> rw [accesses, here]
  have counts : ∀ v, v < producerCount → w.shared.stored.count v ≤ numberPerProducer := by
    intro v small
    have producer : isProducer ⟨v, Nat.lt_succ_of_lt small⟩ = true := decide_eq_true small
    rw [inv.producers _ producer, accessed]
    exact (inv.counted _).1.trans (Nat.le_of_eq (if_pos producer))
  have put_le : put ≤ producerCount * numberPerProducer := by
    rw [← data.stored, inv.stored_length]
    have total := Finset.sum_le_card_nsmul (Finset.range producerCount)
      (fun v => w.shared.stored.count v) numberPerProducer fun v mem =>
        counts v (Finset.mem_range.mp mem)
    simpa using total
  have consumer : ∀ j, isProducer j = false → taken = (w.locals j).finished ∧
      rounds j = producerCount * numberPerProducer := by
    intro j isConsumer
    refine ⟨?_, by simp [rounds, isConsumer]⟩
    rw [← data.printed, inv.consumer j isConsumer, accessed]
  have bounds := inv.bounds
  rcases waiting i with here | ⟨here, none⟩
  · exact here
  · exfalso
    cases producer : isProducer i with
    | true =>
        simp only [first, producer, if_true, supply] at none
        have isConsumer : isProducer (Fin.last producerCount) = false := by decide
        obtain ⟨taken_eq, all⟩ := consumer _ isConsumer
        rcases waiting (Fin.last producerCount) with done | ⟨-, none'⟩
        · rw [(inv.counted _).2.mp done, all] at taken_eq
          omega
        · simp only [first, isConsumer, supply] at none'
          have le : put ≤ taken := Nat.le_of_sub_eq_zero none'
          omega
    | false =>
        simp only [first, producer, supply] at none
        have le : put ≤ taken := Nat.le_of_sub_eq_zero none
        obtain ⟨taken_eq, all⟩ := consumer i producer
        have each : ∀ v ∈ Finset.range producerCount,
            w.shared.stored.count v = numberPerProducer := by
          intro v mem
          have small := Finset.mem_range.mp mem
          have isProducer' : isProducer ⟨v, Nat.lt_succ_of_lt small⟩ = true := decide_eq_true small
          rw [inv.producers _ isProducer', accessed]
          rcases waiting ⟨v, Nat.lt_succ_of_lt small⟩ with done | ⟨-, none'⟩
          · rw [(inv.counted _).2.mp done, rounds, if_pos isProducer']
          · simp only [first, isProducer', if_true, supply] at none'
            omega
        have total : put = producerCount * numberPerProducer := by
          rw [← data.stored, inv.stored_length, Finset.sum_congr rfl each]
          simp
        have done := (inv.counted i).2.mpr (by omega)
        rw [here] at done
        simp at done

end Results

/-- The turns that a thread may still have, 11 in each round. -/
def rank (i : Id) (t : Worker) : Nat :=
  match t.pc with
  | .first .call => 11 * (rounds i - t.finished) + 11
  | .first .queued => 11 * (rounds i - t.finished) + 10
  | .mutex .call => 11 * (rounds i - t.finished) + 9
  | .mutex .queued => 11 * (rounds i - t.finished) + 8
  | .loadIndex => 11 * (rounds i - t.finished) + 7
  | .access _ => 11 * (rounds i - t.finished) + 6
  | .print _ => 11 * (rounds i - t.finished) + 5
  | .reloadIndex => 11 * (rounds i - t.finished) + 4
  | .storeIndex _ => 11 * (rounds i - t.finished) + 3
  | .upMutex => 11 * (rounds i - t.finished) + 2
  | .upLast => 11 * (rounds i - t.finished) + 1
  | .done => 0
  | .panicked => 0

theorem rank_nextRound (i : Id) (t : Worker) (here : t.pc = .upLast) :
    rank i (nextRound i (t.finished + 1)) < rank i t := by
  have before : rank i t = 11 * (rounds i - t.finished) + 1 := by rw [rank, here]
  unfold nextRound
  rw [before]
  split
  · next more =>
    simp only [rank]
    omega
  · simp only [rank]
    omega

theorem rank_falls (i : Id) (s : Shared) (t : Worker) (s' : Shared) (t' : Worker)
    (takes : step i s t = some (s', t')) : rank i t' < rank i t := by
  cases here : t.pc with
  | first place =>
      simp only [step, here] at takes
      obtain ⟨⟨s₁, returns⟩, call, eq⟩ := Option.map_eq_some_iff.mp takes
      simp only [Prod.mk.injEq] at eq
      obtain ⟨rfl, rfl⟩ := eq
      cases place with
      | call => cases returns <;> simp [rank, here]
      | queued =>
          simp only [Shared.down] at call
          split at call
          · simp at call
          · simp only [Option.some.injEq, Prod.mk.injEq] at call
            simp [rank, here, ← call.2]
  | mutex place =>
      simp only [step, here] at takes
      obtain ⟨⟨s₁, returns⟩, call, eq⟩ := Option.map_eq_some_iff.mp takes
      simp only [Prod.mk.injEq] at eq
      obtain ⟨rfl, rfl⟩ := eq
      cases place with
      | call => cases returns <;> simp [rank, here]
      | queued =>
          simp only [Shared.down] at call
          split at call
          · simp at call
          · simp only [Option.some.injEq, Prod.mk.injEq] at call
            simp [rank, here, ← call.2]
  | access index =>
      simp only [step, here] at takes
      split at takes
      · split at takes
        · simp only [Option.some.injEq, Prod.mk.injEq] at takes
          simp [rank, here, ← takes.2]
        · simp only [Option.some.injEq, Prod.mk.injEq] at takes
          simp [rank, here, ← takes.2]
      · simp only [Option.some.injEq, Prod.mk.injEq] at takes
        simp [rank, here, ← takes.2]
  | upLast =>
      simp only [step, here, Option.some.injEq, Prod.mk.injEq] at takes
      rw [← takes.2]
      exact rank_nextRound i t here
  | done => simp [step, here] at takes
  | panicked => simp [step, here] at takes
  | _ =>
      simp only [step, here, Option.some.injEq, Prod.mk.injEq] at takes
      simp [rank, here, ← takes.2]

/-! ## The program -/

/-- In every schedule: no index is out of bounds, the consumer prints what has been stored to the
buffer in that order, nothing is overwritten before it is printed, and when all threads are done
everything has been printed, the number of each producer as often as it has been stored. -/
theorem mpsc_in_order (schedule : List Id) :
    let w := threads.run start schedule
    (∀ i, (w.locals i).pc ≠ .panicked) ∧ w.shared.printed <+: w.shared.stored ∧
      w.shared.stored.length ≤ w.shared.printed.length + bufferSize ∧
      ((∀ i, (w.locals i).pc = .done) → w.shared.printed = w.shared.stored ∧
        ∀ i, isProducer i = true → w.shared.printed.count i.val = numberPerProducer) := by
  intro w
  obtain ⟨put, taken, inv⟩ := inv_run schedule
  obtain ⟨stores, prints, data, le⟩ := inv.data
  refine ⟨inv.calm, data.order, ?_, inv.all_done⟩
  rw [data.stored, data.printed]
  exact le

/-- In every schedule: while a thread is not done, some thread has a turn, and the threads are done
after so many turns that take place. -/
theorem mpsc_finishes (schedule : List Id) :
    let w := threads.run start schedule
    ((∀ i, (w.locals i).pc = .done) ∨ ∃ i, (step i w.shared (w.locals i)).isSome = true) ∧
      (threads.Takes start schedule → schedule.length ≤ ∑ i, 11 * (rounds i + 1)) := by
  intro w
  obtain ⟨put, taken, inv⟩ := inv_run schedule
  constructor
  · by_cases moves : ∃ i, (step i w.shared (w.locals i)).isSome = true
    · exact .inr moves
    · refine .inl (inv.stuck fun i => ?_)
      rw [← Option.not_isSome_iff_eq_none]
      exact fun isSome => moves ⟨i, isSome⟩
  · intro takes
    have total := Threads.length_le_rank rank rank_falls takes
    have each : ∀ i, rank i (start.locals i) = 11 * (rounds i + 1) := by decide
    rwa [Finset.sum_congr rfl fun i _ => each i] at total

end CoreFromDust.User.Mpsc
