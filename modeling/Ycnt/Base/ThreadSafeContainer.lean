import Mathlib.Logic.Function.Basic
import Ycnt.Lib.Lts
/-!
# The blocking queues

`BlockingQueue` and `BoundedBlockingQueue` (`ThreadSafeContainer.h`). Every
member function works under `mutex_` from its first line to its last, so a step
of the model is one lock-protected section: a whole call, or the part of `push`
or `pop` from the (re)test of its loop to the next `wait` or the return.

A condition variable is the set of the threads asleep on it. `notify_all` makes
them `Awake`: they still have to lock `mutex_` again and retest the loop, which
is a later step (`resume`). `spurious` wakes a sleeper without a notification.
-/

namespace Ycnt

open Function

/-- Where a thread stands between two sections of a queue's member functions. -/
inductive QueuePc (α : Type*) where
  | idle
  /-- Asleep on `notFull_` in `push(x)`. -/
  | pushAsleep (x : α)
  | pushAwake (x : α)
  /-- Asleep in `pop`, on `notEmpty_` (`cv_` in `BlockingQueue`). -/
  | popAsleep
  | popAwake

/-- What the thread is about to push. -/
def QueuePc.pushing {α : Type*} : QueuePc α → Option α
  | .pushAsleep x | .pushAwake x => some x
  | _ => none

def QueuePc.popping {α : Type*} : QueuePc α → Bool
  | .popAsleep | .popAwake => true
  | _ => false

inductive QueueOp (α : Type*) where
  | push (x : α)
  | pop
  | tryPop
  | popAll

inductive QueueLabel (τ α : Type*) where
  /-- A thread outside the queue calls a member function. -/
  | call (t : τ) (op : QueueOp α)
  /-- A woken thread locks `mutex_` again and goes on in its loop. -/
  | resume (t : τ)
  | spurious (t : τ)

/-- `queue_`, the threads, and two histories: the elements pushed, in the order
of the sections that pushed them, and the elements removed, with their takers. -/
structure QueueState (τ α : Type*) where
  queue : List α
  thread : τ → QueuePc α
  pushed : List α
  removed : List (τ × α)

namespace QueueState

variable {τ α : Type*} [DecidableEq τ] (full : Nat → Bool)

/-- `notify_all` on the condition variable that `pop` waits on. -/
def notifyPop (thread : τ → QueuePc α) (u : τ) : QueuePc α :=
  match thread u with
  | .popAsleep => .popAwake
  | pc => pc

/-- The section of `push`: `full` is its loop's test of `queue_.size()`. -/
def push (s : QueueState τ α) (t : τ) (x : α) : QueueState τ α :=
  if full s.queue.length then { s with thread := update s.thread t (.pushAsleep x) }
  else { s with
    queue := s.queue ++ [x]
    thread := notifyPop (update s.thread t .idle)
    pushed := s.pushed ++ [x] }

/-- The section of `pop`. No condition variable is notified. -/
def pop (s : QueueState τ α) (t : τ) : QueueState τ α :=
  match s.queue with
  | [] => { s with thread := update s.thread t .popAsleep }
  | x :: rest => { s with
    queue := rest
    thread := update s.thread t .idle
    removed := s.removed ++ [(t, x)] }

/-- `tryPop` (`try_pop` in `BlockingQueue`); on an empty queue it returns `T()`. -/
def tryPop (s : QueueState τ α) (t : τ) : QueueState τ α :=
  match s.queue with
  | [] => s
  | x :: rest => { s with queue := rest, removed := s.removed ++ [(t, x)] }

/-- The loop of `popAll`: `size` times, the front element goes to `results`. -/
def popAllLoop : Nat → List α → List α → List α × List α
  | size + 1, x :: queue, results => popAllLoop size queue (results ++ [x])
  | _, queue, results => (queue, results)

def popAll (s : QueueState τ α) (t : τ) : QueueState τ α :=
  let (queue, results) := popAllLoop s.queue.length s.queue []
  { s with queue := queue, removed := s.removed ++ results.map (t, ·) }

/-- One section of a queue whose `push` waits while `full`. -/
def step (s : QueueState τ α) : QueueLabel τ α → Option (QueueState τ α)
  | .call t op =>
    match s.thread t, op with
    | .idle, .push x => some (s.push full t x)
    | .idle, .pop => some (s.pop t)
    | .idle, .tryPop => some (s.tryPop t)
    | .idle, .popAll => some (s.popAll t)
    | _, _ => none
  | .resume t =>
    match s.thread t with
    | .pushAwake x => some (s.push full t x)
    | .popAwake => some (s.pop t)
    | _ => none
  | .spurious t =>
    match s.thread t with
    | .pushAsleep x => some { s with thread := update s.thread t (.pushAwake x) }
    | .popAsleep => some { s with thread := update s.thread t .popAwake }
    | _ => none

/-- A queue right after its constructor: no element, no thread in it. -/
def Fresh (s : QueueState τ α) : Prop :=
  s.queue = [] ∧ (∀ t, s.thread t = .idle) ∧ s.pushed = [] ∧ s.removed = []

/-- The constructed queue. -/
def empty : QueueState τ α := ⟨[], fun _ => .idle, [], []⟩

omit [DecidableEq τ] in
theorem empty_fresh : (empty : QueueState τ α).Fresh := ⟨rfl, fun _ => rfl, rfl, rfl⟩

/-- A consumer that sleeps in `pop` without having been notified waits for an
element that is not there. -/
def ConsumersServed (s : QueueState τ α) : Prop := ∀ t, s.thread t = .popAsleep → s.queue = []

/-- A producer that sleeps in `push` without having been notified waits for
room that is not there. -/
def ProducersServed (maxQueueSize : Nat) (s : QueueState τ α) : Prop :=
  ∀ t x, s.thread t = .pushAsleep x → maxQueueSize ≤ s.queue.length

/-- The step takes at least one element out of the queue. -/
def Removes (s : QueueState τ α) : QueueLabel τ α → Prop
  | .call _ (.push _) => False
  | .call _ _ => s.queue ≠ []
  | .resume t => s.thread t = .popAwake ∧ s.queue ≠ []
  | .spurious _ => False

/-! ## What a section does -/

variable {full}

theorem popAllLoop_all (queue results : List α) :
    popAllLoop queue.length queue results = ([], results ++ queue) := by
  induction queue generalizing results with
  | nil => simp [popAllLoop]
  | cons x queue ih => simp [popAllLoop, ih]

omit [DecidableEq τ] in
theorem popAll_eq (s : QueueState τ α) (t : τ) :
    s.popAll t = if s.queue.isEmpty then s else { s with queue := [], removed := s.removed ++ s.queue.map (t, ·) } := by
  rcases s with ⟨queue, thread, pushed, removed⟩
  simp only [popAll, popAllLoop_all, List.nil_append]
  cases queue <;> simp

omit [DecidableEq τ] in
theorem notifyPop_ne (thread : τ → QueuePc α) (u : τ) : notifyPop thread u ≠ .popAsleep := by
  unfold notifyPop
  split
  · exact fun h => nomatch h
  · rename_i h; exact h

omit [DecidableEq τ] in
theorem notifyPop_pushAsleep (thread : τ → QueuePc α) (u : τ) (x : α) :
    notifyPop thread u = .pushAsleep x ↔ thread u = .pushAsleep x := by
  unfold notifyPop
  split
  · rename_i h; simp [h]
  · rfl

/-- The effects a step can have. -/
inductive Effect (full : Nat → Bool) (s : QueueState τ α) (a : QueueLabel τ α) : QueueState τ α → Prop
  /-- `push` waits: the queue is full. -/
  | pushBlocked (t : τ) (x : α) (hf : full s.queue.length = true) (ha : ¬ Removes s a)
      (ht : ∀ y, s.thread t ≠ .pushAsleep y) :
      Effect full s a { s with thread := update s.thread t (.pushAsleep x) }
  | pushed (t : τ) (x : α) (hf : full s.queue.length = false) (ha : ¬ Removes s a)
      (ht : ∀ y, s.thread t ≠ .pushAsleep y) :
      Effect full s a { s with
        queue := s.queue ++ [x]
        thread := notifyPop (update s.thread t .idle)
        pushed := s.pushed ++ [x] }
  /-- `pop` waits: the queue is empty. -/
  | popBlocked (t : τ) (he : s.queue = []) (ha : ¬ Removes s a) (ht : ∀ y, s.thread t ≠ .pushAsleep y) :
      Effect full s a { s with thread := update s.thread t .popAsleep }
  /-- `pop`, `tryPop` or `popAll` takes the front part `x :: xs` of the queue. -/
  | removed (t : τ) (x : α) (xs rest : List α) (thread : τ → QueuePc α) (hq : s.queue = x :: xs ++ rest)
      (ha : Removes s a) (hpush : ∀ u y, thread u = .pushAsleep y ↔ s.thread u = .pushAsleep y)
      (hpop : ∀ u, thread u = .popAsleep ↔ s.thread u = .popAsleep) :
      Effect full s a { s with
        queue := rest
        thread := thread
        removed := s.removed ++ (x :: xs).map (t, ·) }
  /-- A spurious wakeup, or `tryPop` and `popAll` on an empty queue. -/
  | quiet (thread : τ → QueuePc α) (ha : ¬ Removes s a)
      (hpush : ∀ u y, thread u = .pushAsleep y → s.thread u = .pushAsleep y)
      (hpop : ∀ u, thread u = .popAsleep → s.thread u = .popAsleep) :
      Effect full s a { s with thread := thread }

theorem push_effect {s : QueueState τ α} {a : QueueLabel τ α} (t : τ) (x : α) (ha : ¬ Removes s a)
    (ht : ∀ y, s.thread t ≠ .pushAsleep y) : Effect full s a (s.push full t x) := by
  unfold push
  split
  · rename_i h; exact .pushBlocked t x h ha ht
  · rename_i h; exact .pushed t x (by simpa using h) ha ht

theorem pop_effect {s : QueueState τ α} {a : QueueLabel τ α} (t : τ) (ha : Removes s a ↔ s.queue ≠ [])
    (h1 : ∀ y, s.thread t ≠ .pushAsleep y) (h2 : s.thread t ≠ .popAsleep) : Effect full s a (s.pop t) := by
  unfold pop
  split
  · rename_i h; exact .popBlocked t h (by simp [ha, h]) h1
  · rename_i x rest h
    refine .removed t x [] rest _ h (by simp [ha, h]) (fun u y => ?_) (fun u => ?_)
    all_goals
      by_cases hu : u = t
      · subst hu; simp [h1, h2]
      · simp [hu]

/-- Every step of a queue is one of the effects. -/
theorem step_effect {s s' : QueueState τ α} {a : QueueLabel τ α} (h : s.step full a = some s') :
    Effect full s a s' := by
  have nothing : ¬ Removes s a → Effect full s a s := fun ha =>
    .quiet s.thread ha (fun _ _ h => h) (fun _ h => h)
  cases a with
  | call t op =>
    cases ht : s.thread t <;> cases op <;>
      simp only [step, ht, Option.some.injEq, reduceCtorEq] at h <;> subst h
    · exact push_effect t _ (by simp [Removes]) (by simp [ht])
    · exact pop_effect t (by simp [Removes]) (by simp [ht]) (by simp [ht])
    · unfold tryPop
      split
      · rename_i hq; exact nothing (by simp [Removes, hq])
      · rename_i x rest hq
        exact .removed t x [] rest s.thread hq (by simp [Removes, hq]) (fun _ _ => .rfl) (fun _ => .rfl)
    · rw [popAll_eq]
      cases hq : s.queue with
      | nil => simpa [hq] using nothing (by simp [Removes, hq])
      | cons x xs =>
        exact .removed t x xs [] s.thread (by simp [hq]) (by simp [Removes, hq]) (fun _ _ => .rfl) (fun _ => .rfl)
  | resume t =>
    cases ht : s.thread t <;> simp only [step, ht, Option.some.injEq, reduceCtorEq] at h <;> subst h
    · exact push_effect t _ (by simp [Removes, ht]) (by simp [ht])
    · exact pop_effect t (by simp [Removes, ht]) (by simp [ht]) (by simp [ht])
  | spurious t =>
    cases ht : s.thread t <;> simp only [step, ht, Option.some.injEq, reduceCtorEq] at h <;> subst h
    all_goals
      refine .quiet _ (by simp [Removes]) (fun u y => ?_) (fun u => ?_)
      all_goals
        by_cases hu : u = t
        · subst hu; simp
        · simp [hu]

/-! ## Sleepers -/

theorem consumersServed_step {s s' : QueueState τ α} {a : QueueLabel τ α} (hc : ConsumersServed s)
    (h : s.step full a = some s') : ConsumersServed s' := by
  cases step_effect h with
  | pushBlocked t x hf ha ht =>
    intro u hu
    by_cases hut : u = t
    · subst hut; simp at hu
    · exact hc u (by simpa [hut] using hu)
  | pushed t x hf ha ht => exact fun u hu => absurd hu (notifyPop_ne _ u)
  | popBlocked t he ha ht => exact fun _ _ => he
  | removed t x xs rest thread hq ha hpush hpop =>
    intro u hu
    exact absurd (hc u ((hpop u).1 hu)) (by simp [hq])
  | quiet thread ha hpush hpop => exact fun u hu => hc u (hpop u hu)

/-- A step keeps the sleeping producers served exactly when it takes no element
past one of them: nothing that removes an element notifies `notFull_`. -/
theorem producersServed_step {maxQueueSize : Nat} {s s' : QueueState τ α} {a : QueueLabel τ α}
    (hb : s.queue.length ≤ maxQueueSize) (hp : ProducersServed maxQueueSize s)
    (h : s.step (fun size => decide (maxQueueSize ≤ size)) a = some s') :
    ProducersServed maxQueueSize s' ↔ (Removes s a → ∀ t x, s.thread t ≠ .pushAsleep x) := by
  cases step_effect h with
  | pushBlocked t x hf ha ht =>
    refine ⟨fun _ hr => absurd hr ha, fun _ u y hu => by simpa using hf⟩
  | pushed t x hf ha ht =>
    refine ⟨fun _ hr => absurd hr ha, fun _ u y hu => ?_⟩
    rw [notifyPop_pushAsleep] at hu
    by_cases hut : u = t
    · subst hut; simp at hu
    · have := hp u y (by simpa [hut] using hu)
      simp only [decide_eq_false_iff_not] at hf
      exact absurd this hf
  | popBlocked t he ha ht =>
    refine ⟨fun _ hr => absurd hr ha, fun _ u y hu => ?_⟩
    by_cases hut : u = t
    · subst hut; simp at hu
    · exact hp u y (by simpa [hut] using hu)
  | removed t x xs rest thread hq ha hpush hpop =>
    constructor
    · intro hp' _ u y hu
      have h1 := hp u y hu
      have h2 := hp' u y ((hpush u y).2 hu)
      simp only [hq, List.length_append, List.length_cons] at h1 h2 hb
      omega
    · exact fun hg u y hu => absurd ((hpush u y).1 hu) (hg ha u y)
  | quiet thread ha hpush hpop =>
    exact ⟨fun _ hr => absurd hr ha, fun _ u y hu => hp u y (hpush u y hu)⟩

theorem bounded_step {maxQueueSize : Nat} {s s' : QueueState τ α} {a : QueueLabel τ α}
    (hb : s.queue.length ≤ maxQueueSize) (h : s.step (fun size => decide (maxQueueSize ≤ size)) a = some s') :
    s'.queue.length ≤ maxQueueSize := by
  cases step_effect h with
  | pushed t x hf ha ht => simp only [decide_eq_false_iff_not] at hf; simp; omega
  | removed t x xs rest thread hq ha hpush hpop => simp only [hq, List.length_append] at hb; simp only; omega
  | _ => exact hb

/-! ## Content -/

variable {s s' : QueueState τ α} {t u : τ} {x : α}

/-- What was pushed is what was removed and what is still there, in order. -/
def Fifo (s : QueueState τ α) : Prop := s.pushed = s.removed.map (·.2) ++ s.queue

theorem fifo_step {a : QueueLabel τ α} (hi : s.Fifo) (h : s.step full a = some s') : s'.Fifo := by
  unfold Fifo at *
  cases step_effect h with
  | pushed t x hf ha ht => simp [hi]
  | removed t x xs rest thread hq ha hpush hpop => simp [hi, hq, Function.comp_def]
  | _ => exact hi

omit [DecidableEq τ] in
theorem Fresh.fifo (h : s.Fresh) : s.Fifo := by
  obtain ⟨hq, -, hp, hr⟩ := h
  simp [Fifo, hq, hp, hr]

/-- `pop` takes the front of a queue that has one. -/
theorem removed_step {a : QueueLabel τ α} (h : s.step full a = some s') (hr : s'.removed ≠ s.removed) : s.queue ≠ [] := by
  cases step_effect h with
  | removed t x xs rest thread hq ha hpush hpop => simp [hq]
  | _ => exact absurd rfl hr

/-- `assert(queue_.size() < maxQueueSize_)`, in a section that pushes. -/
theorem pushed_step {maxQueueSize : Nat} {a : QueueLabel τ α}
    (h : s.step (fun size => decide (maxQueueSize ≤ size)) a = some s') (hp : s'.pushed ≠ s.pushed) :
    s.queue.length < maxQueueSize := by
  cases step_effect h with
  | pushed t x hf ha ht => simpa using hf
  | _ => exact absurd rfl hp

/-! ## Who is in the queue -/

omit [DecidableEq τ] in
@[simp] theorem notifyPop_pushing (thread : τ → QueuePc α) : (notifyPop thread u).pushing = (thread u).pushing := by
  unfold notifyPop
  split
  · rename_i h; simp [h, QueuePc.pushing]
  · rfl

omit [DecidableEq τ] in
@[simp] theorem notifyPop_popping (thread : τ → QueuePc α) : (notifyPop thread u).popping = (thread u).popping := by
  unfold notifyPop
  split
  · rename_i h; simp [h, QueuePc.popping]
  · rfl

/-- The two ends of a section of `push`. -/
theorem push_cases (full : Nat → Bool) (s : QueueState τ α) (t : τ) (x : α) :
    (full s.queue.length = true ∧ s.push full t x = { s with thread := update s.thread t (.pushAsleep x) }) ∨
    (full s.queue.length = false ∧ s.push full t x = { s with
      queue := s.queue ++ [x]
      thread := notifyPop (update s.thread t .idle)
      pushed := s.pushed ++ [x] }) := by
  unfold push
  cases h : full s.queue.length <;> simp

/-- The two ends of a section of `pop`. -/
theorem pop_cases (s : QueueState τ α) (t : τ) :
    (s.queue = [] ∧ s.pop t = { s with thread := update s.thread t .popAsleep }) ∨
    ∃ x rest, s.queue = x :: rest ∧ s.pop t = { s with
      queue := rest
      thread := update s.thread t .idle
      removed := s.removed ++ [(t, x)] } := by
  unfold pop
  cases h : s.queue <;> simp

theorem step_push_iff : s.step full (.call t (.push x)) = some s' ↔ s.thread t = .idle ∧ s.push full t x = s' := by
  cases h : s.thread t <;> simp [step, h]

theorem step_pop_iff : s.step full (.call t .pop) = some s' ↔ s.thread t = .idle ∧ s.pop t = s' := by
  cases h : s.thread t <;> simp [step, h]

theorem step_resume_iff : s.step full (.resume t) = some s' ↔
    (∃ x, s.thread t = .pushAwake x ∧ s.push full t x = s') ∨ s.thread t = .popAwake ∧ s.pop t = s' := by
  cases h : s.thread t <;> simp [step, h]

theorem step_spurious_iff : s.step full (.spurious t) = some s' ↔
    (∃ x, s.thread t = .pushAsleep x ∧ { s with thread := update s.thread t (.pushAwake x) } = s') ∨
      s.thread t = .popAsleep ∧ { s with thread := update s.thread t .popAwake } = s' := by
  cases h : s.thread t <;> simp [step, h]

end QueueState

/-- A queue's threads and elements are arbitrary; the bounded queue's `push`
waits `while (queue_.size() >= maxQueueSize_)`. -/
def BoundedBlockingQueue (τ α : Type*) [DecidableEq τ] (maxQueueSize : Nat) :
    Lts.System (QueueState τ α) (QueueLabel τ α) where
  init := QueueState.Fresh
  step s a := s.step (fun size => decide (maxQueueSize ≤ size)) a

/-- `BlockingQueue::push` never waits, and the class has no `popAll`. -/
def BlockingQueue (τ α : Type*) [DecidableEq τ] : Lts.System (QueueState τ α) (QueueLabel τ α) where
  init := QueueState.Fresh
  step s a :=
    match a with
    | .call _ .popAll => none
    | a => s.step (fun _ => false) a

variable {τ α : Type*} [DecidableEq τ]

theorem BlockingQueue.step_eq {s s' : QueueState τ α} {a : QueueLabel τ α}
    (h : (BlockingQueue τ α).step s a = some s') : s.step (fun _ => false) a = some s' := by
  simp only [BlockingQueue] at h
  split at h
  · cases h
  · exact h

/-- A sleeping consumer of a `BlockingQueue` that nobody has notified finds the
queue empty, in every reachable state. -/
theorem BlockingQueue.consumersServed {s : QueueState τ α} (h : (BlockingQueue τ α).Reachable s) :
    s.ConsumersServed :=
  h.inv (fun _ h0 _ ht => by simp [h0.2.1] at ht) fun _ _ _ hi hs => QueueState.consumersServed_step hi (step_eq hs)

theorem BlockingQueue.fifo {s : QueueState τ α} (h : (BlockingQueue τ α).Reachable s) : s.Fifo :=
  h.inv (fun _ => QueueState.Fresh.fifo) fun _ _ _ hi hs => QueueState.fifo_step hi (step_eq hs)

namespace BoundedBlockingQueue

variable {maxQueueSize : Nat}

theorem fifo {s : QueueState τ α} (h : (BoundedBlockingQueue τ α maxQueueSize).Reachable s) : s.Fifo :=
  h.inv (I := QueueState.Fifo) (fun _ => QueueState.Fresh.fifo) fun _ _ _ hi hs => QueueState.fifo_step hi hs

theorem bounded {s : QueueState τ α} (h : (BoundedBlockingQueue τ α maxQueueSize).Reachable s) :
    s.queue.length ≤ maxQueueSize :=
  h.inv (I := fun s => s.queue.length ≤ maxQueueSize) (fun _ h0 => by simp [h0.1]) fun _ _ _ hi hs =>
    QueueState.bounded_step hi hs

theorem consumersServed {s : QueueState τ α} (h : (BoundedBlockingQueue τ α maxQueueSize).Reachable s) :
    s.ConsumersServed :=
  h.inv (I := QueueState.ConsumersServed) (fun _ h0 _ ht => by simp [h0.2.1] at ht) fun _ _ _ hi hs => QueueState.consumersServed_step hi hs

/-- In every reachable state of either queue, what was removed and what is still
there are what was pushed, in order, and nothing is taken from an empty queue.
The bounded queue stays within its capacity, and no assertion of it fails. -/
theorem fifo_bounded :
    (∀ s : QueueState τ α, (BlockingQueue τ α).Reachable s →
      s.Fifo ∧
      ∀ a s', (BlockingQueue τ α).step s a = some s' → s'.removed ≠ s.removed → s.queue ≠ []) ∧
    ∀ (maxQueueSize : Nat) (s : QueueState τ α), (BoundedBlockingQueue τ α maxQueueSize).Reachable s →
      s.Fifo ∧ s.queue.length ≤ maxQueueSize ∧
      ∀ a s', (BoundedBlockingQueue τ α maxQueueSize).step s a = some s' →
        (s'.pushed ≠ s.pushed → s.queue.length < maxQueueSize) ∧ (s'.removed ≠ s.removed → s.queue ≠ []) := by
  refine ⟨fun s h => ⟨BlockingQueue.fifo h, fun a s' hs => QueueState.removed_step (BlockingQueue.step_eq hs)⟩, ?_⟩
  intro maxQueueSize s h
  exact ⟨fifo h, bounded h, fun a s' hs => ⟨QueueState.pushed_step hs, QueueState.removed_step hs⟩⟩

/-- Capacity 1: a push that waited goes on after a spurious wakeup and a removal. The
first element is removed by then, and the second one is in the queue. -/
theorem fifo_bounded_resumed : ∃ s, (BoundedBlockingQueue Nat Nat 1).run .empty
      [.call 0 (.push 7), .call 1 (.push 8), .spurious 1, .call 0 .pop, .resume 1] = some s ∧
    s.removed = [(0, 7)] ∧ s.queue = [8] ∧ s.pushed = [7, 8] ∧ s.Fifo ∧ s.queue.length ≤ 1 := by
  have hr : (BoundedBlockingQueue Nat Nat 1).run .empty
      [.call 0 (.push 7), .call 1 (.push 8), .spurious 1, .call 0 .pop, .resume 1] = some _ := rfl
  obtain ⟨hfifo, hlen, -⟩ := fifo_bounded.2 1 _ (Lts.System.Reachable.run (.init QueueState.empty_fresh) hr)
  exact ⟨_, hr, rfl, rfl, rfl, hfifo, hlen⟩

/-- What a queue promises its sleepers. -/
def NoLostWakeup (maxQueueSize : Nat) (s : QueueState τ α) : Prop :=
  s.ConsumersServed ∧ s.ProducersServed maxQueueSize

/-- No element is taken while a producer sleeps that nobody has notified. -/
def NoTakePastSleeper (s : QueueState τ α) (a : QueueLabel τ α) : Prop :=
  s.Removes a → ∀ t x, s.thread t ≠ .pushAsleep x

/-- No consumer of either queue misses a wakeup. A run of the bounded queue keeps
its producers from missing one exactly when none of its steps takes an element
past a sleeping producer: `pop`, `popAll` and `tryPop` do not notify `notFull_`. -/
theorem no_lost_wakeup_iff :
    (∀ s : QueueState τ α, (BlockingQueue τ α).Reachable s → s.ConsumersServed) ∧
    ∀ (maxQueueSize : Nat) (s t : QueueState τ α) (as : List (QueueLabel τ α)), s.Fresh →
      (BoundedBlockingQueue τ α maxQueueSize).run s as = some t →
      ((BoundedBlockingQueue τ α maxQueueSize).Always (NoLostWakeup maxQueueSize) s as ↔
        (BoundedBlockingQueue τ α maxQueueSize).Guarded NoTakePastSleeper s as) := by
  refine ⟨fun s h => BlockingQueue.consumersServed h, fun maxQueueSize s t as h0 hr => ?_⟩
  refine Lts.System.always_iff_guarded (J := fun s => s.queue.length ≤ maxQueueSize)
    (fun s a s' hj h => QueueState.bounded_step hj h) (fun s a s' hj hp h => ?_) hr (by simp [h0.1]) ?_
  · rw [NoTakePastSleeper, ← QueueState.producersServed_step hj hp.2 h]
    exact ⟨fun h' => h'.2, fun h' => ⟨QueueState.consumersServed_step hp.1 h, h'⟩⟩
  · exact ⟨fun t ht => by simp [h0.2.1] at ht, fun t x ht => by simp [h0.2.1] at ht⟩

/-- A pop between two pushes that nobody waits for: the run is guarded, so no
sleeper misses a wakeup in it. -/
theorem no_lost_wakeup_push_pop :
    (BoundedBlockingQueue Nat Nat 1).Always (NoLostWakeup 1) .empty
      [.call 0 (.push 7), .call 1 .pop, .call 0 (.push 8)] := by
  refine (no_lost_wakeup_iff.2 1 .empty _ _ QueueState.empty_fresh rfl).2 ⟨fun h => h.elim, fun s hs => ?_⟩
  cases hs
  refine ⟨fun _ t x => ?_, fun s hs => ?_⟩
  · change QueueState.notifyPop (update _ 0 .idle) t ≠ _
    rw [Ne, QueueState.notifyPop_pushAsleep]
    by_cases ht : t = 0 <;> simp [ht, QueueState.empty]
  · cases hs
    exact ⟨fun h => h.elim, fun _ _ => trivial⟩

/-- Capacity 1: thread 1 finds the queue full and sleeps in `push`, thread 0
takes the only element, and thread 1 sleeps on before an empty queue. -/
theorem producer_sleeps_on :
    ∃ s, (BoundedBlockingQueue Nat Nat 1).run .empty [.call 0 (.push 7), .call 1 (.push 8), .call 0 .tryPop] = some s ∧
      (BoundedBlockingQueue Nat Nat 1).Reachable s ∧ s.thread 1 = .pushAsleep 8 ∧ s.queue.length < 1 ∧
      ¬ NoLostWakeup 1 s := by
  have hr : (BoundedBlockingQueue Nat Nat 1).run .empty
      [.call 0 (.push 7), .call 1 (.push 8), .call 0 .tryPop] = some _ := rfl
  refine ⟨_, hr, Lts.System.Reachable.run (.init QueueState.empty_fresh) hr, rfl, by decide, fun h => ?_⟩
  exact absurd (h.2 1 8 rfl) (by decide)

end BoundedBlockingQueue

end Ycnt
