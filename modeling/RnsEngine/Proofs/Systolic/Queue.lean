import Mathlib.Data.Nat.Notation
import RnsEngine.Systolic.Link

/-!
# Links as bounded queues

`BoundedQueue` is what a link should be: a list of words, at most so many of them, oldest first. A
word is taken as long as there is room and goes to the end; the oldest word leaves first. A link has
more in it than that: after a pop its last word is in two slots, and the slots behind the count keep
whatever was there.

What can be done with a link and seen of it is a `Queue.Interface`, and the same interface is that
of a bounded queue. `Link.toQueue` forgets the slots that are not counted, and everything that can
be done and seen commutes with it (`Link.simulates_queue`). This carries over from one request to
any sequence of requests (`Queue.Simulates.records`), so what is true of bounded queues, such as
that nothing is lost (`BoundedQueue.held_append_accepted`), is true of links.
`Link.refines_queue` puts this together for a link that starts empty.
-/

namespace RnsEngine

universe u v w

namespace Queue

/-! ### Requests and what is seen of them -/

/-- What is asked of a queue: to take a word, or to give one. -/
inductive Request (α : Type u) where
  | push (x : α)
  | pop
deriving DecidableEq

/-- What a queue answers: whether it has taken the word, or its oldest word, if it has one. -/
inductive Answer (α : Type u) where
  | pushed (taken : Bool)
  | popped (head : Option α)
deriving DecidableEq

/-- A request with its answer, and the length and the flags of the queue after it. -/
structure Record (α : Type u) where
  request : Request α
  answer : Answer α
  length : ℕ
  isEmpty : Bool
  isFull : Bool
deriving DecidableEq

namespace Record

variable {α : Type u}

/-- The word that was taken, if any. -/
def taken (r : Record α) : List α :=
  match r.request, r.answer with
  | .push x, .pushed true => [x]
  | _, _ => []

/-- The word that was given, if any. -/
def given (r : Record α) : List α :=
  match r.answer with
  | .popped head => head.toList
  | .pushed _ => []

end Record

section Sequences

variable {α : Type u} (records rest : List (Record α))

/-- The words that were taken, in their order. -/
def accepted : List α := records.flatMap Record.taken

/-- The words that were given, in their order. -/
def delivered : List α := records.flatMap Record.given

@[simp] theorem accepted_cons (r : Record α) :
    accepted (r :: rest) = r.taken ++ accepted rest := rfl

@[simp] theorem delivered_cons (r : Record α) :
    delivered (r :: rest) = r.given ++ delivered rest := rfl

@[simp] theorem accepted_append : accepted (records ++ rest) = accepted records ++ accepted rest :=
  List.flatMap_append

end Sequences

/-- What can be done with a queue and seen of it, for some type of states. -/
structure Interface (α : Type u) (σ : Type v) where
  push : σ → α → Bool × σ
  pop : σ → Option α × σ
  length : σ → ℕ
  isEmpty : σ → Bool
  isFull : σ → Bool

namespace Interface

variable {α : Type u} {σ : Type v} (queue : Interface α σ)

/-- Serves a request. -/
def serve (s : σ) : Request α → Answer α × σ
  | .push x => (.pushed (queue.push s x).1, (queue.push s x).2)
  | .pop => (.popped (queue.pop s).1, (queue.pop s).2)

/-- What is seen of a request that is served. -/
def record (s : σ) (request : Request α) : Record α :=
  let (answer, next) := queue.serve s request
  { request, answer, length := queue.length next, isEmpty := queue.isEmpty next,
    isFull := queue.isFull next }

/-- The state after a sequence of requests. -/
def after (s : σ) (requests : List (Request α)) : σ :=
  requests.foldl (fun s request => (queue.serve s request).2) s

/-- What is seen of a sequence of requests. -/
def records (s : σ) : List (Request α) → List (Record α)
  | [] => []
  | request :: rest => queue.record s request :: records (queue.serve s request).2 rest

theorem after_append (s : σ) (requests rest : List (Request α)) :
    queue.after s (requests ++ rest) = queue.after (queue.after s requests) rest :=
  List.foldl_append

theorem records_append (s : σ) (requests rest : List (Request α)) :
    queue.records s (requests ++ rest) =
      queue.records s requests ++ queue.records (queue.after s requests) rest := by
  induction requests generalizing s with
  | nil => rfl
  | cons request requests ih => exact congrArg (queue.record s request :: ·) (ih _)

/-- Pops take nothing. -/
theorem accepted_pops (s : σ) (count : ℕ) :
    accepted (queue.records s (List.replicate count .pop)) = [] := by
  induction count generalizing s with
  | zero => rfl
  | succ count ih => exact ih (queue.pop s).2

end Interface

/-! ### Simulation -/

/-- A view of the states of one queue as states of another that commutes with all that can be done,
and keeps all that can be seen. -/
structure Simulates {α : Type u} {σ : Type v} {τ : Type w} (queue : Interface α σ)
    (model : Interface α τ) (view : σ → τ) : Prop where
  push : ∀ s x, model.push (view s) x = ((queue.push s x).1, view (queue.push s x).2)
  pop : ∀ s, model.pop (view s) = ((queue.pop s).1, view (queue.pop s).2)
  length : ∀ s, model.length (view s) = queue.length s
  isEmpty : ∀ s, model.isEmpty (view s) = queue.isEmpty s
  isFull : ∀ s, model.isFull (view s) = queue.isFull s

namespace Simulates

variable {α : Type u} {σ : Type v} {τ : Type w} {queue : Interface α σ} {model : Interface α τ}
  {view : σ → τ} (h : Simulates queue model view)
include h

/-- A request has the same answer, and the views of the states after it are the same. -/
theorem serve (s : σ) (request : Request α) :
    model.serve (view s) request =
      ((queue.serve s request).1, view (queue.serve s request).2) := by
  cases request with
  | push x => rw [Interface.serve, h.push]; rfl
  | pop => rw [Interface.serve, h.pop]; rfl

/-- A request looks the same. -/
theorem record (s : σ) (request : Request α) :
    model.record (view s) request = queue.record s request := by
  simp only [Interface.record, h.serve, h.length, h.isEmpty, h.isFull]

/-- A sequence of requests leads to the view of where it leads to. -/
theorem after (s : σ) (requests : List (Request α)) :
    model.after (view s) requests = view (queue.after s requests) := by
  induction requests generalizing s with
  | nil => rfl
  | cons request rest ih =>
    rw [Interface.after, List.foldl_cons, h.serve]
    exact ih _

/-- A sequence of requests looks the same, from any state. -/
theorem records (s : σ) (requests : List (Request α)) :
    model.records (view s) requests = queue.records s requests := by
  induction requests generalizing s with
  | nil => rfl
  | cons request rest ih =>
    -- the two records agree, and the rest is served from corresponding states
    rw [Interface.records, Interface.records, h.record, h.serve, ih]

end Simulates

end Queue

open Queue

/-! ### Bounded queues -/

/-- A queue of bounded capacity: the words that it holds, oldest first. -/
@[ext]
structure BoundedQueue (α : Type u) (capacity : ℕ) where
  held : List α
  length_le : held.length ≤ capacity

namespace BoundedQueue

variable {α : Type u} {capacity : ℕ}

/-- The queue that holds nothing. -/
def empty : BoundedQueue α capacity := ⟨[], Nat.zero_le _⟩

/-- Appends a word if fewer words are held than there is room for, and else changes nothing. -/
def push (q : BoundedQueue α capacity) (x : α) : Bool × BoundedQueue α capacity :=
  if h : q.held.length < capacity then
    (true, ⟨q.held ++ [x], by rw [List.length_append]; exact h⟩)
  else (false, q)

/-- Removes the oldest word, if there is one. -/
def pop (q : BoundedQueue α capacity) : Option α × BoundedQueue α capacity :=
  (q.held.head?, ⟨q.held.tail, Nat.le_trans (List.length_tail ▸ Nat.sub_le _ _) q.length_le⟩)

/-- A word is taken exactly when there is room. -/
theorem push_fst (q : BoundedQueue α capacity) (x : α) :
    (q.push x).1 = decide (q.held.length < capacity) := by
  by_cases h : q.held.length < capacity <;> simp [push, h]

/-- A word that is taken goes to the end. -/
theorem held_push (q : BoundedQueue α capacity) (x : α) :
    (q.push x).2.held = if q.held.length < capacity then q.held ++ [x] else q.held := by
  by_cases h : q.held.length < capacity <;> simp [push, h]

/-- The interface of a bounded queue. -/
def interface (α : Type u) (capacity : ℕ) : Interface α (BoundedQueue α capacity) where
  push := push
  pop := pop
  length q := q.held.length
  isEmpty q := q.held.isEmpty
  isFull q := q.held.length == capacity

/-- With one request, the words that were held and the one that is taken are the one that is given
and those that are held then. -/
theorem held_append_taken (q : BoundedQueue α capacity) (request : Request α) :
    q.held ++ ((interface α capacity).record q request).taken =
      ((interface α capacity).record q request).given ++
        ((interface α capacity).serve q request).2.held := by
  cases request with
  | push x =>
    by_cases h : q.held.length < capacity <;>
      simp [interface, Interface.record, Interface.serve, Record.taken, Record.given, push, h]
  | pop =>
    obtain ⟨held, hheld⟩ := q
    cases held with
    | nil => rfl
    | cons x rest => exact List.append_nil _

/-- With any requests, the words that were held and those that are accepted are those that are
delivered and those that are held in the end, in this order. -/
theorem held_append_accepted (q : BoundedQueue α capacity) (requests : List (Request α)) :
    q.held ++ accepted ((interface α capacity).records q requests) =
      delivered ((interface α capacity).records q requests) ++
        ((interface α capacity).after q requests).held := by
  induction requests generalizing q with
  | nil => exact List.append_nil _
  | cons request rest ih =>
    let I := interface α capacity
    let r := I.record q request
    let next := (I.serve q request).2
    -- the word of the first request passes to the front or to the end of what is held
    calc
      q.held ++ accepted (r :: I.records next rest)
      _ = (q.held ++ r.taken) ++ accepted (I.records next rest) := by
        rw [accepted_cons, List.append_assoc]
      _ = r.given ++ (next.held ++ accepted (I.records next rest)) := by
        rw [held_append_taken, List.append_assoc]
      _ = r.given ++ (delivered (I.records next rest) ++ (I.after next rest).held) := by
        rw [ih]
      _ = delivered (r :: I.records next rest) ++ (I.after next rest).held := by
        rw [delivered_cons, List.append_assoc]

/-- What an empty queue accepts is what it delivers, followed by what it holds in the end. -/
theorem accepted_eq (requests : List (Request α)) :
    accepted ((interface α capacity).records empty requests) =
      delivered ((interface α capacity).records empty requests) ++
        ((interface α capacity).after empty requests).held :=
  held_append_accepted empty requests

/-- Pops remove as many of the oldest words. -/
theorem held_after_pops (q : BoundedQueue α capacity) (count : ℕ) :
    ((interface α capacity).after q (List.replicate count .pop)).held = q.held.drop count := by
  induction count generalizing q with
  | zero => rfl
  | succ count ih => exact (ih q.pop.2).trans (List.drop_tail ..)

/-- Once a queue that was empty has been emptied again, it has delivered what it accepted. -/
theorem delivered_drained (requests : List (Request α)) :
    let I := interface α capacity
    delivered (I.records empty (requests ++ List.replicate capacity .pop)) =
      accepted (I.records empty requests) := by
  intro I
  have hempty : (I.after empty (requests ++ List.replicate capacity .pop)).held = [] := by
    rw [Interface.after_append, held_after_pops]
    exact List.drop_eq_nil_of_le (I.after empty requests).length_le
  have hpops := I.accepted_pops (I.after empty requests) capacity
  calc
    delivered (I.records empty (requests ++ List.replicate capacity .pop))
    _ = accepted (I.records empty (requests ++ List.replicate capacity .pop)) := by
      rw [accepted_eq, hempty, List.append_nil]
    _ = accepted (I.records empty requests) := by
      rw [Interface.records_append, accepted_append, hpops, List.append_nil]

end BoundedQueue

/-! ### Links -/

namespace Link

variable {α : Type u}

/-- The interface of a link. -/
def interface (α : Type u) : Interface α (Link α) where
  push := push
  pop := pop
  length := count
  isEmpty := isEmpty
  isFull := isFull

/-- The queue that a link stands for. -/
def toQueue (l : Link α) : BoundedQueue α depth :=
  ⟨l.toList, l.length_toList.symm ▸ l.count_le⟩

/-- The same link, with other words in the slots that are not counted. -/
def withStale (l : Link α) (stale : Vector α 2) : Link α :=
  { l with slots := stale.mapFinIdx fun i x hi => if i < l.count then l.slots[i] else x }

/-- A word is refused by a full link alone, and nothing is changed by that. -/
theorem push_eq_self_iff (l : Link α) (x : α) :
    l.push x = (false, l) ↔ l.toList.length = depth := by
  rw [length_toList]
  by_cases h : l.count < 2
  · simp [push, h, depth, Nat.ne_of_lt h]
  · simp [push, depth, Nat.le_antisymm l.count_le (Nat.not_lt.1 h)]

/-- An empty link alone has nothing to give, and nothing is changed by that. -/
theorem pop_eq_self_iff (l : Link α) : l.pop = (none, l) ↔ l.toList = [] := by
  rw [← List.length_eq_zero_iff, length_toList]
  by_cases h : 0 < l.count
  · simp [pop, h, Nat.ne_of_gt h]
  · simp [pop, Nat.eq_zero_of_not_pos h]

/-- The slots that are not counted are no part of the queue. -/
@[simp] theorem toList_withStale (l : Link α) (stale : Vector α 2) :
    (l.withStale stale).toList = l.toList := by
  refine List.ext_getElem ?_ fun i _ hi => ?_
  · rw [length_toList, length_toList, withStale]
  · rw [length_toList] at hi
    simp [toList, withStale, hi]

/-- A link with other words in these slots stands for the same queue. -/
@[simp] theorem toQueue_withStale (l : Link α) (stale : Vector α 2) :
    (l.withStale stale).toQueue = l.toQueue :=
  BoundedQueue.ext (l.toList_withStale stale)

/-- **A link is a bounded queue**: forgetting the slots that are not counted commutes with all that
can be done with a link, and keeps all that can be seen of it. -/
theorem simulates_queue : Simulates (interface α) (BoundedQueue.interface α depth) toQueue where
  push l x := Prod.ext ((BoundedQueue.push_fst ..).trans (l.push_fst x).symm)
    (BoundedQueue.ext ((BoundedQueue.held_push ..).trans (l.toList_push x).symm))
  pop l := Prod.ext l.pop_eq.1.symm (BoundedQueue.ext l.pop_eq.2.symm)
  length l := l.length_toList
  isEmpty l := by
    change l.toList.isEmpty = (l.count == 0)
    rw [← length_toList]
    cases l.toList <;> rfl
  isFull l := congrArg (· == depth) l.length_toList

/-- **A link that starts empty is a queue of two words.** Whatever is pushed and popped, in any
order and any number, the link answers as the bounded queue does, and after every request its count
and its flags are those of the queue: a word is taken exactly when fewer than two are held, and then
goes to the end, and a pop gives the oldest word, if there is one. A push that is refused and a pop
of nothing change no slot. The words that were taken are those that came out, in the same order,
followed by those that are still held; so two further pops deliver exactly what was taken. All this
depends on the counted slots alone: with any words in the other ones, what follows is the same. -/
theorem refines_queue [Inhabited α] (requests : List (Request α)) :
    let link := interface α
    let queue := BoundedQueue.interface α depth
    let records := link.records empty requests
    let l := link.after empty requests
    (default : Link α) = empty ∧
      records = queue.records BoundedQueue.empty requests ∧
      l.toList = (queue.after BoundedQueue.empty requests).held ∧
      (∀ x, l.push x = (false, l) ↔ l.toList.length = depth) ∧
      (l.pop = (none, l) ↔ l.toList = []) ∧
      accepted records = delivered records ++ l.toList ∧
      delivered (link.records empty (requests ++ List.replicate depth .pop)) = accepted records ∧
      ∀ stale rest, link.records (l.withStale stale) rest = link.records l rest := by
  intro link queue records l
  have hsim := simulates_queue (α := α)
  have hrecords : records = queue.records BoundedQueue.empty requests :=
    (hsim.records empty requests).symm
  have hheld : l.toList = (queue.after BoundedQueue.empty requests).held :=
    congrArg BoundedQueue.held (hsim.after empty requests).symm
  refine ⟨rfl, hrecords, hheld, l.push_eq_self_iff, l.pop_eq_self_iff, ?_, ?_, fun stale rest => ?_⟩
  · rw [hrecords, hheld]
    exact BoundedQueue.accepted_eq requests
  · rw [hrecords, ← hsim.records]
    exact BoundedQueue.delivered_drained requests
  · rw [← hsim.records, ← hsim.records, toQueue_withStale]

/-- The third word is refused, and the words that were taken come out in their order. -/
example :
    ((interface UInt64).records empty
      [.push 1, .push 2, .push 3, .pop, .push 4, .pop, .pop, .pop]).map Record.answer =
      [.pushed true, .pushed true, .pushed false, .popped (some 1), .pushed true,
        .popped (some 2), .popped (some 4), .popped none] := by
  decide

end Link

end RnsEngine
