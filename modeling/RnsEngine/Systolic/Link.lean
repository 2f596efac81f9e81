/-!
# Links

A link is the bounded queue between two neighbours of a systolic grid. It is a shift register:
the head is in the first slot, a push writes behind the last word held, and a pop moves every
slot one place forward. Words in slots that are no longer counted stay where they are.

`Link.toList` is the queue that a link stands for, oldest word first; `toList_push`,
`push_fst` and `pop_eq` say what the operations do to it.
-/

namespace RnsEngine

universe u

/-- A shift register of fixed depth with the number of words it holds. -/
structure Link (α : Type u) where
  slots : Vector α 2
  count : Nat
  count_le : count ≤ 2
deriving DecidableEq

namespace Link

variable {α : Type u}

/-- The number of words that a link can hold. -/
def depth : Nat := 2

/-- The link that holds nothing. -/
def empty [Inhabited α] : Link α :=
  { slots := Vector.replicate 2 default, count := 0, count_le := by decide }

instance [Inhabited α] : Inhabited (Link α) := ⟨empty⟩

/-- No word is held. -/
def isEmpty (l : Link α) : Bool := l.count == 0

/-- No further word can be held. -/
def isFull (l : Link α) : Bool := l.count == depth

/-- Offers a word: whether it was taken, and the link afterwards. -/
def push (l : Link α) (x : α) : Bool × Link α :=
  if h : l.count < 2 then
    (true, { slots := l.slots.set l.count x, count := l.count + 1, count_le := h })
  else (false, l)

/-- All slots moved one place forward; the last keeps its word. -/
def shifted (slots : Vector α 2) : Vector α 2 := Vector.ofFn fun _ => slots[1]

/-- Takes the oldest word, if there is one. -/
def pop (l : Link α) : Option α × Link α :=
  if 0 < l.count then
    (some l.slots[0],
      { slots := shifted l.slots, count := l.count - 1,
        count_le := Nat.le_trans (Nat.sub_le _ _) l.count_le })
  else (none, l)

/-! ### The queue that a link stands for -/

/-- The words held, oldest first. -/
def toList (l : Link α) : List α := l.slots.toList.take l.count

/-- The count is the length of the queue. -/
@[simp] theorem length_toList (l : Link α) : l.toList.length = l.count := by
  simp [toList, Nat.min_eq_left l.count_le]

/-- A new link stands for the empty queue. -/
@[simp] theorem toList_empty [Inhabited α] : (empty : Link α).toList = [] := rfl

/-- Two slots hold two words. -/
theorem exists_slots (v : Vector α 2) : ∃ a b, v = #v[a, b] :=
  ⟨v[0], v[1], Vector.ext fun i hi => by
    match i, hi with
    | 0, _ => rfl
    | 1, _ => rfl⟩

/-- A word is taken exactly when the link is not full. -/
theorem push_fst (l : Link α) (x : α) : (l.push x).1 = decide (l.toList.length < depth) := by
  rw [length_toList]
  by_cases h : l.count < 2 <;> simp [push, depth, h]

/-- A word that is taken goes to the end of the queue, and one that is not changes nothing. -/
theorem toList_push (l : Link α) (x : α) :
    (l.push x).2.toList =
      if l.toList.length < depth then l.toList ++ [x] else l.toList := by
  obtain ⟨v, count, hcount⟩ := l
  obtain ⟨a, b, rfl⟩ := exists_slots v
  match count, hcount with
  | 0, _ => rfl
  | 1, _ => rfl
  | 2, _ => rfl

/-- The oldest word comes first, and the rest stays in order. -/
theorem pop_eq (l : Link α) :
    (l.pop).1 = l.toList.head? ∧ (l.pop).2.toList = l.toList.tail := by
  obtain ⟨v, count, hcount⟩ := l
  obtain ⟨a, b, rfl⟩ := exists_slots v
  match count, hcount with
  | 0, _ => exact ⟨rfl, rfl⟩
  | 1, _ => exact ⟨rfl, rfl⟩
  | 2, _ => exact ⟨rfl, rfl⟩

end Link

end RnsEngine
