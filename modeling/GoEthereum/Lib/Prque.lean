import GoEthereum.Lib.Heap

-- A priority queue on a binary heap. An item of the greatest priority comes first, and which one
-- of several it is depends on the heap.

namespace Prque

structure Item (α : Type) where
  value    : α
  priority : Int

namespace Item

variable {α : Type}

instance byPriority : Preorder (Item α) where
  le x y           := y.priority ≤ x.priority
  lt x y           := y.priority < x.priority
  le_refl x        := le_refl x.priority
  le_trans _ _ _ h h' := le_trans h' h
  lt_iff_le_not_ge _ _ := lt_iff_le_not_ge

instance decidableLT : DecidableLT (Item α) := fun x y =>
  inferInstanceAs (Decidable (y.priority < x.priority))

instance total : Std.Total (α := Item α) (· ≤ ·) :=
  ⟨fun x y => le_total y.priority x.priority⟩

instance inhabited [Inhabited α] : Inhabited (Item α) :=
  ⟨⟨default, 0⟩⟩

end Item

end Prque

structure Prque (α : Type) [Inhabited α] where
  items : List (Prque.Item α)
  heap  : Heap.IsHeap items

namespace Prque

variable {α : Type} [Inhabited α]

def new : Prque α :=
  ⟨[], Heap.isHeap_nil⟩

def values (q : Prque α) : List α :=
  q.items.map Item.value

def push (q : Prque α) (x : α) (priority : Int) : Prque α :=
  ⟨Heap.push q.items ⟨x, priority⟩, (Heap.push_spec q.heap _).right⟩

theorem pop_heap (q : Prque α) (h : q.items ≠ []) : Heap.IsHeap (Heap.pop q.items).snd :=
  (Heap.pop_spec q.heap h).right.right

def pop (q : Prque α) : Option (Item α × Prque α) :=
  if h : q.items = [] then none
  else some ((Heap.pop q.items).fst, ⟨(Heap.pop q.items).snd, q.pop_heap h⟩)

variable {q q' : Prque α} {x : α} {p : Int} {it : Item α}

theorem items_push_perm : (q.push x p).items.Perm (⟨x, p⟩ :: q.items) :=
  (Heap.push_spec q.heap _).left

theorem values_push_perm : (q.push x p).values.Perm (x :: q.values) :=
  items_push_perm.map Item.value

theorem items_of_pop (h : q.pop = some (it, q')) : q.items.Perm (it :: q'.items) := by
  rw [pop] at h
  split at h
  case isTrue  => cases h
  case isFalse hne =>
    cases h
    exact (Heap.pop_spec q.heap hne).right.left

theorem values_of_pop (h : q.pop = some (it, q')) : q.values.Perm (it.value :: q'.values) :=
  (items_of_pop h).map Item.value

end Prque
