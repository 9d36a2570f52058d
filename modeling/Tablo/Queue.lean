import Tablo.SignedTokenCorrect

/-! The queues of `queue.tblo` behave as double-ended lists. Error values are left out of the replies. -/

namespace Tablo.Queue

open List Function

open Encoding (Text)
open SignedToken (str str_injective)

variable {V : Type}

structure QueueStore (V : Type) where
  slots : Text → Option V
  head : Int
  tail : Int
  size : Int
  maxSize : Int
  droppedCount : Int

def queueSlotKey (index : Int) : Text := str index

variable (store : QueueStore V)

def queueHasCapacity (additional : Int) : Bool :=
  store.maxSize == 0 || store.size + additional ≤ store.maxSize

def queueNormalizeEmpty : QueueStore V :=
  if store.size = 0 then { store with head := 0, tail := 0 } else store

def mapSetString (slots : Text → Option V) (index : Int) (value : V) : Text → Option V :=
  update slots (queueSlotKey index) (some value)

def mapDeleteString (slots : Text → Option V) (index : Int) : Text → Option V :=
  update slots (queueSlotKey index) none

def queueNew (maxSize : Int) : Option (QueueStore V) :=
  if maxSize < 0 ∨ maxSize > 1000000 then none else some ⟨fun _ => none, 0, 0, 0, maxSize, 0⟩

variable (value : V)

def pushTail : QueueStore V :=
  { store with slots := mapSetString store.slots store.tail value, tail := store.tail + 1, size := store.size + 1 }

inductive Op (V : Type) where
  | enqueue (value : V)
  | tryEnqueue (value : V)
  | enqueueDropOldest (value : V)
  | pushFront (value : V)
  | dequeue
  | popBack
  | peekFront
  | peekBack
  | clear
  | toArray

inductive Reply (V : Type) where
  | done (ok : Bool)
  | item (value : Option V) (found : Bool)
  | removed (count : Int)
  | items (values : List (Option V))

def queueEnqueue : QueueStore V × Reply V :=
  if queueHasCapacity store 1 then (pushTail store value, .done true) else (store, .done false)

def queueTryEnqueue : QueueStore V × Reply V :=
  if queueHasCapacity store 1 then (pushTail store value, .done true)
  else ({ store with droppedCount := store.droppedCount + 1 }, .done false)

def queueEnqueueDropOldest : QueueStore V × Reply V :=
  if !queueHasCapacity store 1 && decide (store.size > 0) then
    (pushTail { store with slots := mapDeleteString store.slots store.head, head := store.head + 1,
                           size := store.size - 1, droppedCount := store.droppedCount + 1 } value, .done true)
  else (pushTail store value, .done false)

def queuePushFront : QueueStore V × Reply V :=
  if queueHasCapacity store 1 then
    let next := if store.size = 0 then { store with head := 0, tail := 1 } else { store with head := store.head - 1 }
    ({ next with slots := mapSetString next.slots next.head value, size := next.size + 1 }, .done true)
  else (store, .done false)

/-- The common part of `queueDequeue` and `queuePopBack`: the item at `index` goes. -/
def takeAt (index head tail : Int) : QueueStore V × Reply V :=
  if store.size = 0 then (store, .item none false)
  else (queueNormalizeEmpty { store with slots := mapDeleteString store.slots index, head, tail, size := store.size - 1 },
    .item (store.slots (queueSlotKey index)) true)

def queueDequeue : QueueStore V × Reply V := takeAt store store.head (store.head + 1) store.tail

def queuePopBack : QueueStore V × Reply V :=
  takeAt store (store.tail - 1) store.head (store.tail - 1)

def peekAt (index : Int) : QueueStore V × Reply V :=
  (store, if store.size = 0 then .item none false else .item (store.slots (queueSlotKey index)) true)

def queueClear : QueueStore V × Reply V :=
  ({ store with slots := fun _ => none, size := 0, head := 0, tail := 0 }, .removed store.size)

def collect (slots : Text → Option V) (i tail : Int) : List (Option V) :=
  if i < tail then slots (queueSlotKey i) :: collect slots (i + 1) tail else []
termination_by (tail - i).toNat

def queueToArray : QueueStore V × Reply V :=
  (store, .items (if store.size = 0 then [] else collect store.slots store.head store.tail))

def step (store : QueueStore V) : Op V → QueueStore V × Reply V
  | .enqueue value => queueEnqueue store value
  | .tryEnqueue value => queueTryEnqueue store value
  | .enqueueDropOldest value => queueEnqueueDropOldest store value
  | .pushFront value => queuePushFront store value
  | .dequeue => queueDequeue store
  | .popBack => queuePopBack store
  | .peekFront => peekAt store store.head
  | .peekBack => peekAt store (store.tail - 1)
  | .clear => queueClear store
  | .toArray => queueToArray store

/-! ### The list -/

def full (maxSize : Int) (l : List V) : Bool := maxSize != 0 && decide (maxSize ≤ l.length)

def listStep (maxSize : Int) (l : List V) : Op V → List V × Reply V
  | .enqueue value | .tryEnqueue value => if full maxSize l then (l, .done false) else (l ++ [value], .done true)
  | .enqueueDropOldest value => ((if full maxSize l then l.tail else l) ++ [value], .done (full maxSize l))
  | .pushFront value => if full maxSize l then (l, .done false) else (value :: l, .done true)
  | .dequeue => (l.tail, .item l.head? l.head?.isSome)
  | .popBack => (l.dropLast, .item l.getLast? l.getLast?.isSome)
  | .peekFront => (l, .item l.head? l.head?.isSome)
  | .peekBack => (l, .item l.getLast? l.getLast?.isSome)
  | .clear => ([], .removed l.length)
  | .toArray => (l, .items (l.map some))

def itemAt (l : List V) (j : Int) : Option V := if 0 ≤ j then l[j.toNat]? else none

/-- The slots hold the items of the list from `head` on and nothing else. -/
structure Holds (slots : Text → Option V) (head : Int) (l : List V) : Prop where
  item : ∀ i, slots (queueSlotKey i) = itemAt l (i - head)
  index : ∀ key, slots key ≠ none → ∃ i, key = queueSlotKey i

structure Represents (maxSize : Int) (store : QueueStore V) (l : List V) : Prop where
  holds : Holds store.slots store.head l
  tail_eq : store.tail = store.head + l.length
  size_eq : store.size = l.length
  max_eq : store.maxSize = maxSize
  bounded : maxSize = 0 ∨ (l.length : Int) ≤ maxSize

variable {slots : Text → Option V} {head k : Int} {l : List V} {v x : V} {o : Option V}

theorem update_key (slots : Text → Option V) (k i : Int) (o : Option V) :
    update slots (queueSlotKey k) o (queueSlotKey i) = if i = k then o else slots (queueSlotKey i) := by
  rw [update_apply]
  exact if_congr ⟨str_injective, congrArg str⟩ rfl rfl

/-- Changing the slot of one index changes the list there. -/
theorem Holds.update (h : Holds slots head l) {head' : Int} {l' : List V}
    (hl : ∀ i, itemAt l' (i - head') = if i = k then o else itemAt l (i - head)) :
    Holds (update slots (queueSlotKey k) o) head' l' := by
  refine ⟨fun i => ?_, fun key hkey => ?_⟩
  · rw [update_key, hl, h.item]
  · by_cases heq : key = queueSlotKey k
    · exact ⟨k, heq⟩
    · rw [update_of_ne heq] at hkey
      exact h.index key hkey

theorem holds_nil (head : Int) : Holds (fun _ => (none : Option V)) head [] := by
  refine ⟨fun i => ?_, fun _ h => absurd rfl h⟩
  simp [itemAt]

/-- Without items the head can be anywhere. -/
theorem Holds.move (h : Holds slots head []) (head' : Int) : Holds slots head' [] := by
  refine ⟨fun i => ?_, h.index⟩
  rw [h.item]
  simp [itemAt]

theorem Holds.pushTail (h : Holds slots head l) : Holds (mapSetString slots (head + l.length) v) head (l ++ [v]) := by
  refine h.update fun i => ?_
  simp only [itemAt]
  grind

theorem Holds.pushHead (h : Holds slots head l) : Holds (mapSetString slots (head - 1) v) (head - 1) (v :: l) := by
  refine h.update fun i => ?_
  simp only [itemAt]
  grind

theorem Holds.popHead (h : Holds slots head (x :: l)) : Holds (mapDeleteString slots head) (head + 1) l := by
  refine h.update fun i => ?_
  have hindex : (i - head).toNat - 1 = (i - (head + 1)).toNat := by omega
  simp only [itemAt, getElem?_cons]
  grind

theorem Holds.popTail (h : Holds slots head (l ++ [x])) : Holds (mapDeleteString slots (head + l.length)) head l := by
  refine h.update fun i => ?_
  simp only [itemAt]
  grind

theorem Holds.get (h : Holds slots head l) (j : Nat) : slots (queueSlotKey (head + j)) = l[j]? := by
  have hj : head + j - head = j := by omega
  rw [h.item, hj, itemAt, if_pos (by omega), Int.toNat_natCast]

theorem Holds.collect (h : Holds slots head l) {j : Nat} (hj : j ≤ l.length) :
    collect slots (head + j) (head + l.length) = (l.drop j).map some := by
  induction hn : l.length - j generalizing j with
  | zero =>
    rw [Queue.collect, if_neg (by omega), drop_eq_nil_of_le (by omega)]
    rfl
  | succ n ih =>
    have hlt : j < l.length := by omega
    have hnext : head + j + 1 = head + (j + 1 : Nat) := by omega
    rw [Queue.collect, if_pos (by omega), h.get, hnext, ih (by omega) (by omega), drop_eq_getElem_cons hlt,
      getElem?_eq_getElem hlt, map_cons]

variable {maxSize : Int} {store : QueueStore V}

theorem Represents.hasCapacity (h : Represents maxSize store l) : queueHasCapacity store 1 = !full maxSize l := by
  rw [queueHasCapacity, full, h.max_eq, h.size_eq]
  grind

theorem Represents.pushTail (h : Represents maxSize store l) (hfull : full maxSize l = false) (v : V) :
    Represents maxSize (pushTail store v) (l ++ [v]) := by
  refine ⟨?_, ?_, ?_, h.max_eq, ?_⟩
  · change Holds (mapSetString store.slots store.tail v) store.head (l ++ [v])
    rw [h.tail_eq]
    exact h.holds.pushTail
  all_goals have := h.tail_eq; have := h.size_eq; have := h.bounded; grind [Queue.pushTail, full]

theorem Represents.takeAt (h : Represents maxSize store l) {l' : List V} {index head tail : Int}
    (hlen : l.length = l'.length + 1) (hholds : Holds (mapDeleteString store.slots index) head l')
    (htail : tail = head + l'.length) : Represents maxSize (takeAt store index head tail).1 l' ∧
      (takeAt store index head tail).2 = .item (store.slots (queueSlotKey index)) true := by
  have hsize := h.size_eq
  have hbounded := h.bounded
  rw [Queue.takeAt, if_neg (by omega)]
  refine ⟨?_, rfl⟩
  rw [queueNormalizeEmpty]
  dsimp only
  split_ifs with hzero
  · obtain rfl : l' = [] := eq_nil_of_length_eq_zero (by omega)
    exact ⟨hholds.move 0, rfl, hzero, h.max_eq, by grind⟩
  · exact ⟨hholds, htail, by dsimp only; omega, h.max_eq, by omega⟩

theorem Represents.last (h : Represents maxSize store l) (hne : l ≠ []) :
    store.slots (queueSlotKey (store.tail - 1)) = l.getLast? := by
  have hpos := length_pos_iff.mpr hne
  have hindex : store.tail - 1 = store.head + (l.length - 1 : Nat) := by rw [h.tail_eq]; omega
  rw [hindex, h.holds.get, getLast?_eq_getElem?]

section

variable (h : Represents maxSize store l)

include h

theorem Represents.pushHead (hfull : full maxSize l = false) (v : V) :
    Represents maxSize (queuePushFront store v).1 (v :: l) := by
  have hsize := h.size_eq
  have htail := h.tail_eq
  rw [queuePushFront, if_pos (by rw [h.hasCapacity, hfull]; rfl)]
  split_ifs with hzero
  · obtain rfl : l = [] := eq_nil_of_length_eq_zero (by omega)
    exact ⟨(h.holds.move 1).pushHead, by simp, by simp [hzero], h.max_eq, by grind [full]⟩
  · exact ⟨h.holds.pushHead, by grind, by grind, h.max_eq, by grind [full]⟩

theorem Represents.cleared : Represents maxSize (queueClear store).1 [] :=
  ⟨holds_nil 0, rfl, rfl, h.max_eq, h.bounded.imp_right fun hle => le_trans (by simp) hle⟩

theorem Represents.dequeue :
    Represents maxSize (queueDequeue store).1 l.tail ∧ (queueDequeue store).2 = .item l.head? l.head?.isSome := by
  rw [queueDequeue]
  cases l with
  | nil =>
    have hzero : store.size = 0 := h.size_eq
    rw [Queue.takeAt, if_pos hzero]
    exact ⟨h, rfl⟩
  | cons x l =>
    have hget := h.holds.get 0
    rw [Int.natCast_zero, Int.add_zero] at hget
    have htail : store.tail = store.head + 1 + l.length := by rw [h.tail_eq, length_cons]; omega
    obtain ⟨hrep, hreply⟩ := h.takeAt rfl h.holds.popHead htail
    exact ⟨hrep, by rw [hreply, hget]; rfl⟩

theorem Represents.popBack : Represents maxSize (queuePopBack store).1 l.dropLast ∧
      (queuePopBack store).2 = .item l.getLast? l.getLast?.isSome := by
  rw [queuePopBack]
  rcases l.eq_nil_or_concat' with rfl | ⟨l, x, rfl⟩
  · have hzero : store.size = 0 := h.size_eq
    rw [Queue.takeAt, if_pos hzero]
    exact ⟨h, rfl⟩
  · have hlast := h.last (by simp)
    have hindex : store.tail - 1 = store.head + l.length := by
      rw [h.tail_eq, length_append, length_singleton]
      omega
    rw [hindex] at hlast ⊢
    obtain ⟨hrep, hreply⟩ := h.takeAt (by simp) h.holds.popTail rfl
    rw [dropLast_concat]
    exact ⟨hrep, by rw [hreply, hlast, getLast?_concat]; rfl⟩

theorem Represents.peek {index : Int} (hsome : o.isSome = !l.isEmpty)
    (hslot : l ≠ [] → store.slots (queueSlotKey index) = o) : peekAt store index = (store, .item o o.isSome) := by
  have hsize := h.size_eq
  rw [peekAt]
  cases l with
  | nil =>
    obtain rfl : o = none := by simpa using hsome
    rw [if_pos (by simpa using hsize)]
    rfl
  | cons x l =>
    rw [if_neg (by rw [hsize, length_cons]; omega), hslot (cons_ne_nil x l), hsome]
    rfl

/-- A full queue has an oldest item, since it is bounded. -/
theorem Represents.dropOldest (v : V) :
    Represents maxSize (queueEnqueueDropOldest store v).1 ((if full maxSize l then l.tail else l) ++ [v]) ∧
      (queueEnqueueDropOldest store v).2 = .done (full maxSize l) := by
  have hsize := h.size_eq
  have htail := h.tail_eq
  have hbounded := h.bounded
  rw [queueEnqueueDropOldest, h.hasCapacity, Bool.not_not]
  cases hfull : full maxSize l with
  | false => exact ⟨h.pushTail hfull v, rfl⟩
  | true =>
    cases l with
    | nil => grind [full]
    | cons x l =>
      rw [length_cons] at hsize htail hbounded
      rw [decide_eq_true (by omega : store.size > 0), Bool.and_self]
      have hdropped : Represents maxSize ⟨mapDeleteString store.slots store.head, store.head + 1, store.tail,
          store.size - 1, store.maxSize, store.droppedCount + 1⟩ l :=
        ⟨h.holds.popHead, by grind, by grind, h.max_eq, by grind⟩
      exact ⟨hdropped.pushTail (by grind [full]) v, rfl⟩

theorem Represents.toArray : queueToArray store = (store, .items (l.map some)) := by
  have hcollect := h.holds.collect (Nat.zero_le l.length)
  rw [Int.natCast_zero, Int.add_zero, ← h.tail_eq] at hcollect
  rw [queueToArray, hcollect, h.size_eq]
  cases l <;> rfl

theorem Represents.step (op : Op V) :
    Represents maxSize (step store op).1 (listStep maxSize l op).1 ∧ (step store op).2 = (listStep maxSize l op).2 := by
  have hcap := h.hasCapacity
  cases op with
  | enqueue v =>
    simp only [Queue.step, queueEnqueue, listStep, hcap]
    cases hfull : full maxSize l with
    | true => exact ⟨h, rfl⟩
    | false => exact ⟨h.pushTail hfull v, rfl⟩
  | tryEnqueue v =>
    simp only [Queue.step, queueTryEnqueue, listStep, hcap]
    cases hfull : full maxSize l with
    | true => exact ⟨⟨h.holds, h.tail_eq, h.size_eq, h.max_eq, h.bounded⟩, rfl⟩
    | false => exact ⟨h.pushTail hfull v, rfl⟩
  | enqueueDropOldest v => exact h.dropOldest v
  | pushFront v =>
    have hpush := h.pushHead (v := v)
    simp only [Queue.step, queuePushFront, listStep, hcap] at hpush ⊢
    cases hfull : full maxSize l with
    | true => exact ⟨h, rfl⟩
    | false =>
      rw [hfull] at hpush
      exact ⟨hpush rfl, rfl⟩
  | dequeue => exact h.dequeue
  | popBack => exact h.popBack
  | peekFront =>
    have hget := h.holds.get 0
    rw [Int.natCast_zero, Int.add_zero, ← head?_eq_getElem?] at hget
    simp only [Queue.step, h.peek (o := l.head?) (by cases l <;> rfl) fun _ => hget, listStep]
    exact ⟨h, trivial⟩
  | peekBack =>
    simp only [Queue.step, h.peek (o := l.getLast?) (by cases l <;> simp) h.last, listStep]
    exact ⟨h, trivial⟩
  | clear => exact ⟨h.cleared, congrArg Reply.removed h.size_eq⟩
  | toArray => exact ⟨h, congrArg Prod.snd h.toArray⟩

end

def run (store : QueueStore V) : List (Op V) → QueueStore V × List (Reply V)
  | [] => (store, [])
  | op :: ops => ((run (step store op).1 ops).1, (step store op).2 :: (run (step store op).1 ops).2)

def listRun (maxSize : Int) (l : List V) : List (Op V) → List V × List (Reply V)
  | [] => (l, [])
  | op :: ops =>
    ((listRun maxSize (listStep maxSize l op).1 ops).1,
      (listStep maxSize l op).2 :: (listRun maxSize (listStep maxSize l op).1 ops).2)

theorem Represents.run (h : Represents maxSize store l) (ops : List (Op V)) :
    Represents maxSize (run store ops).1 (listRun maxSize l ops).1 ∧ (run store ops).2 = (listRun maxSize l ops).2 := by
  induction ops generalizing store l with
  | nil => exact ⟨h, rfl⟩
  | cons op ops ih =>
    obtain ⟨hstep, hreply⟩ := h.step op
    obtain ⟨hrun, hreplies⟩ := ih hstep
    exact ⟨hrun, congrArg₂ List.cons hreply hreplies⟩

theorem represents_new (h : queueNew maxSize = some store) : Represents maxSize store ([] : List V) := by
  rw [queueNew] at h
  split_ifs at h with hbad
  cases h
  exact ⟨holds_nil 0, rfl, rfl, rfl, .inr (by rw [length_nil]; omega)⟩

theorem Holds.ne_none_iff (h : Holds slots head l) (key : Text) :
    slots key ≠ none ↔ ∃ i, key = queueSlotKey i ∧ head ≤ i ∧ i < head + l.length := by
  have hitem : ∀ i, slots (queueSlotKey i) ≠ none ↔ head ≤ i ∧ i < head + l.length := fun i => by
    rw [h.item, itemAt]
    grind
  constructor
  · intro hkey
    obtain ⟨i, rfl⟩ := h.index key hkey
    exact ⟨i, rfl, (hitem i).mp hkey⟩
  · rintro ⟨i, rfl, hi⟩
    exact (hitem i).mpr hi

end Tablo.Queue
