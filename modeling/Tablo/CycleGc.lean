import Tablo.DoublyLinked
import Tablo.Marking
import Mathlib.Algebra.GroupWithZero.Nat

/-! The cycle collector of `cycle_gc.c` over a heap of reference-counted
objects. Objects are numbered; the fields of a collector node are maps on
these numbers. Values without an object (numbers, nil, booleans) hold no
reference. Objects the collector does not know, such as closures, strings and
containers made without a virtual machine, release what they hold when they
are freed, like all others. Native payload destructors are left out. -/

namespace Tablo.Gc

open DoublyLinked Marking Function

abbrev Id := Nat

inductive Value where
  | nil
  | plain
  | obj (id : Id)
  deriving DecidableEq, Repr

def Value.id? : Value → Option Id
  | .obj id => some id
  | _ => none

inductive Body where
  | array (boxed : Bool) (elements : List Value)
  | record (fields : List Value)
  | tuple (elements : List Value)
  | map (slots : List (Option (Value × Value)))
  | other (held : List Value)
  deriving Repr

/-- The children the collector walks: the keys of a map are not among them. -/
def Body.children : Body → List Value
  | .array true elements => elements
  | .array false _ => []
  | .record fields => fields
  | .tuple elements => elements
  | .map slots => slots.filterMap (·.map Prod.snd)
  | .other _ => []

def Body.held : Body → List Value
  | .array true elements => elements
  | .array false _ => []
  | .record fields => fields
  | .tuple elements => elements
  | .map slots => slots.flatMap fun slot =>
      match slot with
      | none => []
      | some (key, value) => [key, value]
  | .other held => held

def Body.cleared : Body → Body
  | .array boxed _ => .array boxed []
  | .record fields => .record (fields.map fun _ => .nil)
  | .tuple _ => .tuple []
  | .map slots => .map (slots.map fun _ => none)
  | .other held => .other held

def Body.hasNode : Body → Bool
  | .other _ => false
  | _ => true

structure Object where
  refCount : Int
  body : Body
  deriving Repr

/-- Freed objects are `none`; `owner` says which nodes the collector owns. -/
structure Heap where
  size : Nat
  objs : Id → Option Object
  links : Links Id
  owner : Id → Bool
  gcRefs : Id → Int
  reachable : Id → Bool
  trackedCount : Int
  allocationsSinceCollect : Int
  isCollecting : Bool
  lastReclaimed : Int
  totalCollections : Int

inductive Fault where
  | dangling
  | endless
  deriving DecidableEq, Repr

variable (h : Heap) (id : Id) (nodes : List Id)

def cycleGcUntrack : Heap :=
  if h.owner id then
    { h with
      links := remove h.links id
      owner := update h.owner id false
      trackedCount := if 0 < h.trackedCount then h.trackedCount - 1 else h.trackedCount }
  else h

def cycleGcObjRefCount : Int :=
  match h.objs id with
  | none => 0
  | some o => o.refCount

def Heap.children : List Value :=
  match h.objs id with
  | none => []
  | some o => o.body.children

def cycleGcNodeFromValue (v : Value) : Option Id :=
  match v.id? with
  | none => none
  | some id =>
    match h.objs id with
    | none => none
    | some o => if o.body.hasNode && h.owner id then some id else none

def trackedChildren : List Id :=
  (h.children id).filterMap (cycleGcNodeFromValue h)

def setRefCount (n : Int) : Heap :=
  { h with objs := update h.objs id ((h.objs id).map fun o => { o with refCount := n }) }

def freeObject : Heap :=
  let h := cycleGcUntrack h id
  { h with objs := update h.objs id none }

/-- `value_free` on each value in turn. Freeing an object puts what it holds
in front of the values still to release, as the nested calls would. -/
def releaseLoop : Nat → Heap → List Value → Except Fault Heap
  | _, h, [] => .ok h
  | 0, _, _ :: _ => .error .endless
  | fuel + 1, h, v :: work =>
    match v.id? with
    | none => releaseLoop fuel h work
    | some id =>
      match h.objs id with
      | none => .error .dangling
      | some o =>
        if o.refCount - 1 ≤ 0 then releaseLoop fuel (freeObject h id) (o.body.held ++ work)
        else releaseLoop fuel (setRefCount h id (o.refCount - 1)) work

def Heap.weight : Nat :=
  ((List.range h.size).map fun id =>
    match h.objs id with
    | none => 0
    | some o => o.body.held.length).sum

def releaseAll (values : List Value) : Except Fault Heap :=
  releaseLoop (h.weight + values.length) h values

def cycleGcSnapshotNodes (h : Heap) : Nat → Option Id → List Id
  | 0, _ => []
  | _ + 1, none => []
  | cap + 1, some id => id :: cycleGcSnapshotNodes h cap (h.links.next id)

def initRefs (h : Heap) : Heap :=
  nodes.foldl (fun h id =>
    if h.owner id then
      { h with
        gcRefs := update h.gcRefs id (cycleGcObjRefCount h id)
        reachable := update h.reachable id false }
    else h) h

def cycleGcSubtractChildrenRefs : Heap :=
  (trackedChildren h id).foldl (fun h child =>
    { h with gcRefs := update h.gcRefs child (h.gcRefs child - 1) }) h

def subtractRefs (h : Heap) : Heap :=
  nodes.foldl (fun h id => if h.owner id then cycleGcSubtractChildrenRefs h id else h) h

def markReachable (h : Heap) : Except Fault Heap :=
  let cap := nodes.length
  let roots := nodes.filter fun id => h.owner id && decide (0 < h.gcRefs id)
  match drain cap (trackedChildren h) cap (roots.foldl (push cap) ⟨h.reachable, []⟩) with
  | none => .error .endless
  | some s => .ok { h with reachable := s.marked }

def cycleGcObjHold : Heap := setRefCount h id (cycleGcObjRefCount h id + 1)

def cycleGcClearChildren : Except Fault Heap :=
  match h.objs id with
  | none => .error .dangling
  | some o => do
    let h ← releaseAll h (if o.body.hasNode then o.body.held else [])
    .ok { h with
      objs := update h.objs id ((h.objs id).map fun o => { o with body := o.body.cleared }) }

def cycleGcObjDropHold : Except Fault Heap := releaseAll h [.obj id]

def collectNodes (h : Heap) : Except Fault (Heap × Int) := do
  let h ← markReachable nodes (subtractRefs nodes (initRefs nodes h))
  let unreachable := nodes.filter fun id => h.owner id && !h.reachable id
  let h ← unreachable.foldlM cycleGcClearChildren (unreachable.foldl cycleGcObjHold h)
  let h ← unreachable.foldlM cycleGcObjDropHold h
  .ok ({ h with
    lastReclaimed := unreachable.length
    allocationsSinceCollect := 0
    isCollecting := false }, unreachable.length)

def vmGcCollect : Except Fault (Heap × Int) :=
  if h.isCollecting then .ok (h, 0)
  else if h.trackedCount ≤ 0 then .ok (h, 0)
  else
    let h := { h with
      isCollecting := true
      totalCollections := h.totalCollections + 1
      lastReclaimed := 0 }
    match cycleGcSnapshotNodes h h.trackedCount.toNat h.links.head with
    | [] => .ok ({ h with allocationsSinceCollect := 0, isCollecting := false }, 0)
    | node :: nodes => collectNodes (node :: nodes) h

end Tablo.Gc
