import Tablo.CycleGc
import Mathlib.Algebra.Order.BigOperators.Group.Finset

/-! Heaps whose reference counts cover the references, and the objects a
collection has to reclaim. -/

namespace Tablo.Gc

open DoublyLinked Marking List

theorem Body.count_children_le (b : Body) (v : Value) : b.children.count v ≤ b.held.count v := by
  cases b with
  | array boxed elements => cases boxed <;> simp [children, held]
  | record fields | tuple elements => simp [children, held]
  | other held => simp [children]
  | map slots =>
    simp only [children, held]
    induction slots with
    | nil => simp
    | cons slot slots ih =>
      cases slot with
      | none => simpa using ih
      | some kv =>
        simp only [filterMap_cons, Option.map_some, count_cons, flatMap_cons,
          cons_append, nil_append]
        omega

theorem Body.cleared_held (b : Body) (hb : b.hasNode = true) : ∀ v ∈ b.cleared.held, v.id? = none := by
  intro v hv
  cases b with
  | array boxed elements => cases boxed <;> simp [cleared, held] at hv
  | record fields =>
    simp only [cleared, held, mem_map] at hv
    obtain ⟨-, -, rfl⟩ := hv
    rfl
  | tuple elements | map slots => simp [cleared, held] at hv
  | other held => simp [hasNode] at hb

def Heap.held (h : Heap) (id : Id) : List Value :=
  match h.objs id with
  | none => []
  | some o => o.body.held

def Heap.refsFrom (h : Heap) (from_ : Finset Id) (id : Id) : Nat :=
  ∑ j ∈ from_, (h.held j).count (.obj id)

/-- A heap at rest: the tracked objects are linked, no reference dangles and
every count is at least the number of references. -/
structure CountedHeap extends Heap where
  tracked : List Id
  linked : Represents links tracked
  owner_iff : ∀ id, owner id = true ↔ id ∈ tracked
  tracked_live : ∀ id ∈ tracked, ∃ o, objs id = some o ∧ o.body.hasNode = true
  live_lt : ∀ id o, objs id = some o → id < size
  held_live : ∀ id j, .obj j ∈ toHeap.held id → objs j ≠ none
  counts : ∀ id o, objs id = some o → (toHeap.refsFrom (Finset.range size) id : Int) ≤ o.refCount
  trackedCount_eq : trackedCount = tracked.length
  at_rest : isCollecting = false

variable (h : CountedHeap) {id j : Id}

def CountedHeap.internalRefs (id : Id) : Nat :=
  (h.tracked.flatMap (trackedChildren h.toHeap)).count id

def CountedHeap.External (id : Id) : Prop :=
  id ∈ h.tracked ∧ (h.internalRefs id : Int) < cycleGcObjRefCount h.toHeap id

def CountedHeap.Reachable (id : Id) : Prop :=
  Reach (trackedChildren h.toHeap) h.External id

open Classical in
noncomputable def CountedHeap.garbage (h : CountedHeap) : Finset Id :=
  h.tracked.toFinset.filter fun id => ¬ h.Reachable id

/-- What a collection owes: it reclaims the unreachable tracked objects and
no others, touches no reachable one, reports their number and leaves the
survivors linked. -/
structure Collected (h : CountedHeap) (h' : Heap) (reclaimed : Int) : Prop where
  unreachable_freed : ∀ id ∈ h.tracked, ¬ h.Reachable id → h'.objs id = none
  reachable_kept : ∀ id ∈ h.tracked, h.Reachable id →
    ∃ o, h'.objs id = some o ∧ (h.objs id).map Object.body = some o.body
  count_eq : reclaimed = (h.tracked.filter fun id => (h'.objs id).isNone).length
  linked : Represents h'.links (h.tracked.filter fun id => (h'.objs id).isSome)
  owner_iff : ∀ id, h'.owner id = true ↔ id ∈ h.tracked ∧ (h'.objs id).isSome
  trackedCount_eq : h'.trackedCount = (h.tracked.filter fun id => (h'.objs id).isSome).length

theorem CountedHeap.mem_garbage : id ∈ h.garbage ↔ id ∈ h.tracked ∧ ¬ h.Reachable id := by
  simp [garbage]

theorem CountedHeap.garbage_subset_tracked : h.garbage ⊆ h.tracked.toFinset := by
  intro id hid
  exact mem_toFinset.mpr (h.mem_garbage.mp hid).1

theorem CountedHeap.garbage_live (hid : id ∈ h.garbage) : ∃ o, h.objs id = some o ∧ o.body.hasNode = true :=
  h.tracked_live id (h.mem_garbage.mp hid).1

theorem CountedHeap.garbage_subset : h.garbage ⊆ Finset.range h.size := by
  intro id hid
  obtain ⟨o, ho, -⟩ := h.garbage_live hid
  exact Finset.mem_range.mpr (h.live_lt id o ho)

variable {h : Heap} {s t : Finset Id}

theorem Heap.refsFrom_mono (hst : s ⊆ t) (id : Id) : h.refsFrom s id ≤ h.refsFrom t id :=
  Finset.sum_le_sum_of_subset hst

theorem Heap.refsFrom_insert (hj : j ∉ s) (id : Id) :
    h.refsFrom (insert j s) id = (h.held j).count (.obj id) + h.refsFrom s id :=
  Finset.sum_insert hj

theorem Heap.held_count_eq_zero (hst : s ⊆ t) (heq : h.refsFrom t id ≤ h.refsFrom s id) (hj : j ∈ t) (hjs : j ∉ s) :
    (h.held j).count (.obj id) = 0 := by
  have hins : insert j s ⊆ t := Finset.insert_subset hj hst
  have hle := h.refsFrom_mono hins id
  rw [h.refsFrom_insert hjs] at hle
  omega

/-! Trial deletion and marking find exactly the reachable tracked objects. -/

open Function

variable {h : Heap} {nodes : List Id}

theorem snapshot_eq {p : Option Id} {l : List Id} (hc : Chain h.links p l none) :
    cycleGcSnapshotNodes h l.length l.head? = l := by
  induction l generalizing p with
  | nil => rfl
  | cons x xs ih =>
    obtain ⟨-, hn, hxs⟩ := hc
    rw [Option.or_none] at hn
    simp [cycleGcSnapshotNodes, hn, ih hxs]

theorem initRefs_eq (hown : ∀ id ∈ nodes, h.owner id = true) :
    ∃ g r, initRefs nodes h = { h with gcRefs := g, reachable := r } ∧
      ∀ id ∈ nodes, g id = cycleGcObjRefCount h id ∧ r id = false := by
  induction nodes using List.reverseRecOn with
  | nil => exact ⟨h.gcRefs, h.reachable, rfl, by simp⟩
  | append_singleton l x ih =>
    obtain ⟨g, r, heq, hg⟩ := ih fun id hid => hown id (mem_append_left _ hid)
    refine ⟨update g x (cycleGcObjRefCount h x), update r x false, ?_, ?_⟩
    · rw [initRefs, foldl_append] at *
      rw [heq]
      simp only [foldl_cons, hown x (by simp)]
      rfl
    · intro id hid
      by_cases hx : id = x
      · simp [hx]
      · simpa [hx] using hg id (by simpa [hx] using hid)

theorem subtractChildren_eq (h : Heap) (children : List Id) : children.foldl (fun h child =>
        { h with gcRefs := update h.gcRefs child (h.gcRefs child - 1) }) h =
      { h with gcRefs := fun id => h.gcRefs id - children.count id } := by
  induction children using List.reverseRecOn with
  | nil => simp
  | append_singleton l x ih =>
    rw [foldl_append, ih]
    simp only [foldl_cons, foldl_nil]
    congr 1
    funext id
    by_cases hx : id = x
    · subst hx
      simp only [update_self, count_append, count_singleton_self]
      omega
    · rw [update_of_ne hx, count_append, count_singleton, if_neg (by simpa using Ne.symm hx)]
      simp

theorem subtractRefs_eq (hown : ∀ id ∈ nodes, h.owner id = true) : subtractRefs nodes h =
      { h with gcRefs := fun id => h.gcRefs id - (nodes.flatMap (trackedChildren h)).count id } := by
  induction nodes using List.reverseRecOn with
  | nil => simp [subtractRefs]
  | append_singleton l x ih =>
    have hl := ih fun id hid => hown id (mem_append_left _ hid)
    rw [subtractRefs, foldl_append] at *
    rw [hl]
    simp only [foldl_cons, foldl_nil, hown x (by simp), if_true, cycleGcSubtractChildrenRefs]
    rw [subtractChildren_eq]
    congr 1
    funext id
    simp only [flatMap_append, flatMap_cons, flatMap_nil, append_nil, count_append]
    change h.gcRefs id - _ - ((trackedChildren h x).count id : Int) = _
    omega

theorem mem_trackedChildren {id j : Id} : j ∈ trackedChildren h id ↔
      .obj j ∈ h.children id ∧ h.owner j = true ∧ ∃ o, h.objs j = some o ∧ o.body.hasNode = true := by
  unfold trackedChildren
  rw [mem_filterMap]
  constructor
  · rintro ⟨v, hv, hj⟩
    unfold cycleGcNodeFromValue at hj
    cases v with
    | nil | plain => simp [Value.id?] at hj
    | obj k =>
      simp only [Value.id?] at hj
      cases ho : h.objs k with
      | none => simp [ho] at hj
      | some o =>
        simp only [ho, Bool.and_eq_true, Option.ite_none_right_eq_some, Option.some_inj] at hj
        obtain ⟨⟨hb, hown⟩, rfl⟩ := hj
        exact ⟨hv, hown, o, ho, hb⟩
  · rintro ⟨hv, hown, o, ho, hb⟩
    exact ⟨.obj j, hv, by simp [cycleGcNodeFromValue, Value.id?, ho, hb, hown]⟩

theorem CountedHeap.trackedChildren_mem (h : CountedHeap) {id j : Id}
    (hj : j ∈ trackedChildren h.toHeap id) : j ∈ h.tracked :=
  (h.owner_iff j).mp (mem_trackedChildren.mp hj).2.1

theorem trackedChildren_congr {g : Heap} (hobjs : g.objs = h.objs) (hown : g.owner = h.owner) :
    trackedChildren g = trackedChildren h := by
  have hnode : cycleGcNodeFromValue g = cycleGcNodeFromValue h := by
    funext v
    simp only [cycleGcNodeFromValue, hobjs, hown]
  funext id
  simp only [trackedChildren, Heap.children, hobjs, hnode]

theorem mark_phase (h : CountedHeap) {g : Heap} (hobjs : g.objs = h.objs) (hown : g.owner = h.owner) :
    ∃ gc r, markReachable h.tracked (subtractRefs h.tracked (initRefs h.tracked g)) =
        .ok { g with gcRefs := gc, reachable := r } ∧
      ∀ id ∈ h.tracked, r id = true ↔ h.Reachable id := by
  have howns : ∀ id ∈ h.tracked, g.owner id = true := fun id hid => by
    rw [hown]
    exact (h.owner_iff id).mpr hid
  obtain ⟨gc, r, hinit, hg⟩ := initRefs_eq howns
  rw [hinit, subtractRefs_eq (by exact howns), markReachable]
  rw [trackedChildren_congr (g := { g with gcRefs := gc, reachable := r }) hobjs hown]
  rw [trackedChildren_congr (h := h.toHeap) (by exact hobjs) (by exact hown)]
  -- what is left of the counts is positive exactly at the external objects
  have hroot : ∀ id, id ∈ h.tracked.filter (fun id => g.owner id &&
      decide (0 < gc id - ((h.tracked.flatMap (trackedChildren h.toHeap)).count id : Int))) ↔
      h.External id := by
    intro id
    rw [List.mem_filter, CountedHeap.External, CountedHeap.internalRefs]
    refine and_congr_right fun hid => ?_
    have hrc : cycleGcObjRefCount g id = cycleGcObjRefCount h.toHeap id := by
      simp only [cycleGcObjRefCount, hobjs]
    rw [howns id hid, (hg id hid).1, hrc]
    simp
  have hcard : h.tracked.toFinset.card = h.tracked.length :=
    toFinset_card_of_nodup h.linked.nodup
  have hsucc : ∀ i ∈ h.tracked.toFinset, ∀ j ∈ trackedChildren h.toHeap i, j ∈ h.tracked.toFinset :=
    fun i _ j hj => mem_toFinset.mpr (h.trackedChildren_mem hj)
  obtain ⟨s, hdrain, hs⟩ := mark_spec hsucc (fun i hi => (hg i (mem_toFinset.mp hi)).2)
    (fun i hi => mem_toFinset.mpr ((hroot i).mp hi).1)
  rw [hcard] at hdrain
  rw [hdrain]
  refine ⟨_, s.marked, rfl, fun id hid => ?_⟩
  rw [hs id (mem_toFinset.mpr hid)]
  simp only [hroot]
  exact Iff.rfl

variable (h : CountedHeap)

theorem count_trackedChildren_le (id j : Id) :
    (trackedChildren h.toHeap id).count j ≤ (h.held id).count (.obj j) := by
  have hle : (trackedChildren h.toHeap id).count j ≤ (h.children id).count (.obj j) := by
    unfold trackedChildren
    induction h.children id with
    | nil => simp
    | cons v l ih =>
      rw [filterMap_cons, count_cons]
      cases hv : cycleGcNodeFromValue h.toHeap v with
      | none => exact ih.trans (Nat.le_add_right _ _)
      | some k =>
        have hk : v = .obj k := by
          cases v <;> simp_all [cycleGcNodeFromValue, Value.id?]
          split at hv <;> simp_all
        subst hk
        by_cases hkj : k = j <;> simp [hkj, ih]
  refine hle.trans ?_
  simp only [Heap.children, Heap.held]
  cases h.objs id with
  | none => simp
  | some o => exact o.body.count_children_le _

theorem CountedHeap.internalRefs_eq (id : Id) :
    h.internalRefs id = ∑ j ∈ h.tracked.toFinset, (trackedChildren h.toHeap j).count id := by
  rw [CountedHeap.internalRefs, count_flatMap, sum_toFinset _ h.linked.nodup]
  rfl

theorem CountedHeap.garbage_refs {id : Id} {o : Object} (hid : id ∈ h.garbage) (ho : h.objs id = some o) :
    o.refCount = h.refsFrom h.garbage id := by
  obtain ⟨htr, hun⟩ := h.mem_garbage.mp hid
  have hext : o.refCount ≤ h.internalRefs id := by
    by_contra hlt
    refine hun (.root ⟨htr, ?_⟩)
    rw [cycleGcObjRefCount, ho]
    simpa using hlt
  have hint : h.internalRefs id ≤ h.refsFrom h.garbage id :=
    calc h.internalRefs id
        = ∑ j ∈ h.tracked.toFinset, (trackedChildren h.toHeap j).count id := h.internalRefs_eq id
      _ = ∑ j ∈ h.garbage, (trackedChildren h.toHeap j).count id := by
        refine (Finset.sum_subset h.garbage_subset_tracked fun j hj hjg => ?_).symm
        -- a child of a reachable object would be reachable
        refine count_eq_zero.mpr fun hmem => hjg (h.mem_garbage.mpr ⟨mem_toFinset.mp hj, ?_⟩)
        exact fun hr => hun (.step hr hmem)
      _ ≤ h.refsFrom h.garbage id := Finset.sum_le_sum fun j _ => count_trackedChildren_le h j id
  have hmono := h.refsFrom_mono h.garbage_subset id
  have hcount := h.counts id o ho
  omega

end Tablo.Gc
