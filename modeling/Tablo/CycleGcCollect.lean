import Tablo.CycleGcRelease

/-! A whole collection. It frees the garbage and the least set of objects that
the garbage takes with it. -/

namespace Tablo.Gc

open DoublyLinked Finset
open List hiding Chain

variable {h : CountedHeap} {s : Heap} {cleared moved freed : Finset Id} {u : Id} {l : List Id} {done : Finset Id}

theorem hold_eq (l : List Id) (s : Heap) : l.foldl cycleGcObjHold s = { s with
      objs := fun id => (s.objs id).map fun o => { o with refCount := o.refCount + l.count id } } := by
  induction l generalizing s with
  | nil => simp
  | cons u l ih =>
    rw [foldl_cons, ih]
    simp only [cycleGcObjHold, setRefCount, Heap.mk.injEq, true_and, and_true]
    funext id
    by_cases hid : id = u
    · subst hid
      cases ho : s.objs id with
      | none => simp
      | some o =>
        simp only [Function.update_self, ho, Option.map_some, cycleGcObjRefCount, count_cons_self]
        push_cast
        rw [add_assoc, add_comm 1]
    · simp [Function.update_of_ne hid, count_cons_of_ne (Ne.symm hid)]

theorem Accounted.start {g : Heap} (hnd : l.Nodup) (hl : ∀ id, id ∈ l ↔ id ∈ h.garbage)
    (hsize : g.size = h.size) (hobjs : g.objs = h.objs) (hlinks : g.links = h.links)
    (hown : g.owner = h.owner) (htc : g.trackedCount = h.trackedCount) :
    Accounted h (l.foldl cycleGcObjHold g) ∅ ∅ ∅ [] := by
  rw [hold_eq]
  refine ⟨⟨?_, ?_, ?_⟩, hsize, subset_rfl, empty_subset _, by simp, ?_, ?_, by simp, by simp⟩
  · simpa [hlinks] using h.linked
  · simpa [hown] using h.owner_iff
  · simpa [htc] using h.trackedCount_eq
  · intro id o ho _
    refine ⟨o.refCount + l.count id, by simp [hobjs, ho], ?_, .inl (by simp [Heap.refsFrom])⟩
    have hcount : (l.count id : Int) = if id ∈ h.garbage then 1 else 0 := by
      rw [hnd.count]
      simp only [hl]
      split_ifs <;> rfl
    simp [hcount, Heap.refsFrom]
  · intro id hid
    simpa [hobjs] using hid

theorem Accounted.give_up (ha : Accounted h s cleared moved freed []) (hu : u ∈ h.garbage)
    (hm : u ∉ moved) : Accounted h s cleared (insert u moved) freed (h.held u) := by
  have hnew : u ∉ moved ∪ freed := by
    simp only [mem_union, not_or]
    exact ⟨hm, fun hf => (ha.freed_live u hf).2 hu⟩
  have hrefs : ∀ id, h.refsFrom (insert u moved ∪ freed) id =
      (h.held u).count (.obj id) + h.refsFrom (moved ∪ freed) id := by
    intro id
    rw [insert_union, h.refsFrom_insert hnew]
  refine ⟨ha.tracking, ha.size_eq, ha.cleared_moved.trans (subset_insert _ _),
    insert_subset hu ha.moved_garbage, ha.freed_live, ?_, ha.gone, ?_, ?_⟩
  · intro id o ho hid
    obtain ⟨n, hn, hcount, htouched⟩ := ha.live id o ho hid
    rw [count_nil] at hcount htouched
    rw [hrefs]
    exact ⟨n, hn, by omega, by omega⟩
  · intro id hid
    obtain ⟨-, hrest⟩ := ha.settled id hid
    refine ⟨hrest u hnew, fun j hj => hrest j fun hmem => hj ?_⟩
    rw [insert_union]
    exact mem_insert_of_mem hmem
  · intro id
    rw [hrefs]
    omega

theorem Accounted.empty_slots (ha : Accounted h s cleared moved freed []) (hc : u ∉ cleared) (hm : u ∈ moved) :
    Accounted h { s with
      objs := Function.update s.objs u ((s.objs u).map fun o => { o with body := o.body.cleared }) }
      (insert u cleared) moved freed [] := by
  refine ⟨⟨ha.tracking.linked, ha.tracking.owner_iff, ha.tracking.trackedCount_eq⟩, ha.size_eq,
    insert_subset hm ha.cleared_moved, ha.moved_garbage, ha.freed_live, ?_, ?_, ha.settled,
    ha.pending_le⟩
  · intro id o ho hid
    obtain ⟨n, hn, hrest⟩ := ha.live id o ho hid
    refine ⟨n, ?_, hrest⟩
    by_cases hiu : id = u
    · subst hiu
      rw [if_neg hc] at hn
      simp [hn]
    · simp [hiu, hn]
  · intro id hid
    have hnone := ha.gone id hid
    by_cases hiu : id = u
    · subst hiu
      simp [hnone]
    · simp [hiu, hnone]

theorem Accounted.clear (ha : Accounted h s done done freed []) (hu : u ∈ h.garbage)
    (hnew : u ∉ done) : ∃ s' freed', cycleGcClearChildren s u = .ok s' ∧
      Accounted h s' (insert u done) (insert u done) freed' [] ∧
      ∀ t, h.Absorbs t → freed ⊆ t → freed' ⊆ t := by
  obtain ⟨o₀, ho₀, hnode⟩ := h.garbage_live hu
  obtain ⟨n, ho, -⟩ := ha.live u o₀ ho₀ fun hf => (ha.freed_live u hf).2 hu
  rw [if_neg hnew] at ho
  have hheld : h.held u = o₀.body.held := by simp [Heap.held, ho₀]
  have hgive := ha.give_up hu hnew
  rw [hheld] at hgive
  obtain ⟨s', freed', hrun, ha', hmin⟩ := hgive.release le_rfl
  refine ⟨_, freed', ?_, ha'.empty_slots hnew (mem_insert_self _ _), hmin⟩
  simp only [cycleGcClearChildren, ho, hnode, if_true, releaseAll]
  rw [hrun]
  rfl

theorem Accounted.clear_all (ha : Accounted h s done done freed [])
    (hnd : l.Nodup) (hl : ∀ u ∈ l, u ∈ h.garbage ∧ u ∉ done) : ∃ s' freed', l.foldlM cycleGcClearChildren s = .ok s' ∧
      Accounted h s' (done ∪ l.toFinset) (done ∪ l.toFinset) freed' [] ∧
      ∀ t, h.Absorbs t → freed ⊆ t → freed' ⊆ t := by
  induction l generalizing s done freed with
  | nil => exact ⟨s, freed, rfl, by simpa using ha, fun t _ ht => ht⟩
  | cons u l ih =>
    obtain ⟨hul, hnd⟩ := nodup_cons.mp hnd
    obtain ⟨hug, hud⟩ := hl u mem_cons_self
    obtain ⟨s₁, freed₁, hrun₁, ha₁, hmin₁⟩ := ha.clear hug hud
    obtain ⟨s₂, freed₂, hrun₂, ha₂, hmin₂⟩ := ih ha₁ hnd fun x hx => by
      obtain ⟨hxg, hxd⟩ := hl x (mem_cons_of_mem _ hx)
      refine ⟨hxg, fun hmem => ?_⟩
      rcases mem_insert.mp hmem with rfl | hmem
      · exact hul hx
      · exact hxd hmem
    rw [insert_union, ← union_insert, ← toFinset_cons] at ha₂
    refine ⟨s₂, freed₂, ?_, ha₂, fun t habs ht => hmin₂ t habs (hmin₁ t habs ht)⟩
    rw [foldlM_cons, hrun₁]
    exact hrun₂

variable {b : Body}

theorem releaseLoop_plain {l : List Value} {fuel : Nat} (hl : ∀ v ∈ l, v.id? = none) (hf : l.length ≤ fuel) :
    releaseLoop fuel s l = .ok s := by
  induction l generalizing fuel with
  | nil => simp [releaseLoop]
  | cons v l ih =>
    obtain ⟨fuel, rfl⟩ : ∃ f, fuel = f + 1 := ⟨fuel - 1, by rw [length_cons] at hf; omega⟩
    rw [length_cons] at hf
    simp only [releaseLoop, hl v mem_cons_self]
    exact ih (fun w hw => hl w (mem_cons_of_mem _ hw)) (by omega)

theorem dropHold_eq (ho : s.objs u = some ⟨1, b⟩) (hb : ∀ v ∈ b.held, v.id? = none) (hu : u < s.size) :
    cycleGcObjDropHold s u = .ok (freeObject s u) := by
  have hweight := weight_freeObject ho hu
  simp only [cycleGcObjDropHold, releaseAll, length_singleton, releaseLoop, Value.id?, ho]
  rw [append_nil]
  exact releaseLoop_plain hb (hweight ▸ Nat.le_add_left _ _)

theorem drop_all (ht : Tracking h s freed) (hnd : l.Nodup) (hl : ∀ u ∈ l, u ∉ freed ∧ u < s.size ∧
      ∃ b, s.objs u = some ⟨1, b⟩ ∧ ∀ v ∈ b.held, v.id? = none) :
    ∃ s', l.foldlM cycleGcObjDropHold s = .ok s' ∧ Tracking h s' (freed ∪ l.toFinset) ∧
      ∀ id, s'.objs id = if id ∈ l then none else s.objs id := by
  induction l generalizing s freed with
  | nil => exact ⟨s, rfl, by simpa using ht, by simp⟩
  | cons u l ih =>
    obtain ⟨hul, hnd⟩ := nodup_cons.mp hnd
    obtain ⟨huf, hus, b, hub, hplain⟩ := hl u mem_cons_self
    obtain ⟨s', hrun, ht', hobjs⟩ := ih (ht.free huf) hnd fun x hx => by
      obtain ⟨hxf, hxs, hxb⟩ := hl x (mem_cons_of_mem _ hx)
      have hxu : x ≠ u := fun hh => hul (hh ▸ hx)
      refine ⟨by simp [hxu, hxf], by rwa [freeObject_size], ?_⟩
      rwa [freeObject_objs, Function.update_of_ne hxu]
    rw [insert_union, ← union_insert, ← toFinset_cons] at ht'
    refine ⟨s', ?_, ht', fun id => ?_⟩
    · rw [foldlM_cons, dropHold_eq hub hplain hus]
      exact hrun
    · rw [hobjs, freeObject_objs]
      by_cases hid : id = u <;> simp [hid]

structure Outcome (h : CountedHeap) (h' : Heap) (freed : Finset Id) : Prop where
  tracking : Tracking h h' (freed ∪ h.garbage)
  gone : ∀ id ∈ freed ∪ h.garbage, h'.objs id = none
  kept : ∀ id o, h.objs id = some o → id ∉ freed ∪ h.garbage → ∃ n, h'.objs id = some ⟨n, o.body⟩
  freed_live : ∀ id ∈ freed, h.objs id ≠ none ∧ id ∉ h.garbage
  absorbs : h.Absorbs freed
  least : ∀ t, h.Absorbs t → freed ⊆ t

theorem Accounted.drop_ready (ha : Accounted h s h.garbage h.garbage freed []) (hu : u ∈ h.garbage) :
    u ∉ freed ∧ u < s.size ∧ ∃ b, s.objs u = some ⟨1, b⟩ ∧ ∀ v ∈ b.held, v.id? = none := by
  have hf : u ∉ freed := fun hf => (ha.freed_live u hf).2 hu
  obtain ⟨o, ho, hnode⟩ := h.garbage_live hu
  obtain ⟨n, hn, hcount, -⟩ := ha.live u o ho hf
  have hrefs := h.garbage_refs hu ho
  have hsub : h.garbage ⊆ h.garbage ∪ freed := subset_union_left
  have hlow := h.refsFrom_mono hsub u
  have hhigh := h.refsFrom_mono ha.sources_lt u
  have hall := h.counts u o ho
  rw [if_pos hu, count_nil] at hcount
  rw [if_pos hu] at hn
  obtain rfl : n = 1 := by omega
  exact ⟨hf, ha.size_eq ▸ h.live_lt u o ho, _, hn, o.body.cleared_held hnode⟩

theorem reclaim_outcome (hnd : l.Nodup)
    (hl : ∀ id, id ∈ l ↔ id ∈ h.garbage) (hstart : Accounted h s ∅ ∅ ∅ []) :
    ∃ h' freed, (do
      let s ← l.foldlM cycleGcClearChildren s
      l.foldlM cycleGcObjDropHold s) = .ok h' ∧ Outcome h h' freed := by
  have hlg : l.toFinset = h.garbage := by
    ext id
    rw [mem_toFinset, hl]
  obtain ⟨s₁, freed, hclear, ha, hleast⟩ := hstart.clear_all hnd fun u hu => ⟨(hl u).mp hu, by simp⟩
  rw [empty_union, hlg] at ha
  obtain ⟨h', hdrop, ht, hobjs⟩ := drop_all ha.tracking hnd fun u hu => ha.drop_ready ((hl u).mp hu)
  rw [hlg] at ht
  refine ⟨h', freed, by rw [hclear]; exact hdrop, ht, ?_, ?_, ha.freed_live, ?_, fun t ht => hleast t ht (by simp)⟩
  · intro id hid
    rw [hobjs]
    split_ifs with hmem
    · rfl
    · refine ha.gone id (.inr ?_)
      simpa [← hl, hmem] using hid
  · intro id o ho hid
    obtain ⟨hf, hg⟩ := not_or.mp fun hh => hid (mem_union.mpr hh)
    obtain ⟨n, hn, -⟩ := ha.live id o ho hf
    rw [if_neg hg] at hn
    exact ⟨n, by rw [hobjs, if_neg (mt (hl id).mp hg), hn]⟩
  · intro id o ho hid
    obtain ⟨hg, hf⟩ := not_or.mp fun hh => hid (mem_union.mpr hh)
    obtain ⟨n, -, hcount, htouched⟩ := ha.live id o ho hf
    rw [if_neg hg, count_nil] at hcount
    rw [count_nil] at htouched
    omega

theorem Outcome.finish {h' : Heap} (ho : Outcome h h' freed) (n : Int) : Outcome h { h' with
      lastReclaimed := n
      allocationsSinceCollect := 0
      isCollecting := false } freed :=
  ⟨⟨ho.tracking.linked, ho.tracking.owner_iff, ho.tracking.trackedCount_eq⟩, ho.gone, ho.kept,
    ho.freed_live, ho.absorbs, ho.least⟩

theorem CountedHeap.garbage_eq_empty (hnil : h.tracked = []) : h.garbage = ∅ :=
  subset_empty.mp (h.garbage_subset_tracked.trans (by simp [hnil]))

theorem Outcome.of_tracked_nil (hnil : h.tracked = []) : Outcome h h.toHeap ∅ := by
  have hg := h.garbage_eq_empty hnil
  have habs : h.Absorbs ∅ := fun id o _ _ => .inl (by simp [hg, Heap.refsFrom])
  refine ⟨⟨?_, ?_, ?_⟩, by simp [hg], fun id o ho _ => ⟨o.refCount, ho⟩, by simp, habs, by simp⟩
  · simpa [hg] using h.linked
  · simpa [hg] using h.owner_iff
  · simpa [hg] using h.trackedCount_eq

theorem collectNodes_outcome {g : Heap} (hsize : g.size = h.size) (hobjs : g.objs = h.objs)
    (hlinks : g.links = h.links) (hown : g.owner = h.owner) (htc : g.trackedCount = h.trackedCount) :
    ∃ h' freed, collectNodes h.tracked g = .ok (h', h.garbage.card) ∧ Outcome h h' freed := by
  obtain ⟨gc, r, hmark, hr⟩ := mark_phase h hobjs hown
  obtain ⟨l, hleq⟩ : ∃ l, h.tracked.filter (fun id => g.owner id && !r id) = l := ⟨_, rfl⟩
  have hl : ∀ id, id ∈ l ↔ id ∈ h.garbage := by
    intro id
    rw [← hleq, mem_filter, h.mem_garbage]
    refine and_congr_right fun hid => ?_
    rw [hown, (h.owner_iff id).mpr hid, ← hr id hid]
    simp
  have hnd : l.Nodup := hleq ▸ h.linked.nodup.filter _
  have hcard : l.length = h.garbage.card := by
    rw [← toFinset_card_of_nodup hnd]
    congr 1
    ext id
    rw [mem_toFinset, hl]
  obtain ⟨h', freed, hrun, ho⟩ := reclaim_outcome hnd hl
    (.start (g := { g with gcRefs := gc, reachable := r }) hnd hl hsize hobjs hlinks hown htc)
  refine ⟨_, freed, ?_, ho.finish l.length⟩
  simp only [collectNodes, hmark, bind, Except.bind, hleq] at hrun ⊢
  split at hrun
  · cases hrun
  · rw [hrun, hcard]

theorem collect_outcome (h : CountedHeap) :
    ∃ h' freed, vmGcCollect h.toHeap = .ok (h', h.garbage.card) ∧ Outcome h h' freed := by
  have hcount := h.trackedCount_eq
  unfold vmGcCollect
  rw [if_neg (by simp [h.at_rest])]
  cases htr : h.tracked with
  | nil =>
    rw [if_pos (by simp [hcount, htr])]
    exact ⟨h.toHeap, ∅, by rw [h.garbage_eq_empty htr]; rfl, .of_tracked_nil htr⟩
  | cons node nodes =>
    rw [if_neg (by rw [hcount, htr, length_cons]; omega)]
    have hsnap : ∀ g : Heap, g.links = h.links →
        cycleGcSnapshotNodes g h.trackedCount.toNat h.links.head = node :: nodes := by
      intro g hg
      rw [hcount, h.linked.head_eq, ← htr]
      exact snapshot_eq (hg ▸ h.linked.chain)
    dsimp only
    rw [hsnap]
    · dsimp only
      rw [← htr]
      exact collectNodes_outcome rfl rfl rfl rfl rfl
    · rfl

def CountedHeap.Confined (h : CountedHeap) : Prop :=
  ∃ s : Finset Id, (∀ id ∈ s, id ∉ h.tracked) ∧ h.Absorbs s

variable {h' : Heap}

theorem Outcome.isSome_iff (ho : Outcome h h' freed) {id : Id} (hid : id ∈ h.tracked) :
    (h'.objs id).isSome = true ↔ id ∉ freed ∪ h.garbage := by
  constructor
  · intro hsome hmem
    simp [ho.gone id hmem] at hsome
  · intro hmem
    obtain ⟨o, hob, -⟩ := h.tracked_live id hid
    obtain ⟨n, hn⟩ := ho.kept id o hob hmem
    simp [hn]

theorem Outcome.confined_of_collected (ho : Outcome h h' freed) {n : Int} (hc : Collected h h' n) : h.Confined := by
  refine ⟨freed, fun id hid htr => ?_, ho.absorbs⟩
  by_cases hr : h.Reachable id
  · obtain ⟨o, hob, -⟩ := hc.reachable_kept id htr hr
    have hnone := ho.gone id (mem_union_left _ hid)
    rw [hnone] at hob
    cases hob
  · exact (ho.freed_live id hid).2 (h.mem_garbage.mpr ⟨htr, hr⟩)

theorem Outcome.collected_of_confined (ho : Outcome h h' freed) (hc : h.Confined) :
    Collected h h' h.garbage.card := by
  obtain ⟨s, hs, habs⟩ := hc
  have hfreed : ∀ id ∈ h.tracked, id ∉ freed := fun id hid hf => hs id (ho.least s habs hf) hid
  have hleft : h.tracked.filter (fun id => (h'.objs id).isSome) = h.tracked.filter (· ∉ freed ∪ h.garbage) := by
    refine filter_congr fun id hid => ?_
    rw [Bool.eq_iff_iff, ho.isSome_iff hid, decide_eq_true_eq]
  have hgone : (h.tracked.filter fun id => (h'.objs id).isNone).toFinset = h.garbage := by
    ext id
    rw [mem_toFinset, mem_filter]
    refine ⟨fun ⟨hid, hnone⟩ => ?_, fun hg => ?_⟩
    · by_contra hg
      have hsome := (ho.isSome_iff hid).mpr (by simp [hfreed id hid, hg])
      rw [Option.isSome_iff_ne_none] at hsome
      exact hsome (Option.isNone_iff_eq_none.mp hnone)
    · exact ⟨(h.mem_garbage.mp hg).1, by simp [ho.gone id (mem_union_right _ hg)]⟩
  refine ⟨?_, ?_, ?_, ?_, ?_, ?_⟩
  · intro id hid hr
    exact ho.gone id (mem_union_right _ (h.mem_garbage.mpr ⟨hid, hr⟩))
  · intro id hid hr
    obtain ⟨o, hob, -⟩ := h.tracked_live id hid
    obtain ⟨n, hn⟩ := ho.kept id o hob (by simp [hfreed id hid, h.mem_garbage, hr])
    exact ⟨_, hn, by rw [hob]; rfl⟩
  · rw [← toFinset_card_of_nodup (h.linked.nodup.filter _), hgone]
  · rw [hleft]
    exact ho.tracking.linked
  · intro id
    rw [ho.tracking.owner_iff]
    exact and_congr_right fun hid => (ho.isSome_iff hid).symm
  · rw [hleft]
    exact ho.tracking.trackedCount_eq

/-- A collection always ends, and it reclaims the unreachable tracked objects,
and only these, exactly when the garbage takes no tracked object with it. -/
theorem vmGcCollect_collected_iff (h : CountedHeap) :
    ∃ h' n, vmGcCollect h.toHeap = .ok (h', n) ∧ (Collected h h' n ↔ h.Confined) := by
  obtain ⟨h', freed, hrun, ho⟩ := collect_outcome h
  exact ⟨h', h.garbage.card, hrun, ho.confined_of_collected, ho.collected_of_confined⟩

/-- An array that holds itself and a closure; the closure captured another
array, which nothing else refers to. -/
def closureObjs : Id → Option Object
  | 0 => some ⟨1, .array true [.obj 0, .obj 1]⟩
  | 1 => some ⟨1, .other [.obj 2]⟩
  | 2 => some ⟨1, .array true []⟩
  | _ => none

def closureHeap : CountedHeap where
  size := 3
  objs := closureObjs
  links :=
    { head := some 0
      tail := some 2
      prev := fun id => if id = 2 then some 0 else none
      next := fun id => if id = 0 then some 2 else none }
  owner := fun id => id = 0 || id = 2
  gcRefs := fun _ => 0
  reachable := fun _ => false
  trackedCount := 2
  allocationsSinceCollect := 0
  isCollecting := false
  lastReclaimed := 0
  totalCollections := 0
  tracked := [0, 2]
  linked := ⟨rfl, rfl, by simp [Chain], by decide⟩
  owner_iff := by simp
  tracked_live := by simp [closureObjs, Body.hasNode]
  live_lt
    | 0, _, _ | 1, _, _ | 2, _, _ => by decide
  held_live
    | 0, j, hj => by
      have hj' : j = 0 ∨ j = 1 := by simpa [Heap.held, closureObjs, Body.held] using hj
      rcases hj' with rfl | rfl <;> simp [closureObjs]
    | 1, j, hj => by
      obtain rfl : j = 2 := by simpa [Heap.held, closureObjs, Body.held] using hj
      simp [closureObjs]
    | 2, _, hj => by simp [Heap.held, closureObjs, Body.held] at hj
    | _ + 3, _, hj => by simp [Heap.held, closureObjs] at hj
  counts
    | 0, _, rfl | 1, _, rfl | 2, _, rfl => by decide
  trackedCount_eq := rfl
  at_rest := rfl

/-- Clearing the first array frees the closure, which frees the second array:
it counted as externally referenced and is not in the number returned. -/
theorem vmGcCollect_frees_reachable : ∃ h', vmGcCollect closureHeap.toHeap = .ok (h', 1) ∧
    h'.objs 2 = none ∧ closureHeap.Reachable 2 ∧ ¬ Collected closureHeap h' 1 := by
  refine ⟨_, rfl, rfl, .root ⟨by decide, by decide⟩, fun hc => ?_⟩
  have hcount := hc.count_eq
  revert hcount
  decide

end Tablo.Gc
