import Tablo.CycleGcMark

/-! Releasing what garbage holds. Every value given up is accounted for: the
count of an object, together with the references already taken from it, stays
what it was, so an object is freed only when the last reference to it goes. -/

namespace Tablo.Gc

open DoublyLinked List Function

structure Tracking (h : CountedHeap) (s : Heap) (freed : Finset Id) : Prop where
  linked : Represents s.links (h.tracked.filter (· ∉ freed))
  owner_iff : ∀ id, s.owner id = true ↔ id ∈ h.tracked ∧ id ∉ freed
  trackedCount_eq : s.trackedCount = (h.tracked.filter (· ∉ freed)).length

/-- `moved` are the garbage objects whose values were given up, `cleared`
those with their slots emptied since, `pending` the values still to release. -/
structure Accounted (h : CountedHeap) (s : Heap) (cleared moved freed : Finset Id)
    (pending : List Value) : Prop where
  tracking : Tracking h s freed
  size_eq : s.size = h.size
  cleared_moved : cleared ⊆ moved
  moved_garbage : moved ⊆ h.garbage
  freed_live : ∀ id ∈ freed, h.objs id ≠ none ∧ id ∉ h.garbage
  live : ∀ id o, h.objs id = some o → id ∉ freed → ∃ n, s.objs id =
    some ⟨n, if id ∈ cleared then o.body.cleared else o.body⟩ ∧
    n + h.refsFrom (moved ∪ freed) id = o.refCount + (if id ∈ h.garbage then 1 else 0) + pending.count (.obj id) ∧
    (h.refsFrom (moved ∪ freed) id = pending.count (.obj id) ∨ 0 < n)
  gone : ∀ id, h.objs id = none ∨ id ∈ freed → s.objs id = none
  settled : ∀ id ∈ freed, pending.count (.obj id) = 0 ∧
    ∀ j, j ∉ moved ∪ freed → (h.held j).count (.obj id) = 0
  pending_le : ∀ id, pending.count (.obj id) ≤ h.refsFrom (moved ∪ freed) id

def CountedHeap.Absorbs (h : CountedHeap) (s : Finset Id) : Prop :=
  ∀ id o, h.objs id = some o → id ∉ h.garbage ∪ s →
    h.refsFrom (h.garbage ∪ s) id = 0 ∨ (h.refsFrom (h.garbage ∪ s) id : Int) < o.refCount

theorem filter_notMem_insert (l : List Id) (freed : Finset Id) (x : Id) :
    l.filter (· ∉ insert x freed) = (l.filter (· ∉ freed)).filter (· ≠ x) := by
  rw [filter_filter]
  refine filter_congr fun id _ => ?_
  simp [Finset.mem_insert]

theorem Tracking.free {h : CountedHeap} {s : Heap} {freed : Finset Id} {x : Id}
    (ht : Tracking h s freed) (hx : x ∉ freed) : Tracking h (freeObject s x) (insert x freed) := by
  have hmem : s.owner x = true ↔ x ∈ h.tracked.filter (· ∉ freed) := by
    rw [ht.owner_iff]
    simp
  by_cases hown : s.owner x = true
  · obtain ⟨l, r, hlr⟩ := append_of_mem (hmem.mp hown)
    have hlink := ht.linked
    have hlen := ht.trackedCount_eq
    have hnd := hlink.nodup
    rw [hlr] at hlink hlen hnd
    have hleft : h.tracked.filter (· ∉ insert x freed) = l ++ r := by
      rw [filter_notMem_insert, hlr]
      have hxl : ∀ y ∈ l ++ r, y ≠ x := by
        rintro y hy rfl
        exact (nodup_middle.mp hnd).notMem hy
      rw [filter_append, filter_cons_of_neg (by simp), ← filter_append, filter_eq_self.mpr (by simpa using hxl)]
    simp only [length_append, length_cons] at hlen
    refine ⟨?_, fun id => ?_, ?_⟩
    · rw [hleft, freeObject, cycleGcUntrack, if_pos hown]
      exact represents_remove hlink
    · simp only [freeObject, cycleGcUntrack, if_pos hown]
      by_cases hid : id = x
      · simp [hid]
      · simp [ht.owner_iff, hid]
    · rw [hleft]
      simp only [freeObject, cycleGcUntrack, if_pos hown, length_append]
      split_ifs <;> omega
  · have hleft : h.tracked.filter (· ∉ insert x freed) = h.tracked.filter (· ∉ freed) := by
      rw [filter_notMem_insert]
      refine filter_eq_self.mpr fun id hid => ?_
      simp only [decide_eq_true_eq]
      rintro rfl
      exact hown (hmem.mpr hid)
    have heq : freeObject s x = { s with objs := update s.objs x none } := by
      simp only [freeObject, cycleGcUntrack, if_neg hown]
    refine ⟨by rw [hleft, heq]; exact ht.linked, fun id => ?_, by rw [hleft, heq]; exact ht.trackedCount_eq⟩
    rw [heq]
    have hid := ht.owner_iff id
    by_cases hxi : id = x
    · subst hxi
      simp [hown]
    · simpa [hxi] using hid

section Weight

variable {s : Heap} {id : Id} {o : Object}

variable (s)

theorem Heap.weight_eq : s.weight = ∑ id ∈ Finset.range s.size, (s.held id).length := by
  refine congrArg List.sum (map_congr_left fun id _ => ?_)
  simp only [Heap.held]
  cases s.objs id <;> rfl

theorem freeObject_size (id : Id) : (freeObject s id).size = s.size := by
  simp only [freeObject, cycleGcUntrack]
  split_ifs <;> rfl

theorem freeObject_objs (id : Id) : (freeObject s id).objs = update s.objs id none := by
  simp only [freeObject, cycleGcUntrack]
  split_ifs <;> rfl

theorem held_setRefCount (id : Id) (n : Int) (j : Id) : (setRefCount s id n).held j = s.held j := by
  simp only [Heap.held, setRefCount]
  by_cases hj : j = id
  · subst hj
    simp only [update_self]
    cases s.objs j <;> rfl
  · rw [update_of_ne hj]

theorem weight_setRefCount (id : Id) (n : Int) : (setRefCount s id n).weight = s.weight := by
  simp only [Heap.weight_eq, held_setRefCount]
  rfl

variable {s}

theorem weight_freeObject (ho : s.objs id = some o) (hid : id < s.size) :
    (freeObject s id).weight + o.body.held.length = s.weight := by
  rw [Heap.weight_eq, Heap.weight_eq, freeObject_size, ← Finset.sum_erase_add _ _ (Finset.mem_range.mpr hid),
    ← Finset.sum_erase_add (Finset.range s.size) (fun j => (s.held j).length) (Finset.mem_range.mpr hid)]
  have hheld : ∀ j, (freeObject s id).held j = if j = id then [] else s.held j := by
    intro j
    simp only [Heap.held, freeObject_objs, update_apply]
    split_ifs <;> rfl
  have hrest : ∑ j ∈ (Finset.range s.size).erase id, ((freeObject s id).held j).length =
      ∑ j ∈ (Finset.range s.size).erase id, (s.held j).length :=
    Finset.sum_congr rfl fun j hj => by rw [hheld, if_neg (Finset.ne_of_mem_erase hj)]
  have hself : s.held id = o.body.held := by simp [Heap.held, ho]
  rw [hrest, hheld, hself]
  simp

end Weight

variable {h : CountedHeap} {s : Heap} {cleared moved freed : Finset Id} {work : List Value} {id : Id}
  {o : Object}

theorem Accounted.sources_lt {pending : List Value} (ha : Accounted h s cleared moved freed pending) :
    moved ∪ freed ⊆ Finset.range h.size := by
  refine Finset.union_subset (ha.moved_garbage.trans h.garbage_subset) fun id hid => ?_
  obtain ⟨o, ho⟩ := Option.ne_none_iff_exists'.mp (ha.freed_live id hid).1
  exact Finset.mem_range.mpr (h.live_lt id o ho)

theorem Accounted.skip {v : Value} (ha : Accounted h s cleared moved freed (v :: work)) (hv : v.id? = none) :
    Accounted h s cleared moved freed work := by
  have hcount : ∀ id, (v :: work).count (.obj id) = work.count (.obj id) := by
    intro id
    refine count_cons_of_ne ?_
    rintro rfl
    simp [Value.id?] at hv
  obtain ⟨h1, h2, h3, h4, h5, h6, h7, h8, h9⟩ := ha
  simp only [hcount] at h6 h8 h9
  exact ⟨h1, h2, h3, h4, h5, h6, h7, h8, h9⟩

theorem Accounted.pending_live (ha : Accounted h s cleared moved freed (.obj id :: work)) :
    ∃ o₀, h.objs id = some o₀ ∧ id ∉ freed := by
  have hpos : 0 < h.refsFrom (moved ∪ freed) id :=
    lt_of_lt_of_le (by simp) (ha.pending_le id)
  obtain ⟨j, -, hj⟩ := Finset.exists_ne_zero_of_sum_ne_zero hpos.ne'
  have hlive := h.held_live j id (count_pos_iff.mp (Nat.pos_of_ne_zero hj))
  obtain ⟨o₀, ho₀⟩ := Option.ne_none_iff_exists'.mp hlive
  refine ⟨o₀, ho₀, fun hf => ?_⟩
  have hzero := (ha.settled id hf).1
  simp at hzero

theorem count_obj_cons (id j : Id) (work : List Value) :
    (.obj id :: work).count (.obj j) = work.count (.obj j) + if j = id then 1 else 0 := by
  by_cases hj : j = id
  · simp [hj]
  · rw [if_neg hj, count_cons_of_ne (by simpa using Ne.symm hj), Nat.add_zero]

section

variable (ha : Accounted h s cleared moved freed (.obj id :: work))

include ha

theorem Accounted.decrement (ho : s.objs id = some o) (hrc : ¬ o.refCount - 1 ≤ 0) :
    Accounted h (setRefCount s id (o.refCount - 1)) cleared moved freed work := by
  refine ⟨⟨ha.tracking.linked, ha.tracking.owner_iff, ha.tracking.trackedCount_eq⟩, ha.size_eq,
    ha.cleared_moved, ha.moved_garbage, ha.freed_live, ?_, ?_, ?_, ?_⟩
  · intro j o₀ ho₀ hj
    obtain ⟨n, hn, hcount, htouched⟩ := ha.live j o₀ ho₀ hj
    rw [count_obj_cons] at hcount htouched
    by_cases hji : j = id
    · subst hji
      rw [ho, Option.some_inj] at hn
      have hrn : o.refCount = n := congrArg Object.refCount hn
      rw [if_pos rfl] at hcount
      refine ⟨o.refCount - 1, ?_, by omega, .inr (by omega)⟩
      simp [setRefCount, ho, hn]
    · rw [if_neg hji] at hcount htouched
      exact ⟨n, by simpa [setRefCount, hji] using hn, hcount, htouched⟩
  · intro j hj
    have hnone := ha.gone j hj
    have hji : j ≠ id := by
      rintro rfl
      rw [ho] at hnone
      cases hnone
    simpa [setRefCount, hji] using hnone
  · intro j hj
    obtain ⟨hzero, hrest⟩ := ha.settled j hj
    rw [count_obj_cons] at hzero
    exact ⟨by omega, hrest⟩
  · intro j
    have hle := ha.pending_le j
    rw [count_obj_cons] at hle
    omega

variable (ho : s.objs id = some o) (hrc : o.refCount - 1 ≤ 0)

include ho hrc

/-- Freeing takes the last reference: there was no hold on the object, and all
its references were held by objects already emptied or freed. -/
theorem Accounted.last_ref :
    id ∉ h.garbage ∧ id ∉ freed ∧ work.count (.obj id) = 0 ∧
      h.refsFrom (Finset.range h.size) id ≤ h.refsFrom (moved ∪ freed) id ∧
      ∃ o₀, h.objs id = some o₀ ∧ o.body = o₀.body ∧ o₀.refCount = h.refsFrom (moved ∪ freed) id := by
  obtain ⟨o₀, ho₀, hf⟩ := ha.pending_live
  obtain ⟨n, hn, hcount, -⟩ := ha.live id o₀ ho₀ hf
  rw [ho, Option.some_inj] at hn
  have hrn : o.refCount = n := congrArg Object.refCount hn
  have hall := h.counts id o₀ ho₀
  have hmono := h.refsFrom_mono ha.sources_lt id
  rw [count_obj_cons, if_pos rfl] at hcount
  have hg : id ∉ h.garbage := by
    intro hg
    rw [if_pos hg] at hcount
    omega
  refine ⟨hg, hf, by omega, by omega, o₀, ho₀, ?_, by omega⟩
  rw [hn, if_neg fun hc => hg (ha.moved_garbage (ha.cleared_moved hc))]

theorem Accounted.free :
    Accounted h (freeObject s id) cleared moved (insert id freed) (o.body.held ++ work) := by
  obtain ⟨hg, hf, hwork, hall, o₀, ho₀, hbody, -⟩ := ha.last_ref ho hrc
  have hheld : h.held id = o.body.held := by simp [Heap.held, ho₀, hbody]
  have hnew : id ∉ moved ∪ freed := by
    simp only [Finset.mem_union, not_or]
    exact ⟨fun hm => hg (ha.moved_garbage hm), hf⟩
  have hrefs : ∀ j, h.refsFrom (moved ∪ insert id freed) j =
      o.body.held.count (.obj j) + h.refsFrom (moved ∪ freed) j := by
    intro j
    rw [Finset.union_insert, h.refsFrom_insert hnew, hheld]
  refine ⟨ha.tracking.free hf, ?_, ha.cleared_moved, ha.moved_garbage, ?_, ?_, ?_, ?_, ?_⟩
  · rw [freeObject_size, ha.size_eq]
  · intro j hj
    rcases Finset.mem_insert.mp hj with rfl | hj
    · exact ⟨by simp [ho₀], hg⟩
    · exact ha.freed_live j hj
  · intro j o₁ ho₁ hj
    obtain ⟨hji, hjf⟩ := not_or.mp (fun hh => hj (Finset.mem_insert.mpr hh))
    obtain ⟨n, hn, hcount, htouched⟩ := ha.live j o₁ ho₁ hjf
    rw [count_obj_cons, if_neg hji] at hcount htouched
    rw [hrefs, count_append]
    refine ⟨n, ?_, by omega, by omega⟩
    rw [freeObject_objs, update_of_ne hji, hn]
  · intro j hj
    rw [freeObject_objs, update_apply]
    split_ifs with hji
    · rfl
    · exact ha.gone j (by simpa [hji] using hj)
  · intro j hj
    rw [count_append]
    rcases Finset.mem_insert.mp hj with rfl | hjf
    · have hzero : ∀ i, i ∉ moved ∪ freed → (h.held i).count (.obj j) = 0 := by
        intro i hi
        cases hoi : h.objs i with
        | none => simp [Heap.held, hoi]
        | some oi =>
          exact h.held_count_eq_zero ha.sources_lt hall (Finset.mem_range.mpr (h.live_lt i oi hoi)) hi
      refine ⟨?_, fun i hi => hzero i fun hm => hi ?_⟩
      · rw [← hheld, hzero j hnew, hwork]
      · rw [Finset.union_insert]
        exact Finset.mem_insert_of_mem hm
    · obtain ⟨hz, hrest⟩ := ha.settled j hjf
      rw [count_obj_cons] at hz
      refine ⟨?_, fun i hi => hrest i fun hm => hi ?_⟩
      · rw [← hheld, hrest id hnew]
        omega
      · rw [Finset.union_insert]
        exact Finset.mem_insert_of_mem hm
  · intro j
    have hle := ha.pending_le j
    rw [count_obj_cons] at hle
    rw [hrefs, count_append]
    omega

theorem Accounted.free_absorbed {t : Finset Id} (habs : h.Absorbs t)
    (hsub : freed ⊆ t) : id ∈ t := by
  obtain ⟨hg, -, -, -, o₀, ho₀, -, hcount⟩ := ha.last_ref ho hrc
  have hle := ha.pending_le id
  rw [count_obj_cons, if_pos rfl] at hle
  have hmono := h.refsFrom_mono (Finset.union_subset_union ha.moved_garbage hsub) id
  by_contra hid
  rcases habs id o₀ ho₀ (by simp [hg, hid]) with hzero | hlt <;> omega

end

theorem Accounted.release {fuel : Nat} {pending : List Value}
    (ha : Accounted h s cleared moved freed pending) (hfuel : s.weight + pending.length ≤ fuel) :
    ∃ s' freed', releaseLoop fuel s pending = .ok s' ∧ Accounted h s' cleared moved freed' [] ∧
      ∀ t, h.Absorbs t → freed ⊆ t → freed' ⊆ t := by
  induction fuel generalizing s freed pending with
  | zero =>
    obtain rfl : pending = [] := eq_nil_of_length_eq_zero (by omega)
    exact ⟨s, freed, by simp [releaseLoop], ha, fun t _ ht => ht⟩
  | succ fuel ih =>
    cases pending with
    | nil => exact ⟨s, freed, by simp [releaseLoop], ha, fun t _ ht => ht⟩
    | cons v work =>
      rw [length_cons] at hfuel
      cases hv : v.id? with
      | none =>
        simp only [releaseLoop, hv]
        exact ih (ha.skip hv) (by omega)
      | some id =>
        obtain rfl : v = .obj id := by cases v <;> simp_all [Value.id?]
        obtain ⟨o₀, ho₀, hf⟩ := ha.pending_live
        obtain ⟨o, ho⟩ : ∃ o, s.objs id = some o := by
          obtain ⟨_, ho, _⟩ := ha.live id o₀ ho₀ hf
          exact ⟨_, ho⟩
        simp only [releaseLoop, Value.id?, ho]
        split_ifs with hrc
        · have hlt : id < s.size := by
            rw [ha.size_eq]
            exact h.live_lt id o₀ ho₀
          have hweight := weight_freeObject ho hlt
          obtain ⟨s', freed', hrun, ha', hmin⟩ := ih (ha.free ho hrc) (by
            rw [length_append]
            omega)
          refine ⟨s', freed', hrun, ha', fun t habs ht => hmin t habs ?_⟩
          exact Finset.insert_subset (ha.free_absorbed ho hrc habs ht) ht
        · have hweight := weight_setRefCount s id (o.refCount - 1)
          exact ih (ha.decrement ho hrc) (by omega)

end Tablo.Gc
