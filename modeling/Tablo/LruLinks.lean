import Tablo.DoublyLinked
import Tablo.Lru
import Tablo.Recency

/-! The entries of a store as a doubly linked list: what detaching and attaching an entry do to
it. -/

namespace Tablo.Lru

open DoublyLinked Recency Option
open List hiding keys

variable {A : Type} {key n p : String} {s s' s'' : LruStore A}

abbrev Items (A : Type) := List (String × Option A)

def linkTo (key : String) : Option String := if key = "" then none else some key

theorem linkTo_eq_some {x : String} : linkTo key = some x ↔ key = x ∧ x ≠ "" := by
  unfold linkTo
  split_ifs with h
  · exact ⟨fun h' => (by cases h'), fun h' => absurd (h'.1 ▸ h) h'.2⟩
  · exact ⟨fun h' => some.inj h' ▸ ⟨rfl, h⟩, fun h' => congrArg some h'.1⟩

theorem linkTo_eq_none : linkTo key = none ↔ key = "" := by
  unfold linkTo
  split_ifs with h <;> simp [h]

@[simp] theorem linkTo_empty : linkTo "" = none := rfl

theorem linkTo_of_ne (h : key ≠ "") : linkTo key = some key := if_neg h

def links (s : LruStore A) : Links String where
  head := linkTo s.lruKey
  tail := linkTo s.mruKey
  prev key := (lruGetEntry s key).bind fun entry => linkTo entry.prevKey
  next key := (lruGetEntry s key).bind fun entry => linkTo entry.nextKey

/-- The list `l` is linked up in the store, which may hold further entries. -/
structure Linked (s : LruStore A) (l : List (String × Option A)) : Prop where
  represents : Represents (links s) (keys l)
  found : ∀ item ∈ l, ∃ entry, lruGetEntry s item.1 = some entry ∧
    entry.key = item.1 ∧ entry.value = item.2
  nonempty : "" ∉ keys l

structure SameCounts (s s' : LruStore A) : Prop where
  count : s'.count = s.count
  capacity : s'.capacity = s.capacity
  internalErrors : s'.internalErrors = s.internalErrors

theorem SameCounts.trans (h : SameCounts s s') (h' : SameCounts s' s'') : SameCounts s s'' :=
  ⟨h'.count.trans h.count, h'.capacity.trans h.capacity, h'.internalErrors.trans h.internalErrors⟩

/-- What detaching and attaching leave alone, `x` being any key not in the list. -/
structure Frame (s s' : LruStore A) (l : List (String × Option A)) : Prop where
  other : ∀ x ∉ keys l, lruGetEntry s' x = lruGetEntry s x
  counts : SameCounts s s'

structure Relinks (s s' : LruStore A) (l : Items A) : Prop where
  linked : Linked s' l
  frame : Frame s s' l

@[simp] theorem lruGetEntry_lruSetEntry (s : LruStore A) (key x : String) (entry : LruEntry A) :
    lruGetEntry (lruSetEntry s key entry) x = if x = key then some entry else lruGetEntry s x := by
  unfold lruGetEntry lruSetEntry
  split_ifs with h
  · rw [h, AList.lookup_insert]
  · exact AList.lookup_insert_ne h

theorem Linked.find_mem {l : Items A} (h : Linked s l) (hkey : key ∈ keys l) :
    ∃ entry, lruGetEntry s key = some entry ∧ entry.key = key := by
  obtain ⟨item, hitem, rfl⟩ := mem_map.mp hkey
  obtain ⟨entry, hentry, hk, -⟩ := h.found item hitem
  exact ⟨entry, hentry, hk⟩

variable {s : LruStore A} {a b : Items A} {k : String} {v : Option A} {entry : LruEntry A}

theorem Linked.neighbours (h : Linked s (a ++ (k, v) :: b)) (hk : lruGetEntry s k = some entry) :
    linkTo entry.prevKey = (keys a).getLast? ∧ linkTo entry.nextKey = (keys b).head? := by
  have hchain := h.represents.chain
  simp only [keys, map_append] at hchain
  obtain ⟨-, hprev, hnext, -⟩ := chain_append.mp hchain
  simp only [links, hk, or_none] at hprev hnext
  exact ⟨hprev, hnext⟩

theorem Linked.key_notMem (h : Linked s (a ++ (k, v) :: b)) : k ∉ keys (a ++ b) := by
  have hnd := h.represents.nodup
  simp only [keys, map_append] at hnd ⊢
  exact (nodup_cons.mp (perm_middle.nodup_iff.mp hnd)).1

theorem lruDetachPrev_spec (hp : p ≠ "" → (lruGetEntry s p).isSome) :
    (∀ x, lruGetEntry (lruDetachPrev s p n) x = (lruGetEntry s x).map fun e =>
      { e with nextKey := if p ≠ "" ∧ x = p then n else e.nextKey }) ∧
    (lruDetachPrev s p n).lruKey = (if p = "" then n else s.lruKey) ∧
    (lruDetachPrev s p n).mruKey = s.mruKey ∧ SameCounts s (lruDetachPrev s p n) := by
  by_cases hpe : p = ""
  · simp only [lruDetachPrev, hpe, ne_eq, not_true_eq_false, if_false, if_true]
    exact ⟨fun x => map_id'.symm, trivial, trivial, ⟨rfl, rfl, rfl⟩⟩
  · obtain ⟨e, he⟩ := isSome_iff_exists.mp (hp hpe)
    simp only [lruDetachPrev, hpe, ne_eq, he]
    refine ⟨fun x => ?_, rfl, rfl, ⟨rfl, rfl, rfl⟩⟩
    by_cases hx : x = p
    · simp [hx, he]
    · simp [hx]

theorem lruDetachNext_spec (hn : n ≠ "" → (lruGetEntry s n).isSome) :
    (∀ x, lruGetEntry (lruDetachNext s p n) x = (lruGetEntry s x).map fun e =>
      { e with prevKey := if n ≠ "" ∧ x = n then p else e.prevKey }) ∧
    (lruDetachNext s p n).mruKey = (if n = "" then p else s.mruKey) ∧
    (lruDetachNext s p n).lruKey = s.lruKey ∧ SameCounts s (lruDetachNext s p n) := by
  by_cases hne : n = ""
  · simp only [lruDetachNext, hne, ne_eq, not_true_eq_false, if_false, if_true]
    exact ⟨fun x => map_id'.symm, trivial, trivial, ⟨rfl, rfl, rfl⟩⟩
  · obtain ⟨e, he⟩ := isSome_iff_exists.mp (hn hne)
    simp only [lruDetachNext, hne, ne_eq, he]
    refine ⟨fun x => ?_, rfl, rfl, ⟨rfl, rfl, rfl⟩⟩
    by_cases hx : x = n
    · simp [hx, he]
    · simp [hx]

def relinked (p n x : String) (entry : LruEntry A) : LruEntry A :=
  { entry with
    nextKey := if p ≠ "" ∧ x = p then n else entry.nextKey
    prevKey := if n ≠ "" ∧ x = n then p else entry.prevKey }

theorem lruDetach_spec (hp : entry.prevKey = p) (hn : entry.nextKey = n)
    (hprev : p ≠ "" → (lruGetEntry s p).isSome) (hnext : n ≠ "" → (lruGetEntry s n).isSome) :
    (∀ x, lruGetEntry (lruDetach s entry) x = (lruGetEntry s x).map (relinked p n x)) ∧
    (lruDetach s entry).lruKey = (if p = "" then n else s.lruKey) ∧
    (lruDetach s entry).mruKey = (if n = "" then p else s.mruKey) ∧
    SameCounts s (lruDetach s entry) := by
  subst hp hn
  obtain ⟨hget, hlru, hmru, hcounts⟩ := lruDetachPrev_spec (n := entry.nextKey) hprev
  have hnext' : entry.nextKey ≠ "" →
      (lruGetEntry (lruDetachPrev s entry.prevKey entry.nextKey) entry.nextKey).isSome := by
    intro hne
    rw [hget, isSome_map]
    exact hnext hne
  obtain ⟨hget', hmru', hlru', hcounts'⟩ := lruDetachNext_spec (p := entry.prevKey) hnext'
  refine ⟨fun x => ?_, hlru'.trans hlru, by rw [lruDetach, hmru', hmru], hcounts.trans hcounts'⟩
  rw [lruDetach, hget', hget, Option.map_map]
  rfl

theorem lruDetach_linked (h : Linked s (a ++ (k, v) :: b)) (hk : lruGetEntry s k = some entry)
    (entry' : LruEntry A) (hprev : entry'.prevKey = entry.prevKey) (hnext : entry'.nextKey = entry.nextKey) :
    Relinks s (lruDetach s entry') (a ++ b) := by
  obtain ⟨hlast, hfirst⟩ := h.neighbours hk
  have hmem : ∀ x, x ∈ keys (a ++ (k, v) :: b) ↔ x ∈ keys a ∨ x = k ∨ x ∈ keys b := by
    simp [keys]
  have hprevSome : entry.prevKey ≠ "" → entry.prevKey ∈ keys a := by
    intro hne
    rw [linkTo_of_ne hne] at hlast
    exact mem_of_getLast? hlast.symm
  have hnextSome : entry.nextKey ≠ "" → entry.nextKey ∈ keys b := by
    intro hne
    rw [linkTo_of_ne hne] at hfirst
    exact mem_of_head? hfirst.symm
  have hsome : ∀ x ∈ keys (a ++ (k, v) :: b), (lruGetEntry s x).isSome := by
    intro x hx
    obtain ⟨e, he, -⟩ := h.find_mem hx
    rw [he]
    rfl
  obtain ⟨hget, hlru, hmru, hcounts⟩ := lruDetach_spec hprev hnext
    (fun hne => hsome _ ((hmem _).mpr (.inl (hprevSome hne))))
    (fun hne => hsome _ ((hmem _).mpr (.inr (.inr (hnextSome hne)))))
  have hk' : (links s).prev k = linkTo entry.prevKey ∧ (links s).next k = linkTo entry.nextKey := by
    simp [links, hk]
  have hmem' : ∀ x, x ∈ keys (a ++ b) ↔ x ∈ keys a ∨ x ∈ keys b := by
    simp [keys]
  have hnodup := h.key_notMem
  have hold : ∀ x ∈ keys (a ++ b), x ∈ keys (a ++ (k, v) :: b) := by
    intro x hx
    rw [hmem]
    exact ((hmem' x).mp hx).imp_right .inr
  have hother : ∀ x ∈ keys (a ++ b), ∃ e, lruGetEntry s x = some e ∧ x ≠ k ∧ x ≠ "" := by
    intro x hx
    obtain ⟨e, he, -⟩ := h.find_mem (hold x hx)
    exact ⟨e, he, fun hxk => hnodup (hxk ▸ hx), fun hxe => h.nonempty (hxe ▸ hold x hx)⟩
  refine ⟨⟨?_, ?_, fun he => h.nonempty (hold _ he)⟩, ⟨fun x hx => ?_, hcounts⟩⟩
  · have hremoved : Represents (remove (links s) k) (keys (a ++ b)) := by
      have hrep := h.represents
      simp only [keys, map_append] at hrep ⊢
      exact represents_remove hrep
    refine hremoved.congr ?_ ?_ (fun x hx => ?_) fun x hx => ?_
    · simp only [links, remove, hk, bind_some, linkTo_eq_none, hlru]
      split_ifs <;> rfl
    · simp only [links, remove, hk, bind_some, linkTo_eq_none, hmru]
      split_ifs <;> rfl
    · obtain ⟨e, he, hxk, hxe⟩ := hother x hx
      simp only [remove, if_neg hxk, hk']
      simp only [links, hget, he, map_some, relinked, linkTo_eq_some]
      by_cases hxn : entry.nextKey = x
      · simp [hxn, hxe]
      · simp [hxn, Ne.symm hxn]
    · obtain ⟨e, he, hxk, hxe⟩ := hother x hx
      simp only [remove, if_neg hxk, hk']
      simp only [links, hget, he, map_some, relinked, linkTo_eq_some]
      by_cases hxp : entry.prevKey = x
      · simp [hxp, hxe]
      · simp [hxp, Ne.symm hxp]
  · intro item hitem
    have hitem' : item ∈ a ++ (k, v) :: b := by
      rw [mem_append] at hitem ⊢
      exact hitem.imp_right (mem_cons_of_mem _)
    obtain ⟨e, he, hkey, hvalue⟩ := h.found item hitem'
    exact ⟨relinked entry.prevKey entry.nextKey item.1 e, by rw [hget, he, map_some], hkey, hvalue⟩
  · rw [hmem', not_or] at hx
    rw [hget]
    have hp : ¬(entry.prevKey ≠ "" ∧ x = entry.prevKey) := fun hh => hx.1 (hh.2 ▸ hprevSome hh.1)
    have hn : ¬(entry.nextKey ≠ "" ∧ x = entry.nextKey) := fun hh => hx.2 (hh.2 ▸ hnextSome hh.1)
    have hid : relinked entry.prevKey entry.nextKey x = (id : LruEntry A → LruEntry A) := by
      funext e
      simp only [relinked, if_neg hp, if_neg hn, id]
    rw [hid, Option.map_id]
    rfl

variable {l : Items A}

theorem Linked.mruKey_eq (h : Linked s l) : linkTo s.mruKey = (keys l).getLast? := h.represents.tail_eq

theorem Linked.lruKey_eq (h : Linked s l) : linkTo s.lruKey = (keys l).head? := h.represents.head_eq

theorem lruAttachAsMru_spec (entry : LruEntry A) (hlru : s.mruKey ≠ "" → s.lruKey ≠ "")
    (hmru : s.mruKey ≠ "" → ∃ e, lruGetEntry s s.mruKey = some e ∧ e.key = s.mruKey) :
    (∀ x, lruGetEntry (lruAttachAsMru s k entry) x =
      if x = k then some { entry with prevKey := s.mruKey, nextKey := "" }
      else (lruGetEntry s x).map fun e =>
        { e with nextKey := if s.mruKey ≠ "" ∧ x = s.mruKey then k else e.nextKey }) ∧
    (lruAttachAsMru s k entry).lruKey = (if s.mruKey = "" then k else s.lruKey) ∧
    (lruAttachAsMru s k entry).mruKey = k ∧ SameCounts s (lruAttachAsMru s k entry) := by
  by_cases hm : s.mruKey = ""
  · have heq : lruAttachAsMru s k entry = lruSetEntry { s with lruKey := k, mruKey := k } k
        { entry with prevKey := "", nextKey := "" } := by
      simp [lruAttachAsMru, lruSetEntry, hm]
    rw [heq]
    refine ⟨fun x => ?_, by simp [lruSetEntry, hm], rfl, ⟨rfl, rfl, rfl⟩⟩
    rw [lruGetEntry_lruSetEntry]
    simp [hm, lruGetEntry]
  · obtain ⟨e, he, hkey⟩ := hmru hm
    have heq : lruAttachAsMru s k entry
        = lruSetEntry { lruSetEntry s s.mruKey { e with nextKey := k } with mruKey := k } k
          { entry with prevKey := s.mruKey, nextKey := "" } := by
      simp [lruAttachAsMru, lruSetEntry, hm, he, hkey, hlru hm]
    rw [heq]
    refine ⟨fun x => ?_, by simp [lruSetEntry, hm], rfl, ⟨rfl, rfl, rfl⟩⟩
    rw [lruGetEntry_lruSetEntry]
    by_cases hx : x = k
    · rw [if_pos hx, if_pos hx]
    · rw [if_neg hx, if_neg hx]
      show lruGetEntry (lruSetEntry s s.mruKey { e with nextKey := k }) x = _
      by_cases hxm : x = s.mruKey
      · simp [hxm, he, hm]
      · simp [hxm]

theorem lruAttachAsMru_linked (entry : LruEntry A) (h : Linked s l) (hk : k ≠ "") (hkl : k ∉ keys l)
    (hkey : entry.key = k) : Relinks s (lruAttachAsMru s k entry) (l ++ [(k, entry.value)]) := by
  have hmem : ∀ x, x ∈ keys (l ++ [(k, entry.value)]) ↔ x ∈ keys l ∨ x = k := by
    simp [keys]
  have hmruMem : s.mruKey ≠ "" → s.mruKey ∈ keys l := by
    intro hne
    have hlast := h.mruKey_eq
    rw [linkTo_of_ne hne] at hlast
    exact mem_of_getLast? hlast.symm
  have hlru : s.mruKey ≠ "" → s.lruKey ≠ "" := by
    intro hne he
    have hfirst := h.lruKey_eq
    rw [he] at hfirst
    have hnil : keys l = [] := head?_eq_none_iff.mp hfirst.symm
    exact absurd (hmruMem hne) (by simp [hnil])
  obtain ⟨hget, hlruKey, hmruKey, hcounts⟩ := lruAttachAsMru_spec entry hlru fun hne => h.find_mem (hmruMem hne)
  refine ⟨⟨?_, ?_, ?_⟩, ⟨fun x hx => ?_, hcounts⟩⟩
  · have happ := represents_append h.represents hkl
    have hkeys : keys (l ++ [(k, entry.value)]) = keys l ++ [k] := by simp [keys]
    rw [hkeys]
    refine happ.congr ?_ ?_ (fun x hx => ?_) fun x hx => ?_
    · simp only [links, append, hlruKey, linkTo_eq_none]
      split_ifs
      · exact linkTo_of_ne hk
      · rfl
    · simp only [links, hmruKey]
      exact linkTo_of_ne hk
    · simp only [links, append, hget]
      by_cases hxk : x = k
      · rw [if_pos hxk, if_pos hxk]
        rfl
      · rw [if_neg hxk, if_neg hxk]
        cases lruGetEntry s x <;> rfl
    · simp only [links, append, hget, linkTo_eq_some]
      by_cases hxk : x = k
      · simp [hxk]
      · have hxl : x ∈ keys l := by simpa [hxk] using hx
        obtain ⟨e, he, -⟩ := h.find_mem hxl
        have hxe : x ≠ "" := fun hxe => h.nonempty (hxe ▸ hxl)
        simp only [if_neg hxk, he, map_some]
        by_cases hxm : s.mruKey = x
        · simp [hxm, hxe, linkTo_of_ne hk]
        · simp [hxm, Ne.symm hxm]
  · intro item hitem
    rcases mem_append.mp hitem with hold | hlast
    · obtain ⟨e, he, hekey, hvalue⟩ := h.found item hold
      have hne : item.1 ≠ k := fun hik => hkl (hik ▸ mem_map_of_mem hold)
      have hgot := hget item.1
      rw [if_neg hne, he] at hgot
      exact ⟨_, hgot, hekey, hvalue⟩
    · rw [mem_singleton.mp hlast]
      have hgot := hget k
      rw [if_pos rfl] at hgot
      exact ⟨_, hgot, hkey, rfl⟩
  · rw [hmem, not_or]
    exact ⟨h.nonempty, hk.symm⟩
  · rw [hmem, not_or] at hx
    rw [hget, if_neg hx.2]
    have hm : ¬(s.mruKey ≠ "" ∧ x = s.mruKey) := fun hh => hx.1 (hh.2 ▸ hmruMem hh.1)
    simp only [if_neg hm]
    exact map_id'

theorem Frame.trans {l l' : Items A} (h : Frame s s' l)
    (h' : Frame s' s'' l') (hl : ∀ x ∈ keys l, x ∈ keys l') : Frame s s'' l' where
  other x hx := (h'.other x hx).trans (h.other x fun hxl => hx (hl x hxl))
  counts := h.counts.trans h'.counts

theorem Linked.last_of_mruKey (h : Linked s (a ++ (k, v) :: b)) (hm : s.mruKey = k) : b = [] := by
  have hlast := h.mruKey_eq
  have hk : k ≠ "" := fun hk => h.nonempty (by simp [keys, hk])
  rw [hm, linkTo_of_ne hk] at hlast
  by_contra hb
  have hmem : k ∈ keys b := by
    have hne : keys b ≠ [] := by simpa [keys] using hb
    have hsplit : keys (a ++ (k, v) :: b) = (keys a ++ [k]) ++ keys b := by simp [keys]
    rw [hsplit, getLast?_append_of_ne_nil _ hne] at hlast
    exact mem_of_getLast? hlast.symm
  have hnd := h.represents.nodup
  simp only [keys, map_append] at hnd hmem
  exact (nodup_cons.mp (nodup_append.mp hnd).2.1).1 hmem

theorem lruTouchKnown_linked (h : Linked s (a ++ (k, v) :: b)) (hk : lruGetEntry s k = some entry)
    {entry' : LruEntry A} (hprev : entry'.prevKey = entry.prevKey)
    (hnext : entry'.nextKey = entry.nextKey) (hkey : entry'.key = k) (seq : Int64) :
    Relinks s (lruTouchKnown s k entry' seq) (a ++ b ++ [(k, entry'.value)]) := by
  have hke : k ≠ "" := fun hk => h.nonempty (by simp [keys, hk])
  have hnd := h.key_notMem
  rw [lruTouchKnown]
  by_cases hm : s.mruKey = k
  · obtain rfl := h.last_of_mruKey hm
    rw [if_pos hm, append_nil]
    have hkeys : keys (a ++ [(k, entry'.value)]) = keys (a ++ [(k, v)]) := by simp [keys]
    refine ⟨⟨?_, ?_, by rw [hkeys]; exact h.nonempty⟩, ⟨fun x hx => ?_, ⟨rfl, rfl, rfl⟩⟩⟩
    · rw [hkeys]
      refine h.represents.congr rfl rfl (fun x _ => ?_) fun x _ => ?_
      · simp only [links, lruGetEntry_lruSetEntry]
        split_ifs with hx
        · rw [hx, hk, bind_some, bind_some, hprev]
        · rfl
      · simp only [links, lruGetEntry_lruSetEntry]
        split_ifs with hx
        · rw [hx, hk, bind_some, bind_some, hnext]
        · rfl
    · intro item hitem
      rcases mem_append.mp hitem with hold | hlast
      · have hne : item.1 ≠ k := fun hik => hnd (by simp [keys, ← hik]; exact ⟨_, hold⟩)
        rw [lruGetEntry_lruSetEntry, if_neg hne]
        exact h.found item (mem_append_left _ hold)
      · rw [mem_singleton.mp hlast, lruGetEntry_lruSetEntry, if_pos rfl]
        exact ⟨_, rfl, hkey, rfl⟩
    · have hxk : x ≠ k := fun hxk => hx (by simp [keys, hxk])
      rw [lruGetEntry_lruSetEntry, if_neg hxk]
  · rw [if_neg hm]
    obtain ⟨hlinked, hframe⟩ :=
      lruDetach_linked h hk { entry' with touchSeq := seq } hprev hnext
    obtain ⟨hlinked', hframe'⟩ :=
      lruAttachAsMru_linked { entry' with touchSeq := seq } hlinked hke hnd hkey
    exact ⟨hlinked', hframe.trans hframe' fun x hx => by
      simp only [keys, map_append, mem_append] at hx ⊢
      exact .inl hx⟩

end Tablo.Lru
