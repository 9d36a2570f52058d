import Tablo.LruLinks

/-! Every sequence of calls against the list of items in the order of their last touch. -/

namespace Tablo.Lru

open DoublyLinked Recency Option
open List hiding keys

variable {A : Type}

def emptyKey (context : String) : LruError :=
  ⟨.invalidArgument, "lru key must not be empty", context, .key ""⟩

def makeRoom (capacity : Int) (l : Items A) : Items A × Option (String × Option A) :=
  if capacity ≤ l.length then (l.tail, l.head?) else (l, none)

def specCall (capacity : Int) (h : History String (Option A)) :
    Call A → History String (Option A) × Reply A
  | .set key value =>
    if key = "" then
      (h.advance h.items, .set ⟨false, false, false, "", none, h.items.length⟩ (some (emptyKey "lru.set.key")))
    else
      match find key h.items with
      | some _ =>
        (h.touched h.items key value, .set ⟨false, true, false, "", none, h.items.length⟩ none)
      | none =>
        let (kept, victim) := makeRoom capacity h.items
        (h.touched kept key value,
          .set ⟨true, false, victim.isSome, (victim.map Prod.fst).getD "", victim.bind Prod.snd,
            kept.length + 1⟩ none)
  | .get key | .peek key =>
    if key = "" then (h.advance h.items, .value none false (some (emptyKey "lru.peek.key")))
    else
      match find key h.items with
      | some value => (h.touched h.items key value, .value value true none)
      | none => (h.advance h.items, .value none false none)
  | .has key =>
    if key = "" then (h.advance h.items, .flag false (some (emptyKey "lru.peek.key")))
    else
      match find key h.items with
      | some value => (h.touched h.items key value, .flag true none)
      | none => (h.advance h.items, .flag false none)
  | .delete key =>
    if key = "" then (h.advance h.items, .flag false (some (emptyKey "lru.delete.key")))
    else
      match find key h.items with
      | some _ => (h.advance (drop key h.items), .flag true none)
      | none => (h.advance h.items, .flag false none)
  | .clear => (h.advance [], .cleared)

def specCalls (capacity : Int) (h : History String (Option A)) :
    List (Call A) → History String (Option A) × List (Reply A)
  | [] => (h, [])
  | c :: cs =>
    let (next, reply) := specCall capacity h c
    let (last, replies) := specCalls capacity next cs
    (last, reply :: replies)

/-- The store holds the items: they are linked in both directions in their order, nothing else is
stored, and no branch for a broken list was ever taken. -/
structure Holds (s : LruStore A) (l : Items A) : Prop where
  linked : Linked s l
  live : ∀ key, (lruGetEntry s key).isSome ↔ key ∈ keys l
  count : s.count = l.length
  bounded : s.count ≤ s.capacity
  sound : s.internalErrors = 0

variable {s : LruStore A} {l : Items A} {key : String} {entry : LruEntry A}

theorem lruClear_holds (hs : s.internalErrors = 0) (hcap : 1 ≤ s.capacity) : Holds (lruClear s) [] where
  linked := ⟨⟨rfl, rfl, trivial, nodup_nil⟩, by simp, by simp [keys]⟩
  live key := by simp [lruGetEntry, lruClear, keys]
  count := rfl
  bounded := by show (0 : Int) ≤ s.capacity; omega
  sound := hs

theorem Holds.find_eq (h : Holds s l) (key : String) : find key l = (lruGetEntry s key).map LruEntry.value := by
  cases hf : find key l with
  | none =>
    have hnot : ¬(lruGetEntry s key).isSome := fun hs => find_eq_none.mp hf ((h.live key).mp hs)
    rw [not_isSome_iff_eq_none.mp hnot]
    rfl
  | some v =>
    obtain ⟨a, b, rfl⟩ := exists_of_find hf
    obtain ⟨entry, hentry, -, hvalue⟩ := h.linked.found (key, v) (by simp)
    rw [hentry, map_some, hvalue]

theorem Holds.split (h : Holds s l) (hk : lruGetEntry s key = some entry) :
    ∃ a b, l = a ++ (key, entry.value) :: b ∧ entry.key = key ∧ drop key l = a ++ b ∧
      find key l = some entry.value := by
  have hf := h.find_eq key
  rw [hk] at hf
  obtain ⟨a, b, rfl⟩ := exists_of_find hf
  obtain ⟨entry', hentry', hkey, -⟩ := h.linked.found (key, entry.value) (by simp)
  rw [hk] at hentry'
  obtain rfl := some.inj hentry'
  have hnd := h.linked.represents.nodup
  simp only [keys, map_append] at hnd
  have hnot := (nodup_cons.mp (perm_middle.nodup_iff.mp hnd)).1
  rw [mem_append, not_or] at hnot
  exact ⟨a, b, rfl, hkey, keys_drop_middle hnot.1 hnot.2, hf⟩

theorem Holds.counters (h : Holds s l) (nextTouchSeq totalSets totalEvictions : Int64) :
    Holds { s with nextTouchSeq := nextTouchSeq, totalSets := totalSets, totalEvictions := totalEvictions } l :=
  ⟨⟨h.linked.represents, h.linked.found, h.linked.nonempty⟩, h.live, h.count, h.bounded, h.sound⟩

theorem Holds.takeTouchSeq (h : Holds s l) : Holds (lruTakeTouchSeq s).1 l := h.counters _ _ _

theorem Frame.live {s' : LruStore A} {l' : Items A} (h : Frame s s' l') (hl : Linked s' l')
    (hs : ∀ key, (lruGetEntry s key).isSome → key ∈ keys l') (key : String) :
    (lruGetEntry s' key).isSome ↔ key ∈ keys l' := by
  constructor
  · intro hsome
    by_contra hkey
    rw [h.other key hkey] at hsome
    exact hkey (hs key hsome)
  · intro hkey
    obtain ⟨entry, hentry, -⟩ := hl.find_mem hkey
    rw [hentry]
    rfl

theorem lruTouchKnown_holds (h : Holds s l)
    (hk : lruGetEntry s key = some entry) (entry' : LruEntry A) (hkey : entry'.key = entry.key)
    (hprev : entry'.prevKey = entry.prevKey) (hnext : entry'.nextKey = entry.nextKey) (seq : Int64) :
    Holds (lruTouchKnown s key entry' seq) (touch key entry'.value l) ∧
      SameCounts s (lruTouchKnown s key entry' seq) := by
  obtain ⟨a, b, hl, hentry, hdrop, -⟩ := h.split hk
  have hlinked := h.linked
  rw [hl] at hlinked
  obtain ⟨hlinked', hframe⟩ :=
    lruTouchKnown_linked hlinked hk hprev hnext (hkey.trans hentry) seq
  rw [touch, hdrop]
  have hlen : l.length = (a ++ b ++ [(key, entry'.value)]).length := by
    simp [hl]
  refine ⟨⟨hlinked', hframe.live hlinked' fun x hx => ?_, ?_, ?_, ?_⟩, hframe.counts⟩
  · have hx' := (h.live x).mp hx
    rw [hl] at hx'
    simp only [keys, map_append, map_cons, mem_append, mem_cons, map_nil,
      not_mem_nil, or_false] at hx' ⊢
    rcases hx' with ha | hxk | hb
    · exact .inl (.inl ha)
    · exact .inr hxk
    · exact .inl (.inr hb)
  · rw [hframe.counts.count, h.count, hlen]
  · rw [hframe.counts.count, hframe.counts.capacity]
    exact h.bounded
  · rw [hframe.counts.internalErrors]
    exact h.sound

theorem lruGetEntry_mapDeleteString (s : LruStore A) (key x : String) :
    lruGetEntry (mapDeleteString s key) x = if x = key then none else lruGetEntry s x := by
  unfold lruGetEntry mapDeleteString
  split_ifs with hx
  · rw [hx, AList.lookup_erase]
  · exact AList.lookup_erase_ne hx

theorem lruDropOne_eq {t : LruStore A} {n : Nat} (hcount : t.count - 1 = n)
    (hends : n = 0 → t.lruKey = "" ∧ t.mruKey = "") : lruDropOne t = { t with count := n } := by
  have hpos : ¬(t.count - 1 < 0) := by omega
  simp only [lruDropOne, if_neg hpos]
  by_cases hn : n = 0
  · obtain ⟨hlru, hmru⟩ := hends hn
    have hzero : t.count - 1 = 0 := by omega
    simp [hzero, hn, hlru, hmru]
  · have hzero : ¬((n : Int) = 0) := by omega
    simp only [hcount, if_neg hzero]

theorem lruDropOne_holds (h : Holds s l) (hk : lruGetEntry s key = some entry) :
    Holds (lruDropOne (mapDeleteString (lruDetach s entry) key)) (drop key l) ∧
      (lruDropOne (mapDeleteString (lruDetach s entry) key)).capacity = s.capacity := by
  obtain ⟨a, b, hl, -, hdrop, -⟩ := h.split hk
  have hlinked := h.linked
  rw [hl] at hlinked
  obtain ⟨hlinked', hframe⟩ := lruDetach_linked hlinked hk entry rfl rfl
  have hcount : (lruDetach s entry).count - 1 = (a ++ b).length := by
    rw [hframe.counts.count, h.count, hl]
    simp
    omega
  have hends : (a ++ b).length = 0 → (lruDetach s entry).lruKey = "" ∧ (lruDetach s entry).mruKey = "" := by
    intro hzero
    have hnil : a ++ b = [] := eq_nil_of_length_eq_zero hzero
    rw [hnil] at hlinked'
    exact ⟨linkTo_eq_none.mp hlinked'.lruKey_eq, linkTo_eq_none.mp hlinked'.mruKey_eq⟩
  have hnot : key ∉ keys (a ++ b) := by
    rw [← hdrop, mem_keys_drop]
    exact fun hh => hh.2 rfl
  have hget : ∀ x ∈ keys (a ++ b),
      lruGetEntry (mapDeleteString (lruDetach s entry) key) x = lruGetEntry (lruDetach s entry) x := by
    intro x hx
    have hxk : x ≠ key := fun hxk => hnot (hxk ▸ hx)
    rw [lruGetEntry_mapDeleteString, if_neg hxk]
  rw [hdrop, lruDropOne_eq (t := mapDeleteString (lruDetach s entry) key) hcount hends]
  refine ⟨⟨⟨?_, ?_, hlinked'.nonempty⟩, fun x => ?_, rfl, ?_, ?_⟩, hframe.counts.capacity⟩
  · refine hlinked'.represents.congr rfl rfl (fun x hx => ?_) fun x hx => ?_
    · exact congrArg (Option.bind · _) (hget x hx)
    · exact congrArg (Option.bind · _) (hget x hx)
  · intro item hitem
    obtain ⟨e, he, hkey, hvalue⟩ := hlinked'.found item hitem
    exact ⟨e, (hget item.1 (mem_map_of_mem hitem)).trans he, hkey, hvalue⟩
  · show (lruGetEntry (mapDeleteString (lruDetach s entry) key) x).isSome ↔ x ∈ keys (a ++ b)
    rw [lruGetEntry_mapDeleteString]
    by_cases hxk : x = key
    · simp [hxk, hnot]
    · rw [if_neg hxk]
      by_cases hx : x ∈ keys (a ++ b)
      · obtain ⟨e, he, -⟩ := hlinked'.find_mem hx
        simp [he, hx]
      · rw [hframe.other x hx, h.live, ← hdrop, mem_keys_drop]
        exact ⟨fun hm => ⟨hm, hxk⟩, fun hm => hm.1⟩
  · have hb := h.bounded
    have hc : (lruDetach s entry).capacity = s.capacity := hframe.counts.capacity
    have hn : (lruDetach s entry).count = s.count := hframe.counts.count
    show ((a ++ b).length : Int) ≤ (lruDetach s entry).capacity
    omega
  · exact hframe.counts.internalErrors.trans h.sound

theorem lruEvictOne_holds (h : Holds s l) (hcap : 1 ≤ s.capacity) (hfull : s.capacity ≤ s.count) :
    Holds (lruEvictOne s).1 l.tail ∧ (lruEvictOne s).2 = l.head? ∧ (lruEvictOne s).1.capacity = s.capacity := by
  cases l with
  | nil =>
    have hcount : s.count = 0 := h.count
    omega
  | cons item rest =>
    obtain ⟨k, v⟩ := item
    have hke : k ≠ "" := fun hk => h.linked.nonempty (by simp [keys, hk])
    have hlru : s.lruKey = k := by
      have hhead := h.linked.lruKey_eq
      exact (linkTo_eq_some.mp hhead).1
    obtain ⟨entry, hentry, -, hvalue⟩ := h.linked.found (k, v) (by simp)
    dsimp only at hentry hvalue
    obtain ⟨hholds, hcapacity⟩ := lruDropOne_holds h hentry
    have hnd : k ∉ keys rest := by
      have hnd := h.linked.represents.nodup
      exact (nodup_cons.mp hnd).1
    have hdrop : drop k ((k, v) :: rest) = rest := keys_drop_middle (l := []) (by simp [keys]) hnd
    have hguard : ¬(s.count < 1 ∨ k = "") := by
      rw [not_or]
      exact ⟨by omega, hke⟩
    rw [hdrop] at hholds
    simp only [lruEvictOne, hlru, if_neg hguard, hentry]
    exact ⟨hholds.counters _ _ _, by rw [head?_cons, ← hvalue], hcapacity⟩

theorem lruAttachAsMru_holds (h : Holds s l) (hkey : key ≠ "") (hnew : key ∉ keys l)
    (hroom : s.count < s.capacity) (value : Option A) (seq : Int64) :
    Holds { lruAttachAsMru s key ⟨key, value, "", "", seq⟩ with
      count := (lruAttachAsMru s key ⟨key, value, "", "", seq⟩).count + 1 } (touch key value l) ∧
    (lruAttachAsMru s key ⟨key, value, "", "", seq⟩).capacity = s.capacity ∧
    (lruAttachAsMru s key ⟨key, value, "", "", seq⟩).count = s.count := by
  obtain ⟨hlinked, hframe⟩ :=
    lruAttachAsMru_linked ⟨key, value, "", "", seq⟩ h.linked hkey hnew rfl
  have hlive : ∀ x, (lruGetEntry s x).isSome → x ∈ keys (l ++ [(key, value)]) := by
    intro x hx
    have hxl := (h.live x).mp hx
    simp only [keys, map_append, mem_append] at hxl ⊢
    exact .inl hxl
  rw [touch, drop_eq_self hnew]
  refine ⟨⟨⟨hlinked.represents, hlinked.found, hlinked.nonempty⟩, hframe.live hlinked hlive, ?_, ?_, ?_⟩,
    hframe.counts.capacity, hframe.counts.count⟩
  · rw [hframe.counts.count, h.count]
    simp
  · show (lruAttachAsMru s key _).count + 1 ≤ (lruAttachAsMru s key _).capacity
    rw [hframe.counts.count, hframe.counts.capacity]
    omega
  · exact hframe.counts.internalErrors.trans h.sound

theorem makeRoom_holds (hs : Holds s l) (hcap : 1 ≤ s.capacity) :
    let r := if s.capacity ≤ s.count then lruEvictOne s else (s, none)
    Holds r.1 (makeRoom s.capacity l).1 ∧ r.2 = (makeRoom s.capacity l).2 ∧
      r.1.capacity = s.capacity ∧ (makeRoom s.capacity l).1.length < s.capacity ∧
      (makeRoom s.capacity l).1.Sublist l := by
  have hcount := hs.count
  have hbounded := hs.bounded
  rw [makeRoom, ← hs.count]
  split_ifs with hfull
  · obtain ⟨hholds, hvictim, hcapacity⟩ := lruEvictOne_holds hs hcap hfull
    refine ⟨hholds, hvictim, hcapacity, ?_, tail_sublist _⟩
    rw [length_tail]
    omega
  · exact ⟨hs, rfl, rfl, by dsimp only; omega, Sublist.refl _⟩

variable {h : History String (Option A)}

/-- The call answers as the specification does, and leaves its items in the store. -/
def Answers (s : LruStore A) (h : History String (Option A)) (c : Call A) : Prop :=
  (call s c).2 = (specCall s.capacity h c).2 ∧ Holds (call s c).1 (specCall s.capacity h c).1.items ∧
    (call s c).1.capacity = s.capacity

section

variable (hs : Holds s h.items) (key : String)

include hs

theorem lruSet_spec (hcap : 1 ≤ s.capacity) (key : String) (value : Option A) : Answers s h (.set key value) := by
  unfold Answers call
  by_cases hkey : key = ""
  · subst hkey
    rw [specCall, ← hs.count]
    exact ⟨rfl, hs, rfl⟩
  · have hvalid : lruValidateKey key "lru.set.key" = none := if_neg hkey
    rw [specCall, if_neg hkey, hs.find_eq]
    cases hk : lruGetEntry s key with
    | some existing =>
      obtain ⟨hholds, hcounts⟩ := lruTouchKnown_holds hs.takeTouchSeq hk { existing with value := value } rfl rfl
        rfl (lruTakeTouchSeq s).2
      simp only [lruSet, hvalid, hk]
      refine ⟨?_, hholds.counters _ _ _, hcounts.capacity⟩
      have hcount : (lruTouchKnown (lruTakeTouchSeq s).1 key { existing with value := value }
          (lruTakeTouchSeq s).2).count = h.items.length := hcounts.count.trans hs.count
      rw [hcount]
      rfl
    | none =>
      have hnew : key ∉ keys h.items := by
        rw [← hs.live, hk]
        exact Bool.false_ne_true
      obtain ⟨hholds, hvictim, hcapacity, hlen, hsub⟩ := makeRoom_holds hs hcap
      generalize hr : (if s.capacity ≤ s.count then lruEvictOne s else (s, none)) = r at *
      obtain ⟨room, victim⟩ := r
      have hnew' : key ∉ keys (makeRoom s.capacity h.items).1 :=
        fun hmem => hnew ((hsub.map Prod.fst).subset hmem)
      have hroom : room.count < room.capacity := by rw [hholds.count, hcapacity]; exact hlen
      obtain ⟨hdone, hcap', hcount'⟩ := lruAttachAsMru_holds hholds.takeTouchSeq hkey hnew' hroom value
        (lruTakeTouchSeq room).2
      simp only [lruSet, hvalid, hk, hr]
      refine ⟨?_, hdone.counters _ _ _, hcap'.trans hcapacity⟩
      have hcount : (lruAttachAsMru (lruTakeTouchSeq room).1 key
          ⟨key, value, "", "", (lruTakeTouchSeq room).2⟩).count = (makeRoom s.capacity h.items).1.length :=
        hcount'.trans hholds.count
      rw [hcount, ← hvictim]
      cases victim <;> rfl

theorem lruPeek_spec : Answers s h (.peek key) := by
  unfold Answers call
  by_cases hkey : key = ""
  · subst hkey
    exact ⟨rfl, hs, rfl⟩
  · have hvalid : lruValidateKey key "lru.peek.key" = none := if_neg hkey
    rw [specCall, if_neg hkey, hs.find_eq]
    cases hk : lruGetEntry s key with
    | none =>
      simp only [lruPeek, hvalid, hk]
      exact ⟨rfl, hs, trivial⟩
    | some entry =>
      obtain ⟨hholds, hcounts⟩ := lruTouchKnown_holds hs.takeTouchSeq hk entry rfl rfl rfl (lruTakeTouchSeq s).2
      simp only [lruPeek, hvalid, hk, map_some]
      exact ⟨trivial, hholds, hcounts.capacity⟩

theorem lruHas_spec : Answers s h (.has key) := by
  obtain ⟨hreply, hholds, hcapacity⟩ := lruPeek_spec hs key
  have hstore : (lruHas s key).1 = (lruPeek s key).1 := by
    rw [lruHas]
    split <;> simp_all
  have hitems : (specCall s.capacity h (.has key)).1 = (specCall s.capacity h (.peek key)).1 := by
    simp only [specCall]
    split
    · rfl
    · split <;> rfl
  rw [Answers, hitems]
  dsimp only [call] at hreply hholds hcapacity ⊢
  rw [hstore]
  refine ⟨?_, hholds, hcapacity⟩
  rw [lruHas]
  generalize lruPeek s key = r at hreply
  obtain ⟨next, value, found, err⟩ := r
  simp only [specCall] at hreply ⊢
  by_cases hkey : key = ""
  · rw [if_pos hkey] at hreply ⊢
    cases hreply
    rfl
  · rw [if_neg hkey] at hreply ⊢
    cases hf : find key h.items with
    | none | some v =>
      rw [hf] at hreply
      cases hreply
      rfl

theorem lruDelete_spec : Answers s h (.delete key) := by
  unfold Answers call
  by_cases hkey : key = ""
  · subst hkey
    exact ⟨rfl, hs, rfl⟩
  · have hvalid : lruValidateKey key "lru.delete.key" = none := if_neg hkey
    rw [specCall, if_neg hkey, hs.find_eq]
    cases hk : lruGetEntry s key with
    | none =>
      simp only [lruDelete, hvalid, hk]
      exact ⟨rfl, hs, trivial⟩
    | some entry =>
      obtain ⟨hholds, hcapacity⟩ := lruDropOne_holds hs hk
      simp only [lruDelete, hvalid, hk, map_some]
      exact ⟨trivial, hholds, hcapacity⟩

theorem call_spec (hcap : 1 ≤ s.capacity) (c : Call A) : Answers s h c := by
  cases c with
  | set key value => exact lruSet_spec hs hcap key value
  | get key | peek key => exact lruPeek_spec hs key
  | has key => exact lruHas_spec hs key
  | delete key => exact lruDelete_spec hs key
  | clear => exact ⟨rfl, lruClear_holds hs.sound hcap, rfl⟩

end

theorem specCall_ordered (ho : h.Ordered) (capacity : Int) (c : Call A) : (specCall capacity h c).1.Ordered := by
  have hself : h.items.Sublist h.items := Sublist.refl _
  cases c with
  | set key value =>
    rw [specCall]
    split
    · exact ho.advance hself
    · split
      · exact ho.touched hself _ _
      · refine ho.touched ?_ _ _
        rw [makeRoom]
        split
        · exact tail_sublist _
        · exact hself
  | get key | peek key | has key =>
    rw [specCall]
    split
    · exact ho.advance hself
    · split
      · exact ho.touched hself _ _
      · exact ho.advance hself
  | delete key =>
    rw [specCall]
    split
    · exact ho.advance hself
    · split
      · exact ho.advance filter_sublist
      · exact ho.advance hself
  | clear => exact ho.advance (nil_sublist _)

theorem calls_spec (hs : Holds s h.items) (ho : h.Ordered) (hcap : 1 ≤ s.capacity) (cs : List (Call A)) :
    (calls s cs).2 = (specCalls s.capacity h cs).2 ∧ Holds (calls s cs).1 (specCalls s.capacity h cs).1.items ∧
      (calls s cs).1.capacity = s.capacity ∧ (specCalls s.capacity h cs).1.Ordered := by
  induction cs generalizing s h with
  | nil => exact ⟨rfl, hs, rfl, ho⟩
  | cons c cs ih =>
    obtain ⟨hreply, hholds, hcapacity⟩ := call_spec hs hcap c
    have hrest := ih hholds (specCall_ordered ho s.capacity c) (by rw [hcapacity]; exact hcap)
    rw [hcapacity] at hrest
    obtain ⟨hreplies, hlast, hcap', hordered⟩ := hrest
    exact ⟨congrArg₂ List.cons hreply hreplies, hlast, hcap', hordered⟩

theorem lruWalk_next {a b : Items A} (h : Linked s (a ++ b)) {start : String}
    (hstart : linkTo start = (keys b).head?) {steps : Nat} (hsteps : b.length < steps) :
    lruWalk s LruEntry.nextKey steps start = keys b := by
  induction b generalizing a start steps with
  | nil =>
    cases steps with
    | zero => omega
    | succ steps => rw [lruWalk, if_pos (linkTo_eq_none.mp hstart)]; rfl
  | cons item b ih =>
    obtain ⟨k, v⟩ := item
    obtain ⟨rfl, hke⟩ := linkTo_eq_some.mp hstart
    obtain ⟨entry, hentry, -, -⟩ := h.found (start, v) (by simp)
    cases steps with
    | zero => omega
    | succ steps =>
      have hsplit : a ++ (start, v) :: b = (a ++ [(start, v)]) ++ b := by simp
      have hrest := ih (hsplit ▸ h) (h.neighbours hentry).2 (by simpa using hsteps)
      rw [lruWalk, if_neg hke, hentry]
      exact congrArg (start :: ·) hrest

theorem lruWalk_prev {a b : Items A} (h : Linked s (a ++ b)) {start : String}
    (hstart : linkTo start = (keys a).getLast?) {steps : Nat} (hsteps : a.length < steps) :
    lruWalk s LruEntry.prevKey steps start = (keys a).reverse := by
  induction a using reverseRecOn generalizing b start steps with
  | nil =>
    cases steps with
    | zero => omega
    | succ steps => rw [lruWalk, if_pos (linkTo_eq_none.mp hstart)]; rfl
  | append_singleton a item ih =>
    obtain ⟨k, v⟩ := item
    simp only [keys, map_append, map_cons, map_nil, getLast?_append,
      getLast?_singleton] at hstart
    obtain ⟨rfl, hke⟩ := linkTo_eq_some.mp hstart
    have hsplit : a ++ [(start, v)] ++ b = a ++ (start, v) :: b := by simp
    rw [hsplit] at h
    obtain ⟨entry, hentry, -, -⟩ := h.found (start, v) (by simp)
    cases steps with
    | zero => omega
    | succ steps =>
      have hrest := ih h (h.neighbours hentry).1 (by simpa using hsteps)
      rw [lruWalk, if_neg hke, hentry]
      simpa [keys] using hrest

theorem lruMaxSteps_eq (h : Holds s l) : lruMaxSteps s = l.length + 1 := by
  have hcount := h.count
  have hpos : ¬(s.count + 1 < 1) := by omega
  rw [lruMaxSteps, if_neg hpos]
  omega

theorem lruKeys_eq (h : Holds s l) : lruKeysLruToMru s = keys l ∧ lruKeysMruToLru s = (keys l).reverse := by
  have hsteps := lruMaxSteps_eq h
  constructor
  · refine lruWalk_next (a := []) h.linked h.linked.lruKey_eq ?_
    omega
  · have hlinked : Linked s (l ++ []) := by rw [append_nil]; exact h.linked
    refine lruWalk_prev hlinked h.linked.mruKey_eq ?_
    omega

end Tablo.Lru
