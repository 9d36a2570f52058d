import Mathlib.Data.List.Nodup
import Mathlib.Data.List.Induction

/-! Doubly linked lists given by their end pointers and the links of each
node. -/

namespace DoublyLinked

open List

variable {ι : Type}

structure Links (ι : Type) where
  head : Option ι
  tail : Option ι
  prev : ι → Option ι
  next : ι → Option ι

def Chain (d : Links ι) : Option ι → List ι → Option ι → Prop
  | _, [], _ => True
  | p, x :: xs, q => d.prev x = p ∧ d.next x = xs.head?.or q ∧ Chain d (some x) xs q

structure Represents (d : Links ι) (l : List ι) : Prop where
  head_eq : d.head = l.head?
  tail_eq : d.tail = l.getLast?
  chain : Chain d none l none
  nodup : l.Nodup

variable {d : Links ι} {l : List ι}

theorem chain_append {p q : Option ι} {r : List ι} :
    Chain d p (l ++ r) q ↔ Chain d p l (r.head?.or q) ∧ Chain d (l.getLast?.or p) r q := by
  induction l generalizing p with
  | nil => simp [Chain]
  | cons x xs ih =>
    have hlast : (x :: xs).getLast?.or p = xs.getLast?.or (some x) := by
      rw [getLast?_cons]
      cases xs.getLast? <;> rfl
    simp [Chain, Option.or_assoc, ih, hlast, and_assoc]

theorem Chain.congr {d' : Links ι} {p q : Option ι} (h : Chain d p l q)
    (hprev : ∀ x ∈ l, d'.prev x = d.prev x) (hnext : ∀ x ∈ l, d'.next x = d.next x) : Chain d' p l q := by
  induction l generalizing p with
  | nil => trivial
  | cons x xs ih =>
    obtain ⟨hp, hn, hc⟩ := h
    refine ⟨(hprev x mem_cons_self).trans hp, (hnext x mem_cons_self).trans hn, ?_⟩
    exact ih hc (fun y hy => hprev y (mem_cons_of_mem _ hy)) fun y hy => hnext y (mem_cons_of_mem _ hy)

theorem Represents.congr {d' : Links ι} (h : Represents d l) (hhead : d'.head = d.head) (htail : d'.tail = d.tail)
    (hprev : ∀ x ∈ l, d'.prev x = d.prev x) (hnext : ∀ x ∈ l, d'.next x = d.next x) : Represents d' l where
  head_eq := hhead.trans h.head_eq
  tail_eq := htail.trans h.tail_eq
  chain := h.chain.congr hprev hnext
  nodup := h.nodup

variable [DecidableEq ι]

def append (d : Links ι) (x : ι) : Links ι where
  head := if d.tail = none then some x else d.head
  tail := some x
  prev := fun y => if y = x then d.tail else d.prev y
  next := fun y => if y = x then none else if d.tail = some y then some x else d.next y

theorem represents_append {x : ι} (h : Represents d l) (hx : x ∉ l) : Represents (append d x) (l ++ [x]) := by
  obtain ⟨hhead, htail, hchain, hnodup⟩ := h
  have hne : ∀ y ∈ l, y ≠ x := fun y hy hyx => hx (hyx ▸ hy)
  refine ⟨?_, ?_, chain_append.mpr ⟨?_, ?_, ?_, trivial⟩, ?_⟩
  · simp only [append, htail, hhead]
    cases l <;> simp
  · simp [append]
  · cases l using List.reverseRecOn with
    | nil => trivial
    | append_singleton l y =>
      obtain ⟨hl, hpy, -, -⟩ := chain_append.mp hchain
      have hnot : ∀ z ∈ l, z ≠ y := by
        intro z hz hzy
        exact (nodup_append.mp hnodup).2.2 z hz y (by simp) hzy
      refine chain_append.mpr ⟨hl.congr (fun z hz => ?_) fun z hz => ?_, ?_, ?_, trivial⟩
      · simp [append, hne z (by simp [hz])]
      · have hzy : y ≠ z := fun hyz => hnot z hz hyz.symm
        simp [append, hne z (by simp [hz]), htail, hzy]
      · rw [← hpy]
        simp [append, hne y (by simp)]
      · simp [append, hne y (by simp), htail]
  · simp [append, htail]
  · simp [append]
  · rw [nodup_append]
    refine ⟨hnodup, by simp, fun y hy z hz => ?_⟩
    rw [mem_singleton.mp hz]
    exact hne y hy

def remove (d : Links ι) (x : ι) : Links ι where
  head := if d.prev x = none then d.next x else d.head
  tail := if d.next x = none then d.prev x else d.tail
  prev := fun y => if y = x then none else if d.next x = some y then d.prev x else d.prev y
  next := fun y => if y = x then none else if d.prev x = some y then d.next x else d.next y

theorem represents_remove {r : List ι} {x : ι} (h : Represents d (l ++ x :: r)) :
    Represents (remove d x) (l ++ r) := by
  obtain ⟨hhead, htail, hchain, hnodup⟩ := h
  obtain ⟨hl, hx, hxn, hr⟩ := chain_append.mp hchain
  rw [Option.or_none] at hx hxn
  have hnd := nodup_append.mp hnodup
  have hdis : ∀ y ∈ l, y ∉ x :: r := fun y hy hyr => hnd.2.2 y hy y hyr rfl
  have hxr : x ∉ r := (nodup_cons.mp hnd.2.1).1
  have hprev : ∀ y, y ≠ x → r.head? ≠ some y → (remove d x).prev y = d.prev y := by
    intro y hyx hy
    simp only [remove, if_neg hyx, hxn, if_neg hy]
  have hnext : ∀ y, y ≠ x → l.getLast? ≠ some y → (remove d x).next y = d.next y := by
    intro y hyx hy
    simp only [remove, if_neg hyx, hx, if_neg hy]
  have hleft : ∀ y ∈ l, y ≠ x ∧ r.head? ≠ some y := by
    intro y hy
    refine ⟨fun hyx => hdis y hy (hyx ▸ mem_cons_self), fun hyr => ?_⟩
    exact hdis y hy (mem_cons_of_mem _ (mem_of_head? hyr))
  have hright : ∀ y ∈ r, y ≠ x ∧ l.getLast? ≠ some y := by
    intro y hy
    refine ⟨fun hyx => hxr (hyx ▸ hy), fun hyl => ?_⟩
    exact hdis y (mem_of_getLast? hyl) (mem_cons_of_mem _ hy)
  refine ⟨?_, ?_, chain_append.mpr ⟨?_, ?_⟩, ?_⟩
  · simp only [remove, hx, hxn, hhead]
    cases l <;> simp
  · simp only [remove, hx, hxn, htail]
    cases r <;> simp [getLast?_append]
  · cases l using List.reverseRecOn with
    | nil => trivial
    | append_singleton l y =>
      obtain ⟨hl₀, hpy, -, -⟩ := chain_append.mp hl
      have hy := hleft y (by simp)
      refine chain_append.mpr ⟨hl₀.congr (fun z hz => ?_) fun z hz => ?_, ?_, ?_, trivial⟩
      · have hz' := hleft z (by simp [hz])
        exact hprev z hz'.1 hz'.2
      · have hz' := hleft z (by simp [hz])
        refine hnext z hz'.1 ?_
        rintro hzy
        simp only [getLast?_append, getLast?_singleton, Option.some_or, Option.some_inj] at hzy
        have hnd' := (nodup_append.mp hnd.1).2.2 z hz y (by simp)
        exact hnd' hzy.symm
      · rw [hprev y hy.1 hy.2, hpy]
      · simp [remove, hy.1, hx, hxn]
  · cases r with
    | nil => trivial
    | cons y r =>
      obtain ⟨-, hny, hr₀⟩ := hr
      have hy := hright y (by simp)
      refine ⟨?_, ?_, hr₀.congr (fun z hz => ?_) fun z hz => ?_⟩
      · simp [remove, hy.1, hx, hxn]
      · rw [hnext y hy.1 hy.2, hny]
      · have hz' := hright z (by simp [hz])
        refine hprev z hz'.1 ?_
        rintro hzy
        have hyz : y = z := by simpa using hzy
        exact (nodup_cons.mp (nodup_cons.mp hnd.2.1).2).1 (hyz ▸ hz)
      · have hz' := hright z (by simp [hz])
        exact hnext z hz'.1 hz'.2
  · exact hnodup.sublist ((sublist_cons_self x r).append_left l)

end DoublyLinked
