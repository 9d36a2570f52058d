import Mathlib.Data.List.Basic

/-! Histories of reads and writes of one store that maps keys to values. -/

namespace SingleStore

inductive Access (κ ν : Type) where
  | read (key : κ) (value : ν)
  | write (key : κ) (value : ν)
  deriving DecidableEq

variable {κ ν : Type} [DecidableEq κ]

variable (store : κ → ν)

def Access.apply : Access κ ν → κ → ν
  | .read _ _ => store
  | .write key value => Function.update store key value

def after (history : List (Access κ ν)) : κ → ν := history.foldl Access.apply store

def Access.Served : Access κ ν → Prop
  | .read key value => value = store key
  | .write _ _ => True

def Served (history : List (Access κ ν)) : Prop :=
  ∀ before a rest, history = before ++ a :: rest → a.Served (after store before)

@[simp] theorem after_nil : after store [] = store := rfl

@[simp] theorem after_cons (a : Access κ ν) (h : List (Access κ ν)) :
    after store (a :: h) = after (a.apply store) h := rfl

theorem after_append (h h' : List (Access κ ν)) :
    after store (h ++ h') = after (after store h) h' := List.foldl_append

theorem served_nil : Served store [] := by
  intro before a rest h
  exact absurd h (by simp)

theorem served_cons {store : κ → ν} {a : Access κ ν} {h : List (Access κ ν)} :
    Served store (a :: h) ↔ a.Served store ∧ Served (a.apply store) h := by
  constructor
  · intro hs
    refine ⟨hs [] a h rfl, fun before b rest he => ?_⟩
    exact hs (a :: before) b rest (by rw [he, List.cons_append])
  · rintro ⟨ha, hs⟩ before b rest he
    cases before with
    | nil =>
      obtain ⟨rfl, -⟩ := List.cons_eq_cons.mp he
      exact ha
    | cons c before =>
      obtain ⟨rfl, htail⟩ := List.cons_eq_cons.mp he
      exact hs before b rest htail

theorem served_append {store : κ → ν} {h h' : List (Access κ ν)} :
    Served store (h ++ h') ↔ Served store h ∧ Served (after store h) h' := by
  induction h generalizing store with
  | nil => simp [served_nil]
  | cons a h ih => rw [List.cons_append, served_cons, served_cons, ih, after_cons, and_assoc]

end SingleStore
