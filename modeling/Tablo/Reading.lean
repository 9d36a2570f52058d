import Mathlib.Data.List.Basic

/-! Reading from an input that may end too early. -/

namespace Reading

variable {α β γ ε : Type} {data : List α} {i : Nat} {a : List α}

/-- A read fails with an error of its own, or because it looked outside the input. -/
inductive Failure (ε : Type) where
  | error (e : ε)
  | fault
  deriving DecidableEq, Repr

def slice (data : List α) (i n : Nat) : List α := (data.drop i).take n

/-- A read that never looks outside the input, and that more input does not change once it has
succeeded. -/
structure Steady (f : List α → Except (Failure ε) β) : Prop where
  safe : ∀ data, f data ≠ .error .fault
  grows : ∀ data more b, f data = .ok b → f (data ++ more) = .ok b

theorem steady_const {r : Except (Failure ε) β} (h : r ≠ .error .fault) : Steady (fun _ : List α => r) :=
  ⟨fun _ => h, fun _ _ _ hr => hr⟩

theorem steady_ok (b : β) : Steady (fun _ : List α => (.ok b : Except (Failure ε) β)) :=
  steady_const (by simp)

theorem steady_error (e : List α → ε) : Steady (fun data => (.error (.error (e data)) : Except (Failure ε) β)) :=
  ⟨fun _ => by simp, fun _ _ _ h => by cases h⟩

theorem Steady.bind {f : List α → Except (Failure ε) β} {g : β → List α → Except (Failure ε) γ}
    (hf : Steady f) (hg : ∀ b, Steady (g b)) : Steady fun data => f data >>= fun b => g b data := by
  constructor
  · intro data h
    cases hd : f data with
    | error e =>
      rw [hd] at h
      cases h
      exact hf.safe data hd
    | ok b =>
      rw [hd] at h
      exact (hg b).safe data h
  · intro data more c h
    cases hd : f data with
    | error e =>
      rw [hd] at h
      cases h
    | ok b =>
      rw [hd] at h
      rw [hf.grows data more b hd]
      exact (hg b).grows data more c h

theorem Steady.ite {c : Prop} [Decidable c] {f g : List α → Except (Failure ε) β} (hf : Steady f)
    (hg : Steady g) : Steady fun data => if c then f data else g data := by
  by_cases hc : c
  · simpa only [if_pos hc] using hf
  · simpa only [if_neg hc] using hg

theorem slice_append {n : Nat} (h : i + n ≤ data.length) (more : List α) :
    slice (data ++ more) i n = slice data i n := by
  rw [slice, List.drop_append_of_le_length (by omega), List.take_append_of_le_length (by simp; omega)]
  rfl

def At (data : List α) (i : Nat) (part : List α) : Prop :=
  ∃ before after, data = before ++ (part ++ after) ∧ before.length = i

theorem At.left {b : List α} (h : At data i (a ++ b)) : At data i a := by
  obtain ⟨before, after, rfl, hi⟩ := h
  exact ⟨before, b ++ after, by simp, hi⟩

theorem At.right {b : List α} (h : At data i (a ++ b)) : At data (i + a.length) b := by
  obtain ⟨before, after, rfl, rfl⟩ := h
  exact ⟨before ++ a, after, by simp, by simp⟩

theorem At.le (h : At data i a) : i + a.length ≤ data.length := by
  obtain ⟨before, after, rfl, rfl⟩ := h
  simp only [List.length_append]
  omega

theorem At.getElem? {x : α} (h : At data i (x :: a)) : data[i]? = some x := by
  obtain ⟨before, after, rfl, rfl⟩ := h
  simp

theorem At.slice (h : At data i a) : slice data i a.length = a := by
  obtain ⟨before, after, rfl, rfl⟩ := h
  simp [Reading.slice]

/-! Readers that move a cursor through their input. -/

open List

def Cursor (α ε β : Type) : Type := List α → Nat → Except (Failure ε) (β × Nat)

instance : Monad (Cursor α ε) where
  pure b := fun _ i => .ok (b, i)
  bind m k := fun data i => m data i >>= fun r => k r.1 data r.2

namespace Cursor

def fail (e : ε) : Cursor α ε β := fun _ _ => .error (.error e)

def check (c : Prop) [Decidable c] (e : ε) : Cursor α ε Unit := if c then pure () else fail e

def copy (n : Nat) : Cursor α ε (List α) := fun data i =>
  if i + n ≤ data.length then .ok (slice data i n, i + n) else .error .fault

def many (m : Cursor α ε β) : Nat → Cursor α ε (List β)
  | 0 => pure []
  | n + 1 => do
    let x ← m
    let xs ← many m n
    pure (x :: xs)

end Cursor

variable {m : Cursor α ε β} {k : β → Cursor α ε γ}

def Steadily (m : Cursor α ε β) : Prop := ∀ i, Steady fun data => m data i

theorem steadily_pure (b : β) : Steadily (pure b : Cursor α ε β) := fun i => steady_ok (b, i)

theorem steadily_fail (e : ε) : Steadily (Cursor.fail e : Cursor α ε β) := fun _ => steady_error fun _ => e

theorem Steadily.bind (hm : Steadily m) (hk : ∀ b, Steadily (k b)) : Steadily (m >>= k) := by
  intro i
  exact (hm i).bind fun r => hk r.1 r.2

theorem Steadily.ite {c : Prop} [Decidable c] {m' : Cursor α ε β} (hm : Steadily m) (hm' : Steadily m') :
    Steadily (if c then m else m') := by
  split
  · exact hm
  · exact hm'

theorem steadily_check (c : Prop) [Decidable c] (e : ε) : Steadily (Cursor.check c e : Cursor α ε Unit) :=
  (steadily_pure ()).ite (steadily_fail e)

theorem Steadily.many (hm : Steadily m) (n : Nat) : Steadily (Cursor.many m n) := by
  induction n with
  | zero => exact steadily_pure []
  | succ n ih => exact hm.bind fun x => ih.bind fun xs => steadily_pure _

theorem Steadily.end_unique {data more : List α} {b c : β} (hm : Steadily m) (hmore : more ≠ [])
    (hd : m data 0 = .ok (b, data.length)) : m (data ++ more) 0 ≠ .ok (c, (data ++ more).length) := by
  intro hall
  have hgrow := (hm 0).grows data more _ hd
  rw [hall] at hgrow
  simp only [Except.ok.injEq, Prod.mk.injEq, length_append] at hgrow
  exact hmore (eq_nil_of_length_eq_zero (by omega))

variable {p q : List α} {b : β} {c : γ}

def Reads (m : Cursor α ε β) (p : List α) (b : β) : Prop :=
  ∀ data i, At data i p → m data i = .ok (b, i + p.length)

theorem reads_pure (b : β) : Reads (pure b : Cursor α ε β) [] b := fun _ _ _ => rfl

theorem Reads.bind (hm : Reads m p b) (hk : Reads (k b) q c) : Reads (m >>= k) (p ++ q) c := by
  intro data i hat
  have hk' := hk data (i + p.length) hat.right
  rw [Nat.add_assoc, ← length_append] at hk'
  change (m data i >>= fun r => k r.1 data r.2) = _
  rw [hm data i hat.left]
  exact hk'

theorem Reads.bind_pure (hm : Reads m p b) (f : β → γ) : Reads (m >>= fun x => pure (f x)) p (f b) := by
  have h := hm.bind (k := fun x => pure (f x)) (reads_pure (f b))
  rwa [append_nil] at h

theorem Reads.check_bind {r : Prop} [Decidable r] (hr : r) {e : ε} {k : Unit → Cursor α ε γ}
    (hk : Reads (k ()) q c) : Reads (Cursor.check r e >>= k) q c := by
  have hcheck : Reads (Cursor.check r e : Cursor α ε Unit) [] () := by
    rw [Cursor.check, if_pos hr]
    exact reads_pure ()
  exact hcheck.bind hk

theorem reads_copy {n : Nat} (hn : p.length = n) : Reads (Cursor.copy n : Cursor α ε (List α)) p p := by
  subst hn
  intro data i hat
  rw [Cursor.copy, if_pos hat.le, hat.slice]

theorem reads_many {δ : Type} {g : δ → Option (List α)} {f : δ → β} {xs : List δ} {parts : List (List α)}
    (hg : xs.mapM g = some parts) (hm : ∀ x ∈ xs, ∀ p, g x = some p → Reads m p (f x)) :
    Reads (Cursor.many m xs.length) parts.flatten (xs.map f) := by
  induction xs generalizing parts with
  | nil =>
    obtain rfl : parts = [] := by simpa using hg.symm
    exact reads_pure []
  | cons x xs ih =>
    rw [mapM_cons] at hg
    obtain ⟨p, hp, hg⟩ := Option.bind_eq_some_iff.mp hg
    obtain ⟨ps, hps, hg⟩ := Option.bind_eq_some_iff.mp hg
    obtain rfl : p :: ps = parts := Option.some.inj hg
    have hrest := ih hps fun y hy => hm y (mem_cons_of_mem x hy)
    exact (hm x mem_cons_self p hp).bind (hrest.bind_pure _)

end Reading
