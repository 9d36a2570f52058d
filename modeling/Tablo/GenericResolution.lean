import Tablo.GenericTermination

/-! When the resolver returns: exactly when no generic alias leads back to itself,
as long as the globals stand for types that are already resolved. -/

namespace Tablo.GenericTypes

open Encoding (ascii)

def Terminates (env : Env) : Prop :=
  ∀ reg, QuietRegistry env reg → (reg.map (·.key)).Nodup → ∀ ts, ∃ fuel x, resolveAll env fuel reg ts = some x

theorem quietRegistry_nil (env : Env) : QuietRegistry env [] := fun _ he => by cases he

theorem circle_closed {env : Env} {a : Text} (hcycle : Relation.TransGen (Refers env) a a) :
    ∀ x ∈ {x | Relation.TransGen (Refers env) x a}, ∃ y ∈ {x | Relation.TransGen (Refers env) x a}, Refers env x y := by
  intro x hx
  obtain ⟨y, hstep, hrest⟩ := Relation.TransGen.head'_iff.mp hx
  rcases Relation.reflTransGen_iff_eq_or_transGen.mp hrest with rfl | hrest
  · exact ⟨_, hcycle, hstep⟩
  · exact ⟨y, hrest, hstep⟩

theorem acyclic_of_terminates {env : Env} (h : Terminates env) : Acyclic env := by
  intro a hcycle
  obtain ⟨y, hy, decl, k, decl', hdecl, href, hexp⟩ := circle_closed hcycle a hcycle
  obtain ⟨fuel, x, hrun⟩ := h [] (quietRegistry_nil env) List.nodup_nil (.cons decl.target .nil)
  refine no_answer (circle_closed hcycle) (runs_of_gives (.all hrun)) ⟨(y, k), ?_, hy, decl', hexp⟩
  exact List.mem_append_left _ href

/-- `record Node[T] \x7b next: Node[array<T>] \x7d` asks for ever larger arguments. -/
def node : RecordDecl :=
  ⟨⟨ascii "Node", by decide⟩, [ascii "T"], by decide,
    [(ascii "next", .record (ascii "Node") (.cons (.cell .array (.typeParam (ascii "T") false) false) .nil) false)]⟩

/-- `type Chain[T] = Node[T]` -/
def chain : AliasDecl :=
  ⟨⟨ascii "Chain", by decide⟩, [ascii "T"], by decide,
    .record (ascii "Node") (.cons (.typeParam (ascii "T") false) .nil) false⟩

def chainEnv : Env := ⟨[node], [chain], [], fun _ => none⟩

theorem not_refers_chainEnv (a b : Text) : ¬ Refers chainEnv a b := by
  rintro ⟨decl, k, other, hdecl, href, hexp⟩
  have hmem := List.mem_of_find?_eq_some hdecl
  rw [List.mem_singleton.mp hmem] at href
  have hb : (b, k) = (ascii "Node", 1) := by
    simpa [chain, visits, visitsAll, Tys.length] using href
  have hnone : chainEnv.findAlias (ascii "Node") = none := by decide
  have hfound := hexp.found
  rw [hb] at hfound
  cases hfound

/-- `type A[T] = A[T]` -/
def loop : AliasDecl :=
  ⟨⟨ascii "A", by decide⟩, [ascii "T"], by decide,
    .record (ascii "A") (.cons (.typeParam (ascii "T") false) .nil) false⟩

def loopEnv : Env := ⟨[], [loop], [], fun _ => none⟩

/-- `type A[T] = T` -/
def same : AliasDecl := ⟨⟨ascii "A", by decide⟩, [ascii "T"], by decide, .typeParam (ascii "T") false⟩

def applied : Ty := .record (ascii "A") (.cons (.record (ascii "B") .nil false) .nil) false

/-- `type B = A[B]`, as the global is declared before the aliases are resolved. -/
def sameEnv : Env :=
  ⟨[], [same], [], fun name => if name = ascii "B" then some ⟨true, applied, true⟩ else none⟩

theorem expands_loop : Expands loopEnv (ascii "A", 1) loop := ⟨by decide, rfl, rfl, rfl, rfl⟩

theorem refers_loop : Refers loopEnv (ascii "A") (ascii "A") := ⟨loop, 1, loop, rfl, by decide, expands_loop⟩

theorem resolve_loopEnv (fuel : Nat) :
    resolve loopEnv fuel [] (.record (ascii "A") (.cons (.int none false) .nil) false) = none := by
  have hcircle : ∀ x ∈ ({ascii "A"} : Set Text), ∃ y ∈ ({ascii "A"} : Set Text), Refers loopEnv x y := by
    rintro x rfl
    exact ⟨_, rfl, refers_loop⟩
  rw [Option.eq_none_iff_forall_ne_some]
  intro x h
  exact no_answer hcircle (runs_of_gives (.type h)) ⟨(ascii "A", 1), List.mem_cons_self, rfl, loop, expands_loop⟩

theorem resolve_sameEnv (fuel : Nat) : resolve sameEnv fuel [] applied = none := by
  induction fuel using Nat.strong_induction_on with
  | _ fuel ih =>
    match fuel with
    | 0 | 1 | 2 | 3 | 4 => rfl
    | f + 5 =>
      have hargs : resolveAll sameEnv (f + 4) [] (.cons (.record (ascii "B") .nil false) .nil) =
          some ([], .cons applied .nil) := rfl
      have hnamed : resolveNamed sameEnv (f + 4) [] (ascii "A") (.cons applied .nil) false =
          (resolve sameEnv (f + 3) [] applied).bind fun x => some (x.1, x.2.orNullable false) := rfl
      rw [applied, resolve, hargs]
      dsimp only [Option.bind_eq_bind, Option.bind_some]
      rw [hnamed, ih (f + 3) (by omega)]
      rfl

end Tablo.GenericTypes
