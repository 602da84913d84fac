import Mathlib.Tactic
import Mathlib.Data.Set.Card

/-!
# Dead ends and traps of a finite graph

A walk in a finite graph can always be continued to a point to which every further walk returns
(`exists_recurrent`).  So from every point a dead end is reachable, unless there is a cycle that
no walk leaves for good (`Trap`); `forall_reaches_deadEnd_iff` makes this an equivalence.
-/

namespace Reachability

open Relation

variable {α : Type} {r : α → α → Prop}

/-- No edge leaves the point. -/
def DeadEnd (r : α → α → Prop) (a : α) : Prop := ∀ b, ¬ r a b

/-- The point lies on a cycle, and every walk from it can return to it. -/
structure Trap (r : α → α → Prop) (a : α) : Prop where
  cycle : TransGen r a a
  returns : ∀ b, ReflTransGen r a b → ReflTransGen r b a

/-- From every point one reaches a point to which every further walk can return. -/
theorem exists_recurrent {a : α} (hfin : {b | ReflTransGen r a b}.Finite) :
    ∃ b, ReflTransGen r a b ∧ ∀ c, ReflTransGen r b c → ReflTransGen r c b := by
  -- a point that reaches as few points as possible
  obtain ⟨b, hab, hmin⟩ := Set.exists_min_image {b | ReflTransGen r a b}
    (fun b => {c | ReflTransGen r b c}.ncard) hfin ⟨a, ReflTransGen.refl⟩
  refine ⟨b, hab, fun c hbc => ?_⟩
  have hsub : {d | ReflTransGen r c d} ⊆ {d | ReflTransGen r b d} := fun d hd => hbc.trans hd
  have hfin' : {d | ReflTransGen r b d}.Finite := hfin.subset fun d hd => ReflTransGen.trans hab hd
  have heq := Set.eq_of_subset_of_ncard_le hsub (hmin c (ReflTransGen.trans hab hbc)) hfin'
  have hb : b ∈ {d | ReflTransGen r b d} := ReflTransGen.refl
  rw [← heq] at hb
  exact hb

/-- A walk from a dead end goes nowhere. -/
theorem DeadEnd.eq_of_reaches {a b : α} (h : DeadEnd r a) (hab : ReflTransGen r a b) : b = a := by
  rcases ReflTransGen.cases_head hab with rfl | ⟨c, hac, -⟩
  · rfl
  · exact absurd hac (h c)

/-- A trap reaches no dead end. -/
theorem Trap.not_deadEnd {a b : α} (h : Trap r a) (hab : ReflTransGen r a b) : ¬ DeadEnd r b := by
  intro hb
  obtain rfl := hb.eq_of_reaches (h.returns b hab)
  obtain ⟨c, hac, -⟩ := TransGen.head'_iff.1 h.cycle
  exact hb c hac

/-- **Dead ends and traps.**  From every point of a set a dead end is reachable iff the set has no
trap, provided the points reachable from it are finitely many points of the set. -/
theorem forall_reaches_deadEnd_iff {S : Set α} (hS : S.Finite)
    (hclosed : ∀ a ∈ S, ∀ b, r a b → b ∈ S) :
    (∀ a ∈ S, ∃ b, ReflTransGen r a b ∧ DeadEnd r b) ↔ ∀ a ∈ S, ¬ Trap r a := by
  have hstay : ∀ a ∈ S, ∀ b, ReflTransGen r a b → b ∈ S := by
    intro a ha b hab
    induction hab with
    | refl => exact ha
    | tail _ hbc ih => exact hclosed _ ih _ hbc
  constructor
  · intro hall a ha htrap
    obtain ⟨b, hab, hb⟩ := hall a ha
    exact htrap.not_deadEnd hab hb
  · intro hno a ha
    obtain ⟨b, hab, hreturn⟩ := exists_recurrent (hS.subset (hstay a ha))
    refine ⟨b, hab, fun c hbc => hno b (hstay a ha b hab) ⟨?_, hreturn⟩⟩
    exact TransGen.head' hbc (hreturn c (ReflTransGen.single hbc))

end Reachability
