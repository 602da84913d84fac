import Mathlib.Tactic
import Mathlib.Data.Set.Lattice
import Mathlib.Order.CompletePartialOrder

/-!
# Forward must-analysis

A graph with a monotone transfer function on sets of facts.  `Tracks` follows a path from the
entry and applies the transfer functions on the way; an `Annotation` attaches to each node a set
that is consistent with every edge.  Whatever the annotation claims at a node holds on every path
that reaches it (`Annotation.subset_of_tracks`).  Conversely, a set computed by following edges and
intersecting where paths join misses a fact only if a path misses it (`OnPaths`), provided the
transfer functions treat the facts apart (`Separable`).
-/

namespace MustAnalysis

variable {ν ρ : Type} {edge : ν → ν → Prop} {transfer : ν → Set ρ → Set ρ} {entry : ν}
  {init : Set ρ}

/-- Some path from the entry reaches a node with the given set of facts. -/
inductive Tracks (edge : ν → ν → Prop) (transfer : ν → Set ρ → Set ρ) (entry : ν)
    (init : Set ρ) : ν → Set ρ → Prop
  | start : Tracks edge transfer entry init entry init
  | step {u v : ν} {I : Set ρ} (h : Tracks edge transfer entry init u I) (e : edge u v) :
      Tracks edge transfer entry init v (transfer u I)

/-- Facts for each node, consistent with the entry and with every edge. -/
structure Annotation (edge : ν → ν → Prop) (transfer : ν → Set ρ → Set ρ) (entry : ν)
    (init : Set ρ) where
  facts : ν → Set ρ
  entry_subset : facts entry ⊆ init
  flow_subset : ∀ u v, edge u v → facts v ⊆ transfer u (facts u)

/-- **Soundness.**  The annotation of a node holds on every path to it. -/
theorem Annotation.subset_of_tracks (A : Annotation edge transfer entry init)
    (hmono : ∀ u, Monotone (transfer u)) {v : ν} {I : Set ρ}
    (h : Tracks edge transfer entry init v I) : A.facts v ⊆ I := by
  induction h with
  | start => exact A.entry_subset
  | step _ e ih => exact (A.flow_subset _ _ e).trans (hmono _ ih)

/-! ### Precision -/

/-- The function decides each fact apart: what it misses, it misses always, or it misses whenever
its argument does. -/
def Separable (t : Set ρ → Set ρ) : Prop :=
  ∀ I x, x ∉ t I → (∀ J, x ∉ t J) ∨ x ∉ I ∧ ∀ J, x ∉ J → x ∉ t J

/-- Some path reaches the node, and what is not in the set is missing on some path to it. -/
structure OnPaths (edge : ν → ν → Prop) (transfer : ν → Set ρ → Set ρ) (entry : ν) (init : Set ρ)
    (v : ν) (I : Set ρ) : Prop where
  reached : ∃ J, Tracks edge transfer entry init v J
  missed : ∀ x, x ∉ I → ∃ J, Tracks edge transfer entry init v J ∧ x ∉ J

namespace OnPaths

theorem start : OnPaths edge transfer entry init entry init :=
  ⟨⟨init, Tracks.start⟩, fun _ hx => ⟨init, Tracks.start, hx⟩⟩

/-- Along an edge. -/
theorem step {u v : ν} {I : Set ρ} (h : OnPaths edge transfer entry init u I) (e : edge u v)
    (hsep : Separable (transfer u)) : OnPaths edge transfer entry init v (transfer u I) := by
  obtain ⟨J, hJ⟩ := h.reached
  refine ⟨⟨_, hJ.step e⟩, fun x hx => ?_⟩
  rcases hsep I x hx with hall | ⟨hI, hkeep⟩
  · exact ⟨_, hJ.step e, hall J⟩
  · obtain ⟨K, hK, hxK⟩ := h.missed x hI
    exact ⟨_, hK.step e, hkeep K hxK⟩

/-- Where paths join. -/
theorem inter {v : ν} {I J : Set ρ} (h : OnPaths edge transfer entry init v I)
    (h' : OnPaths edge transfer entry init v J) :
    OnPaths edge transfer entry init v (I ∩ J) := by
  refine ⟨h.reached, fun x hx => ?_⟩
  by_cases hI : x ∈ I
  · exact h'.missed x fun hJ => hx ⟨hI, hJ⟩
  · exact h.missed x hI

end OnPaths

/-- A tracked node is connected to the entry. -/
theorem Tracks.reaches {v : ν} {I : Set ρ} (h : Tracks edge transfer entry init v I) :
    Relation.ReflTransGen edge entry v := by
  induction h with
  | start => exact Relation.ReflTransGen.refl
  | step _ e ih => exact ih.tail e

end MustAnalysis
