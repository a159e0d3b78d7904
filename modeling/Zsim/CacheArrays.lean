import Zsim.MemoryHierarchy
import Mathlib.Logic.Function.Basic

/-!
# The cache array interface

A cache array translates line addresses to line ids. Its operations are those
of the abstract class, on an arbitrary state; the replacement policy is outside
it and answers with one of the candidates the array offers. An array is
faithful when a found line holds the address it was found by and an insertion
touches the chosen line only.
-/

namespace Zsim.CacheArrays

open MemoryHierarchy

/-- The operations of `CacheArray` on states `σ`. -/
structure CacheArray (σ : Type) where
  /-- The address stored at a line id. -/
  line : σ → LineId → Address
  /-- The line id of an address, if it is present. -/
  lookup : σ → Address → Option LineId
  /-- The line ids offered to `rankCands` for an incoming address. -/
  candidates : σ → Address → List LineId
  /-- What `preinsert` records once the policy has chosen a candidate. -/
  preinsert : σ → Address → LineId → σ
  /-- The replacement itself. -/
  postinsert : σ → Address → LineId → σ

/-- What the caches above rely on. Lookups are only constrained where they
succeed, so that several empty entries may share the address 0. -/
structure Faithful {σ : Type} (A : CacheArray σ) where
  /-- Invariant of the array's states. -/
  Inv : σ → Prop
  /-- Addresses the array can be asked to hold. -/
  Accepts : Address → Prop
  lookup_line : ∀ s a i, Inv s → A.lookup s a = some i → A.line s i = a
  /-- A stored address is found, so it is stored once. -/
  stored_found : ∀ s i, Inv s → A.line s i ≠ 0 → A.lookup s (A.line s i) = some i
  candidates_ne_nil : ∀ s a, Inv s → A.candidates s a ≠ []
  /-- Choosing a victim changes no line and no lookup. -/
  preinsert_line : ∀ s a i, A.line (A.preinsert s a i) = A.line s
  preinsert_lookup : ∀ s a i, A.lookup (A.preinsert s a i) = A.lookup s
  preinsert_inv : ∀ s a i, Inv s → Inv (A.preinsert s a i)
  insert_inv : ∀ s a i, Inv s → Accepts a → A.lookup s a = none → i ∈ A.candidates s a →
    Inv (A.postinsert (A.preinsert s a i) a i)
  insert_line : ∀ s a i, Inv s → Accepts a → A.lookup s a = none → i ∈ A.candidates s a →
    A.line (A.postinsert (A.preinsert s a i) a i) = Function.update (A.line s) i a
  insert_found : ∀ s a i, Inv s → Accepts a → A.lookup s a = none → i ∈ A.candidates s a →
    A.lookup (A.postinsert (A.preinsert s a i) a i) a = some i
  /-- Every other line stays where it was found. -/
  insert_others : ∀ s a i b j, Inv s → Accepts a → A.lookup s a = none → i ∈ A.candidates s a →
    A.lookup s b = some j → j ≠ i →
    A.lookup (A.postinsert (A.preinsert s a i) a i) b = some j

end Zsim.CacheArrays
