import Letterform.Proofs.Charstring.Memory

/-!
# The variation data in use

Only an operator that chooses variation data changes the scalars with which operands are blended. So
at any time they are those of some variation data of the font, or none have been chosen yet.
-/

namespace Letterform.Charstring

variable {α : Type} [Scalar α]

namespace Machine

def OfScalars (Q : Option (List α) → Prop) (m : Machine α) : Prop := Q m.scalars

variable {ctx : Context α} {Q : Option (List α) → Prop}

/-- The scalars of the variation data of a font have a property. -/
def OfVariations (ctx : Context α) (Q : Option (List α) → Prop) : Prop :=
  ∀ store index scalars, ctx.store = some store → store.scalars? ctx.location index = some scalars →
    Q (some scalars)

theorem isKept_ofScalars (hQ : OfVariations ctx Q) : IsKept ctx (OfScalars Q) where
  toIsKeptAround := isKeptAround_remembers ctx fun memory => Q memory.scalars
  evaluate {_ op} h _ := by
    have hchosen : AllowsVariations ctx fun memory => Q memory.scalars :=
      fun _ store index scalars _ => hQ store index scalars
    exact Remembers.evaluate hchosen h op fun _ _ _ _ => h

/-- The scalars in use are those of some variation data of the font. -/
def UsesVariations (ctx : Context α) (m : Machine α) : Prop :=
  m.OfScalars fun used => ∀ scalars, used = some scalars →
    ∃ store index, ctx.store = some store ∧ store.scalars? ctx.location index = some scalars

end Machine

theorem Configuration.Reaches.usesVariations {ctx : Context α} {code : List UInt8}
    {c : Configuration α} (h : (Configuration.start ctx code).Reaches ctx c) :
    c.machine.UsesVariations ctx := by
  refine (Machine.isKept_ofScalars ?_).reaches (c := .start ctx code) nofun h
  rintro store index scalars hstore hscalars _ ⟨⟩
  exact ⟨store, index, hstore, hscalars⟩

end Letterform.Charstring
