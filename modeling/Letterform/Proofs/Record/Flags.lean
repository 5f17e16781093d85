import Letterform.Record.Flags
import Mathlib

/-!
# Sets of flags

What a group of flags says can be told from any word that has them, whatever flags of other groups
are in it. The flags of a component come in four groups, which share none: its options, what
follows it, which entries of its transform are written, and the form of its arguments.
-/

namespace Letterform

namespace FlagSet

variable {table : FlagTable} {f g h : FlagSet table}

theorem union_empty (f : FlagSet table) : f ||| empty = f :=
  congrArg FlagSet.mk (Nat.or_zero f.word)

theorem empty_union (f : FlagSet table) : empty ||| f = f :=
  congrArg FlagSet.mk (Nat.zero_or f.word)

theorem union_inter (f g h : FlagSet table) : (f ||| g) &&& h = f &&& h ||| g &&& h :=
  congrArg FlagSet.mk (Nat.and_or_distrib_right f.word g.word h.word)

theorem inter_assoc (f g h : FlagSet table) : f &&& g &&& h = f &&& (g &&& h) :=
  congrArg FlagSet.mk (Nat.and_assoc f.word g.word h.word)

-- ---------------------------------------------------------------------------
-- Parts of a set
-- ---------------------------------------------------------------------------

theorem contains_without (hg : g.word &&& h.word = 0) :
    (f.without g).contains h = f.contains h := by
  show ((f.word ^^^ (f.word &&& g.word)) &&& h.word == h.word) = (f.word &&& h.word == h.word)
  rw [Nat.and_xor_distrib_right, Nat.and_assoc, hg, Nat.and_zero, Nat.xor_zero]

/-- Whether a set has some flags can be told from its part in any group that they belong to. -/
theorem contains_inter (hgroup : g &&& h = h) : (f &&& g).contains h = f.contains h := by
  show ((f &&& g &&& h).word == h.word) = ((f &&& h).word == h.word)
  rw [inter_assoc, hgroup]

theorem inter_of_inter (hf : f &&& g = f) (hgroup : g &&& h = g) : f &&& h = f := by
  rw [← hf, inter_assoc, hgroup]

theorem inter_eq_empty (hf : f &&& g = f) (hgroups : g &&& h = empty) : f &&& h = empty := by
  rw [← hf, inter_assoc, hgroups]
  exact congrArg FlagSet.mk (Nat.and_zero f.word)

theorem union_inter_left {k : FlagSet table} (hf : f &&& h = k) (hg : g &&& h = empty) :
    (f ||| g) &&& h = k := by
  rw [union_inter, hf, hg, union_empty]

theorem union_inter_right {k : FlagSet table} (hf : f &&& h = empty) (hg : g &&& h = k) :
    (f ||| g) &&& h = k := by
  rw [union_inter, hf, hg, empty_union]

theorem union_inter_self (hf : f &&& h = f) (hg : g &&& h = g) : (f ||| g) &&& h = f ||| g := by
  rw [union_inter, hf, hg]

theorem ofWord_word (hf : f &&& all = f) : ofWord f.word = f := hf

theorem word_le (hf : f &&& all = f) : f.word ≤ table.word := by
  rw [← hf]
  exact Nat.and_le_right

end FlagSet

-- ---------------------------------------------------------------------------
-- Components
-- ---------------------------------------------------------------------------

namespace LayoutFlags

open FlagSet

def optionGroup : LayoutFlags :=
  roundXYToGrid ||| useMyMetrics ||| overlapCompound ||| scaledComponentOffset |||
    unscaledComponentOffset

def followingGroup : LayoutFlags := moreComponents ||| instructions

def entryGroup : LayoutFlags := scale ||| twoScales ||| twoByTwo

def argumentGroup : LayoutFlags := argumentsAreWords ||| argumentsAreOffset

theorem ofOptions_inter (o : ComponentFlags) : ofOptions o &&& optionGroup = ofOptions o := by
  obtain ⟨round, metrics, overlap, scaled, unscaled⟩ := o
  revert round metrics overlap scaled unscaled
  decide

theorem options_ofOptions (o : ComponentFlags) : (ofOptions o).options = o := by
  obtain ⟨round, metrics, overlap, scaled, unscaled⟩ := o
  revert round metrics overlap scaled unscaled
  decide

theorem options_inter (f : LayoutFlags) : (f &&& optionGroup).options = f.options := by
  unfold options
  rw [contains_inter rfl, contains_inter rfl, contains_inter rfl, contains_inter rfl,
    contains_inter rfl]

/-- The flags of a component, made up of those of the four groups. -/
structure Joins (f : LayoutFlags) (o : ComponentFlags) (following entries arguments : LayoutFlags) :
    Prop where
  all : f &&& .all = f
  options : f.options = o
  following : f &&& followingGroup = following
  entries : f &&& entryGroup = entries
  arguments : f &&& argumentGroup = arguments

theorem joins_union (o : ComponentFlags) {following entries arguments : LayoutFlags}
    (hfollowing : following &&& followingGroup = following)
    (hentries : entries &&& entryGroup = entries)
    (harguments : arguments &&& argumentGroup = arguments) :
    (ofOptions o ||| following ||| entries ||| arguments).Joins o following entries arguments := by
  have hoptions := ofOptions_inter o
  constructor
  case all =>
    exact union_inter_self (union_inter_self (union_inter_self (inter_of_inter hoptions rfl)
      (inter_of_inter hfollowing rfl)) (inter_of_inter hentries rfl))
      (inter_of_inter harguments rfl)
  case options =>
    rw [← options_inter, union_inter_left (union_inter_left (union_inter_left hoptions
      (inter_eq_empty hfollowing rfl)) (inter_eq_empty hentries rfl))
      (inter_eq_empty harguments rfl)]
    exact options_ofOptions o
  case following =>
    exact union_inter_left (union_inter_left (union_inter_right (inter_eq_empty hoptions rfl)
      hfollowing) (inter_eq_empty hentries rfl)) (inter_eq_empty harguments rfl)
  case entries =>
    exact union_inter_left (union_inter_right (union_inter_left (inter_eq_empty hoptions rfl)
      (inter_eq_empty hfollowing rfl)) hentries) (inter_eq_empty harguments rfl)
  case arguments =>
    exact union_inter_right (union_inter_left (union_inter_left (inter_eq_empty hoptions rfl)
      (inter_eq_empty hfollowing rfl)) (inter_eq_empty hentries rfl)) harguments

end LayoutFlags

end Letterform
