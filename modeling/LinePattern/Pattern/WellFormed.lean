import LinePattern.Pattern.Basic

/-!
# Well-formed patterns

Not every list of tokens is written by a pattern text. In a well-formed one the anchors stand at the
ends only, and no class or group is empty or holds a char that would end it. These are the patterns
that `Pattern.compile` gives and that `Pattern.render` writes.
-/

namespace LinePattern

/-- What a class or a group has to hold for its text to be read back as it is. Atoms and anchors
have nothing to keep to. -/
def Token.WellFormed : Token → Prop
  | lineStart => True
  | lineEnd => True
  | atom _ _ => True
  | charClass polarity members =>
    members ≠ [] ∧ ']' ∉ members ∧ (polarity = .positive → members.head? ≠ some '^')
  | group options => options ≠ [] ∧ ∀ o ∈ options, o ≠ [] ∧ '|' ∉ o ∧ ')' ∉ o

namespace Pattern

/-- The start of the line is at most the first token, and the end of the line at most the last. -/
structure Anchored (p : Pattern) : Prop where
  /-- The start of the line is no token behind the first. -/
  lineStart_notMem_tail : .lineStart ∉ p.tail
  /-- The end of the line is no token in front of the last. -/
  lineEnd_notMem_dropLast : .lineEnd ∉ p.dropLast

/-- The pattern has tokens, its anchors stand at its ends, and each of its tokens is well-formed. -/
structure WellFormed (p : Pattern) : Prop where
  /-- There is a token. -/
  ne_nil : p ≠ []
  /-- The anchors stand at the ends. -/
  anchored : p.Anchored
  /-- Each token is well-formed. -/
  wellFormed : ∀ t ∈ p, t.WellFormed

end Pattern

instance : DecidablePred Token.WellFormed := fun t => by
  cases t <;> unfold Token.WellFormed <;> infer_instance

instance : DecidablePred Pattern.Anchored := fun p =>
  decidable_of_iff (.lineStart ∉ p.tail ∧ .lineEnd ∉ p.dropLast)
    ⟨fun ⟨h, h'⟩ => ⟨h, h'⟩, fun ⟨h, h'⟩ => ⟨h, h'⟩⟩

instance : DecidablePred Pattern.WellFormed := fun p =>
  decidable_of_iff (p ≠ [] ∧ p.Anchored ∧ ∀ t ∈ p, t.WellFormed)
    ⟨fun ⟨h, h', h''⟩ => ⟨h, h', h''⟩, fun ⟨h, h', h''⟩ => ⟨h, h', h''⟩⟩

end LinePattern
